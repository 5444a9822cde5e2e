/-
# A copying pipe leaves nothing undone

Single bytes are the units of a transform that copies, so that there is no reason for a byte to wait
but that there is no room for it. A pipe that copies keeps its destination as full as it can, then
its queue, and then its source: which bytes are where follows from how many were not delivered yet,
whatever the calls that led there, also if sources have failed in the middle of some of them.
-/

import ByteFlow.Proofs.Packing
import ByteFlow.Proofs.Schedule

namespace ByteFlow

open Machine

variable {ω : Type}

namespace Identity

/-- The queue of an output is within its ceiling, under which there is room for something. -/
structure Within (ceiling : Nat) (o : Output) : Prop where
  sound : o.queue.Sound
  same : o.ceiling = ceiling
  some : 0 < ceiling
  le : o.queue.bytes ≤ ceiling

/-- A copier packs what there is room for, and stays within the ceiling. -/
theorem packs (t : Identity) (ceiling : Nat) :
    Packs (Within ceiling) t.chunkSize id (fun o => min t.chunkSize o.headroom) Output.offer where
  limited := t.packs_of_valid.limited
  full o within :=
    t.packs_of_valid.full o ⟨within.sound.toValid, within.same ▸ within.some⟩
  accepts o piece within held le := by
    have inside : piece.length ≤ o.headroom := Nat.le_trans le (Nat.min_le_right _ _)
    obtain ⟨after, accepted, flatten⟩ := Output.push_of_fits (Output.fits_of_le_headroom inside)
    refine ⟨after, by rw [Output.offer, accepted], flatten, ?_⟩
    obtain ⟨none, _⟩ | ⟨_, rfl⟩ := Output.push_eq_ok accepted
    · exact (held none).elim
    · refine ⟨within.sound.pushBack (Ring.valid_wrap piece) ⟨Ring.isContiguous_wrap piece, rfl⟩,
        within.same, within.some, ?_⟩
      have low := within.le
      have same := within.same
      change (o.queue.pushBack (.wrap piece)).bytes ≤ ceiling
      unfold Output.headroom at inside
      rw [Queue.bytes_pushBack]
      change o.queue.bytes + piece.length ≤ _
      omega

/-- Pieces that stand for themselves as the units of a copier. -/
abbrev format (t : Identity) : Format := .packing t.chunkSize id

theorem codes (t : Identity) : t.format.Codes (Codec.identity t) where
  same _ _ := rfl
  handles input o sound low :=
    ⟨_, rfl, (t.packs o.ceiling).handles 0 input
      ⟨sound, rfl, Nat.zero_lt_of_lt low, Nat.le_of_lt low⟩⟩

/-- A pipe that copies makes progress whenever its transform may be called, and its queue stays
within the ceiling. -/
theorem progress (t : Identity) (p : PipeId) {pipe : Pipe Codec}
    (copies : pipe.transform = .identity t) (valid : pipe.source.Valid)
    (sound : pipe.queue.Sound) (ready : pipe.isReady) :
    (pipe.advance p).outcome = .ok (.ok true) ∧
      (pipe.advance p).pipe.queue.bytes ≤ pipe.options.ceiling := by
  have held := Pipe.readable_ne_nil valid ready
  have low : pipe.queue.bytes < pipe.options.ceiling :=
    of_decide_eq_true (Bool.and_eq_true_iff.1 ready).2
  let o := Output.new pipe.queue pipe.scratch pipe.options.ceiling
  have packs := t.packs pipe.options.ceiling
  have within : Within pipe.options.ceiling o :=
    ⟨sound, rfl, Nat.zero_lt_of_lt low, Nat.le_of_lt low⟩
  have room : min t.chunkSize o.headroom ≠ 0 := by
    have limit := t.chunkSize_pos
    change min t.chunkSize (pipe.options.ceiling - pipe.queue.bytes) ≠ 0
    omega
  have called : pipe.called = .ofStep (.identity t) (t.step pipe.source.readable.toList o) := by
    rw [Pipe.called, copies]
    rfl
  obtain ⟨total, done, some⟩ := packs.uses 0 held within room
  obtain ⟨_, _, _, kept⟩ := packs.keeps 0 pipe.source.readable.toList within
  have handles := packs.handles 0 pipe.source.readable.toList within
  rw [show packPieces _ _ _ _ o = (.done total, _) from Prod.ext done rfl] at handles
  obtain ⟨used, rest, _, input, _, _, total_eq, _⟩ := handles.split
  have result : pipe.called.result = .ok (.done total) := by
    rw [called]
    exact congrArg Except.ok done
  obtain ⟨after, events, source, queue, eq⟩ := Pipe.advance_of_called p result
  have le : total ≤ after.source.readable.size := by
    rw [source, ← Block.length_toList, input, total_eq, List.length_append, Nat.zero_add]
    exact Nat.le_add_right _ _
  obtain ⟨later, absorbed⟩ := Pipe.absorb_done le events pipe.called.output.emitted
  have eq := eq.trans absorbed
  rw [eq, decide_eq_true some, Bool.true_or]
  refine ⟨rfl, ?_⟩
  change after.queue.bytes ≤ _
  rw [queue, called]
  exact kept.le

end Identity

namespace Course

variable {c : Course Codec} {got gave : Bytes} {pipe : Pipe Codec} {ring : Ring} {ledger : Ledger}
  {o : Owner Codec ω} {p : PipeId}

/-- The company of passive handlers, for a pipe that is at rest only where its transform may not be
called. -/
def copying (c : Course Codec) : Company Codec :=
  .passive (· ≤ c.ceiling) (fun pipe => pipe.isReady = false)
    fun pipe pipe' source queue options unready => by
      rw [Pipe.isReady, source, queue, options]
      exact unready

/-- More bytes in a source that was not empty do not bring a pipe that copies to move. -/
theorem resumes_copying
    (stopped : Company.Interrupted (c.copying.Rests c got gave) pipe ring ledger) :
    ∃ got, c.copying.Rests c got gave pipe ring ledger := by
  obtain ⟨first, books, moved, source, rests, intact, held, fills, rfl, rfl⟩ := stopped
  refine ⟨_, ⟨rests.toHolds.receive intact fills, rests.also, fun _ => ?_⟩, rests.operating⟩
  obtain ⟨spent, unready⟩ := rests.settled intact
  refine ⟨spent, ?_⟩
  have full : decide (first.queue.bytes < first.options.ceiling) = false := by
    have some : first.source.isEmpty = false := beq_eq_false_iff_ne.2 held
    have unready : first.isReady = false := unready
    rw [Pipe.isReady, some, Bool.not_false, Bool.true_and] at unready
    exact unready
  exact Bool.and_eq_false_iff.2 (.inr full)

theorem steady_copying (passive : o.Passive) {t : Identity} (copies : c.transform = .identity t)
    (format : c.format = t.format) (roomy : c.Roomy o) : c.copying.Steady c o p True where
  lawful before := by
    have codes : c.format.Codes c.transform := by
      rw [copies, format]
      exact t.codes
    have progress {got gave pipe ring ledger} (runs : c.Runs got gave pipe ring ledger)
        (ready : pipe.isReady) := t.progress p (runs.transform.trans copies) runs.source.valid
      runs.queue ready
    refine Company.lawful_passive passive codes roomy (fun le le' => Nat.le_trans le' le) ?_ id ?_
    · intro got gave pipe ring ledger runs _ ready
      rw [← runs.ceiling]
      exact (progress runs ready).2
    · intro got gave pipe ring ledger runs _ ready idle _
      rw [(progress runs ready).1] at idle
      cases idle
  passive := passive
  indifferent := id
  resumes _ := resumes_copying

/-- Where the bytes are that were not delivered, of which the destination is the next to get rid. -/
theorem Company.Rests.levels (h : c.copying.Rests c got gave pipe ring ledger)
    (copies : ∃ t : Identity, c.format = t.format) (fresh : c.held = []) (some : 0 < c.ceiling) :
    pipe.failure = none ∧
      gave ++ ring.toList ++ pipe.queue.toList ++ pipe.source.toList = got ∧
      ring.used = min (got.length - gave.length) c.size ∧
      pipe.queue.bytes = min (got.length - gave.length - c.size) c.ceiling ∧
      pipe.source.used = got.length - gave.length - c.size - c.ceiling := by
  obtain ⟨t, format⟩ := copies
  have standing := h.standing
  rw [format] at standing
  obtain ⟨intact, translates⟩ := standing.intact_of_total (fun _ => id) fun _ _ => id
  have pushed : ledger.pushed = ledger.consumed := translates.eq_of_copies fun unit => unit.2
  have whole : gave ++ ring.toList ++ pipe.queue.toList ++ pipe.source.toList = got := by
    rw [h.outbound, fresh, List.nil_append, pushed]
    exact h.inbound
  have total := congrArg List.length whole
  rw [List.length_append, List.length_append, List.length_append, h.usable.1.length_toList,
    h.source.valid.length_toList, ← h.queue.bytes_eq] at total
  have inside := h.usable.1.used_le
  rw [h.size] at inside
  have le : pipe.queue.bytes ≤ c.ceiling := h.also intact
  obtain ⟨spent, unready⟩ := h.settled intact
  have spent : pipe.queue.bytes = 0 ∨ ring.used = c.size := by
    refine spent.imp (Queue.isEmpty_iff_bytes_eq_zero h.queue.toValid).1 fun full => ?_
    rw [Ring.free, h.size] at full
    omega
  have unready : pipe.source.used = 0 ∨ c.ceiling ≤ pipe.queue.bytes := by
    have unready : pipe.isReady = false := unready
    rw [Pipe.isReady, h.ceiling] at unready
    have full : ¬pipe.source.used = 0 → c.ceiling ≤ pipe.queue.bytes := by
      simpa [Ring.isEmpty] using unready
    exact (Nat.eq_zero_or_pos _).imp_right fun some => full (Nat.ne_of_gt some)
  exact ⟨intact, whole, by omega⟩

end Course

/-- Whatever is done with a pipe that copies, it never fails, what it was given is in its sinks, its
destination, its queue and its source, in this order, and of the bytes that were not delivered as
many are in the destination as fit, then in the queue, and only the rest in the source. -/
theorem copies_without_delay {o : Owner Codec ω} (passive : o.Passive) (t : Identity) {d : RingId}
    {direction : Direction} {options : PipeOptions} {w₀ w₁ : World Codec ω} {p : PipeId}
    (usable : (w₀.rings.get d).ring.Valid ∧ (w₀.rings.get d).ring.cleaned = false)
    (drained : (w₀.rings.get d).ring.used = 0)
    (free : ∀ q, .listener q ∉ (w₀.rings.get d).observers)
    (granted : options.sourceCapacity.getD (w₀.rings.get d).ring.capacity +
      (w₀.rings.get d).ring.capacity + 2 ≤ o.passes)
    (made : Pipe.create direction d (.identity t) options w₀ = .ok (.ok p) w₁)
    (handlers : List HandlerId) {calls : List ((α : Type) × Call Codec ω α)}
    (calm : ∀ call ∈ calls, call.2.Calm p) :
    ∃ w₂, (do handlers.forM (Pipe.addHandler p); Call.performAll o calls) w₁ = .ok () w₂ ∧
      let ring := (w₂.rings.get d).ring
      let pipe := w₂.pipes.get p
      let ledger := Ledger.of p w₂.journal
      let undelivered := ledger.received.length - ledger.accepted.length
      let capacity := (w₀.rings.get d).ring.capacity
      pipe.failure = none ∧
        ledger.accepted ++ ring.toList ++ pipe.queue.toList ++ pipe.source.toList =
          ledger.received ∧
        ring.used = min undelivered capacity ∧
        pipe.queue.bytes = min (undelivered - capacity) options.ceiling ∧
        pipe.source.used = undelivered - capacity - options.ceiling := by
  let c := Course.new t.format (Codec.identity t) d options (w₀.rings.get d).ring
  have opens : c.Opens p w₀ w₁ :=
    Course.ensures_create t.format usable free direction (.identity t) (fun impossible =>
      impossible.elim) rfl made p rfl
  have start : c.copying.At c p [] [] w₁ := opens.begins (Nat.zero_le _) id
  obtain ⟨told, between, enrolled, at_rest⟩ := start.addHandlers handlers
  let c' := { c with handlers := told }
  have steady : c'.copying.Steady c' o p True :=
    Course.steady_copying passive rfl rfl (show c'.Roomy o from granted)
  obtain ⟨w₂, ran, stays⟩ := Course.Company.At.performAll
    (fun (i j : Unit) other => (other rfl).elim) (fun _ => steady) (fun _ => ⟨[], [], at_rest⟩)
    fun call member => ⟨(), calm call member, .inl trivial⟩
  obtain ⟨got, gave, stays⟩ := stays ()
  refine ⟨w₂, (bind_of_ok enrolled).trans ran, ?_⟩
  have fresh : c'.held = [] := (Ring.toList_eq_nil_iff usable.1).2 (beq_iff_eq.2 drained)
  have levels := stays.rests.levels ⟨t, rfl⟩ fresh opens.ceiling
  dsimp only
  rw [stays.rests.received, stays.rests.accepted]
  exact levels

namespace Trickle

/-- An owner whose handlers make no calls. -/
def owner : Owner Codec Nat := ⟨fun _ _ => pure (), 9⟩

/-- A world with a ring of three bytes. -/
def world : World Codec Nat := ⟨⟨[⟨.empty 3 .heap, []⟩]⟩, .empty, [], 0⟩

/-- Two bytes may wait, in front of which there is room for four. -/
def options : PipeOptions := ⟨2, some 4, .fixed⟩

/-- Makes a pipe that copies up to two bytes at a time. -/
def make : Machine Codec Nat (Except Error PipeId) :=
  Pipe.create .wrap 0 (.identity ⟨2, by decide⟩) options

/-- Stores a first part of some bytes. -/
def feed (data : Bytes) : Call Codec Nat (Except Error Stored) :=
  .feed 0 ⟨fun wanted => pure (.ok (data.take wanted)), pure false⟩

/-- Gives one byte, and after that nothing but an error. -/
def falter (_ : Nat) : Machine Codec Nat (Except Error Bytes) :=
  modifyGet fun w =>
    (if w.owner = 0 then .ok [8] else .error ⟨.unknown, .io, none⟩, { w with owner := w.owner + 1 })

/-- Stores more bytes than fit into destination and queue, the last of them from a source that fails
then, and takes one of them. -/
def calls : List ((α : Type) × Call Codec Nat α) :=
  [⟨_, feed [1, 2, 3, 4]⟩, ⟨_, feed [5, 6, 7]⟩, ⟨_, .feed 0 ⟨falter, pure false⟩⟩,
    ⟨_, .empty 0 .void 1⟩]

theorem calm_calls : ∀ call ∈ calls, call.2.Calm 0 := by
  have fed (data : Bytes) : (feed data).Calm 0 :=
    ⟨rfl, fun _ => discreet_pure _, discreet_pure _⟩
  refine List.forall_mem_cons.2 ⟨fed _, List.forall_mem_cons.2 ⟨fed _, List.forall_mem_cons.2
    ⟨⟨rfl, fun _ => ?_, discreet_pure _⟩, List.forall_mem_singleton.2 ⟨rfl, ?_⟩⟩⟩⟩
  · exact fun _ _ same => ⟨same.pipes, same.rings, same.ledgers⟩
  · exact ⟨fun _ => discreet_pure _, fun _ => ensures_pure fun _ _ => ⟨_, rfl⟩⟩

end Trickle

/-- Seven of eight bytes are left: three in the destination, two in the queue, two in the source. -/
theorem copies_without_delay_trickle :
    ∃ w₁ w₂, Trickle.make Trickle.world = .ok (.ok 0) w₁ ∧
      (do [7].forM (Pipe.addHandler 0); Call.performAll Trickle.owner Trickle.calls :
        Machine Codec Nat Unit) w₁ = .ok () w₂ ∧
      (Ledger.of 0 w₂.journal).received = [1, 2, 3, 4, 5, 6, 7, 8] ∧
      (w₂.pipes.get 0).failure = none ∧ (w₂.rings.get 0).ring.used = 3 ∧
      (w₂.pipes.get 0).queue.bytes = 2 ∧ (w₂.pipes.get 0).source.used = 2 := by
  have reached : Trickle.make.ends Trickle.world fun made w₁ => made.toOption = some 0 &&
      (do [7].forM (Pipe.addHandler 0); Call.performAll Trickle.owner Trickle.calls :
        Machine Codec Nat Unit).ends w₁ fun _ w₂ =>
        (Ledger.of 0 w₂.journal).received = [1, 2, 3, 4, 5, 6, 7, 8] ∧
          (Ledger.of 0 w₂.journal).accepted = [1] := by decide +kernel
  obtain ⟨made, w₁, make, reached⟩ := ends_iff.1 reached
  obtain ⟨first, reached⟩ := Bool.and_eq_true_iff.1 reached
  obtain rfl := eq_ok_of_toOption (of_decide_eq_true first)
  obtain ⟨⟨⟩, w₂, ran, reached⟩ := ends_iff.1 reached
  obtain ⟨received, accepted⟩ := of_decide_eq_true reached
  have passive : Trickle.owner.Passive := fun _ _ => discreet_pure _
  have usable : (Trickle.world.rings.get 0).ring.Valid ∧
      (Trickle.world.rings.get 0).ring.cleaned = false := ⟨Ring.valid_empty 3 .heap, rfl⟩
  have free : ∀ q, .listener q ∉ (Trickle.world.rings.get 0).observers := fun q => List.not_mem_nil
  have granted : Trickle.options.sourceCapacity.getD (Trickle.world.rings.get 0).ring.capacity +
      (Trickle.world.rings.get 0).ring.capacity + 2 ≤ Trickle.owner.passes := Nat.le_refl 9
  obtain ⟨w, again, intact, _, levels⟩ := copies_without_delay passive ⟨2, by decide⟩ usable rfl
    free granted make [7] Trickle.calm_calls
  cases ran.symm.trans again
  rw [received, accepted] at levels
  exact ⟨w₁, w₂, make, ran, received, intact, levels⟩

end ByteFlow
