/-
# How long a run takes

Nothing is asked here of a transform but that it uses its output by the operations that there are
and comes to an answer. It may answer that it used more than there was, push without using anything,
wait for more for ever and change its answers from call to call. A run comes to its end
nevertheless.

What gets less with each pass is the `work` that is left: the weight of the source, twice the free
space of the destination, and the distance from the queue to the ceiling. To use bytes makes the
source lighter, and so does to put an incomplete unit together, which can be done only once. To push
bytes brings the queue nearer to the ceiling. To drain bytes takes it away from there, but makes up
for that twice.

No access goes wrong on the way, so the runs that are followed are vetted ones.
-/

import ByteFlow.Proofs.Backpressure
import ByteFlow.Proofs.Schedule
import ByteFlow.Proofs.Soundness
import ByteFlow.Proofs.Vetting

namespace ByteFlow

open Machine

variable {τ ω : Type}

/-! ## Writing a segment -/

namespace Ring

/-- A ring whose content is in one piece offers it once, and no access goes wrong unless the sink
claims more than it was offered. -/
theorem writeToVetted_of_isContiguous {sink : Sink (Machine τ ω)} {max : Nat} {r : Ring}
    (valid : r.Valid) (intact : r.cleaned = false) (piece : r.isContiguous) (held : r.used ≠ 0)
    (some : 0 < max) :
    r.writeToVetted sink max = (do
      match ← sink.write (r.toList.take max) with
      | .error e => pure (r.afterOffer (r.toList.take max) (.error e))
      | .ok count =>
        vet (guard (count ≤ (r.toList.take max).length ∧ count ≤ max) : Option Unit)
        vet (r.consume count).toOption
        pure (r.afterOffer (r.toList.take max) (.ok count))) := by
  have there : r.slice? r.head (min r.used max) =
      .some (r.cells.slice r.head (min r.used max)) := by
    apply slice?_eq
    have inside : r.head + r.used ≤ r.capacity := of_decide_eq_true piece
    rcases valid.covered with covered | covered <;> omega
  have behind (max : Nat) (r : Ring) :
      writeSpansVetted sink [(0, 0)] max r = pure (r, [], none) := by
    have nothing : (r.cells.slice 0 (min 0 max)).toList.isEmpty := by
      rw [Nat.zero_min, Block.toList_slice, List.take_zero]
      rfl
    unfold writeSpansVetted
    rw [slice?_eq (.inl (Nat.zero_min max))]
    exact if_pos nothing
  have start : (guard (r.head ≤ r.capacity) : Option Unit) = .some () := if_pos valid.head_le
  unfold writeToVetted
  rw [usedSpans_of_isContiguous piece, intact, if_neg Bool.false_ne_true, writeSpansVetted, there,
    start]
  simp only [vet, toList_slice_of_isContiguous piece, isEmpty_take_toList valid held some, behind,
    Bool.false_eq_true, if_false, bind_assoc, pure_bind]
  apply bind_congr
  intro answer
  rcases answer with e | n
  · rfl
  · dsimp only
    simp only [bind_assoc]
    refine bind_congr fun _ => bind_congr fun _ => ?_
    split <;> simp only [pure_bind, List.append_nil] <;> rfl

end Ring

/-! ## Draining -/

/-- A pipe that its owner holds, and that may run into ring `d`, which is `ring`. -/
structure Pipe.Fit (d : RingId) (pipe : Pipe τ) (ring : Ring) : Prop extends pipe.Sound where
  usable : ring.Valid
  destination : pipe.destination = d
  held : pipe.held = true

namespace Pipe

variable {d : RingId} {pipe after : Pipe τ} {ring ring' : Ring}

theorem Fit.lands (fit : pipe.Fit d ring) {moved : Bytes}
    (lands : pipe.Lands ring moved [] after ring') : after.Fit d ring' := by
  have bytes := lands.bytes_eq fit.queue
  have sound := lands.sound
  obtain ⟨queue, pending, rfl⟩ := lands.same
  refine ⟨⟨⟨fit.source, sound⟩, fun cleaned => ?_⟩, lands.passes.valid, fit.destination, fit.held⟩
  have nothing :=
    (Queue.isEmpty_iff_bytes_eq_zero fit.queue.toValid).1 (fit.emptied cleaned)
  refine (Queue.isEmpty_iff_bytes_eq_zero sound.toValid).2 ?_
  change pipe.queue.bytes = moved.length + queue.bytes at bytes
  change queue.bytes = 0
  omega

/-- What landed in the destination took up free space there. -/
theorem Lands.free_eq {moved : Bytes} (valid : ring.Valid)
    (lands : pipe.Lands ring moved [] after ring') : ring.free = moved.length + ring'.free := by
  obtain ⟨valid', content, capacity, _⟩ := lands.passes
  have counted := congrArg List.length content
  rw [List.length_append, valid.length_toList, List.nil_append, valid'.length_toList] at counted
  have inside := valid'.used_le
  unfold Ring.free
  omega

/-- A segment was put back because the destination was cleaned. -/
structure Refuses (pipe : Pipe τ) (ring : Ring) (after : Pipe τ) : Prop where
  cleaned : ring.cleaned = true
  room : ring.free ≠ 0
  back : ∃ segment rest, pipe.queue.popFront = some (segment, rest) ∧
    after = { pipe with queue := rest.pushFront segment }

theorem Refuses.fit (fit : pipe.Fit d ring) (refuses : pipe.Refuses ring after) :
    after.Fit d ring := by
  obtain ⟨_, _, segment, rest, popped, rfl⟩ := refuses
  obtain ⟨⟨valid, held⟩, piece, sound⟩ := fit.queue.popFront popped
  refine ⟨⟨⟨fit.source, sound.pushFront valid piece⟩, fun cleaned => ?_⟩, fit.usable,
    fit.destination, fit.held⟩
  rw [fit.intact popped] at cleaned
  cases cleaned

/-- How draining ends: with all of the queue in the destination that fits there, or with an error
because the destination was cleaned. -/
inductive Empties (pipe : Pipe τ) (ring : Ring) (count : Nat) :
    Except Error Drained → Pipe τ → Ring → Prop where
  | spent {moved : Bytes} {after : Pipe τ} {ring' : Ring}
      (lands : pipe.Lands ring moved [] after ring') (spent : Spent after ring') :
      Empties pipe ring count (.ok (.moved (count + moved.length))) after ring'
  | refused {after : Pipe τ} (refuses : pipe.Refuses ring after) :
      Empties pipe ring count (.error (.closed .store)) after ring

end Pipe

section Draining

variable [Inhabited τ] {o : Owner τ ω} {p : PipeId} {d : RingId} {before : World τ ω}
  {pipe : Pipe τ} {ring : Ring} {ledger : Ledger}

theorem secures_storeVetted (passive : o.Passive) (valid : ring.Valid) (data : Bytes) :
    Secures (Stands p d before.scene pipe ring ledger) (SharedRing.storeVetted o d data)
      fun answer w => answer = (ring.store data).2 ∧
        Stands p d before.scene pipe (ring.store data).1 ledger w := by
  refine Stands.at_getRing ?_
  rw [Ring.store?_eq valid]
  exact Course.secures_store passive data

/-- A segment is offered to the destination as far as there is room. -/
theorem secures_writeToVetted (passive : o.Passive) (usable : ring.Valid) (room : ring.free ≠ 0)
    {segment : Ring} (valid : segment.Valid) (held : segment.used ≠ 0)
    (piece : segment.isContiguous ∧ segment.cleaned = false) :
    Secures (Stands p d before.scene pipe ring ledger)
      (segment.writeToVetted (SharedRing.sinkVetted o d) ring.free) fun outflow w =>
        let offered := segment.toList.take ring.free
        outflow = segment.afterOffer offered (ring.store offered).2 ∧
          Stands p d before.scene pipe (ring.store offered).1 ledger w := by
  rw [Ring.writeToVetted_of_isContiguous valid piece.2 piece.1 held (Nat.pos_of_ne_zero room)]
  refine Upholds.bind (secures_storeVetted passive usable _) fun answer => ?_
  refine .pointwise fun w ⟨answered, stands⟩ => .here stands ?_
  have short : (segment.toList.take ring.free).length ≤ ring.free := List.length_take_le _ _
  have inside : (segment.toList.take ring.free).length ≤ segment.used := by
    rw [← valid.length_toList]
    exact List.length_take_le' _ _
  generalize segment.toList.take ring.free = offered at answered short inside
  rw [answered]
  unfold Ring.store
  split
  · exact upholds_pure fun w stands => ⟨rfl, stands⟩
  · have count : min offered.length ring.free = offered.length := Nat.min_eq_left short
    have fits : (guard (offered.length ≤ offered.length ∧ offered.length ≤ ring.free) :
        Option Unit) = some () := if_pos ⟨Nat.le_refl _, short⟩
    dsimp only
    rw [count, fits, Ring.consume, if_pos inside]
    exact upholds_pure fun w stands => ⟨rfl, stands⟩

omit [Inhabited τ] in
/-- What drained on, after some of it had landed, landed all the same. -/
theorem Pipe.Lands.empties {moved : Bytes} {after last : Pipe τ} {ring' ring'' : Ring} {count : Nat}
    {answer : Except Error Pipe.Drained} (lands : pipe.Lands ring moved [] after ring')
    (intact : ring.cleaned = false)
    (empties : after.Empties ring' (count + moved.length) answer last ring'') :
    pipe.Empties ring count answer last ring'' := by
  cases empties with
  | @spent more _ _ lands' spent =>
      have all : pipe.Empties ring count
          (.ok (.moved (count + (moved ++ more).length))) last ring'' :=
        .spent (lands.trans lands') spent
      rw [List.length_append, ← Nat.add_assoc] at all
      exact all
  | refused refuses =>
      rw [← lands.passes.cleaned, refuses.cleaned] at intact
      cases intact

variable [Transform τ]

/-- Draining goes on until the queue is empty or the destination is full, or is refused at once. -/
theorem secures_drainInto (passive : o.Passive) (fit : pipe.Fit d ring) {passes : Nat}
    (enough : ring.free < passes) (count : Nat) :
    Secures (Stands p d before.scene pipe ring ledger)
      ((Pipe.vetted o).drainInto p d passes count ()) fun got w =>
        ∃ after ring', pipe.Empties ring count got.1 after ring' ∧
          Stands p d before.scene after ring' ledger w := by
  induction passes generalizing pipe ring count with
  | zero => exact (Nat.not_lt_zero _ enough).elim
  | succ passes ih =>
      have stop (spent : Spent pipe ring) :
          Secures (Stands p d before.scene pipe ring ledger)
            (pure (.ok (.moved count), ()) : Machine τ ω (Except Error Pipe.Drained × Unit))
            fun got w => ∃ after ring', pipe.Empties ring count got.1 after ring' ∧
              Stands p d before.scene after ring' ledger w :=
        upholds_pure fun w stands =>
          ⟨pipe, ring, .spent (.refl fit.queue fit.usable) spent, stands⟩
      refine Stands.at_getPipe (Stands.at_getRing ?_)
      have whole : (Pipe.vetted (ω := ω) o).room ring = some ring.free := Ring.free?_eq fit.usable
      have front : (Pipe.vetted (ω := ω) o).front pipe.queue = some pipe.queue.popFront :=
        Queue.popFront?_eq fit.queue.toValid
      rw [whole, access_some_bind, front]
      change Secures _ (if _ then _ else _) _
      split
      · rename_i stops
        exact stop (.inr (stops.resolve_right fun elsewhere => elsewhere fit.destination))
      · rename_i goes_on
        have room := (not_or.1 goes_on).1
        rw [access_some_bind]
        cases popped : pipe.queue.popFront with
        | none =>
          exact stop (.inl (Queue.isEmpty_iff_segments_eq_nil.2
            (Queue.popFront_eq_none_iff.1 popped)))
        | some waiting =>
          obtain ⟨segment, rest⟩ := waiting
          obtain ⟨⟨valid, held⟩, piece, rest_sound⟩ := fit.queue.popFront popped
          have intact := Bool.eq_false_iff.1 (fit.intact popped)
          refine Stands.at_modifyPipe (Upholds.bind
            (secures_writeToVetted passive fit.usable room valid held piece) fun outflow => ?_)
          refine .pointwise ?_
          rintro w ⟨eq, stands⟩
          refine .here stands (Stands.at_getPipe ?_)
          rw [if_neg intact]
          by_cases gone : ring.cleaned
          · have refused (data : Bytes) : ring.store data = (ring, .error (.closed .store)) :=
              if_pos gone
            rw [refused] at eq ⊢
            subst eq
            refine Stands.at_modifyPipe (upholds_pure fun w stands => ?_)
            exact ⟨_, ring, .refused ⟨gone, room, segment, rest, popped, rfl⟩, stands⟩
          · have open_ring := Bool.eq_false_iff.2 gone
            have some : segment.toList.take ring.free ≠ [] :=
              List.isEmpty_eq_false_iff.1
                (Ring.isEmpty_take_toList valid held (Nat.pos_of_ne_zero room))
            have short : (segment.toList.take ring.free).length ≤ ring.free :=
              List.length_take_le _ _
            have content := (List.take_append_drop ring.free segment.toList).symm
            generalize segment.toList.take ring.free = offered at eq content short some
            have stored : (ring.store offered).2 = .ok offered.length := by
              rw [Ring.store, if_neg gone]
              exact congrArg Except.ok (Nat.min_eq_left short)
            have fills := Ring.fills_store fit.usable offered
            rw [stored, Ring.countOf, List.take_length] at fills
            have drains := (Ring.drains_afterOffer valid content (.ok offered.length)).1
            have whole := Ring.isContiguous_afterOffer valid piece.1 content (.ok offered.length)
            rw [Ring.countOf, List.take_length] at drains
            rw [stored] at eq
            subst eq
            generalize (ring.store offered).1 = ring' at fills
            have counted := List.length_pos_iff.2 some
            have onward (pending : Bool) :
                Secures (Stands p d before.scene { pipe with
                    queue := rest.pushFront (segment.afterOffer offered (.ok offered.length)).ring
                    pendingWritable := pending } ring' ledger)
                  (if (offered.take offered.length).length = 0 then pure (.ok (.moved count), ())
                    else (Pipe.vetted o).drainInto p d passes
                      (count + (offered.take offered.length).length) ())
                  fun got w => ∃ after ring', pipe.Empties ring count got.1 after ring' ∧
                    Stands p d before.scene after ring' ledger w := by
              have lands := Pipe.Lands.of_popFront fit.queue popped drains whole
                (fills.passes (.refl fills.valid)) pending
              have less := lands.free_eq fit.usable
              rw [List.take_length, if_neg (Nat.ne_of_gt counted)]
              refine (ih (fit.lands lands) (by omega) (count + offered.length)).of_imp
                (fun _ => id) ?_
              rintro got w ⟨last, ring'', empties, stands⟩
              exact ⟨last, ring'', lands.empties open_ring empties, stands⟩
            refine Stands.at_modifyPipe ?_
            change Secures _ (if _ then _ else _) _
            split
            · exact Stands.at_modifyPipe (onward true)
            · exact onward pipe.pendingWritable

/-- How a drain ends for a run: with the news whether something landed, or with an error. -/
inductive Pipe.Drains (pipe : Pipe τ) (ring : Ring) : Except Error Bool → Pipe τ → Ring → Prop where
  | spent {moved : Bytes} {after : Pipe τ} {ring' : Ring}
      (lands : pipe.Lands ring moved [] after ring') (spent : Spent after ring') :
      Drains pipe ring (.ok (0 < moved.length)) after ring'
  | refused {after : Pipe τ} (refuses : pipe.Refuses ring after) :
      Drains pipe ring (.error (.closed .store)) after ring

theorem secures_drain (passive : o.Passive) (fit : pipe.Fit d ring)
    (enough : ring.free < o.passes) :
    Secures (Stands p d before.scene pipe ring ledger) ((Pipe.vetted o).drain o p ()) fun got w =>
      ∃ after ring', pipe.Drains ring got.1 after ring' ∧
        Stands p d before.scene after ring' ledger w := by
  refine Stands.at_getPipe ?_
  rw [fit.destination]
  refine Upholds.bind (secures_drainInto passive fit enough 0) fun ⟨answer, _⟩ => ?_
  refine .pointwise fun w ⟨after, ring', empties, stands⟩ => .here stands ?_
  dsimp only at empties
  cases empties with
  | refused refuses => exact upholds_pure fun w stands => ⟨_, _, .refused refuses, stands⟩
  | @spent moved _ _ lands spent =>
      have ended (w : World τ ω) (stands : Stands p d before.scene after ring' ledger w) :
          ∃ after ring', pipe.Drains ring (.ok (0 < moved.length)) after ring' ∧
            Stands p d before.scene after ring' ledger w := ⟨_, _, .spent lands spent, stands⟩
      rw [Nat.zero_add]
      change Secures _ (if _ then _ else _) _
      split
      · exact Stands.at_discreet ((hosts_discreetTo _).log _) fun _ => upholds_pure ended
      · exact upholds_pure ended

end Draining

/-! ## What gets less -/

namespace Ring

variable {r : Ring}

/-- Dropping nothing leaves a ring alone, and to drop something makes it lighter. -/
theorem weight_discard_le (valid : r.Valid) {count : Nat} (le : count ≤ r.used) :
    (r.discard count).weight ≤ r.weight := by
  rcases Nat.eq_zero_or_pos count with rfl | some
  · exact Nat.le_of_eq (congrArg weight (discard_zero valid))
  · exact Nat.le_of_lt (weight_discard le some)

/-- Content that was moved into one piece weighs what it holds. -/
theorem weight_defragment (valid : r.Valid) {moved : Ring} (eq : r.defragment = .ok moved) :
    moved.weight = r.used := by
  obtain ⟨cells, rfl⟩ := Pipe.eq_of_defragment eq
  have inside := valid.used_le
  apply weight_of_isContiguous
  apply decide_eq_true
  change 0 + r.used ≤ r.capacity
  omega

theorem exists_defragment (movable : r.canDefragment) : ∃ moved, r.defragment = .ok moved := by
  obtain ⟨heap, intact⟩ := Bool.and_eq_true_iff.1 movable
  rw [Bool.not_eq_true'] at intact
  exact ⟨_, (if_neg (Bool.eq_false_iff.1 intact)).trans (if_pos heap)⟩

end Ring

namespace Pipe

variable {pipe : Pipe τ}

theorem weight_tidy_le (valid : pipe.source.Valid) :
    pipe.tidy.1.source.weight ≤ pipe.source.weight := by
  unfold tidy
  split
  · rename_i source moved
    exact Ring.weight_defragment valid moved ▸ pipe.source.used_le_weight
  · exact Nat.le_refl _

/-- Content in two pieces is put together if it may be moved. -/
theorem weight_tidy_lt (valid : pipe.source.Valid) (wrapped : pipe.source.isContiguous = false)
    (movable : pipe.source.canDefragment) : pipe.tidy.1.source.weight < pipe.source.weight := by
  obtain ⟨moved, eq⟩ := Ring.exists_defragment movable
  rw [tidy, eq]
  change moved.weight < _
  rw [Ring.weight_defragment valid eq, Ring.weight, wrapped]
  exact Nat.lt_succ_self _

/-- How much a run has to do at most. -/
def work (pipe : Pipe τ) (ring : Ring) : Nat :=
  pipe.source.weight + 2 * ring.free + (pipe.options.ceiling - pipe.queue.bytes)

theorem Lands.work_le {d : RingId} {after : Pipe τ} {ring ring' : Ring} {moved : Bytes}
    (fit : pipe.Fit d ring) (lands : pipe.Lands ring moved [] after ring') :
    after.work ring' + moved.length ≤ pipe.work ring := by
  have bytes := lands.bytes_eq fit.queue
  have free := lands.free_eq fit.usable
  obtain ⟨queue, pending, rfl⟩ := lands.same
  unfold work
  change pipe.queue.bytes = moved.length + queue.bytes at bytes
  change pipe.source.weight + 2 * ring'.free + (pipe.options.ceiling - queue.bytes) +
    moved.length ≤ _
  omega

/-- An incomplete unit at the front of the source is put together, or there was progress before. -/
theorem weight_applyRemedy (valid : pipe.source.Valid) (events : List Event)
    {used wrapped full : Bool}
    (here : wrapped = true → used = false → pipe.source.isContiguous = false) {progress : Bool}
    (outcome : (pipe.applyRemedy events (.of used wrapped full pipe.source.canDefragment)).outcome =
      .ok (.ok progress)) :
    let after := (pipe.applyRemedy events (.of used wrapped full pipe.source.canDefragment)).pipe
    after.source.weight ≤ pipe.source.weight ∧
      (progress = true → used = true ∨ after.source.weight < pipe.source.weight) := by
  have lighter := weight_tidy_le valid
  dsimp only
  unfold Remedy.of at outcome ⊢
  split at outcome
  · rename_i used
    rw [if_pos used]
    exact ⟨lighter, fun _ => .inl used⟩
  · rename_i unused
    rw [if_neg unused]
    split at outcome
    · rename_i wraps
      rw [if_pos wraps]
      split at outcome
      · rename_i movable
        rw [if_pos movable]
        exact ⟨lighter, fun _ =>
          .inr (weight_tidy_lt valid (here wraps (Bool.eq_false_iff.2 unused)) movable)⟩
      · cases outcome
    · rename_i straight
      rw [if_neg straight]
      split at outcome
      · cases outcome
      · rename_i room
        rw [if_neg room]
        cases outcome
        exact ⟨lighter, nofun⟩

/-- A step that is followed up as progress has made the source lighter, or something was emitted. -/
theorem weight_absorb (valid : pipe.source.Valid) (events : List Event) (step : Step)
    (emitted : Nat) {progress : Bool}
    (outcome : (pipe.absorb events step emitted).outcome = .ok (.ok progress)) :
    let after := (pipe.absorb events step emitted).pipe
    after.source.weight ≤ pipe.source.weight ∧
      (progress = true → 0 < emitted ∨ after.source.weight < pipe.source.weight) := by
  dsimp only
  unfold absorb at outcome ⊢
  dsimp only at outcome ⊢
  split at outcome
  · cases outcome
  · rename_i le
    rw [if_neg le]
    obtain ⟨inside, _⟩ := toList_eq_used_append valid (Nat.not_lt.1 le)
    have lighter : (pipe.consume step.consumed).source.weight ≤ pipe.source.weight :=
      Ring.weight_discard_le valid inside
    have counts (some : (decide (0 < step.consumed) || decide (0 < emitted)) = true) :
        0 < emitted ∨ (pipe.consume step.consumed).source.weight < pipe.source.weight := by
      rcases Bool.or_eq_true_iff.1 some with used | pushed
      · exact .inr (Ring.weight_discard inside (of_decide_eq_true used))
      · exact .inl (of_decide_eq_true pushed)
    split at outcome
    · rename_i incomplete
      rw [if_pos incomplete]
      have rest_valid : (pipe.consume step.consumed).source.Valid := valid.discard inside
      obtain ⟨still, less⟩ := weight_applyRemedy rest_valid _ (fun wraps unused => by
        have nothing : step.consumed = 0 :=
          Nat.eq_zero_of_not_pos (of_decide_eq_false (Bool.or_eq_false_iff.1 unused).1)
        rw [Bool.not_eq_true'] at wraps
        rw [nothing, consume_zero rfl valid]
        exact wraps) outcome
      refine ⟨Nat.le_trans still lighter, fun done => ?_⟩
      rcases less done with some | less
      · exact (counts some).imp_right (Nat.lt_of_le_of_lt still)
      · exact .inr (Nat.lt_of_lt_of_le less lighter)
    · rename_i complete
      rw [if_neg complete]
      cases outcome
      exact ⟨lighter, counts⟩

/-- An advance leaves less to do if it made progress, and never more. -/
theorem work_advance [Transform τ] [Transform.Proper τ] {p : PipeId} (order : pipe.InOrder)
    (ready : pipe.isReady) {progress : Bool}
    (outcome : (pipe.advance p).outcome = .ok (.ok progress)) (ring : Ring) :
    (pipe.advance p).pipe.work ring + progress.toNat ≤ pipe.work ring := by
  obtain ⟨source, pending, _, same⟩ := advance_eq p order.source
  have low : pipe.queue.bytes < pipe.options.ceiling :=
    of_decide_eq_true (Bool.and_eq_true_iff.1 ready).2
  have grown : pipe.called.output.queue.bytes = pipe.queue.bytes + pipe.called.output.emitted :=
    Output.bytes_of_uses (Transform.Proper.uses _ _ _)
  have weighs : (pipe.advance p).pipe.source.weight ≤ pipe.source.weight ∧
      (progress = true → 0 < pipe.called.output.emitted ∨
        (pipe.advance p).pipe.source.weight < pipe.source.weight) := by
    obtain ⟨step, result⟩ : ∃ step, pipe.called.result = .ok step := by
      obtain ⟨step, result, _⟩ := advances_advance order.source order.queue outcome
      exact ⟨step, result⟩
    obtain ⟨after, events, after_source, _, eq⟩ := advance_of_called p result
    have valid : after.source.Valid := after_source.symm ▸ order.source
    rw [eq, ← after_source]
    rw [eq] at outcome
    cases step with
    | errored cause => cases outcome
    | done consumed => exact weight_absorb valid _ _ _ outcome
    | underflow consumed => exact weight_absorb valid _ _ _ outcome
  have ceiling : (pipe.advance p).pipe.options.ceiling = pipe.options.ceiling := by rw [same]
  have bytes : (pipe.advance p).pipe.queue.bytes =
      pipe.queue.bytes + pipe.called.output.emitted := by
    rw [same]
    exact grown
  unfold work
  rw [ceiling, bytes]
  obtain ⟨still, less⟩ := weighs
  cases progress with
  | false =>
      change _ + 0 ≤ _
      omega
  | true =>
      change _ + 1 ≤ _
      rcases less rfl with pushed | lighter <;> omega

end Pipe

/-! ## Passes -/

/-- The transforms that are `good` come to an answer in each call, and stay good. -/
structure Transform.Answers [Transform τ] (good : τ → Prop) : Prop where
  result : ∀ {t}, good t → ∀ input o, ∃ step, (Transform.call t input o).result = .ok step
  next : ∀ {t}, good t → ∀ input o, good (Transform.call t input o).next

namespace Pipe

/-- The pipes are the same but for the calls that are in progress. -/
def Like (pipe after : Pipe τ) : Prop :=
  ∃ operating pendingWritable calls, after = { pipe with operating, pendingWritable, calls }

theorem Like.refl (pipe : Pipe τ) : pipe.Like pipe := ⟨_, _, _, rfl⟩

theorem Like.trans {pipe after last : Pipe τ} (h : pipe.Like after) (h' : after.Like last) :
    pipe.Like last := by
  obtain ⟨_, _, _, rfl⟩ := h
  obtain ⟨operating, pending, calls, rfl⟩ := h'
  exact ⟨operating, pending, calls, rfl⟩

theorem Fit.like {d : RingId} {pipe after : Pipe τ} {ring : Ring} (fit : pipe.Fit d ring)
    (like : pipe.Like after) : after.Fit d ring := by
  obtain ⟨_, _, _, rfl⟩ := like
  exact ⟨⟨⟨fit.source, fit.queue⟩, fit.emptied⟩, fit.usable, fit.destination, fit.held⟩

/-- How a run stops that does not fail: there is nothing to do, or nothing comes of a call of the
transform, or the destination was cleaned. -/
inductive Stops [Transform τ] (p : PipeId) (pipe : Pipe τ) (ring : Ring) :
    Except Error Unit → Prop where
  | unready (spent : Spent pipe ring) (unready : pipe.isReady = false) : Stops p pipe ring (.ok ())
  | idle {first : Pipe τ} (order : first.InOrder) (spent : Spent first ring) (ready : first.isReady)
      (outcome : (first.advance p).outcome = .ok (.ok false))
      (like : (first.advance p).pipe.Like pipe) : Stops p pipe ring (.ok ())
  | refused {first after : Pipe τ} (order : first.InOrder) (refuses : first.Refuses ring after)
      (like : after.Like pipe) : Stops p pipe ring (.error (.closed .store))

theorem Stops.like [Transform τ] {p : PipeId} {pipe after : Pipe τ} {ring : Ring}
    {answer : Except Error Unit} (stops : pipe.Stops p ring answer) (like : pipe.Like after) :
    after.Stops p ring answer := by
  cases stops with
  | unready spent unready =>
      obtain ⟨_, _, _, rfl⟩ := like
      exact .unready spent unready
  | idle order spent ready outcome same => exact .idle order spent ready outcome (same.trans like)
  | refused order refuses same => exact .refused order refuses (same.trans like)

/-- The pipe has failed, or is as a run leaves it that stops without failing. -/
def Ended [Transform τ] (p : PipeId) (pipe : Pipe τ) (ring : Ring) : Prop :=
  pipe.failure ≠ none ∨ ∃ answer, pipe.Stops p ring answer

theorem Ended.like [Transform τ] {p : PipeId} {pipe after : Pipe τ} {ring : Ring}
    (ended : pipe.Ended p ring) (like : pipe.Like after) : after.Ended p ring := by
  refine ended.imp (fun failed => ?_) fun ⟨answer, stops⟩ => ⟨answer, stops.like like⟩
  obtain ⟨_, _, _, rfl⟩ := like
  exact failed

/-- A step is followed up without breaking a promise. -/
theorem exists_outcome_absorb (pipe : Pipe τ) (events : List Event) (step : Step) (emitted : Nat) :
    ∃ outcome, (pipe.absorb events step emitted).outcome = .ok outcome := by
  unfold absorb applyRemedy
  dsimp only
  split
  · exact ⟨_, rfl⟩
  · split
    · split <;> exact ⟨_, rfl⟩
    · exact ⟨_, rfl⟩

variable [Transform τ] {d : RingId} {p : PipeId} {pipe : Pipe τ} {ring : Ring}

/-- Only the transform can break a promise. -/
theorem exists_outcome_advance {step : Step} (result : pipe.called.result = .ok step) :
    ∃ outcome, (pipe.advance p).outcome = .ok outcome := by
  obtain ⟨after, events, _, _, eq⟩ := advance_of_called p result
  rw [eq]
  cases step with
  | errored cause => exact ⟨_, rfl⟩
  | done consumed => exact exists_outcome_absorb _ _ _ _
  | underflow consumed => exact exists_outcome_absorb _ _ _ _

theorem Fit.advance [Transform.Proper τ] (fit : pipe.Fit d ring) (ready : pipe.isReady) :
    (pipe.advance p).pipe.Fit d ring := by
  have sound := fit.toSound.advance ready p
  obtain ⟨_, _, _, _, _, same, _⟩ := pipe.advance_same p
  rw [same] at sound ⊢
  exact ⟨sound, fit.usable, fit.destination, fit.held⟩

end Pipe

section Running

variable [Inhabited τ] [Transform τ] [Transform.Proper τ] {o : Owner τ ω} {p : PipeId} {d : RingId}
  {before : World τ ω} {pipe : Pipe τ} {ring : Ring} {ledger : Ledger} {good : τ → Prop}

/-- A run of the pipe is in progress, which has not failed. -/
structure Pipe.Goes (good : τ → Prop) (d : RingId) (pipe : Pipe τ) (ring : Ring) : Prop
    extends pipe.Fit d ring where
  intact : pipe.failure = none
  good : good pipe.transform

omit [Transform.Proper τ] in
theorem secures_isSettled (fit : pipe.Fit d ring) :
    Secures (Stands p d before.scene pipe ring ledger) ((Pipe.vetted o).isSettled p)
      fun settled w =>
        (settled = true → pipe.Stops p ring (.ok ())) ∧
          Stands p d before.scene pipe ring ledger w := by
  refine Stands.at_getPipe ?_
  rw [fit.destination]
  refine Stands.at_getRing ?_
  have whole : (Pipe.vetted (ω := ω) o).room ring = some ring.free := Ring.free?_eq fit.usable
  rw [whole]
  refine upholds_pure fun w stands => ⟨fun settled => ?_, stands⟩
  obtain ⟨spent, unready⟩ := Bool.and_eq_true_iff.1 settled
  refine .unready ((Bool.or_eq_true_iff.1 spent).imp_right beq_iff_eq.1) ?_
  simpa using unready

/-- A call of the transform is not made, ends the run with a terminal error, or goes one of two
ways. -/
theorem secures_transformOnceVetted (answers : Transform.Answers good)
    (goes : pipe.Goes good d ring) :
    Secures (Stands p d before.scene pipe ring ledger) (Pipe.transformOnceVetted p) fun answer =>
      Finds p d before.scene fun after ring' _ => ring' = ring ∧ after.Fit d ring ∧
        ((pipe.isReady = false ∧ answer = .ok false ∧ after = pipe) ∨
          (∃ e, answer = .error e ∧ e.kind.isTerminal) ∨
          (pipe.isReady = true ∧ ∃ progress, answer = .ok progress ∧ after.Goes good d ring ∧
            after = (pipe.advance p).pipe ∧ (pipe.advance p).outcome = .ok (.ok progress))) := by
  refine Stands.at_getPipe ?_
  split
  · rename_i ready
    rw [Pipe.advance?_eq goes.source]
    have fit : (pipe.advance p).pipe.Fit d ring := goes.toFit.advance ready
    obtain ⟨step, result⟩ : ∃ step, pipe.called.result = .ok step := answers.result goes.good _ _
    obtain ⟨outcome, done⟩ := Pipe.exists_outcome_advance (p := p) result
    obtain ⟨step, _, advances⟩ := Pipe.advances_advance (p := p) goes.source goes.queue done
    have own (journal : List Event) (eq : Ledger.of p journal = ledger) :
        Ledger.of p ((pipe.advance p).events ++ journal) =
          { ledger with
            consumed := ledger.consumed ++ step.used pipe.source.readable
            pushed := ledger.pushed ++ pipe.called.output.chunks.flatten } := by
      rw [advances.ledger, eq]
    change Secures _ (do
      modifyPipe p fun _ => (pipe.advance p).pipe
      recordAll (pipe.advance p).events
      insist (pipe.advance p).outcome) _
    rw [done]
    refine Stands.at_modifyPipe (Stands.at_recordAll own id
      (fun q other journal _ => advances.elsewhere q other journal) ?_)
    refine upholds_pure fun w stands => ⟨_, ring, _, stands, rfl, fit, ?_⟩
    cases outcome with
    | error e => exact .inr (.inl ⟨e, rfl, advances.terminal e done⟩)
    | ok progress =>
        refine .inr (.inr ⟨ready, progress, rfl, ⟨fit, ?_, ?_⟩, rfl, rfl⟩)
        · obtain ⟨_, _, _, _, _, same, _⟩ := pipe.advance_same p
          rw [same]
          exact goes.intact
        · obtain ⟨_, _, _, same⟩ := Pipe.advance_eq p goes.source
          rw [same]
          exact answers.next goes.good _ _
  · rename_i unready
    refine upholds_pure fun w stands => ⟨pipe, ring, ledger, stands, rfl, goes.toFit, .inl ?_⟩
    exact ⟨Bool.eq_false_iff.2 unready, rfl, rfl⟩

omit [Inhabited τ] [Transform τ] [Transform.Proper τ] in
theorem Pipe.Goes.lands {after : Pipe τ} {ring' : Ring} {moved : Bytes}
    (goes : pipe.Goes good d ring)
    (lands : pipe.Lands ring moved [] after ring') : after.Goes good d ring' := by
  have fit := goes.toFit.lands lands
  obtain ⟨_, _, rfl⟩ := lands.same
  exact ⟨fit, goes.intact, goes.good⟩

/-- No note is taken of a call. -/
theorem secures_call (answers : Transform.Answers good) (goes : pipe.Goes good d ring) :
    Secures (Stands p d before.scene pipe ring ledger) ((Pipe.vetted o).transformOnce p ())
      fun got => Finds p d before.scene fun after ring' _ => ring' = ring ∧ after.Fit d ring ∧
        ((pipe.isReady = false ∧ got.1 = .ok false ∧ after = pipe) ∨
          (∃ e, got.1 = .error e ∧ e.kind.isTerminal) ∨
          (pipe.isReady = true ∧ ∃ progress, got.1 = .ok progress ∧ after.Goes good d ring ∧
            after = (pipe.advance p).pipe ∧ (pipe.advance p).outcome = .ok (.ok progress))) := by
  refine Stands.at_getPipe ?_
  refine Upholds.bind (secures_transformOnceVetted answers goes) fun answer => ?_
  refine Upholds.bind ((closed_secures _).getPipe p) fun _ => ?_
  exact upholds_pure fun _ => id

/-- A pass either was the last one, or leaves less to do. -/
theorem secures_settle (passive : o.Passive) (answers : Transform.Answers good)
    (goes : pipe.Goes good d ring) {passes : Nat} (enough : pipe.work ring < passes)
    (granted : ring.free < o.passes) :
    Secures (Stands p d before.scene pipe ring ledger) ((Pipe.vetted o).settle o p passes ())
      fun got => Finds p d before.scene fun after ring' _ => after.Fit d ring' ∧
        ((∃ e, got.1 = .error e ∧ e.kind.isTerminal) ∨ after.Stops p ring' got.1) := by
  induction passes generalizing pipe ring ledger with
  | zero => exact (Nat.not_lt_zero _ enough).elim
  | succ passes ih =>
      refine Upholds.bind (secures_isSettled goes.toFit) fun settled => ?_
      refine .pointwise fun w ⟨stops, stands⟩ => .here stands ?_
      split
      · rename_i settled
        exact upholds_pure fun w stands => ⟨_, _, _, stands, goes.toFit, .inr (stops settled)⟩
      · refine Upholds.bind (secures_drain passive goes.toFit granted) fun ⟨drained, _⟩ => ?_
        refine .pointwise fun w ⟨after, ring', drains, stands⟩ => .here stands ?_
        dsimp only at drains
        cases drains with
        | refused refuses =>
            exact upholds_pure fun w stands =>
              ⟨_, _, _, stands, refuses.fit goes.toFit,
                .inr (.refused goes.toInOrder refuses (.refl _))⟩
        | @spent moved _ _ lands spent =>
            have less := lands.work_le goes.toFit
            have free := lands.free_eq goes.usable
            have goes := goes.lands lands
            refine Upholds.bind (secures_call answers goes) fun ⟨transformed, _⟩ => ?_
            refine Finds.secures fun last ring'' books ⟨same, fit, turned⟩ => ?_
            subst same
            dsimp only at turned
            rcases turned with ⟨unready, rfl, rfl⟩ | ⟨e, rfl, terminal⟩ |
              ⟨ready, progress, rfl, going, rfl, outcome⟩
            · dsimp only
              rw [Bool.or_false]
              split
              · rename_i some
                have landed := of_decide_eq_true some
                exact ih goes (by omega) (by omega)
              · exact upholds_pure fun w stands =>
                  ⟨_, _, _, stands, fit, .inr (.unready spent unready)⟩
            · exact upholds_pure fun w stands => ⟨_, _, _, stands, fit, .inl ⟨e, rfl, terminal⟩⟩
            · have less' := Pipe.work_advance goes.toInOrder ready outcome ring''
              dsimp only
              split
              · rename_i onward
                have some : 0 < moved.length + progress.toNat := by
                  rcases Bool.or_eq_true_iff.1 onward with landed | turned
                  · exact Nat.add_pos_left (of_decide_eq_true landed) _
                  · rw [turned]
                    exact Nat.add_pos_right _ Nat.one_pos
                exact ih going (by omega) (by omega)
              · rename_i still
                have idle : progress = false := by
                  cases progress with
                  | false => rfl
                  | true => exact (still (Bool.or_true _)).elim
                subst idle
                exact upholds_pure fun w stands => ⟨_, _, _, stands, fit,
                  .inr (.idle goes.toInOrder spent ready outcome (.refl _))⟩

/-! ## Whole runs -/

omit [Transform τ] [Transform.Proper τ] in
theorem secures_emit (passive : o.Passive) (edge : Edge) :
    Secures (Stands p d before.scene pipe ring ledger) (Pipe.emit o p edge)
      fun _ => Stands p d before.scene pipe ring ledger :=
  Stands.of_discreet (discreetTo_true.2 (hosts_discreet.emit passive fun _ announces =>
    discreetTo_true.1 (discreetTo_note announces.isNote)))

omit [Transform.Proper τ] in
/-- A run that ends with an error is stopped, unless the error is terminal. -/
theorem secures_fail (passive : o.Passive) (fit : pipe.Fit d ring) {e : Error}
    (why : e.kind.isTerminal ∨ pipe.Stops p ring (.error e)) :
    Secures (Stands p d before.scene pipe ring ledger) (Pipe.fail o p e) fun _ =>
      Finds p d before.scene fun after ring' _ => after.Fit d ring' ∧ after.Ended p ring' := by
  refine Stands.at_getPipe ?_
  split
  · refine Stands.at_discreet ((hosts_discreetTo _).log _) fun _ => Stands.at_modifyPipe ?_
    refine (secures_emit passive (.error e)).of_imp (fun _ => id) fun _ w stands => ?_
    refine ⟨_, _, _, stands, ?_, .inl nofun⟩
    exact ⟨⟨⟨fit.source, fit.queue⟩, fit.emptied⟩, fit.usable, fit.destination, fit.held⟩
  · rename_i passing
    have stops := why.resolve_left passing
    refine (Stands.of_discreet ((hosts_discreetTo _).log _)).of_imp (fun _ => id) ?_
    exact fun _ w stands => ⟨_, _, _, stands, fit, .inr ⟨_, stops⟩⟩

theorem secures_operate (passive : o.Passive) (answers : Transform.Answers good)
    (fit : pipe.Fit d ring) (fine : good pipe.transform) (granted : pipe.work ring < o.passes) :
    Secures (Stands p d before.scene pipe ring ledger) ((Pipe.vetted o).operate o p ()) fun _ =>
      Finds p d before.scene fun after ring' _ => after.Fit d ring' ∧ after.Ended p ring' := by
  have room : ring.free < o.passes := by
    unfold Pipe.work at granted
    omega
  refine Stands.at_getPipe ?_
  split
  · rename_i live
    have goes : pipe.Goes good d ring := ⟨fit, Option.isNone_iff_eq_none.1 live, fine⟩
    refine Upholds.bind (secures_settle passive answers goes granted room) fun ⟨settled, _⟩ => ?_
    refine Finds.secures fun after ring' books ⟨fit, ended⟩ => ?_
    cases settled with
    | error e =>
        refine Upholds.bind (secures_fail passive fit (ended.imp_left ?_)) fun _ =>
          upholds_pure fun _ => id
        rintro ⟨_, ⟨⟩, terminal⟩
        exact terminal
    | ok =>
        refine upholds_pure fun w stands => ⟨_, _, _, stands, fit, .inr ⟨_, ended.resolve_left ?_⟩⟩
        rintro ⟨_, ⟨⟩, _⟩
  · rename_i failed
    refine upholds_pure fun w stands => ⟨_, _, _, stands, fit, .inl ?_⟩
    exact fun none => failed (Option.isNone_iff_eq_none.2 none)

/-- A run is not in progress, and would be in order. -/
structure Pipe.Idle (good : τ → Prop) (d : RingId) (pipe : Pipe τ) (ring : Ring) : Prop
    extends pipe.Fit d ring where
  operating : pipe.operating = false
  good : good pipe.transform

/-- What a run leaves behind. -/
structure Pipe.Left (p : PipeId) (d : RingId) (pipe : Pipe τ) (ring : Ring) : Prop
    extends pipe.Fit d ring where
  operates : pipe.Operates false
  ended : pipe.Ended p ring

omit [Inhabited τ] [Transform.Proper τ] in
/-- How many calls are in progress does not matter. -/
theorem Pipe.Left.counted (left : pipe.Left p d ring) (calls : Nat) :
    Pipe.Left p d { pipe with calls } ring where
  toFit := left.toFit.like ⟨_, _, _, rfl⟩
  operates := ⟨left.operates.operating, left.operates.due⟩
  ended := left.ended.like ⟨_, _, _, rfl⟩

theorem secures_run (passive : o.Passive) (answers : Transform.Answers good) :
    Secures (Finds p d before.scene fun pipe ring _ => pipe.Idle good d ring ∧
        pipe.work ring < o.passes) (Pipe.runVetted o p) fun _ =>
      Finds p d before.scene fun pipe ring _ => pipe.Left p d ring := by
  refine Finds.during ?_ ?_ ?_ fun _ _ _ _ left => left.held
  · refine Finds.secures fun pipe ring ledger ⟨idle, granted⟩ => Stands.at_getPipe ?_
    rw [idle.operating, if_neg Bool.false_ne_true]
    refine Stands.at_modifyPipe (Stands.at_discreet (discreetTo_note trivial) fun _ => ?_)
    have fit : Pipe.Fit d { pipe with operating := true } ring := idle.toFit.like ⟨_, _, _, rfl⟩
    refine Upholds.bind
      (secures_operate passive answers fit idle.good granted).onHalt fun _ => ?_
    have releases : Secures (Finds p d before.scene fun after ring' _ => after.Fit d ring' ∧
          after.Ended p ring') (Pipe.release p) fun _ =>
        Finds p d before.scene fun pipe ring _ => pipe.Left p d ring := by
      refine Finds.secures fun after ring' books ⟨fit, ended⟩ => ?_
      refine Stands.at_getPipe (Stands.at_modifyPipe ?_)
      refine Stands.at_discreet (discreetTo_note trivial) fun _ => upholds_pure fun w stands => ?_
      have like : after.Like { after with operating := false, pendingWritable := false } :=
        ⟨_, _, _, rfl⟩
      exact ⟨_, _, _, stands, fit.like like, ⟨rfl, fun _ => rfl⟩, ended.like like⟩
    refine Upholds.bind releases fun pending => ?_
    split
    · refine Finds.secures fun pipe ring ledger left => ?_
      exact (secures_emit passive .writable).of_imp (fun _ => id)
        fun _ w stands => ⟨_, _, _, stands, left⟩
    · exact upholds_pure fun _ => id
  · intro pipe ring ledger calls ⟨idle, granted⟩
    exact ⟨⟨idle.toFit.like ⟨_, _, _, rfl⟩, idle.operating, idle.good⟩, granted⟩
  · exact fun _ pipe ring ledger calls left => left.counted calls

end Running

variable [Inhabited τ] [Transform τ] [Transform.Proper τ]

omit [Inhabited τ] [Transform τ] [Transform.Proper τ] in
/-- What a pipe has to do is bounded by the bytes in its source, the free space of its destination
and its ceiling. -/
theorem Pipe.work_lt (pipe : Pipe τ) (ring : Ring) :
    pipe.work ring < pipe.source.used + 2 * ring.free + pipe.options.ceiling + 2 := by
  unfold work Ring.weight
  split <;> omega

/-- As many passes as a run can take are enough. -/
theorem exists_runVetted {good : τ → Prop} (answers : Transform.Answers good) {o : Owner τ ω}
    (passive : o.Passive) {p : PipeId} {d : RingId} {w : World τ ω}
    (idle : (w.pipes.get p).Idle good d (w.content d))
    (granted : (w.pipes.get p).source.used + 2 * (w.content d).free +
      (w.pipes.get p).options.ceiling + 2 ≤ o.passes) :
    ∃ w', Pipe.runVetted o p w = .ok () w' ∧ (w'.pipes.get p).Left p d (w'.content d) := by
  have start : Finds p d w.scene (fun pipe ring _ => pipe.Idle good d ring ∧
      pipe.work ring < o.passes) w :=
    ⟨_, _, _, .start p d w, idle, Nat.lt_of_lt_of_le (Pipe.work_lt _ _) granted⟩
  obtain ⟨⟨⟩, w', ran, pipe, ring, _, stands, left⟩ :=
    (secures_run passive answers).exists_ok start
  have content : w'.content d = ring := congrArg SharedRing.ring stands.ring
  rw [← stands.pipe, ← content] at left
  exact ⟨w', ran, left⟩

/-- Whatever a transform does that comes to an answer in each call, a run of a pipe that is not
running comes to its end if `u + 2 * f + c + 2` passes are granted, with `u` bytes in the source,
`f` bytes free in the destination and a ceiling of `c`. More passes make no difference, no access
goes wrong, and the pipe does not operate afterwards. -/
theorem run_ends_in_bounded_passes {good : τ → Prop} (answers : Transform.Answers good)
    {o : Owner τ ω} (passive : o.Passive) {p : PipeId} {d : RingId} {w : World τ ω}
    (idle : (w.pipes.get p).Idle good d (w.content d))
    (granted : (w.pipes.get p).source.used + 2 * (w.content d).free +
      (w.pipes.get p).options.ceiling + 2 ≤ o.passes) :
    ∃ w', Pipe.runVetted { o with passes := (w.pipes.get p).source.used +
          2 * (w.content d).free + (w.pipes.get p).options.ceiling + 2 } p w = .ok () w' ∧
      Pipe.run o p w = .ok () w' ∧ (w'.pipes.get p).operating = false := by
  let just : Owner τ ω := { o with passes := (w.pipes.get p).source.used +
    2 * (w.content d).free + (w.pipes.get p).options.ceiling + 2 }
  have below : just.Below o := ⟨rfl, granted⟩
  obtain ⟨w', ran, left⟩ := exists_runVetted (o := just) answers passive idle (Nat.le_refl _)
  exact ⟨w', ran, Pipe.run_of_runVetted below p ran, left.operates.operating⟩

/-! ## An imp -/

/-- A transform that keeps no promise but to come to an answer: first it waits for more, then it
pushes out of thin air twice, and then it claims to have used what no source can hold. -/
structure Imp where
  moods : Nat
deriving Inhabited

namespace Imp

instance : Transform Imp where
  call t _ o :=
    match t.moods with
    | 0 => ⟨⟨1⟩, o, .ok (.underflow 0)⟩
    | 1 | 2 => ⟨⟨t.moods + 1⟩, (o.offer [6, 6]).1, .ok (.done 0)⟩
    | moods => ⟨⟨moods + 1⟩, o, .ok (.done (UInt64.size - 1))⟩

instance : Transform.Proper Imp where
  uses t input o := by
    change o.Uses (match t.moods with
      | 0 => Transformed.mk (Imp.mk 1) o (.ok (.underflow 0))
      | 1 | 2 => ⟨⟨t.moods + 1⟩, (o.offer [6, 6]).1, .ok (.done 0)⟩
      | moods => ⟨⟨moods + 1⟩, o, .ok (.done (UInt64.size - 1))⟩).output
    split
    · exact .refl
    · exact Output.uses_offer o _
    · exact Output.uses_offer o _
    · exact .refl

theorem answers : Transform.Answers fun _ : Imp => True where
  result {t} _ input o := by
    change ∃ step, (match t.moods with
      | 0 => Transformed.mk (Imp.mk 1) o (.ok (.underflow 0))
      | 1 | 2 => ⟨⟨t.moods + 1⟩, (o.offer [6, 6]).1, .ok (.done 0)⟩
      | moods => ⟨⟨moods + 1⟩, o, .ok (.done (UInt64.size - 1))⟩).result = .ok step
    split <;> exact ⟨_, rfl⟩
  next _ _ _ := trivial

/-- Three bytes in a source of four, which do not lie in one piece. -/
def source : Ring := (((Ring.empty 4 .heap).store [1, 2, 3]).1.discard 2 |>.store [4, 5]).1

def pipe : Pipe Imp := .new .unwrap ⟨4, some 4, .heap⟩ source ⟨0⟩ 0

def world : World Imp Unit := ⟨⟨[⟨.empty 3 .heap, []⟩]⟩, ⟨[pipe]⟩, [], ()⟩

def owner : Owner Imp Unit := ⟨fun _ _ => pure (), 15⟩

theorem passive : owner.Passive := fun _ _ => discreet_pure _

theorem idle : (world.pipes.get 0).Idle (fun _ => True) 0 (world.content 0) where
  source := by
    have held : ((Ring.empty 4 .heap).store [1, 2, 3]).1.Valid := (Ring.valid_empty _ _).store _
    exact (held.discard (by decide)).store _
  queue := Queue.sound_empty
  emptied _ := rfl
  usable := Ring.valid_empty _ _
  destination := rfl
  held := rfl
  operating := rfl
  good := trivial

end Imp

/-- With three bytes in the source, three bytes free and a ceiling of four, fifteen passes are
enough even for the imp, which ends by a failure. -/
theorem run_ends_in_bounded_passes_imp :
    ∃ w', Pipe.runVetted Imp.owner 0 Imp.world = .ok () w' ∧
      (w'.pipes.get 0).operating = false ∧ (w'.pipes.get 0).failure = some .transform := by
  obtain ⟨w', ran, same, stopped⟩ :=
    run_ends_in_bounded_passes Imp.answers Imp.passive Imp.idle (by decide)
  refine ⟨w', ran, stopped, ?_⟩
  have failed : (Pipe.run Imp.owner 0).ends Imp.world fun _ w' =>
      (w'.pipes.get 0).failure = some .transform := by decide +kernel
  obtain ⟨⟨⟩, after, again, failed⟩ := ends_iff.1 failed
  cases same.symm.trans again
  exact of_decide_eq_true failed

end ByteFlow
