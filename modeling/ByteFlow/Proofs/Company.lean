/-
# A pipe in company

What a run of a pipe comes to depends on those who take from its destination, who are told of its
edges in the middle of the run. A `Company` is what a run has to know of them: what stays true
beside the books, when nothing is left to do, and how many passes are left at most. In lawful
company every run comes to its end, and leaves the pipe at rest unless it has failed; so does every
call that stores into the pipe.

A source may fail in the middle of such a call. Then the pipe does not run, and what was read before
stays in its source.
-/

import ByteFlow.Proofs.Course

namespace ByteFlow

open Machine

variable {τ ω : Type}

namespace Course

/-- The company of a pipe, by what a run has to know of it. -/
structure Company (τ : Type) where
  /-- What is true from one step of a run to the next, with so many bytes in the queue. -/
  also : (waiting : Nat) → Ring → Prop
  /-- Nothing is to be done for such a pipe, except to drain its queue. -/
  quiet : Pipe τ → Prop
  /-- The passes that are left, by the weight of the source and the bytes in the queue. -/
  left : (weight waiting : Nat) → Ring → Nat
  /-- It is a matter of the source, the queue and the ceiling. -/
  quiet_of_same : ∀ pipe pipe', pipe'.source = pipe.source → pipe'.queue = pipe.queue →
    pipe'.options = pipe.options → quiet pipe → quiet pipe'

namespace Company

/-- Bytes come into the destination from the queue, and some may be taken from there at once. For
each byte one pass less is left. -/
structure Takes (k : Company τ) (ring : Ring) (moved gone : Bytes) (ring' : Ring) : Prop where
  passes : ring.Passes moved gone ring'
  also : ∀ {waiting}, k.also waiting ring → k.also waiting ring'
  fewer : ∀ weight {waiting}, k.also waiting ring → moved.length ≤ waiting →
    k.left weight (waiting - moved.length) ring' + moved.length ≤ k.left weight waiting ring

/-- A drain has moved the bytes `moved` until nothing was left to move. -/
structure Drained (k : Company τ) (pipe : Pipe τ) (ring : Ring) (moved gone : Bytes)
    (after : Pipe τ) (ring' : Ring) : Prop extends pipe.Lands ring moved gone after ring' where
  also : k.also after.queue.bytes ring'
  spent : Spent after ring'
  fewer : ∀ weight,
    k.left weight after.queue.bytes ring' + moved.length ≤ k.left weight pipe.queue.bytes ring

/-- No run is in progress. -/
structure Waits (k : Company τ) (c : Course τ) (got gave : Bytes) (pipe : Pipe τ) (ring : Ring)
    (ledger : Ledger) : Prop extends c.Holds got gave pipe ring ledger where
  operating : pipe.operating = false
  also : pipe.failure = none → k.also pipe.queue.bytes ring

/-- Nothing is left to do for a run, unless the pipe has failed. -/
structure Done (k : Company τ) (c : Course τ) (got gave : Bytes) (pipe : Pipe τ) (ring : Ring)
    (ledger : Ledger) : Prop extends c.Holds got gave pipe ring ledger where
  also : pipe.failure = none → k.also pipe.queue.bytes ring
  settled : pipe.failure = none → Spent pipe ring ∧ k.quiet pipe

/-- No run is in progress, and nothing is left to do for one. -/
structure Rests (k : Company τ) (c : Course τ) (got gave : Bytes) (pipe : Pipe τ) (ring : Ring)
    (ledger : Ledger) : Prop
    extends k.Done c got gave pipe ring ledger, k.Waits c got gave pipe ring ledger

/-- A source has failed in the middle of a call, so the pipe has not run. What was read before the
error is in the source of the pipe, which was not empty. -/
def Interrupted (P : Pipe τ → Ring → Ledger → Prop) (pipe : Pipe τ) (ring : Ring)
    (ledger : Ledger) : Prop :=
  ∃ first books moved source, P first ring books ∧ first.failure = none ∧ first.source.used ≠ 0 ∧
    first.source.Fills moved source ∧ pipe = { first with source } ∧
    ledger = { books with received := books.received ++ moved }

/-- What becomes of a pipe of which `P` holds when it is stored into, by the answer. Whether the
source may fail is `failing`. -/
inductive Fed (k : Company τ) (c : Course τ) (got gave : Bytes)
    (P : Pipe τ → Ring → Ledger → Prop) (failing : Prop) :
    Except Error Stored → Pipe τ → Ring → Ledger → Prop where
  | ran {answer : Except Error Stored} {pipe : Pipe τ} {ring : Ring} {ledger : Ledger}
      {moved more : Bytes} (rests : k.Rests c (got ++ moved) (gave ++ more) pipe ring ledger)
      (intact : ∀ stored, answer = .ok stored → pipe.failure = none) :
      Fed k c got gave P failing answer pipe ring ledger
  | refused {e : Error} {pipe : Pipe τ} {ring : Ring} {ledger : Ledger}
      (holds : P pipe ring ledger) : Fed k c got gave P failing (.error e) pipe ring ledger
  | interrupted {e : Error} {pipe : Pipe τ} {ring : Ring} {ledger : Ledger} (may : failing)
      (stopped : Interrupted P pipe ring ledger) :
      Fed k c got gave P failing (.error e) pipe ring ledger

/-- What a run has come to. -/
def Ends (k : Company τ) (c : Course τ) (got gave : Bytes) :
    Except Error Unit → Pipe τ → Ring → Ledger → Prop
  | .ok () => k.Done c got gave
  | .error e => c.Breaks got gave e

variable [Inhabited τ] [Transform τ]

/-- In such company a run of the pipe can be followed to its end. -/
structure Lawful (k : Company τ) (c : Course τ) (o : Owner τ ω) (p : PipeId)
    (before : Scene τ ω) : Prop where
  codes : c.format.Codes c.transform
  mono : ∀ {waiting waiting' ring}, k.also waiting ring → waiting' ≤ waiting →
    k.also waiting' ring
  /-- Only the readable edge may lead to a call. -/
  tells : ∀ {pipe ring ledger} edge, edge ≠ .readable → pipe.handlers = c.handlers →
    Secures (Stands p c.destination before pipe ring ledger) (Pipe.emit o p edge)
      fun _ => Stands p c.destination before pipe ring ledger
  /-- What fits into the destination goes there. -/
  lands : ∀ {pipe ring ledger waiting data}, c.Works pipe ring ledger → k.also waiting ring →
    data ≠ [] → data.length ≤ ring.free →
    Secures (Stands p c.destination before pipe ring ledger)
      (SharedRing.store o c.destination data) fun answer w => answer = .ok data.length ∧
        ∃ gone ring', k.Takes ring data gone ring' ∧
          Stands p c.destination before pipe ring' (ledger.accept gone) w
  advances : ∀ {got gave pipe ring ledger outcome}, c.Runs got gave pipe ring ledger →
    Spent pipe ring → k.also pipe.queue.bytes ring → pipe.isReady →
    (pipe.advance p).outcome = .ok (.ok outcome) →
    k.also (pipe.advance p).pipe.queue.bytes ring
  unready : ∀ {pipe : Pipe τ}, pipe.isReady = false → k.quiet pipe
  idles : ∀ {got gave pipe ring ledger}, c.Runs got gave pipe ring ledger →
    k.also pipe.queue.bytes ring → pipe.isReady → (pipe.advance p).outcome = .ok (.ok false) →
    c.format.Quiet (pipe.advance p).pipe → k.quiet (pipe.advance p).pipe
  /-- The source got lighter, whatever became of the queue. -/
  lighter : ∀ {weight weight' waiting waiting' ring}, weight' < weight → k.also waiting ring →
    k.also waiting' ring → k.left weight' waiting' ring < k.left weight waiting ring
  same : ∀ {weight weight'} waiting ring, weight' ≤ weight →
    k.left weight' waiting ring ≤ k.left weight waiting ring
  enough : ∀ {weight waiting ring}, k.also waiting ring → weight ≤ c.room + 1 → ring.Valid →
    ring.capacity = c.size → k.left weight waiting ring < o.passes

end Company

namespace Company

variable {k : Company τ} {c : Course τ} {got gave : Bytes} {pipe : Pipe τ} {ring : Ring}
  {ledger : Ledger}

theorem Waits.uncounted : Finds.Uncounted (k.Waits c got gave) :=
  fun _ _ _ _ h => ⟨h.toHolds.of_same _ _ _, h.operating, h.also⟩

theorem Done.of_same (h : k.Done c got gave pipe ring ledger) (operating pending : Bool)
    (calls : Nat) :
    k.Done c got gave { pipe with operating, pendingWritable := pending, calls } ring ledger where
  toHolds := h.toHolds.of_same operating pending calls
  also := h.also
  settled intact :=
    ⟨(h.settled intact).1, k.quiet_of_same pipe _ rfl rfl rfl (h.settled intact).2⟩

theorem Rests.uncounted : Finds.Uncounted (k.Rests c got gave) :=
  fun _ _ _ _ h => ⟨h.toDone.of_same _ _ _, h.operating⟩

theorem Interrupted.uncounted {P : Pipe τ → Ring → Ledger → Prop}
    (uncounted : Finds.Uncounted P) : Finds.Uncounted (Interrupted P) := by
  rintro _ ring _ calls ⟨first, books, moved, source, holds, intact, held, fills, rfl, rfl⟩
  exact ⟨_, books, moved, source, uncounted calls holds, intact, held, fills, rfl, rfl⟩

theorem Fed.uncounted {P : Pipe τ → Ring → Ledger → Prop} {failing : Prop}
    {answer : Except Error Stored} (uncounted : Finds.Uncounted P) :
    Finds.Uncounted (k.Fed c got gave P failing answer) := by
  rintro pipe ring ledger calls (⟨rests, intact⟩ | holds | ⟨may, stopped⟩)
  · exact .ran (rests.uncounted calls) intact
  · exact .refused (uncounted calls holds)
  · exact .interrupted may (stopped.uncounted uncounted calls)

/-- Bytes in the source are all that an interrupted call has changed. -/
theorem Interrupted.waits {P : Pipe τ → Ring → Ledger → Prop}
    (waits : ∀ {pipe ring ledger}, P pipe ring ledger → k.Waits c got gave pipe ring ledger)
    (h : Interrupted P pipe ring ledger) :
    ∃ moved, k.Waits c (got ++ moved) gave pipe ring ledger := by
  obtain ⟨first, books, moved, source, holds, intact, _, fills, rfl, rfl⟩ := h
  have waits := waits holds
  exact ⟨moved, waits.toHolds.receive intact fills, waits.operating, waits.also⟩

/-- What has landed leaves less to do: for each byte one pass less. -/
theorem Takes.landed {after : Pipe τ} {ring' : Ring} {moved gone : Bytes}
    (takes : k.Takes ring moved gone ring') (sound : pipe.queue.Sound)
    (also : k.also pipe.queue.bytes ring) (lands : pipe.Lands ring moved gone after ring')
    (weight : Nat) :
    k.left weight after.queue.bytes ring' + moved.length ≤
      k.left weight pipe.queue.bytes ring := by
  have bytes := lands.bytes_eq sound
  have fewer := takes.fewer weight also (bytes ▸ Nat.le_add_right _ _)
  rwa [bytes, Nat.add_sub_cancel_left, ← bytes] at fewer

namespace Drained

/-- There is nothing to drain. -/
theorem refl (sound : pipe.queue.Sound) (valid : ring.Valid) (also : k.also pipe.queue.bytes ring)
    (spent : Spent pipe ring) : k.Drained pipe ring [] [] pipe ring :=
  ⟨.refl sound valid, also, spent, fun _ => Nat.le_refl _⟩

/-- What landed first came off the front of the queue. -/
theorem prepend {after last : Pipe τ} {ring' ring'' : Ring} {moved gone moved' gone' : Bytes}
    (first : pipe.Lands ring moved gone after ring') (takes : k.Takes ring moved gone ring')
    (sound : pipe.queue.Sound) (also : k.also pipe.queue.bytes ring)
    (rest : k.Drained after ring' moved' gone' last ring'') :
    k.Drained pipe ring (moved ++ moved') (gone ++ gone') last ring'' := by
  refine ⟨first.trans rest.toLands, rest.also, rest.spent, fun weight => ?_⟩
  have fewer := takes.landed sound also first weight
  have more := rest.fewer weight
  rw [List.length_append]
  omega

end Drained

end Company

end Course

namespace Finds

variable [Inhabited τ] {p : PipeId} {d : RingId} {before : Scene τ ω} {α ι : Type}
  {P : ι → Pipe τ → Ring → Ledger → Prop} {Q : ι → α → Pipe τ → Ring → Ledger → Prop}

/-- What leads on from each of several points leads on from any of them. -/
theorem secures_exists {m : Machine τ ω α}
    (h : ∀ i, Secures (Finds p d before (P i)) m fun a => Finds p d before (Q i a)) :
    Secures (Finds p d before fun pipe ring ledger => ∃ i, P i pipe ring ledger) m
      fun a => Finds p d before fun pipe ring ledger => ∃ i, Q i a pipe ring ledger := by
  refine secures fun pipe ring ledger ⟨i, holds⟩ => ?_
  refine (h i).of_imp (fun w stands => ⟨_, _, _, stands, holds⟩) ?_
  exact fun _ w found => found.imp fun _ _ _ after => ⟨i, after⟩

end Finds

namespace Course.Company

variable [Inhabited τ] [Transform τ] {k : Company τ} {c : Course τ} {o : Owner τ ω} {p : PipeId}
  {before : Scene τ ω} {got gave : Bytes} {pipe : Pipe τ} {ring : Ring} {ledger : Ledger}
  (lawful : k.Lawful c o p before)

include lawful

/-! ## Draining -/

/-- As much of a segment goes into the destination as there is room for. -/
theorem secures_writeTo_segment {segment : Ring} (valid : segment.Valid) (held : segment.used ≠ 0)
    (piece : segment.isContiguous ∧ segment.cleaned = false) (works : c.Works pipe ring ledger)
    {waiting : Nat} (also : k.also waiting ring) (room : ring.free ≠ 0) :
    Secures (Stands p c.destination before pipe ring ledger)
      (segment.writeTo (SharedRing.sink o c.destination) ring.free) fun outflow w =>
        ∃ moved gone ring', moved ≠ [] ∧ outflow.result = .ok moved.length ∧
          segment.Drains moved outflow.ring ∧ outflow.ring.isContiguous ∧
          k.Takes ring moved gone ring' ∧
          Stands p c.destination before pipe ring' (ledger.accept gone) w := by
  rw [Ring.writeTo_of_isContiguous valid piece.2 piece.1 held (Nat.pos_of_ne_zero room),
    map_eq_pure_bind]
  have content := (List.take_append_drop ring.free segment.toList).symm
  have short : (segment.toList.take ring.free).length ≤ ring.free := List.length_take_le _ _
  have some : segment.toList.take ring.free ≠ [] := by
    intro none
    rcases List.take_eq_nil_iff.1 none with zero | nothing
    · exact room zero
    · exact held (beq_iff_eq.1 ((Ring.toList_eq_nil_iff valid).1 nothing))
  generalize segment.toList.take ring.free = offered at content short some
  have drains := (Ring.drains_afterOffer valid content (.ok offered.length)).1
  have whole : (segment.afterOffer offered (.ok offered.length)).ring.isContiguous :=
    Ring.isContiguous_afterOffer valid piece.1 content _
  rw [Ring.countOf, List.take_length] at drains
  refine Upholds.bind (lawful.lands works also some short) fun answer => ?_
  apply upholds_pure
  rintro w ⟨rfl, gone, ring', takes, stands⟩
  refine ⟨offered, gone, ring', some, ?_, drains, whole, takes, stands⟩
  exact congrArg Except.ok (congrArg List.length List.take_length)

/-- Draining goes on until the queue is empty or the destination is full. -/
theorem secures_drainInto (works : c.Works pipe ring ledger) (sound : pipe.queue.Sound)
    (intact : pipe.source.cleaned = false) (also : k.also pipe.queue.bytes ring)
    {weight passes : Nat} (enough : k.left weight pipe.queue.bytes ring < passes) (count : Nat) :
    Secures (Stands p c.destination before pipe ring ledger)
      (Pipe.drainInto o p c.destination passes count) fun answer w => ∃ moved gone after ring',
        answer = .ok (.moved (count + moved.length)) ∧
          Stands p c.destination before after ring' (ledger.accept gone) w ∧
          k.Drained pipe ring moved gone after ring' := by
  induction passes generalizing pipe ring ledger count with
  | zero => exact (Nat.not_lt_zero _ enough).elim
  | succ passes ih =>
      have stop (spent : Spent pipe ring) :
          Secures (Stands p c.destination before pipe ring ledger)
            (pure (.ok (.moved count)) : Machine τ ω (Except Error Pipe.Drained))
            fun answer w => ∃ moved gone after ring', answer = .ok (.moved (count + moved.length)) ∧
                Stands p c.destination before after ring' (ledger.accept gone) w ∧
                k.Drained pipe ring moved gone after ring' := by
        refine upholds_pure fun w stands => ⟨[], [], pipe, ring, rfl, ?_, ?_⟩
        · rw [ledger.accept_nil]
          exact stands
        · exact .refl sound works.usable.1 also spent
      unfold Pipe.drainInto
      refine Stands.at_getPipe (Stands.at_getRing ?_)
      dsimp only
      split
      · rename_i stops
        exact stop (.inr (stops.resolve_right fun elsewhere => elsewhere works.destination))
      · rename_i goes_on
        have room := (not_or.1 goes_on).1
        split
        · rename_i popped
          exact stop (.inl (Queue.isEmpty_iff_segments_eq_nil.2
            (Queue.popFront_eq_none_iff.1 popped)))
        · rename_i segment rest popped
          obtain ⟨⟨valid, held⟩, piece, _⟩ := sound.popFront popped
          have popping : c.Works { pipe with queue := rest } ring ledger :=
            ⟨works.operating, works.alive, works.handlers, works.destination, works.usable,
              works.size, works.current⟩
          refine Stands.at_modifyPipe (Upholds.bind
            (secures_writeTo_segment lawful valid held piece popping also room) fun outflow => ?_)
          refine .pointwise fun w after => ?_
          obtain ⟨moved, gone, ring', taken, result, drains, whole, takes, stands⟩ := after
          refine .here stands (Stands.at_getPipe ?_)
          rw [if_neg (Bool.eq_false_iff.1 intact), result]
          have counted := List.length_pos_iff.2 taken
          have onward (pending : Bool) :
              Secures (Stands p c.destination before { pipe with
                  queue := rest.pushFront outflow.ring, pendingWritable := pending }
                ring' (ledger.accept gone))
                (if moved.length = 0 then pure (.ok (.moved count))
                  else Pipe.drainInto o p c.destination passes (count + moved.length))
                fun answer w => ∃ moved gone after ring',
                  answer = .ok (.moved (count + moved.length)) ∧
                    Stands p c.destination before after ring' (ledger.accept gone) w ∧
                    k.Drained pipe ring moved gone after ring' := by
            have first := Pipe.Lands.of_popFront sound popped drains whole takes.passes pending
            have fewer := takes.landed sound also first weight
            have also' := takes.also
              (lawful.mono also (first.bytes_eq sound ▸ Nat.le_add_left _ _))
            rw [if_neg (Nat.ne_of_gt counted)]
            have more := ih (works.passes takes.passes _ _) first.sound intact also' (by omega)
              (count + moved.length)
            refine more.of_imp (fun _ => id) ?_
            intro answer w ⟨moved', gone', last, ring'', answered, stands, rest⟩
            refine ⟨moved ++ moved', gone ++ gone', last, ring'', ?_, ?_, ?_⟩
            · rw [answered, List.length_append, Nat.add_assoc]
            · rw [ledger.accept_append]
              exact stands
            · exact .prepend first takes sound also rest
          refine Stands.at_modifyPipe ?_
          dsimp only
          split
          · exact Stands.at_modifyPipe (onward true)
          · exact onward pipe.pendingWritable

theorem secures_drain (h : c.Runs got gave pipe ring ledger)
    (also : k.also pipe.queue.bytes ring) :
    Secures (Stands p c.destination before pipe ring ledger) (Pipe.drain o p)
      fun answer w => ∃ moved gone after ring', answer = .ok (decide (0 < moved.length)) ∧
        Stands p c.destination before after ring' (ledger.accept gone) w ∧
        k.Drained pipe ring moved gone after ring' := by
  have enough := lawful.enough also h.weight_le h.usable.1 h.size
  refine Stands.at_getPipe ?_
  rw [h.destination]
  refine Upholds.bind
    (secures_drainInto lawful h.works h.queue h.source.intact also enough 0) fun answer => ?_
  refine .pointwise fun w ⟨moved, gone, after, ring', answered, stands, drained⟩ =>
    .here stands ?_
  rw [answered, Nat.zero_add]
  have ended (w : World τ ω)
      (stands : Stands p c.destination before after ring' (ledger.accept gone) w) :
      ∃ moved' gone' after' ring'', (.ok (decide (0 < moved.length)) : Except Error Bool) =
          .ok (decide (0 < moved'.length)) ∧
        Stands p c.destination before after' ring'' (ledger.accept gone') w ∧
        k.Drained pipe ring moved' gone' after' ring'' :=
    ⟨moved, gone, after, ring', rfl, stands, drained⟩
  dsimp only
  split
  · exact Stands.at_discreet ((hosts_discreetTo _).log _) fun _ => upholds_pure ended
  · exact upholds_pure ended

/-! ## Runs -/

/-- A pipe that has settled is spent and quiet. -/
theorem secures_isSettled (h : c.Runs got gave pipe ring ledger) :
    Secures (Stands p c.destination before pipe ring ledger) (Pipe.isSettled p)
      fun settled w => (settled = true → Spent pipe ring ∧ k.quiet pipe) ∧
        Stands p c.destination before pipe ring ledger w := by
  refine Stands.at_getPipe ?_
  rw [h.destination]
  refine Stands.at_getRing (upholds_pure fun w stands => ⟨fun settled => ?_, stands⟩)
  obtain ⟨spent, unready⟩ := Bool.and_eq_true_iff.1 settled
  refine ⟨(Bool.or_eq_true_iff.1 spent).imp_right beq_iff_eq.1, lawful.unready ?_⟩
  simpa using unready

variable [Transform.Proper τ]

/-- A run goes on until nothing is left to do or the stream ends. -/
theorem secures_settle (h : c.Runs got gave pipe ring ledger)
    (also : k.also pipe.queue.bytes ring) {passes : Nat}
    (enough : k.left pipe.source.weight pipe.queue.bytes ring < passes) :
    Secures (Stands p c.destination before pipe ring ledger) (Pipe.settle o p passes)
      fun answer => Finds p c.destination before fun pipe ring ledger =>
        ∃ more, k.Ends c got (gave ++ more) answer pipe ring ledger := by
  induction passes generalizing gave pipe ring ledger with
  | zero => exact (Nat.not_lt_zero _ enough).elim
  | succ passes ih =>
      refine Upholds.bind (secures_isSettled lawful h) fun settled => ?_
      split
      · rename_i yes
        refine upholds_pure fun w ⟨settled, stands⟩ => ⟨pipe, ring, ledger, stands, [], ?_⟩
        rw [List.append_nil]
        exact ⟨h.toHolds, fun _ => also, fun _ => settled yes⟩
      · refine Upholds.bind ((secures_drain lawful h also).of_imp
          (fun _ => And.right) fun _ _ => id) fun drained => ?_
        refine .pointwise fun w ⟨moved, gone, after, ring', answered, stands, drained⟩ =>
          .here stands ?_
        obtain ⟨runs, source⟩ := h.lands drained.toLands
        have fewer := drained.fewer pipe.source.weight
        -- What comes after this pass comes after what was taken in it.
        have onward {last : Pipe τ} {ledger' : Ledger}
            (runs : c.Runs got (gave ++ gone) last ring' ledger')
            (also : k.also last.queue.bytes ring')
            (enough : k.left last.source.weight last.queue.bytes ring' < passes) :
            Secures (Stands p c.destination before last ring' ledger') (Pipe.settle o p passes)
              fun answer => Finds p c.destination before fun pipe ring ledger =>
                ∃ more, k.Ends c got (gave ++ more) answer pipe ring ledger := by
          refine (ih runs also enough).of_imp (fun _ => id) fun answer w found =>
            found.imp fun pipe ring ledger ⟨more, ends⟩ => ⟨gone ++ more, ?_⟩
          rw [← List.append_assoc]
          exact ends
        rw [answered]
        refine Upholds.bind (runs.secures_transformOnce lawful.codes) fun transformed => ?_
        refine .pointwise fun w turned => ?_
        rcases turned with ⟨unready, rfl, stands⟩ | ⟨ready, outcome, ledger', stands, turned⟩
        · refine .here stands ?_
          dsimp only
          rw [Bool.or_false]
          split
          · rename_i some
            have landed := of_decide_eq_true some
            refine onward runs drained.also ?_
            rw [source]
            omega
          · refine upholds_pure fun w stands => ⟨after, ring', _, stands, gone, runs.toHolds,
              fun _ => drained.also, ?_⟩
            exact fun _ => ⟨drained.spent, lawful.unready unready⟩
        refine .here stands ?_
        cases transformed with
        | error e =>
            exact upholds_pure fun w stands => ⟨_, ring', ledger', stands, gone, turned⟩
        | ok progress =>
            have also' := lawful.advances runs drained.spent drained.also ready outcome
            cases progress with
            | true =>
                obtain ⟨runs', lighter⟩ := turned
                dsimp only
                rw [Bool.or_true, if_pos rfl]
                refine onward runs' also' ?_
                have less := lawful.lighter lighter drained.also also'
                rw [source] at less
                omega
            | false =>
                obtain ⟨runs', still, waiting, quiet⟩ := turned
                dsimp only
                rw [Bool.or_false]
                split
                · rename_i some
                  have landed := of_decide_eq_true some
                  refine onward runs' also' ?_
                  have less := lawful.same after.queue.bytes ring' still
                  rw [source] at less
                  rw [waiting]
                  omega
                · refine upholds_pure fun w stands =>
                    ⟨_, ring', ledger', stands, gone, runs'.toHolds, fun _ => also', fun _ => ?_⟩
                  refine ⟨?_, lawful.idles runs drained.also ready outcome quiet⟩
                  unfold Spent
                  rw [waiting]
                  exact drained.spent

omit [Transform.Proper τ] in
/-- A terminal error ends the stream. -/
theorem secures_fail (e : Error) :
    Secures (Finds p c.destination before (c.Breaks got gave e)) (Pipe.fail o p e)
      fun _ => Finds p c.destination before (k.Done c got gave) := by
  refine Finds.secures fun pipe ring ledger breaks => Stands.at_getPipe ?_
  rw [breaks.terminal, if_pos rfl]
  refine Stands.at_discreet ((hosts_discreetTo _).log _) fun _ => Stands.at_modifyPipe ?_
  refine (lawful.tells (.error e) nofun breaks.holds.handlers).of_imp (fun _ => id) ?_
  exact fun _ w stands => ⟨_, _, _, stands, breaks.holds, nofun, nofun⟩

theorem secures_operate :
    Secures (Finds p c.destination before fun pipe ring ledger =>
        c.Holds got gave pipe ring ledger ∧ pipe.operating = true ∧
          (pipe.failure = none → k.also pipe.queue.bytes ring)) (Pipe.operate o p)
      fun _ => Finds p c.destination before fun pipe ring ledger =>
        ∃ more, k.Done c got (gave ++ more) pipe ring ledger := by
  refine Finds.secures fun pipe ring ledger ⟨holds, operating, also⟩ => Stands.at_getPipe ?_
  split
  · rename_i intact
    have intact := Option.isNone_iff_eq_none.1 intact
    have runs : c.Runs got gave pipe ring ledger := ⟨holds, operating, intact⟩
    have enough := lawful.enough (also intact) holds.weight_le holds.usable.1 holds.size
    refine Upholds.bind (secures_settle lawful runs (also intact) enough) fun settled => ?_
    cases settled with
    | error e => exact Finds.secures_exists fun _ => secures_fail lawful e
    | ok => exact upholds_pure fun w => id
  · rename_i failed
    refine upholds_pure fun w stands => ⟨pipe, ring, ledger, stands, [], ?_⟩
    have some : pipe.failure ≠ none := fun none => failed (Option.isNone_iff_eq_none.2 none)
    rw [List.append_nil]
    exact ⟨holds, fun none => (some none).elim, fun none => (some none).elim⟩

omit lawful [Transform τ] [Transform.Proper τ] in
theorem secures_release :
    Secures (Finds p c.destination before (k.Done c got gave) : World τ ω → Prop)
      (Pipe.release p) fun _ => Finds p c.destination before (k.Rests c got gave) := by
  refine Finds.secures fun pipe ring ledger done => ?_
  refine Stands.at_getPipe (Stands.at_modifyPipe (Stands.at_discreet (discreetTo_note trivial) ?_))
  exact fun _ => upholds_pure fun w stands =>
    ⟨_, _, _, stands, done.of_same false false pipe.calls, rfl⟩

/-- A run leaves nothing to do, unless the pipe has failed. -/
theorem secures_run :
    Secures (Finds p c.destination before (k.Waits c got gave)) (Pipe.run o p)
      fun _ => Finds p c.destination before fun pipe ring ledger =>
        ∃ more, k.Rests c got (gave ++ more) pipe ring ledger := by
  refine Finds.during ?_ Waits.uncounted ?_ ?_
  · refine Finds.secures fun pipe ring ledger waits => Stands.at_getPipe ?_
    rw [waits.operating, if_neg Bool.false_ne_true]
    refine Stands.at_modifyPipe (Stands.at_discreet (discreetTo_note trivial) fun _ => ?_)
    have operated : Secures (Stands p c.destination before { pipe with operating := true } ring
        ledger) (Pipe.operate o p) fun _ => Finds p c.destination before fun pipe ring ledger =>
          ∃ more, k.Done c got (gave ++ more) pipe ring ledger :=
      (secures_operate lawful).of_imp (fun w stands =>
        ⟨_, _, _, stands, waits.toHolds.of_same true _ _, rfl, waits.also⟩) fun _ _ => id
    refine Upholds.bind operated.onHalt fun _ => ?_
    refine Upholds.bind (Finds.secures_exists fun _ => secures_release) fun pending => ?_
    split
    · refine Finds.secures fun pipe ring ledger ⟨more, rests⟩ => ?_
      refine (lawful.tells .writable nofun rests.handlers).of_imp (fun _ => id) ?_
      exact fun _ w stands => ⟨_, _, _, stands, more, rests⟩
    · exact upholds_pure fun _ => id
  · exact fun _ pipe ring ledger calls ⟨more, h⟩ => ⟨more, h.uncounted calls⟩
  · exact fun _ pipe ring ledger ⟨more, h⟩ => h.alive

/-! ## Storing -/

omit lawful [Transform τ] [Transform.Proper τ] in
theorem secures_failureCheck {d : RingId} :
    Secures (Stands p d before pipe ring ledger) (Pipe.failureCheck p) fun answer w =>
      (answer = .ok () ↔ pipe.failure = none) ∧ Stands p d before pipe ring ledger w := by
  refine Stands.at_getPipe ?_
  cases pipe.failure with
  | none => exact upholds_pure fun w stands => ⟨⟨fun _ => rfl, fun _ => rfl⟩, stands⟩
  | some kind => exact upholds_pure fun w stands => ⟨⟨nofun, nofun⟩, stands⟩

omit lawful [Transform τ] [Transform.Proper τ] in
/-- What a discreet source gives is read into the source of the pipe. -/
theorem secures_intake {d : RingId} {source : Source (Machine τ ω)}
    (discreet : source.DiscreetTo before.seen)
    {failing : Prop} (willing : failing ∨ ∀ wanted,
      Ensures (fun _ => True) (source.read wanted) fun answer _ => ∃ data, answer = .ok data)
    (serves : pipe.source.Serves c.format c.room) :
    Secures (Stands p d before pipe ring ledger) (pipe.source.storeFrom source) fun intake w =>
      Stands p d before pipe ring ledger w ∧ pipe.source.Fills intake.moved intake.ring ∧
        ∀ e, intake.result = .error e →
          (intake.ring = pipe.source ∧ intake.moved = []) ∨ failing ∧ pipe.source.used ≠ 0 := by
  have calm : DiscreetTo before.seen (pipe.source.storeFrom source) :=
    Ring.closed_storeFrom (closed_discreetTo _) discreet.read discreet.ended _
  have fills : Ensures (fun _ : World τ ω => True) (pipe.source.storeFrom source)
      fun intake _ => True ∧ pipe.source.Fills intake.moved intake.ring :=
    Ring.ensures_storeFrom (fun _ => keeps_fact) keeps_fact serves.valid
  have fails : Ensures (fun _ : World τ ω => True) (pipe.source.storeFrom source) fun intake _ =>
      ∀ e, intake.result = .error e →
        (intake.ring = pipe.source ∧ intake.moved = []) ∨ failing ∧ pipe.source.used ≠ 0 := by
    rcases willing with may | willing
    · by_cases none : pipe.source.used = 0
      · exact (Ring.ensures_storeFrom_of_used_eq_zero serves.valid none).post_imp
          fun _ _ failed e result => .inl (failed e result)
      · exact fun _ _ _ _ _ _ _ => .inr ⟨may, none⟩
    · refine (Ring.ensures_storeFrom_of_willing willing serves.intact).post_imp ?_
      intro intake _ ⟨stored, result⟩ e failed
      rw [result] at failed
      cases failed
  have anywhere (w : World τ ω) (_ : Stands p d before pipe ring ledger w) : True := trivial
  refine (((Stands.of_discreet calm).and_ensures (fills.pre_imp anywhere)).and_ensures
    (fails.pre_imp anywhere)).of_imp (fun _ => id) ?_
  exact fun intake w ⟨⟨stands, _, fills⟩, failed⟩ => ⟨stands, fills, failed⟩

/-- Once bytes have come into the pipe, it runs. -/
theorem secures_onIntake (stored : Stored) :
    Secures (Finds p c.destination before (k.Waits c got gave))
      (do
        if stored.isEos then log (.sourceEnded (← getPipe p).direction)
        Pipe.run o p
        match ← Pipe.failureCheck p with
        | .error e => return .error e
        | .ok () => return .ok stored : Machine τ ω (Except Error Stored))
      fun answer => Finds p c.destination before fun pipe ring ledger =>
        ∃ more, k.Rests c got (gave ++ more) pipe ring ledger ∧
          ∀ stored, answer = .ok stored → pipe.failure = none := by
  have onward : Secures (Finds p c.destination before (k.Waits c got gave))
      (do
        Pipe.run o p
        match ← Pipe.failureCheck p with
        | .error e => return .error e
        | .ok () => return .ok stored : Machine τ ω (Except Error Stored))
      fun answer => Finds p c.destination before fun pipe ring ledger =>
        ∃ more, k.Rests c got (gave ++ more) pipe ring ledger ∧
          ∀ stored, answer = .ok stored → pipe.failure = none := by
    refine Upholds.bind (secures_run lawful) fun _ => ?_
    refine Finds.secures fun pipe ring ledger ⟨more, rests⟩ => ?_
    refine Upholds.bind secures_failureCheck fun failed => ?_
    cases failed with
    | error e => exact upholds_pure fun w ⟨_, stands⟩ => ⟨_, _, _, stands, more, rests, nofun⟩
    | ok =>
        exact upholds_pure fun w ⟨ok, stands⟩ =>
          ⟨_, _, _, stands, more, rests, fun _ _ => ok.1 rfl⟩
  dsimp only
  split
  · refine Upholds.bind (Finds.of_discreet ((closed_discreetTo _).getPipe p)) fun pipe => ?_
    exact Upholds.bind (Finds.of_discreet ((hosts_discreetTo _).log _)) fun _ => onward
  · exact onward

/-- Storing into a pipe comes to its end, and the pipe is at rest then, with what was stored, or the
call was refused or interrupted. -/
theorem secures_feed {P : Pipe τ → Ring → Ledger → Prop}
    (waits : ∀ {pipe ring ledger}, P pipe ring ledger → k.Waits c got gave pipe ring ledger)
    (uncounted : Finds.Uncounted P) {source : Source (Machine τ ω)}
    (discreet : source.DiscreetTo before.seen)
    {failing : Prop} (willing : failing ∨ ∀ wanted,
      Ensures (fun _ => True) (source.read wanted) fun answer _ => ∃ data, answer = .ok data) :
    Secures (Finds p c.destination before P) (Pipe.storeFrom o p source)
      fun answer => Finds p c.destination before (k.Fed c got gave P failing answer) := by
  refine Finds.during ?_ uncounted (fun _ => Fed.uncounted uncounted) ?_
  · refine Finds.secures fun pipe ring ledger holds => ?_
    refine Upholds.bind secures_failureCheck fun failed => ?_
    cases failed with
    | error e =>
        exact upholds_pure fun w ⟨_, stands⟩ => ⟨pipe, ring, ledger, stands, .refused holds⟩
    | ok =>
        refine .pointwise fun w ⟨ok, stands⟩ => .here stands (Stands.at_getPipe ?_)
        have first := waits holds
        refine Upholds.bind (secures_intake discreet willing first.source) fun intake => ?_
        refine .pointwise fun w ⟨stands, fills, failed⟩ => .here stands ?_
        have own (journal : List Event) (eq : Ledger.of p journal = ledger) :
            Ledger.of p (.received p intake.moved :: journal) =
              { ledger with received := ledger.received ++ intake.moved } := by
          rw [Ledger.of_received, eq]
        refine Stands.at_modifyPipe (Stands.at_record own id
          (fun q other journal _ => Ledger.of_received_elsewhere other _) ?_)
        cases result : intake.result with
        | error e =>
            refine upholds_pure fun w stands => ⟨_, _, _, stands, ?_⟩
            rcases failed e result with ⟨same, nothing⟩ | ⟨may, held⟩
            · rw [same, nothing, List.append_nil]
              exact .refused holds
            · exact .interrupted may
                ⟨pipe, ledger, _, _, holds, ok.1 rfl, held, fills, rfl, rfl⟩
        | ok stored =>
            have waits : k.Waits c (got ++ intake.moved) gave { pipe with source := intake.ring }
                ring { ledger with received := ledger.received ++ intake.moved } :=
              ⟨first.toHolds.receive (ok.1 rfl) fills, first.operating, first.also⟩
            refine (secures_onIntake lawful stored).of_imp
              (fun w stands => ⟨_, _, _, stands, waits⟩) ?_
            exact fun _ w found => found.imp fun _ _ _ ⟨more, rests, intact⟩ => .ran rests intact
  · rintro answer pipe ring ledger (⟨rests, _⟩ | holds | ⟨_, stopped⟩)
    · exact rests.alive
    · exact (waits holds).alive
    · obtain ⟨_, waits⟩ := stopped.waits waits
      exact waits.alive

end Course.Company

end ByteFlow
