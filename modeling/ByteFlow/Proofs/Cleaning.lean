/-
# To give back memory is final

A pipe can be cleaned at any moment, also by a handler that is told of an edge while a segment of
its queue is half drained. From that moment on nothing is left of it: its source, its queue and its
scratch buffer are empty and stay so, whatever the calls do that were in progress then, and whatever
is called later. It takes no byte in, calls its transform no more and moves nothing.

What holds of the pipe does not look at rings, and what holds of rings does not look at pipes, so
both are followed on their own: `Closing` and `Emptied`. The owner may take down, at any moment,
that the pipe was cleaned and which rings were; what was taken down remains true.
-/

import ByteFlow.Proofs.Failure
import ByteFlow.Proofs.Operating
import ByteFlow.Proofs.Upkeep

namespace ByteFlow

open Machine

variable {τ ω α : Type}

/-! ## What is left -/

/-- The ring was cleaned, and holds nothing. -/
structure Ring.Gone (r : Ring) : Prop where
  cleaned : r.cleaned = true
  empty : r.used = 0

/-- The pipe was cleaned, and holds nothing. -/
structure Pipe.Shut (pipe : Pipe τ) : Prop where
  source : pipe.source.Gone
  queue : pipe.queue = .empty
  scratch : pipe.scratch = .empty

namespace Ring

variable {r : Ring}

theorem gone_clean (tight : r.cleaned = true → r.used = 0) : r.clean.Gone := by
  unfold clean
  split
  · rename_i closed
    exact ⟨closed, tight closed⟩
  · exact ⟨rfl, rfl⟩

theorem Gone.clean_eq (gone : r.Gone) : r.clean = r := if_pos gone.cleaned

theorem store_of_cleaned (closed : r.cleaned = true) (data : Bytes) :
    r.store data = (r, .error (.closed .store)) :=
  if_pos closed

theorem cleaned_store (r : Ring) (data : Bytes) : (r.store data).1.cleaned = r.cleaned := by
  unfold store
  split
  · rfl
  · exact (fillSpans_same _ _ _).2.2

/-- A ring is cleaned after a transfer exactly if it was before, and then it is as it was. -/
theorem ensures_storeFrom_cleaned {inv : World τ ω → Prop} {source : Source (Machine τ ω)}
    (reads : ∀ wanted, Keeps inv (source.read wanted)) (ends : Keeps inv source.isEnded)
    (r : Ring) :
    Ensures inv (r.storeFrom source) fun intake w => inv w ∧ intake.ring.cleaned = r.cleaned ∧
      (r.cleaned = true → intake = ⟨r, [], .error (.closed .store)⟩) := by
  have spans (lengths : List Nat) (r : Ring) :
      Ensures inv (readSpans source lengths r) fun got w => inv w ∧ got.1.cleaned = r.cleaned := by
    induction lengths generalizing r with
    | nil => exact ensures_pure fun w holds => ⟨holds, rfl⟩
    | cons wanted lengths ih =>
        refine Ensures.bind (reads wanted) fun answer => ?_
        rcases answer with e | data
        · exact ensures_pure fun w holds => ⟨holds, rfl⟩
        · dsimp only
          split
          · exact ensures_pure fun w holds => ⟨holds, rfl⟩
          · refine (ih (r.fill (data.take wanted))).bind fun got => ?_
            exact ensures_pure fun w => id
  unfold storeFrom
  split
  · exact ensures_pure fun w holds => ⟨holds, rfl, fun _ => rfl⟩
  · rename_i intact
    have done {intake : Intake} (same : intake.ring.cleaned = r.cleaned) :
        intake.ring.cleaned = r.cleaned ∧
          (r.cleaned = true → intake = ⟨r, [], .error (.closed .store)⟩) :=
      ⟨same, fun closed => (intact closed).elim⟩
    split
    · exact ensures_pure fun w holds => ⟨holds, done rfl⟩
    · refine (spans _ r).bind ?_
      rintro ⟨after, moved, failure⟩
      cases failure with
      | some e => exact ensures_pure fun w holds => ⟨holds.1, done holds.2⟩
      | none =>
          dsimp only
          split
          · have asked : Ensures (fun w => inv w ∧ after.cleaned = r.cleaned) source.isEnded
                fun _ w => inv w ∧ after.cleaned = r.cleaned :=
              fun w a w' holds ran => ⟨ends holds.1 ran, holds.2⟩
            refine asked.bind fun ended => ?_
            cases ended <;> exact ensures_pure fun w holds => ⟨holds.1, done holds.2⟩
          · exact ensures_pure fun w holds => ⟨holds.1, done holds.2⟩

@[inherit_doc ensures_storeFrom_cleaned]
theorem ensures_writeTo_cleaned {inv : World τ ω → Prop} {sink : Sink (Machine τ ω)}
    (writes : ∀ offered, Keeps inv (sink.write offered)) (r : Ring) (max : Nat) :
    Ensures inv (r.writeTo sink max) fun outflow w => inv w ∧ outflow.ring.cleaned = r.cleaned ∧
      (r.cleaned = true → outflow.ring = r) := by
  have spans (list : List (Nat × Nat)) (r : Ring) (max : Nat) :
      Ensures inv (writeSpans sink list max r) fun got w => inv w ∧ got.1.cleaned = r.cleaned := by
    induction list generalizing r max with
    | nil => exact ensures_pure fun w holds => ⟨holds, rfl⟩
    | cons span list ih =>
        unfold writeSpans
        dsimp only
        split
        · exact ensures_pure fun w holds => ⟨holds, rfl⟩
        · refine Ensures.bind (writes _) fun answer => ?_
          rcases answer with e | count
          · exact ensures_pure fun w holds => ⟨holds, rfl⟩
          · dsimp only
            split
            · exact ensures_pure fun w holds => ⟨holds, rfl⟩
            · refine Ensures.bind (ih _ _) fun got => ?_
              exact ensures_pure fun w => id
  unfold writeTo
  split
  · exact ensures_pure fun w holds => ⟨holds, rfl, fun _ => rfl⟩
  · rename_i intact
    refine (spans _ r max).bind ?_
    rintro ⟨after, moved, failure⟩
    cases failure <;>
      exact ensures_pure fun w holds =>
        ⟨holds.1, holds.2, fun closed => (intact closed).elim⟩

end Ring

/-- While bytes come into a ring or a pipe, or go out of it, the stream on the other side does not
reach into it. -/
def Call.LeavesAlone [Inhabited τ] (p : PipeId) : Call τ ω α → Prop
  | .feed q source => q = p → (∀ wanted, Leaves (World.inlet p) (source.read wanted)) ∧
      Leaves (World.inlet p) source.isEnded
  | .fill r source => (∀ wanted, Leaves (World.content r) (source.read wanted)) ∧
      Leaves (World.content r) source.isEnded
  | .empty q sink _ => ∀ offered, Leaves (heldBy q) (sink.write offered)
  | .pour r sink _ => ∀ offered, Leaves (World.content r) (sink.write offered)
  | _ => True

/-- What the owner of a pipe may take down of what was cleaned. -/
structure Notes (ω : Type) where
  /-- The pipe was cleaned. -/
  shut : ω → Prop
  /-- The ring was cleaned. -/
  gone : ω → RingId → Prop
  /-- The ring held these bytes, when the pipe had been cleaned. -/
  held : ω → RingId → Bytes → Prop

/-! ## The content of rings -/

namespace Machine

variable [Inhabited τ]

/-- The invariant tolerates what calls do to the content of rings: bytes come only into rings that
are open to them, they may go out of any ring, and a ring may be emptied and cleaned at any time.
Once it was cleaned, a transfer leaves it as it is. -/
structure Tolerates (opens : RingId → Prop) (inv : World τ ω → Prop) : Prop extends Stable inv where
  filled : ∀ {w : World τ ω} {r : RingId} {ring : Ring}, opens r → inv w →
    ring.cleaned = (w.content r).cleaned → ((w.content r).cleaned = true → ring = w.content r) →
    inv { w with rings := w.rings.set r { w.rings.get r with ring } }
  drained : ∀ {w : World τ ω} {r : RingId} {ring : Ring} {moved : Bytes}, inv w →
    ring.cleaned = (w.content r).cleaned → ((w.content r).cleaned = true → ring = w.content r) →
    ((w.content r).Valid → (w.content r).Drains moved ring) →
    inv { w with rings := w.rings.set r { w.rings.get r with ring } }
  cleared : ∀ {w : World τ ω} r, inv w →
    inv { w with rings := w.rings.set r { w.rings.get r with ring := (w.content r).clear } }
  cleaned : ∀ {w : World τ ω} r, inv w →
    inv { w with rings := w.rings.set r { w.rings.get r with ring := (w.content r).clean } }
  delivered : ∀ r bytes, Preserves inv (record (.delivered r bytes))

namespace Tolerates

variable {opens : RingId → Prop} {inv : World τ ω → Prop} (tolerates : Tolerates opens inv)

include tolerates

theorem clear (q : PipeId) : Preserves inv (Pipe.clear q) := by
  refine .pointwise fun w h => .at_getPipe (.at_getRing ?_)
  rintro _ rfl
  exact tolerates.cleared _ h

theorem clean (r : RingId) : Preserves inv (SharedRing.clean r) := by
  refine .pointwise fun w h => .at_getRing ?_
  rintro _ rfl
  exact tolerates.cleaned r h

variable {o : Owner τ ω} (reacts : ∀ handler edge, Preserves inv (o.react handler edge))
  {r : RingId}

include reacts

theorem store (opened : opens r) (data : Bytes) : Preserves inv (SharedRing.store o r data) := by
  have stores : Preserves inv (updateRing r fun ring =>
      (((ring.store data).2, ring.isEmpty && !(ring.store data).1.isEmpty),
        (ring.store data).1)) :=
    upholds_updateRing fun w h => tolerates.filled opened h (Ring.cleaned_store _ data)
      fun closed => congrArg Prod.fst (Ring.store_of_cleaned closed data)
  refine stores.bind fun ⟨answer, turned⟩ => ?_
  cases answer with
  | error e => exact preserves_pure _
  | ok count => exact tolerates.enters.perhaps (tolerates.enters.fireReadable reacts r) _ _

theorem fill (opened : opens r) {source : Source (Machine τ ω)}
    (reads : ∀ wanted, Preserves inv (source.read wanted)) (ends : Preserves inv source.isEnded)
    (leaves : (∀ wanted, Leaves (World.content r) (source.read wanted)) ∧
      Leaves (World.content r) source.isEnded) :
    Preserves inv (SharedRing.storeFrom o r source) := by
  refine .pointwise fun w h => .at_getRing ?_
  have kept := Ring.closed_storeFrom (closed_preserves _) reads ends (w.content r)
  have spends := Ring.ensures_storeFrom_cleaned
    (fun wanted => (leaves.1 wanted).keeps (w.content r)) (leaves.2.keeps (w.content r))
    (w.content r)
  refine (Upholds.here ⟨h, rfl⟩ (kept.and_ensures spends)).bind fun intake => ?_
  have stores : Upholds inv
      (fun w' => inv w' ∧ w'.content r = w.content r ∧
        intake.ring.cleaned = (w.content r).cleaned ∧
        ((w.content r).cleaned = true → intake = ⟨w.content r, [], .error (.closed .store)⟩))
      (setRing r intake.ring) fun _ => inv := by
    refine upholds_modify fun w' ⟨h, same, cleaned, stays⟩ => ?_
    rw [← same] at cleaned stays
    exact tolerates.filled opened h cleaned fun closed => congrArg Intake.ring (stays closed)
  refine stores.bind fun _ => ?_
  cases intake.result with
  | error e => exact preserves_pure _
  | ok stored => exact tolerates.enters.perhaps (tolerates.enters.fireReadable reacts r) _ _

variable [Transform τ] (runs : ∀ q, Preserves inv (Pipe.run o q))

include runs

/-- What is known to hold while the sink writes has to say that the ring stays as it was. -/
theorem pour (r : RingId) {sink : Sink (Machine τ ω)} {max : Nat} {fact : World τ ω → Prop}
    {before : Ring} (writes : ∀ offered, Preserves inv (sink.write offered))
    (leaves : ∀ offered, Keeps fact (sink.write offered))
    (same : ∀ w, fact w → w.content r = before) :
    Upholds inv (fun w => inv w ∧ fact w) (SharedRing.writeTo o r sink max) fun _ => inv := by
  refine .pointwise fun w ⟨h, known⟩ => .at_getRing ?_
  have kept := upholds_writeTo writes (w.content r) max
  have spends := Ring.ensures_writeTo_cleaned leaves (w.content r) max
  refine (Upholds.here ⟨h, known⟩ (kept.and_ensures spends)).bind fun outflow => ?_
  have takes : Upholds inv
      (fun w' =>
        (inv w' ∧ ((w.content r).Valid → (w.content r).Drains outflow.moved outflow.ring)) ∧
        fact w' ∧ outflow.ring.cleaned = (w.content r).cleaned ∧
        ((w.content r).cleaned = true → outflow.ring = w.content r))
      (setRing r outflow.ring) fun _ => inv := by
    refine upholds_modify fun w' ⟨⟨h, drains⟩, known', cleaned, stays⟩ => ?_
    rw [same w known, ← same w' known'] at cleaned stays drains
    exact tolerates.drained h cleaned stays drains
  refine takes.bind fun _ => ?_
  apply (tolerates.delivered r _).bind
  intro _
  cases outflow.result with
  | error e => exact preserves_pure _
  | ok written => exact tolerates.enters.perhaps (tolerates.enters.fireWritable reacts runs r) _ _

theorem pour_alone (r : RingId) {sink : Sink (Machine τ ω)} {max : Nat}
    (writes : ∀ offered, Preserves inv (sink.write offered))
    (leaves : ∀ offered, Leaves (World.content r) (sink.write offered)) :
    Preserves inv (SharedRing.writeTo o r sink max) := by
  refine .pointwise fun w h => ?_
  have pours : Upholds inv (fun w' => inv w' ∧ w'.content r = w.content r)
      (SharedRing.writeTo o r sink max) fun _ => inv :=
    tolerates.pour reacts runs r writes (fun offered => (leaves offered).keeps _) fun _ => id
  exact .here ⟨h, rfl⟩ pours

theorem empty (q : PipeId) {sink : Sink (Machine τ ω)} {max : Nat}
    (writes : ∀ offered, Preserves inv (sink.write offered))
    (leaves : ∀ offered, Leaves (heldBy q) (sink.write offered)) :
    Preserves inv (Pipe.writeTo o q sink max) := by
  refine tolerates.enters.called (.pointwise fun w h => .at_getPipe ?_) q
  have pours : Upholds inv (fun w' => inv w' ∧ heldBy q w' = heldBy q w)
      (SharedRing.writeTo o (w.pipes.get q).destination sink max) fun _ => inv :=
    tolerates.pour reacts runs _ writes (fun offered => (leaves offered).keeps _)
      fun _ => ring_eq_of_heldBy
  exact .here ⟨h, rfl⟩ pours

end Tolerates

end Machine

/-! ## Rings -/

/-- Rings that were cleaned hold nothing, and those that the owner has noted were cleaned. -/
structure Emptied (notes : Notes ω) (w : World τ ω) : Prop where
  tight : ∀ r, (w.content r).cleaned = true → (w.content r).used = 0
  noted : ∀ r, notes.gone w.owner r → (w.content r).cleaned = true

namespace Emptied

variable {notes : Notes ω} {w : World τ ω}

/-- A ring may be changed, as long as it does not come back once it was cleaned. -/
theorem set_ring (h : Emptied notes w) {r : RingId} {shared : SharedRing}
    (tight : shared.ring.cleaned = true → shared.ring.used = 0)
    (lasts : (w.content r).cleaned = true → shared.ring.cleaned = true) :
    Emptied notes { w with rings := w.rings.set r shared } := by
  have get (s : RingId) : World.content s { w with rings := w.rings.set r shared } =
      if r = s then shared.ring else w.content s := by
    unfold World.content
    rw [Table.get_set]
    split <;> rfl
  refine ⟨fun s closed => ?_, fun s noted => ?_⟩
  · rw [get] at closed ⊢
    split at closed <;> rename_i own
    · rw [if_pos own]
      exact tight closed
    · rw [if_neg own]
      exact h.tight s closed
  · rw [get]
    split <;> rename_i own
    · exact lasts (own ▸ h.noted s noted)
    · exact h.noted s noted

/-- A ring that was cleaned, or is as it was, may come in the place of the ring. -/
theorem put (h : Emptied notes w) {r : RingId} {ring : Ring}
    (cleaned : ring.cleaned = (w.content r).cleaned)
    (same : (w.content r).cleaned = true → ring = w.content r) :
    Emptied notes { w with rings := w.rings.set r { w.rings.get r with ring } } := by
  refine h.set_ring (fun closed => ?_) fun closed => cleaned.trans closed
  have before := cleaned.symm.trans closed
  rw [same before]
  exact h.tight r before

theorem gone (h : Emptied notes w) {r : RingId} (closed : (w.content r).cleaned = true) :
    (w.content r).Gone :=
  ⟨closed, h.tight r closed⟩

theorem record (event : Event) : Preserves (Emptied (τ := τ) notes) (record event) :=
  fun _ h => ⟨h.1, h.2⟩

/-- Who observes a ring does not matter. -/
theorem observe (r : RingId) (f : List Observer → List Observer) :
    Preserves (Emptied (τ := τ) notes) (modifyShared r fun shared =>
      { shared with observers := f shared.observers }) :=
  upholds_modify fun _ h => h.set_ring (h.tight r) id

variable [Inhabited τ]

theorem modifyPipe (q : PipeId) (f : Pipe τ → Pipe τ) :
    Preserves (Emptied notes) (modifyPipe q f) :=
  upholds_modifyPipe fun _ h => ⟨h.1, h.2⟩

/-- Bytes may come into any ring. -/
theorem tolerates : Tolerates (fun _ => True) (Emptied (τ := τ) notes) where
  log _ := record _
  announce _ _ _ := record _
  count q _ := modifyPipe q _
  detach r _ := observe r _
  filled _ h := h.put
  drained h cleaned same _ := h.put cleaned same
  cleared _ h := h.set_ring (fun _ => rfl) id
  cleaned r h := by
    have gone := Ring.gone_clean (h.tight r)
    exact h.set_ring (fun _ => gone.empty) fun _ => gone.cleaned
  delivered _ _ := record _

section Reacting

variable [Transform τ] {o : Owner τ ω}
  (reacts : ∀ handler edge, Preserves (Emptied notes) (o.react handler edge))

include reacts

/-- Runs of pipes do not bring rings back. -/
theorem run (q : PipeId) : Preserves (Emptied notes) (Pipe.run o q) := by
  have tolerates : Tolerates (fun _ => True) (Emptied (τ := τ) notes) := tolerates
  have withstands : Withstands o q (.any (Emptied notes)) (Emptied notes) :=
    { halts := fun _ => id
      log := fun _ => record _
      take := fun _ _ _ h _ => ⟨⟨h.1, h.2⟩, trivial⟩
      put := fun _ _ h _ _ => ⟨h.1, h.2⟩
      mark := fun _ h => ⟨h.1, h.2⟩
      advance := fun _ h _ => ⟨h.1, h.2⟩
      store := fun _ => tolerates.store reacts trivial }
  refine withstands.weathers.run tolerates.enters (fun _ _ _ h => ⟨h.1, h.2⟩) (fun e => ?_)
    (fun _ _ => record _) reacts
  exact tolerates.enters.fail (fun _ => modifyPipe q _) (fun _ _ _ => record _) reacts e

/-- No call brings a ring back, on whichever pipe or ring. -/
theorem perform {p : PipeId} {c : Call τ ω α} (alone : c.LeavesAlone p)
    (reads : ∀ source, c.source? = some source →
      ∀ wanted, Preserves (Emptied notes) (source.read wanted))
    (ended : ∀ source, c.source? = some source → Preserves (Emptied notes) source.isEnded)
    (writes : ∀ sink, c.sink? = some sink →
      ∀ offered, Preserves (Emptied notes) (sink.write offered)) :
    Preserves (Emptied notes) (c.perform o) := by
  have tolerates : Tolerates (fun _ => True) (Emptied (τ := τ) notes) := tolerates
  have enters := tolerates.enters
  cases c with
  | feed q source =>
      exact enters.feed (fun _ => modifyPipe q _) (fun _ => record _) (run reacts q)
        (reads source rfl) (ended source rfl)
  | run q => exact run reacts q
  | empty q sink max => exact tolerates.empty reacts (run reacts) q (writes sink rfl) alone
  | switch q candidate =>
      exact enters.switch (fun r => observe r fun members => enlist members (.listener q))
        (fun r => observe r _) (modifyPipe q _) (fun _ _ => record _) (run reacts q)
  | clear q => exact tolerates.clear q
  | clean q => exact enters.giveBack tolerates.clean (modifyPipe q _)
  | store r data => exact tolerates.store reacts trivial data
  | fill r source =>
      exact tolerates.fill reacts trivial (reads source rfl) (ended source rfl) alone
  | pour r sink max => exact tolerates.pour_alone reacts (run reacts) r (writes sink rfl) alone

end Reacting

end Emptied

/-! ## The pipe -/

/-- The event is a call of a transform, or bytes came in. -/
def Event.moves : Event → Bool
  | .received _ bytes => !bytes.isEmpty
  | event => event.isCall

theorem Event.IsNote.moves {event : Event} (note : event.IsNote) : event.moves = false := by
  cases event <;> first | rfl | exact note.elim

/-- The calls of the transform of a pipe and the bytes that came into it, newest first. -/
def traffic (p : PipeId) (journal : List Event) : List Event :=
  (history p journal).filter Event.moves

theorem traffic_of_elsewhere {p : PipeId} {journal : List Event} {event : Event}
    (elsewhere : event.IsElsewhere p) : traffic p (event :: journal) = traffic p journal := by
  rw [traffic, history_of_elsewhere elsewhere]
  rfl

/-- An event that moves nothing is no traffic, also if it is in the history of the pipe. -/
theorem traffic_of_still {p : PipeId} {journal : List Event} {event : Event}
    (still : event.moves = false) (opens : event.opens p = false) :
    traffic p (event :: journal) = traffic p journal :=
  filter_history_of_still still opens

/-- The pipe is as much given back as it was before, and if it holds nothing, it still does not. -/
structure Pipe.Stays (pipe after : Pipe τ) : Prop where
  cleaned : after.source.cleaned = pipe.source.cleaned
  shut : pipe.Shut → after.Shut
  order : pipe.InOrder → after.InOrder

theorem Pipe.Stays.of_same {pipe after : Pipe τ}
    (same : after.source = pipe.source ∧ after.queue = pipe.queue ∧ after.scratch = pipe.scratch) :
    pipe.Stays after := by
  obtain ⟨source, queue, scratch⟩ := same
  refine ⟨by rw [source], fun shut => ⟨?_, queue.trans shut.queue, scratch.trans shut.scratch⟩,
    fun order => ⟨?_, ?_⟩⟩
  · rw [source]
    exact shut.source
  · rw [source]
    exact order.source
  · rw [queue]
    exact order.queue

/-- While something is left of a pipe, much may happen to it. -/
theorem Pipe.Stays.of_open {pipe after : Pipe τ}
    (cleaned : after.source.cleaned = pipe.source.cleaned) (something : ¬ pipe.Shut)
    (order : pipe.InOrder → after.InOrder) : pipe.Stays after :=
  ⟨cleaned, fun shut => (something shut).elim, order⟩

/-- A source that was cleaned takes nothing in. -/
theorem Pipe.Stays.of_intake {pipe : Pipe τ} {intake : Intake}
    (fills : pipe.source.Valid → pipe.source.Fills intake.moved intake.ring)
    (cleaned : intake.ring.cleaned = pipe.source.cleaned)
    (same : pipe.source.cleaned = true →
      intake = ⟨pipe.source, [], .error (.closed .store)⟩) :
    pipe.Stays { pipe with source := intake.ring } := by
  refine ⟨cleaned, fun shut => ?_, fun order => ⟨(fills order.source).valid, order.queue⟩⟩
  rw [same shut.source.cleaned]
  exact shut

theorem Pipe.not_shut {pipe : Pipe τ} (intact : pipe.source.cleaned = false) : ¬ pipe.Shut := by
  rintro ⟨⟨closed, _⟩, _⟩
  rw [intact] at closed
  cases closed

theorem Pipe.not_shut_of_popFront {pipe : Pipe τ} {segment : Ring} {rest : Queue}
    (popped : pipe.queue.popFront = some (segment, rest)) : ¬ pipe.Shut := by
  rintro ⟨_, empty, _⟩
  rw [empty] at popped
  cases popped

theorem Pipe.Shut.isReady {pipe : Pipe τ} (shut : pipe.Shut) : pipe.isReady = false := by
  rw [Pipe.isReady, Ring.isEmpty, shut.source.empty]
  rfl

variable [Inhabited τ]

/-- Pipe `p` is in use, and its buffers are in order. If it was cleaned, and also if the owner has
noted that, it holds nothing. From some moment on, `past` may be its traffic and remain that. -/
structure Closing (p : PipeId) (notes : Notes ω) (past : Option (List Event)) (w : World τ ω) :
    Prop where
  inUse : p < w.pipes.next
  order : (w.pipes.get p).InOrder
  shut : (w.pipes.get p).source.cleaned = true → (w.pipes.get p).Shut
  noted : notes.shut w.owner → (w.pipes.get p).source.cleaned = true
  past : ∀ base, past = some base →
    (w.pipes.get p).source.cleaned = true ∧ traffic p w.journal = base

namespace Closing

variable {p : PipeId} {notes : Notes ω} {past : Option (List Event)} {w : World τ ω}
  {o : Owner τ ω}

theorem set_pipe (h : Closing p notes past w) {q : PipeId} {pipe : Pipe τ}
    (stays : q = p → (w.pipes.get q).Stays pipe) :
    Closing p notes past { w with pipes := w.pipes.set q pipe } := by
  by_cases own : q = p
  · subst own
    obtain ⟨cleaned, shut, order⟩ := stays rfl
    have same : (w.pipes.set q pipe).get q = pipe := by rw [Table.get_set, if_pos rfl]
    refine ⟨Table.lt_next_set _ _ _, ?_, ?_, ?_, ?_⟩
    · rw [same]
      exact order h.order
    · rw [same, cleaned]
      exact fun closed => shut (h.shut closed)
    · rw [same, cleaned]
      exact h.noted
    · rw [same, cleaned]
      exact h.past
  · have same : (w.pipes.set q pipe).get p = w.pipes.get p := by rw [Table.get_set, if_neg own]
    refine ⟨Table.lt_next_set_of_lt h.inUse _ _, ?_, ?_, ?_, ?_⟩
    · rw [same]
      exact h.order
    · rw [same]
      exact h.shut
    · rw [same]
      exact h.noted
    · rw [same]
      exact h.past

theorem modifyPipe (q : PipeId) {f : Pipe τ → Pipe τ}
    (stays : q = p → ∀ pipe : Pipe τ, pipe.Stays (f pipe)) :
    Preserves (Closing p notes past) (modifyPipe q f) :=
  upholds_modifyPipe fun _ h => h.set_pipe fun own => stays own _

theorem set_journal (h : Closing p notes past w) {journal : List Event}
    (same : traffic p journal = traffic p w.journal) :
    Closing p notes past { w with journal } := by
  refine ⟨h.inUse, h.order, h.shut, h.noted, fun base eq => ?_⟩
  obtain ⟨closed, before⟩ := h.past base eq
  exact ⟨closed, same.trans before⟩

/-- What happens to rings does not matter. -/
theorem set_rings (h : Closing p notes past w) (rings : Table SharedRing) :
    Closing p notes past { w with rings } :=
  ⟨h.inUse, h.order, h.shut, h.noted, h.past⟩

theorem record {event : Event} (still : event.moves = false) (opens : event.opens p = false) :
    Preserves (Closing (τ := τ) p notes past) (record event) :=
  fun _ h => h.set_journal (traffic_of_still still opens)

theorem note {event : Event} (note : event.IsNote) :
    Preserves (Closing (τ := τ) p notes past) (Machine.record event) :=
  record note.moves (note.opens p)

theorem stable : Stable (Closing (τ := τ) p notes past) where
  log _ := note trivial
  announce _ _ announces := note announces.isNote
  count q _ := modifyPipe q fun _ _ => .of_same ⟨rfl, rfl, rfl⟩
  detach _ _ := fun _ h => h.set_rings _

theorem admits : Admits fun _ (m : Machine τ ω _) => Preserves (Closing p notes past) m where
  toHosts := stable.enters.toHosts
  shared _ _ := fun _ h => h.set_rings _
  updated _ _ := fun _ h => h.set_rings _
  delivered _ _ := record rfl rfl
  called := stable.during

/-- A pipe of which nothing is left has nothing to transform. -/
theorem advance [Transform τ] [Transform.Candid τ] (h : Closing p notes past w)
    (ready : (w.pipes.get p).isReady) :
    Closing p notes past { w with
      pipes := w.pipes.set p ((w.pipes.get p).advance p).pipe
      journal := ((w.pipes.get p).advance p).events ++ w.journal } := by
  have something : ¬ (w.pipes.get p).Shut := fun shut => by
    rw [shut.isReady] at ready
    cases ready
  obtain ⟨source, _, _, _, _, same, cleaned⟩ := (w.pipes.get p).advance_same p
  have advanced : Closing p notes past
      { w with pipes := w.pipes.set p ((w.pipes.get p).advance p).pipe } :=
    h.set_pipe fun _ => .of_open (by rw [same, cleaned]) something fun order => order.advance p
  refine ⟨advanced.inUse, advanced.order, advanced.shut, advanced.noted, fun base eq => ?_⟩
  exact (something (h.shut (h.past base eq).1)).elim

theorem shut_clean (h : Closing p notes past w) :
    { w.pipes.get p with
      queue := (w.pipes.get p).queue.clear
      scratch := .empty
      source := (w.pipes.get p).source.clean : Pipe τ }.Shut :=
  ⟨Ring.gone_clean fun closed => (h.shut closed).source.empty, rfl, rfl⟩

/-- The pipe may be cleaned. -/
theorem emptied (h : Closing p notes past w) :
    Closing p notes past { w with
      pipes := w.pipes.set p { w.pipes.get p with
        queue := (w.pipes.get p).queue.clear
        scratch := .empty
        source := (w.pipes.get p).source.clean } } := by
  have shut := h.shut_clean
  refine ⟨Table.lt_next_set _ _ _, ?_, ?_, ?_, fun base eq => ⟨?_, (h.past base eq).2⟩⟩
  all_goals rw [Table.get_set, if_pos rfl]
  · exact ⟨h.order.source.clean, Queue.sound_empty⟩
  · exact fun _ => shut
  · exact fun _ => shut.source.cleaned
  · exact shut.source.cleaned

section Reacting

variable [Transform τ] [Transform.Candid τ]
  (reacts : ∀ handler edge, Preserves (Closing p notes past) (o.react handler edge))

include reacts

/-- A run of the pipe takes segments out in one piece. -/
theorem withstands : Withstands o p (.pieces (Closing p notes past)) (Closing p notes past) where
  halts _ := id
  log _ := note trivial
  take w segment rest h popped := by
    obtain ⟨held, piece, sound⟩ := h.order.queue.popFront popped
    exact ⟨h.set_pipe fun _ => .of_open rfl (Pipe.not_shut_of_popFront popped) fun order =>
      ⟨order.source, sound⟩, held, piece⟩
  put w segment h intact := fun ⟨valid, piece⟩ => h.set_pipe fun _ =>
    .of_open rfl (Pipe.not_shut intact) fun order =>
      ⟨order.source, order.queue.pushFront valid piece⟩
  mark w h := h.set_pipe fun _ => .of_same ⟨rfl, rfl, rfl⟩
  advance w h ready := h.advance ready
  store := admits.store reacts

/-- The runs of other pipes do not touch this one. -/
theorem withstands_elsewhere {q : PipeId} (other : q ≠ p) :
    Withstands o q (.any (Closing p notes past)) (Closing p notes past) where
  halts _ := id
  log _ := note trivial
  take w _ _ h _ := ⟨h.set_pipe fun own => (other own).elim, trivial⟩
  put w _ h _ _ := h.set_pipe fun own => (other own).elim
  mark w h := h.set_pipe fun own => (other own).elim
  advance w h _ := by
    have advanced : Closing p notes past
        { w with pipes := w.pipes.set q ((w.pipes.get q).advance q).pipe } :=
      h.set_pipe fun own => (other own).elim
    exact advanced.set_journal (congrArg (List.filter Event.moves)
      (history_advance_elsewhere other _))
  store := admits.store reacts

theorem run (q : PipeId) : Preserves (Closing p notes past) (Pipe.run o q) := by
  have runs {segments : Segments (Closing p notes past)}
      (withstands : Withstands o q segments (Closing p notes past)) :
      Preserves (Closing p notes past) (Pipe.run o q) := by
    refine withstands.weathers.run stable.enters
      (fun w _ _ h => h.set_pipe fun _ => .of_same ⟨rfl, rfl, rfl⟩) (fun e => ?_)
      (fun _ signals => note signals.isNote) reacts
    exact admits.fail (fun _ => modifyPipe q fun _ _ => .of_same ⟨rfl, rfl, rfl⟩)
      (fun _ _ announces => note announces.isNote) reacts e
  by_cases own : q = p
  · subst own
    exact runs (withstands reacts)
  · exact runs (withstands_elsewhere reacts own)

theorem feed (q : PipeId) {source : Source (Machine τ ω)}
    (reads : ∀ wanted, Preserves (Closing p notes past) (source.read wanted))
    (ends : Preserves (Closing p notes past) source.isEnded)
    (leaves : q = p → (∀ wanted, Leaves (World.inlet p) (source.read wanted)) ∧
      Leaves (World.inlet p) source.isEnded) :
    Preserves (Closing p notes past) (Pipe.storeFrom o q source) := by
  by_cases own : q = p
  · subst own
    obtain ⟨reads_apart, ends_apart⟩ := leaves rfl
    refine admits.called ?_ q
    apply (admits.failureCheck q).bind
    intro failed
    cases failed with
    | error e => exact preserves_pure _
    | ok =>
        refine .pointwise fun w h => .at_getPipe ?_
        have kept := upholds_storeFrom reads ends (w.pipes.get q).source
        have spends := Ring.ensures_storeFrom_cleaned
          (fun wanted => (reads_apart wanted).keeps (w.inlet q)) (ends_apart.keeps (w.inlet q))
          (w.pipes.get q).source
        refine (Upholds.here ⟨h, rfl⟩ (kept.and_ensures spends)).bind fun intake => ?_
        refine .pointwise fun w' ⟨⟨h, fills⟩, same, cleaned, stays⟩ => .at_modifyPipe
          (.at_record ?_)
        have untouched : (w'.pipes.get q).source = (w.pipes.get q).source :=
          congrArg Prod.fst same
        rw [← untouched] at fills cleaned stays
        have filled : Closing q notes past { w' with
            pipes := w'.pipes.set q { w'.pipes.get q with source := intake.ring } } :=
          h.set_pipe fun _ => .of_intake fills cleaned stays
        have received : Closing q notes past { w' with
            pipes := w'.pipes.set q { w'.pipes.get q with source := intake.ring }
            journal := .received q intake.moved :: w'.journal } := by
          refine ⟨filled.inUse, filled.order, filled.shut, filled.noted, fun base eq => ?_⟩
          obtain ⟨closed, before⟩ := h.past base eq
          refine ⟨(filled.past base eq).1, ?_⟩
          rw [stays closed]
          exact (traffic_of_still rfl rfl).trans before
        exact .here received (admits.onIntake (run reacts q) intake.result)
  · exact admits.handles.feed (fun _ => modifyPipe q fun same => (own same).elim)
      (fun _ => fun _ h => h.set_journal (traffic_of_elsewhere ⟨rfl, beq_eq_false_iff_ne.2 own⟩))
      (run reacts q) reads ends

omit [Transform τ] [Transform.Candid τ] reacts in
theorem clean (q : PipeId) : Preserves (Closing (τ := τ) p notes past) (Pipe.clean q) := by
  refine admits.handles.giveBack admits.clean (upholds_modifyPipe fun w h => ?_)
  by_cases own : q = p
  · subst own
    exact h.emptied
  · exact h.set_pipe fun same => (own same).elim

/-- No call brings the pipe back, on whichever pipe or ring. -/
theorem perform {c : Call τ ω α} (alone : c.LeavesAlone p)
    (reads : ∀ source, c.source? = some source →
      ∀ wanted, Preserves (Closing p notes past) (source.read wanted))
    (ended : ∀ source, c.source? = some source → Preserves (Closing p notes past) source.isEnded)
    (writes : ∀ sink, c.sink? = some sink →
      ∀ offered, Preserves (Closing p notes past) (sink.write offered)) :
    Preserves (Closing p notes past) (c.perform o) := by
  cases c with
  | feed q source => exact feed reacts q (reads source rfl) (ended source rfl) alone
  | run q => exact run reacts q
  | empty q sink max => exact admits.empty reacts (run reacts) q (writes sink rfl) max
  | switch q candidate =>
      exact admits.handles.switch (fun r => admits.shared r _) (fun r => admits.shared r _)
        (modifyPipe q fun _ _ => .of_same ⟨rfl, rfl, rfl⟩) (fun _ _ => record rfl rfl)
        (run reacts q)
  | clear q => exact admits.clear q
  | clean q => exact clean q
  | store r data => exact admits.store reacts r data
  | fill r source => exact admits.fill reacts r (reads source rfl) (ended source rfl)
  | pour r sink max => exact admits.pour reacts (run reacts) r (writes sink rfl) max

end Reacting

end Closing

end ByteFlow
