/-
# Quiet company

A handler is passive when it always comes to its end and leaves pipes, rings and the books of pipes
alone; a stream is tame when it does the same and never fails. In such company calls can be followed
from their beginning to their end, and they do come to an end: `Secures pre m post` is total
correctness.

What a call does is told about one pipe and its destination. `Stands` says what the pipe, the ring
and the ledger of the pipe are at some moment, and that all other pipes and rings are what they
were.
-/

import ByteFlow.Proofs.Survival

namespace ByteFlow

variable {τ ω α β : Type} [Inhabited τ]

/-- Nothing happened between two worlds to pipes, rings and the books of pipes. -/
structure World.Same (w w' : World τ ω) : Prop where
  pipes : ∀ p, w'.pipes.get p = w.pipes.get p
  rings : ∀ r, w'.rings.get r = w.rings.get r
  ledgers : ∀ p, Ledger.of p w'.journal = Ledger.of p w.journal

namespace World.Same

variable {w w' w'' : World τ ω}

theorem refl (w : World τ ω) : w.Same w := ⟨fun _ => rfl, fun _ => rfl, fun _ => rfl⟩

theorem trans (h : w.Same w') (h' : w'.Same w'') : w.Same w'' :=
  ⟨fun p => (h'.pipes p).trans (h.pipes p), fun r => (h'.rings r).trans (h.rings r),
    fun p => (h'.ledgers p).trans (h.ledgers p)⟩

theorem note (h : w.Same w') {event : Event} (note : event.IsNote) :
    w.Same { w' with journal := event :: w'.journal } :=
  ⟨h.pipes, h.rings, fun p => (Ledger.of_note note).trans (h.ledgers p)⟩

end World.Same

/-- Nothing happened between two worlds to pipes, rings and the books of pipes, nor to what is seen
of the state of the owner. -/
structure World.SameTo (seen : Bytes → ω → Prop) (w w' : World τ ω) : Prop extends w.Same w' where
  seen : ∀ {gave}, seen gave w.owner → seen gave w'.owner

namespace World.SameTo

variable {seen : Bytes → ω → Prop} {w w' w'' : World τ ω}

theorem refl (seen : Bytes → ω → Prop) (w : World τ ω) : w.SameTo seen w := ⟨.refl w, id⟩

theorem trans (h : w.SameTo seen w') (h' : w'.SameTo seen w'') : w.SameTo seen w'' :=
  ⟨h.toSame.trans h'.toSame, fun before => h'.seen (h.seen before)⟩

end World.SameTo

namespace Machine

/-- If `m` is started where `pre` holds, it comes to its end, and `post` holds there. -/
abbrev Secures (pre : World τ ω → Prop) (m : Machine τ ω α) (post : α → World τ ω → Prop) : Prop :=
  Upholds (fun _ => False) pre m post

/-- A computation that comes to its end and leaves pipes, rings and books alone. -/
def Discreet (m : Machine τ ω α) : Prop := ∀ w, Secures (World.Same w) m fun _ => World.Same w

omit [Inhabited τ] in
theorem Secures.exists_ok {pre : World τ ω → Prop} {m : Machine τ ω α}
    {post : α → World τ ω → Prop} (h : Secures pre m post) {w : World τ ω} (holds : pre w) :
    ∃ a w', m w = .ok a w' ∧ post a w' := by
  have out := h holds
  cases ran : m w with
  | ok a w' =>
      rw [ran] at out
      exact ⟨a, w', rfl, out⟩
  | error halt w' =>
      rw [ran] at out
      exact out.elim

omit [Inhabited τ] in
/-- What is known of the ends of a computation holds where it comes to its end. -/
theorem Secures.and_ensures {pre : World τ ω → Prop} {m : Machine τ ω α}
    {post post' : α → World τ ω → Prop} (h : Secures pre m post)
    (ends : Ensures pre m post') : Secures pre m fun a w => post a w ∧ post' a w := by
  intro w holds
  have out := h holds
  cases ran : m w with
  | ok a w' =>
      rw [ran] at out
      exact ⟨out, ends holds ran⟩
  | error halt w' =>
      rw [ran] at out
      exact out

omit [Inhabited τ] in
/-- What is done on a halt does not matter to a computation that does not halt. -/
theorem Secures.onHalt {pre : World τ ω → Prop} {m : Machine τ ω α} {post : α → World τ ω → Prop}
    {cleanup : Machine τ ω β} (h : Secures pre m post) :
    Secures pre (tryCatch m fun halt => do let _ ← cleanup; throw halt) post :=
  Upholds.onHalt h fun _ halted => halted.elim

omit [Inhabited τ] in
theorem closed_secures (inv : World τ ω → Prop) :
    Closed fun _ (m : Machine τ ω _) => Secures inv m fun _ => inv where
  gives _ := upholds_pure fun _ => id
  looks _ := id
  andThen := Upholds.bind

omit [Inhabited τ] in
/-- If one step of a loop leads from one invariant to another and every step keeps both, the whole
loop leads from the one to the other. -/
theorem secures_forM_of_mem {γ : Type} {f : γ → Machine τ ω PUnit} {list : List γ} {c : γ}
    {pre goal : World τ ω → Prop} (member : c ∈ list)
    (leads : Secures pre (f c) fun _ => goal)
    (before : ∀ d ∈ list, Secures pre (f d) fun _ => pre)
    (after : ∀ d ∈ list, Secures goal (f d) fun _ => goal) :
    Secures pre (list.forM f) fun _ => goal := by
  induction member with
  | head rest =>
      refine Upholds.bind leads fun _ => ?_
      exact (closed_secures goal).forM fun d later => after d (.tail _ later)
  | tail d member ih =>
      refine Upholds.bind (before d List.mem_cons_self) fun _ => ?_
      exact ih (fun e later => before e (.tail _ later)) fun e later => after e (.tail _ later)

/-- A discreet computation that also leaves what is seen of the state of the owner, which may be a
different thing for each number of bytes that were taken. -/
def DiscreetTo (seen : Bytes → ω → Prop) (m : Machine τ ω α) : Prop :=
  ∀ w, Secures (World.SameTo seen w) m fun _ => World.SameTo seen w

variable {seen : Bytes → ω → Prop}

theorem discreetTo_pure (a : α) : DiscreetTo seen (pure a : Machine τ ω α) :=
  fun _ => upholds_pure fun _ => id

theorem discreetTo_note {event : Event} (note : event.IsNote) :
    DiscreetTo seen (record event : Machine τ ω Unit) :=
  fun _ => upholds_modify fun _ same => ⟨same.toSame.note note, same.seen⟩

theorem closed_discreetTo (seen : Bytes → ω → Prop) :
    Closed fun _ (m : Machine τ ω _) => DiscreetTo seen m where
  gives := discreetTo_pure
  looks _ := fun _ => id
  andThen first rest w := Upholds.bind (first w) fun a => rest a w

/-- A pipe that listens to a ring lives, and goes on living. -/
theorem discreetTo_listen (p : PipeId) {body : Machine τ ω Unit} (discreet : DiscreetTo seen body) :
    DiscreetTo seen (do if (← getPipe p).isAlive then Pipe.during p body) := by
  intro w
  refine .pointwise fun w₁ same => .at_getPipe ?_
  split
  · rename_i alive
    refine .at_modifyPipe (.here (World.SameTo.refl seen _) ?_)
    refine Upholds.ensuring (discreet _) (fun _ halted => halted.elim) fun _ => ?_
    refine .pointwise fun w₂ inside => .at_modifyPipe ?_
    have own : w₂.pipes.get p = { w₁.pipes.get p with calls := (w₁.pipes.get p).calls + 1 } :=
      (inside.pipes p).trans ((Table.get_set _ _ _ _).trans (if_pos rfl))
    have back : { w₂.pipes.get p with calls := (w₂.pipes.get p).calls - 1 } = w₁.pipes.get p := by
      rw [own]
      rfl
    rw [back]
    have after : w₁.SameTo seen { w₂ with pipes := w₂.pipes.set p (w₁.pipes.get p) } := by
      refine ⟨⟨fun q => ?_, inside.rings, inside.ledgers⟩, inside.seen⟩
      rw [Table.get_set]
      split
      · rename_i eq
        rw [eq]
      · rename_i other
        rw [inside.pipes q, Table.get_set, if_neg other]
    refine .at_getPipe ?_
    rw [after.pipes p, alive]
    exact .here (same.trans after) (upholds_pure fun _ => id)
  · exact .here same (upholds_pure fun _ => id)

theorem hosts_discreetTo (seen : Bytes → ω → Prop) :
    Hosts fun _ (m : Machine τ ω _) => DiscreetTo seen m where
  toClosed := closed_discreetTo seen
  log _ := discreetTo_note trivial
  announce _ _ announces := discreetTo_note announces.isNote
  listen p _ discreet := discreetTo_listen p discreet

/-- Where nothing is looked at, discretion is all that is asked for. -/
theorem discreetTo_true {m : Machine τ ω α} : DiscreetTo (fun _ _ => True) m ↔ Discreet m := by
  constructor
  · intro discreet w
    exact (discreet w).of_imp (fun _ same => ⟨same, id⟩) fun _ _ same => same.toSame
  · intro discreet w
    exact (discreet w).of_imp (fun _ same => same.toSame) fun _ _ same => ⟨same, id⟩

theorem discreet_pure (a : α) : Discreet (pure a : Machine τ ω α) :=
  discreetTo_true.1 (discreetTo_pure a)

theorem hosts_discreet : Hosts fun _ (m : Machine τ ω _) => Discreet m where
  gives := discreet_pure
  looks _ := fun _ => id
  andThen first rest w := Upholds.bind (first w) fun a => rest a w
  log _ := discreetTo_true.1 (discreetTo_note trivial)
  announce _ _ announces := discreetTo_true.1 (discreetTo_note announces.isNote)
  listen p _ discreet := discreetTo_true.1 (discreetTo_listen p (discreetTo_true.2 discreet))

theorem closed_discreet : Closed fun _ (m : Machine τ ω _) => Discreet m := hosts_discreet.toClosed

end Machine

/-- The handlers of the owner make no calls. -/
def Owner.Passive (o : Owner τ ω) : Prop := ∀ handler edge, Machine.Discreet (o.react handler edge)

/-- A source that is discreet and does not fail. -/
structure Source.Tame (source : Source (Machine τ ω)) : Prop where
  read : ∀ wanted, Machine.Discreet (source.read wanted)
  ended : Machine.Discreet source.isEnded
  willing : ∀ wanted, Machine.Ensures (fun _ => True) (source.read wanted) fun answer _ =>
    ∃ data, answer = .ok data

/-- A source that is discreet. It may fail. -/
structure Source.Discreet (source : Source (Machine τ ω)) : Prop where
  read : ∀ wanted, Machine.Discreet (source.read wanted)
  ended : Machine.Discreet source.isEnded

theorem Source.Tame.discreet {source : Source (Machine τ ω)} (tame : source.Tame) :
    source.Discreet :=
  ⟨tame.read, tame.ended⟩

/-- A source that is discreet also to those who look at the state of the owner. It may fail. -/
structure Source.DiscreetTo (seen : Bytes → ω → Prop) (source : Source (Machine τ ω)) : Prop where
  read : ∀ wanted, Machine.DiscreetTo seen (source.read wanted)
  ended : Machine.DiscreetTo seen source.isEnded

theorem Source.Discreet.discreetTo {source : Source (Machine τ ω)} (discreet : source.Discreet) :
    source.DiscreetTo fun _ _ => True :=
  ⟨fun wanted => Machine.discreetTo_true.2 (discreet.read wanted),
    Machine.discreetTo_true.2 discreet.ended⟩

/-- A sink that is discreet and does not fail. -/
structure Sink.Tame (sink : Sink (Machine τ ω)) : Prop where
  write : ∀ offered, Machine.Discreet (sink.write offered)
  willing : ∀ offered, Machine.Ensures (fun _ => True) (sink.write offered) fun answer _ =>
    ∃ count, answer = .ok count

/-! ## One pipe and its destination -/

/-- A world, and what is seen of the state of the owner as bytes are taken from a destination. -/
structure Scene (τ ω : Type) where
  world : World τ ω
  /-- What is seen once these bytes were taken. -/
  seen : Bytes → ω → Prop

/-- A scene in which nobody looks at the state of the owner. -/
def World.scene (w : World τ ω) : Scene τ ω := ⟨w, fun _ _ => True⟩

/-- At this moment pipe `p` is `pipe`, ring `d` is `ring`, and the books of the pipe are `ledger`.
Who observes the ring, and all other pipes and rings, are as they were before. The books of pipes
that drain into the same ring may have changed. -/
structure Stands (p : PipeId) (d : RingId) (before : Scene τ ω) (pipe : Pipe τ) (ring : Ring)
    (ledger : Ledger) (w : World τ ω) : Prop where
  pipe : w.pipes.get p = pipe
  ring : w.rings.get d = { before.world.rings.get d with ring }
  ledger : Ledger.of p w.journal = ledger
  seen : before.seen (Ledger.of p w.journal).accepted w.owner
  otherPipe : ∀ q, p ≠ q → w.pipes.get q = before.world.pipes.get q
  otherRing : ∀ r, d ≠ r → w.rings.get r = before.world.rings.get r
  otherLedger : ∀ q, p ≠ q → (Ledger.of q before.world.journal).current? ≠ some d →
    Ledger.of q w.journal = Ledger.of q before.world.journal

namespace Stands

open Machine

variable {p : PipeId} {d : RingId} {before : Scene τ ω} {w w' : World τ ω} {pipe : Pipe τ}
  {ring : Ring}
  {ledger : Ledger}

theorem start (p : PipeId) (d : RingId) (w : World τ ω) :
    Stands p d w.scene (w.pipes.get p) (w.rings.get d).ring (Ledger.of p w.journal) w :=
  ⟨rfl, rfl, rfl, trivial, fun _ _ => rfl, fun _ _ => rfl, fun _ _ _ => rfl⟩

theorem same (h : Stands p d before pipe ring ledger w) (same : w.SameTo before.seen w') :
    Stands p d before pipe ring ledger w' where
  pipe := (same.pipes p).trans h.pipe
  ring := (same.rings d).trans h.ring
  ledger := (same.ledgers p).trans h.ledger
  seen := by
    rw [same.ledgers p]
    exact same.seen h.seen
  otherPipe q other := (same.pipes q).trans (h.otherPipe q other)
  otherRing r other := (same.rings r).trans (h.otherRing r other)
  otherLedger q other elsewhere := (same.ledgers q).trans (h.otherLedger q other elsewhere)

/-- Something else is looked at. -/
theorem see (h : Stands p d before pipe ring ledger w) {seen : Bytes → ω → Prop}
    (looks : before.seen ledger.accepted w.owner → seen ledger.accepted w.owner) :
    Stands p d ⟨before.world, seen⟩ pipe ring ledger w where
  pipe := h.pipe
  ring := h.ring
  ledger := h.ledger
  seen := by
    have before := h.seen
    rw [h.ledger] at before ⊢
    exact looks before
  otherPipe := h.otherPipe
  otherRing := h.otherRing
  otherLedger := h.otherLedger

theorem set_pipe (h : Stands p d before pipe ring ledger w) (pipe' : Pipe τ) :
    Stands p d before pipe' ring ledger { w with pipes := w.pipes.set p pipe' } where
  pipe := (Table.get_set _ _ _ _).trans (if_pos rfl)
  ring := h.ring
  ledger := h.ledger
  seen := h.seen
  otherPipe q other := by
    rw [Table.get_set, if_neg other]
    exact h.otherPipe q other
  otherRing := h.otherRing
  otherLedger := h.otherLedger

theorem set_ring (h : Stands p d before pipe ring ledger w) (ring' : Ring) :
    Stands p d before pipe ring' ledger
      { w with rings := w.rings.set d { w.rings.get d with ring := ring' } } where
  pipe := h.pipe
  ring := by
    rw [Table.get_set, if_pos rfl, h.ring]
  ledger := h.ledger
  seen := h.seen
  otherPipe := h.otherPipe
  otherRing r other := by
    rw [Table.get_set, if_neg other]
    exact h.otherRing r other
  otherLedger := h.otherLedger

/-- What goes on record changes the books of the pipe, and those of others only if it is a delivery
out of their ring. -/
theorem record (h : Stands p d before pipe ring ledger w) {events : List Event} {ledger' : Ledger}
    (own : Ledger.of p (events ++ w.journal) = ledger')
    (seen : before.seen ledger'.accepted w.owner)
    (others : ∀ q, p ≠ q → (Ledger.of q before.world.journal).current? ≠ some d →
      Ledger.of q (events ++ w.journal) = Ledger.of q w.journal) :
    Stands p d before pipe ring ledger' { w with journal := events ++ w.journal } where
  pipe := h.pipe
  ring := h.ring
  ledger := own
  seen := by
    rw [own]
    exact seen
  otherPipe := h.otherPipe
  otherRing := h.otherRing
  otherLedger q other elsewhere :=
    (others q other elsewhere).trans (h.otherLedger q other elsewhere)

section Steps

variable {f : Pipe τ → Machine τ ω β} {post : β → World τ ω → Prop}

theorem at_getPipe (h : Secures (Stands p d before pipe ring ledger) (f pipe) post) :
    Secures (Stands p d before pipe ring ledger) (getPipe p >>= f) post :=
  .pointwise fun _ stands => .at_getPipe (stands.pipe ▸ .here stands h)

theorem at_getRing {f : Ring → Machine τ ω β}
    (h : Secures (Stands p d before pipe ring ledger) (f ring) post) :
    Secures (Stands p d before pipe ring ledger) (getRing d >>= f) post := by
  refine .pointwise fun w stands => .at_getRing ?_
  rw [stands.ring]
  exact .here stands h

theorem at_getShared {f : SharedRing → Machine τ ω β}
    (h : Secures (Stands p d before pipe ring ledger) (f { before.world.rings.get d with ring })
      post) :
    Secures (Stands p d before pipe ring ledger) (getShared d >>= f) post := by
  refine .pointwise fun w stands => ?_
  rintro _ rfl
  have ran := h stands
  rw [← stands.ring] at ran
  exact ran

theorem at_modifyPipe {g : Pipe τ → Pipe τ} {f : Unit → Machine τ ω β}
    (h : Secures (Stands p d before (g pipe) ring ledger) (f ()) post) :
    Secures (Stands p d before pipe ring ledger) (modifyPipe p g >>= f) post := by
  refine .pointwise fun w stands => .at_modifyPipe ?_
  rw [stands.pipe]
  exact .here (stands.set_pipe _) h

theorem at_setRing {ring' : Ring} {f : Unit → Machine τ ω β}
    (h : Secures (Stands p d before pipe ring' ledger) (f ()) post) :
    Secures (Stands p d before pipe ring ledger) (setRing d ring' >>= f) post := by
  refine .pointwise fun w stands => ?_
  rintro _ rfl
  exact h (stands.set_ring ring')

theorem at_recordAll {events : List Event} {ledger' : Ledger} {f : Unit → Machine τ ω β}
    (own : ∀ journal, Ledger.of p journal = ledger → Ledger.of p (events ++ journal) = ledger')
    (seen : ∀ {state}, before.seen ledger.accepted state → before.seen ledger'.accepted state)
    (others : ∀ q, p ≠ q → ∀ journal, (Ledger.of q journal).current? ≠ some d →
      Ledger.of q (events ++ journal) = Ledger.of q journal)
    (h : Secures (Stands p d before pipe ring ledger') (f ()) post) :
    Secures (Stands p d before pipe ring ledger) (recordAll events >>= f) post := by
  intro w stands
  have looks := stands.seen
  rw [stands.ledger] at looks
  refine h (stands.record (own _ stands.ledger) (seen looks) fun q other elsewhere => ?_)
  apply others q other
  rw [stands.otherLedger q other elsewhere]
  exact elsewhere

theorem at_record {event : Event} {ledger' : Ledger} {f : Unit → Machine τ ω β}
    (own : ∀ journal, Ledger.of p journal = ledger → Ledger.of p (event :: journal) = ledger')
    (seen : ∀ {state}, before.seen ledger.accepted state → before.seen ledger'.accepted state)
    (others : ∀ q, p ≠ q → ∀ journal, (Ledger.of q journal).current? ≠ some d →
      Ledger.of q (event :: journal) = Ledger.of q journal)
    (h : Secures (Stands p d before pipe ring ledger') (f ()) post) :
    Secures (Stands p d before pipe ring ledger) (Machine.record event >>= f) post :=
  show Secures _ (recordAll [event] >>= f) post from at_recordAll own seen others h

/-- A discreet computation goes by unnoticed. -/
theorem at_discreet {m : Machine τ ω α} {f : α → Machine τ ω β}
    (discreet : DiscreetTo before.seen m)
    (h : ∀ a, Secures (Stands p d before pipe ring ledger) (f a) post) :
    Secures (Stands p d before pipe ring ledger) (m >>= f) post := by
  refine .pointwise fun w stands => ?_
  refine Upholds.bind (.here (World.SameTo.refl before.seen w) (discreet w)) fun a => ?_
  exact (h a).of_imp (fun w' same => stands.same same) fun _ _ => id

end Steps

theorem of_discreet {m : Machine τ ω α} (discreet : DiscreetTo before.seen m) :
    Secures (Stands p d before pipe ring ledger) m fun _ => Stands p d before pipe ring ledger :=
  .pointwise fun w stands =>
    (Upholds.here (World.SameTo.refl before.seen w) (discreet w)).of_imp (fun _ => id)
      fun _ _ same => stands.same same

/-- A ring is changed in its place. -/
theorem at_updateRing {g : Ring → α × Ring} {f : α → Machine τ ω β} {post : β → World τ ω → Prop}
    (h : Secures (Stands p d before pipe (g ring).2 ledger) (f (g ring).1) post) :
    Secures (Stands p d before pipe ring ledger) (updateRing d g >>= f) post := by
  intro w stands
  have updated := updateRing_eq d g w
  have same : (w.rings.get d).ring = ring := congrArg SharedRing.ring stands.ring
  rw [same] at updated
  rw [bind_of_ok updated]
  exact h (stands.set_ring _)

/-- While a call of a pipe is in progress that its owner holds, nothing else is different. -/
theorem during {body : Machine τ ω α} (held : pipe.held = true) {Q : α → Ring → Ledger → Prop}
    (h : Secures (Stands p d before { pipe with calls := pipe.calls + 1 } ring ledger) body
      fun a w => ∃ ring ledger, Q a ring ledger ∧
        Stands p d before { pipe with calls := pipe.calls + 1 } ring ledger w) :
    Secures (Stands p d before pipe ring ledger) (Pipe.during p body)
      fun a w => ∃ ring ledger, Q a ring ledger ∧ Stands p d before pipe ring ledger w := by
  refine Stands.at_modifyPipe (Upholds.ensuring h (fun _ halted => halted.elim) fun a => ?_)
  refine .pointwise fun w ⟨ring, ledger, after, stands⟩ =>
    .here stands (Stands.at_modifyPipe (Stands.at_getPipe ?_))
  have alive : Pipe.isAlive { pipe with calls := pipe.calls + 1 - 1 } := by
    unfold Pipe.isAlive
    rw [held]
    rfl
  dsimp only
  rw [alive]
  exact upholds_pure fun w stands => ⟨ring, ledger, after, stands⟩

end Stands

/-- Pipe `p`, ring `d` and the books of the pipe are such that `P` holds of them, and all else is as
it was before. -/
def Finds (p : PipeId) (d : RingId) (before : Scene τ ω) (P : Pipe τ → Ring → Ledger → Prop)
    (w : World τ ω) : Prop :=
  ∃ pipe ring ledger, Stands p d before pipe ring ledger w ∧ P pipe ring ledger

namespace Finds

open Machine

variable {p : PipeId} {d : RingId} {before : Scene τ ω} {P P' : Pipe τ → Ring → Ledger → Prop}

theorem secures {m : Machine τ ω α} {post : α → World τ ω → Prop}
    (h : ∀ pipe ring ledger, P pipe ring ledger →
      Secures (Stands p d before pipe ring ledger) m post) :
    Secures (Finds p d before P) m post :=
  .pointwise fun _ ⟨pipe, ring, ledger, stands, holds⟩ => .here stands (h pipe ring ledger holds)

theorem imp {w : World τ ω} (h : Finds p d before P w)
    (imp : ∀ pipe ring ledger, P pipe ring ledger → P' pipe ring ledger) :
    Finds p d before P' w := by
  obtain ⟨pipe, ring, ledger, stands, holds⟩ := h
  exact ⟨pipe, ring, ledger, stands, imp _ _ _ holds⟩

theorem of_discreet {m : Machine τ ω α} (discreet : DiscreetTo before.seen m) :
    Secures (Finds p d before P) m fun _ => Finds p d before P :=
  secures fun pipe ring ledger holds =>
    (Stands.of_discreet discreet).of_imp (fun _ => id) fun _ _ stands =>
      ⟨pipe, ring, ledger, stands, holds⟩

/-- What is said of the pipe has nothing to do with the number of its calls in progress. -/
def Uncounted (P : Pipe τ → Ring → Ledger → Prop) : Prop :=
  ∀ ⦃pipe ring ledger⦄ calls, P pipe ring ledger → P { pipe with calls } ring ledger

/-- A call of a pipe that its owner holds does what its body does. -/
theorem during {body : Machine τ ω α} {Q : α → Pipe τ → Ring → Ledger → Prop}
    (h : Secures (Finds p d before P) body fun a => Finds p d before (Q a)) (enters : Uncounted P)
    (leaves : ∀ a, Uncounted (Q a))
    (held : ∀ a pipe ring ledger, Q a pipe ring ledger → pipe.held = true) :
    Secures (Finds p d before P) (Pipe.during p body) fun a => Finds p d before (Q a) := by
  refine secures fun pipe ring ledger holds => Stands.at_modifyPipe ?_
  have body : Secures (Stands p d before { pipe with calls := pipe.calls + 1 } ring ledger) body
      fun a => Finds p d before (Q a) :=
    h.of_imp (fun w stands => ⟨_, _, _, stands, enters _ holds⟩) fun _ _ => id
  refine Upholds.ensuring body (fun _ halted => halted.elim) fun a => ?_
  refine secures fun pipe ring ledger after => Stands.at_modifyPipe (Stands.at_getPipe ?_)
  have alive : Pipe.isAlive { pipe with calls := pipe.calls - 1 } := by
    unfold Pipe.isAlive
    rw [held a pipe ring ledger after]
    rfl
  rw [alive]
  exact upholds_pure fun w stands => ⟨_, _, _, stands, leaves a _ after⟩

end Finds

end ByteFlow
