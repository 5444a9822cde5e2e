/-
# Hot swap

The destination of a pipe may be switched to another ring at any moment, also by a handler that is
told of an edge while a segment is written into the old one. A switch that is refused does nothing.
One that is accepted takes place at once: the run in progress stores no more into the old ring.

To say the latter, `runBy` runs a pipe with sinks of one's own choice in the place of the rings. A
run with sinks that take nothing unless they are the destination of the pipe at that very moment
is the same as a run.
-/

import ByteFlow.Proofs.Entering
import ByteFlow.Proofs.Listening
import ByteFlow.Proofs.Manner
import ByteFlow.Proofs.Upkeep

namespace ByteFlow

open Machine

variable {τ ω α β : Type} [Inhabited τ]

/-! ## A switch -/

namespace Pipe

variable [Transform τ] {o : Owner τ ω} {p : PipeId} {candidate : RingId} {w : World τ ω}

/-- A switch that is refused does nothing. -/
theorem switchTo_of_refused {e : Error}
    (refused : switchRefusal (w.content (w.pipes.get p).destination) (w.content candidate) =
      some e) : switchTo o p candidate w = during p (pure (.error e)) w := by
  apply during_congr
  have entered : switchRefusal
      ((w.entered p).rings.get ((w.entered p).pipes.get p).destination).ring
      ((w.entered p).rings.get candidate).ring = some e := by
    rw [get_entered]
    exact refused
  refine (bind_of_ok rfl).trans ((bind_of_ok rfl).trans ((bind_of_ok rfl).trans ?_))
  rw [entered]

omit [Transform τ] in
theorem switched_entered :
    (w.entered p).switched p candidate = (w.switched p candidate).entered p := by
  unfold World.switched World.entered World.detached World.attached
  simp only [Table.get_set, if_true, Table.set_set]

/-- A switch that is accepted takes place, and then the pipe runs. -/
theorem switchTo_of_accepted
    (accepted : switchRefusal (w.content (w.pipes.get p).destination) (w.content candidate) =
      none) :
    switchTo o p candidate w = during p (do
      run o p
      return .ok (w.pipes.get p).destination) (w.switched p candidate) := by
  apply during_congr
  have entered : switchRefusal
      ((w.entered p).rings.get ((w.entered p).pipes.get p).destination).ring
      ((w.entered p).rings.get candidate).ring = none := by
    rw [get_entered]
    exact accepted
  have goes_on : (do
      run o p
      return .ok ((w.entered p).pipes.get p).destination : Machine τ ω (Except Error RingId))
        ((w.entered p).switched p candidate) = (do
      run o p
      return .ok (w.pipes.get p).destination : Machine τ ω (Except Error RingId))
        ((w.switched p candidate).entered p) := by
    rw [switched_entered, get_entered]
  refine (bind_of_ok rfl).trans ((bind_of_ok rfl).trans ((bind_of_ok rfl).trans ?_))
  rw [entered]
  exact goes_on

end Pipe

namespace InOrder

variable [Transform τ] [Transform.Proper τ] {o : Owner τ ω} {p : PipeId}

end InOrder

/-! ## Where the destination goes -/

/-- The call asks to switch that pipe to that ring. -/
def Call.switches (p : PipeId) (candidate : RingId) : Call τ ω α → Prop
  | .switch q r => q = p ∧ r = candidate
  | _ => False

/-- Pipe `p` is in use, and its destination is one of these rings. -/
def Bound (p : PipeId) (among : RingId → Prop) (w : World τ ω) : Prop :=
  p < w.pipes.next ∧ among (w.pipes.get p).destination

namespace Bound

variable {p : PipeId} {among : RingId → Prop} {w : World τ ω} {o : Owner τ ω}

theorem set_pipe (h : Bound p among w) {q : PipeId} {pipe : Pipe τ}
    (same : q = p → pipe.destination = (w.pipes.get q).destination ∨ among pipe.destination) :
    Bound p among { w with pipes := w.pipes.set q pipe } := by
  by_cases own : q = p
  · subst own
    refine Table.set_self (P := fun pipe : Pipe τ => among pipe.destination) ?_
    rcases same rfl with kept | led
    · rw [kept]
      exact h.2
    · exact led
  · exact Table.set_other (P := fun pipe : Pipe τ => among pipe.destination) h own pipe

/-- Most changes to a pipe leave its destination alone. -/
theorem modifyPipe {q : PipeId} {f : Pipe τ → Pipe τ}
    (same : ∀ pipe, (f pipe).destination = pipe.destination) :
    Preserves (Bound (ω := ω) p among) (modifyPipe q f) :=
  upholds_modifyPipe fun _ h => h.set_pipe fun _ => .inl (same _)

theorem aloof : Aloof (Bound (τ := τ) (ω := ω) p among) where
  journal _ _ := id
  rings _ _ := id
  calls _ _ := modifyPipe fun _ => rfl

section Reacting

variable [Transform τ] (reacts : ∀ handler edge, Preserves (Bound p among) (o.react handler edge))

include reacts

theorem run (q : PipeId) : Preserves (Bound p among) (Pipe.run o q) := by
  have withstands : Withstands o q (.any (Bound p among)) (Bound p among) :=
    { halts := fun _ => id
      log := fun _ => aloof.record _
      take := fun w _ _ h _ => ⟨h.set_pipe fun _ => .inl rfl, trivial⟩
      put := fun w _ h _ _ => h.set_pipe fun _ => .inl rfl
      mark := fun w h => h.set_pipe fun _ => .inl rfl
      advance := fun w h _ => h.set_pipe fun _ => by
        obtain ⟨_, _, _, _, _, same, _⟩ := (w.pipes.get q).advance_same q
        rw [same]
        exact .inl rfl
      store := aloof.admits.store reacts }
  refine withstands.weathers.run aloof.admits.handles.toEnters ?_ (fun e => ?_)
    (fun _ _ => aloof.record _) reacts
  · exact fun w _ _ h => h.set_pipe fun _ => .inl rfl
  · exact aloof.admits.fail (fun _ => modifyPipe fun _ => rfl) (fun _ _ _ => aloof.record _)
      reacts e

/-- No call leads the pipe away, unless it switches the pipe to another ring. -/
theorem perform {c : Call τ ω α} (leads : ∀ candidate, c.switches p candidate → among candidate)
    (reads : ∀ source, c.source? = some source →
      ∀ wanted, Preserves (Bound p among) (source.read wanted))
    (ended : ∀ source, c.source? = some source → Preserves (Bound p among) source.isEnded)
    (writes : ∀ sink, c.sink? = some sink →
      ∀ offered, Preserves (Bound p among) (sink.write offered)) :
    Preserves (Bound p among) (c.perform o) := by
  have aloof : Aloof (Bound (τ := τ) (ω := ω) p among) := aloof
  have handles := aloof.admits.handles
  cases c with
  | feed q source =>
      exact handles.feed (fun _ => modifyPipe fun _ => rfl) (fun _ => aloof.record _)
        (run reacts q) (reads source rfl) (ended source rfl)
  | run q => exact run reacts q
  | empty q sink max => exact handles.empty reacts (run reacts) q (writes sink rfl) max
  | switch q candidate =>
      have moves : Preserves (Bound (τ := τ) (ω := ω) p among)
          (Machine.modifyPipe q fun pipe => { pipe with destination := candidate }) :=
        upholds_modifyPipe fun w h => h.set_pipe fun own => .inr (leads candidate ⟨own, rfl⟩)
      exact handles.switch (fun r => aloof.modifyShared r _) (fun r => aloof.modifyShared r _)
        moves (fun _ _ => aloof.record _) (run reacts q)
  | clear q => exact handles.clear q
  | clean q => exact handles.giveBack handles.clean (modifyPipe fun _ => rfl)
  | store r data => exact handles.store reacts r data
  | fill r source => exact handles.fill reacts r (reads source rfl) (ended source rfl)
  | pour r sink max => exact handles.pour reacts (run reacts) r (writes sink rfl) max

end Reacting

end Bound

/-! ## Programs -/

/-- Handlers have come and gone, and the owner may have changed, and rings. No pipe and no listener
has. -/
structure Untroubled (w w' : World τ ω) : Prop where
  next : w.pipes.next ≤ w'.pipes.next
  pipes : ∀ p, ∃ handlers, w'.pipes.get p = { w.pipes.get p with handlers }
  listeners : ∀ p r, w'.Listens p r ↔ w.Listens p r
  nodup : ∀ r, (w.rings.get r).observers.Nodup → (w'.rings.get r).observers.Nodup
  opened : ∀ p, w'.Opened p ↔ w.Opened p

/-- What programs may do besides calls. -/
inductive Aside : ∀ {α : Type}, Machine τ ω α → Prop where
  | own {α : Type} {m : Machine τ ω α} (h : ∀ w, Untroubled w (m.left w)) : Aside m
  | creates (direction : Direction) (d : RingId) (transform : τ) (options : PipeOptions) :
      Aside (Pipe.create direction d transform options)
  | drops (p : PipeId) : Aside (Pipe.drop p)

/-- Any calls are permitted on any pipes and rings, but pipes may be switched only where it is
allowed. Besides, programs may make pipes and drop them. -/
def Rules.trading (allowed : PipeId → RingId → Prop) : Rules τ ω where
  permits c := ∀ p candidate, c.switches p candidate → allowed p candidate
  ignores m := Aside m

section Programs

variable {w : World τ ω} {m : Machine τ ω α}

namespace Untroubled

variable {w' : World τ ω}

theorem listening (same : Untroubled w w') {depth : PipeId → Nat} (h : Listening none depth w) :
    Listening none depth w' := by
  refine h.of_same ⟨same.next, fun p => ?_, same.listeners, same.nodup, same.opened⟩
  obtain ⟨_, pipe⟩ := same.pipes p
  rw [pipe]
  exact ⟨rfl, rfl, rfl⟩

theorem inOrder (same : Untroubled w w') (h : InOrder w) : InOrder w' := by
  intro p
  obtain ⟨_, pipe⟩ := same.pipes p
  rw [pipe]
  exact ⟨(h p).source, (h p).queue⟩

theorem bound (same : Untroubled w w') {p : PipeId} {among : RingId → Prop}
    (h : Bound p among w) : Bound p among w' := by
  obtain ⟨_, pipe⟩ := same.pipes p
  refine ⟨Nat.lt_of_lt_of_le h.1 same.next, ?_⟩
  rw [pipe]
  exact h.2

end Untroubled

/-- What survives what is done to the world by others, a new pipe, and the end of one, survives all
that programs do besides calls. -/
theorem Aside.preserves {inv : World τ ω → Prop} (aside : Aside m)
    (others : ∀ w w', Untroubled w w' → inv w → inv w')
    (opened : ∀ w direction d transform options capacity entry, inv w →
      inv { w.opened direction d transform options capacity with
        journal := .logged entry :: (w.opened direction d transform options capacity).journal })
    (drops : ∀ p, Preserves inv (Pipe.drop p)) : Preserves inv m := by
  cases aside with
  | own h => exact preserves_iff.2 fun w => others w _ (h w)
  | creates direction d transform options =>
      refine preserves_iff.2 fun w h => ?_
      rcases left_create direction d transform options w with same | ⟨capacity, entry, same⟩
      · rw [same]
        exact h
      · rw [same]
        exact opened w direction d transform options capacity entry h
  | drops p => exact drops p

variable [Transform τ] {allowed : PipeId → RingId → Prop}

theorem Listening.preserves_conduct [Transform.Candid τ]
    (conduct : Conduct (Rules.trading allowed) m) (depth : PipeId → Nat) :
    Preserves (Listening none depth) m := by
  refine conduct.has (K := fun _ _ m => Kept m) (fun _ => closed)
    (fun _ _ _ _ => upholds_throw fun _ => id) ?_ ?_ () depth
  · intro β m aside _ depth
    exact aside.preserves (fun _ _ same => same.listening)
      (fun _ direction d transform options capacity entry h =>
        h.opened direction d transform options capacity entry) fun p => kept_drop p depth
  · intro β o c _ reads ended writes reacts _
    exact perform (reacts ()) (fun source eq wanted => reads source eq wanted ())
      (fun source eq => ended source eq ()) fun sink eq offered => writes sink eq offered ()

theorem InOrder.preserves_conduct [Transform.Proper τ]
    (conduct : Conduct (Rules.trading allowed) m) : Preserves InOrder m := by
  refine conduct.preserves ?_ fun _ reads ended writes reacts =>
    perform reacts reads ended writes
  intro β m aside
  refine aside.preserves (fun _ _ same => same.inOrder)
    (fun _ direction d transform options capacity _ h =>
      h.opened direction d transform options capacity _) fun p => ?_
  exact Preserves.bind (InOrder.modifyPipe fun _ => ⟨rfl, rfl⟩) fun _ => aloof.retire p

theorem Bound.preserves_conduct {p : PipeId} {among : RingId → Prop}
    (leads : ∀ candidate, allowed p candidate → among candidate)
    (conduct : Conduct (Rules.trading allowed) m) : Preserves (Bound p among) m := by
  refine conduct.preserves ?_ fun permitted reads ended writes reacts =>
    perform reacts (fun candidate asked => leads candidate (permitted p candidate asked)) reads
      ended writes
  intro β m aside
  refine aside.preserves (fun _ _ same => same.bound)
    (fun w _ _ _ _ _ _ h => h.set_pipe fun own => ?_) fun q => ?_
  · exact (Nat.lt_irrefl p (own ▸ h.1)).elim
  · exact Preserves.bind (Bound.modifyPipe fun _ => rfl) fun _ => aloof.retire q

end Programs

/-- The destination of pipe `p` may not be switched to the ring. -/
def Unfit (p : PipeId) (candidate : RingId) (w : World τ ω) : Prop :=
  (w.content (w.pipes.get p).destination).used ≠ 0 ∨
    (w.content (w.pipes.get p).destination).capacity ≠ (w.content candidate).capacity ∨
    (w.content (w.pipes.get p).destination).region ≠ (w.content candidate).region

theorem unfit_iff {p : PipeId} {candidate : RingId} {w : World τ ω} :
    Unfit p candidate w ↔ Pipe.switchRefusal (w.content (w.pipes.get p).destination)
      (w.content candidate) ≠ none := by
  rw [Ne, Pipe.switchRefusal_eq_none_iff, Unfit]
  simp only [Decidable.not_and_iff_or_not, ne_eq]

namespace Changeover

/-- A source that has six bytes ready. -/
def source : Source (Machine Codec Unit) where
  read wanted := pure (.ok ([1, 2, 3, 4, 5, 6].take wanted))
  isEnded := pure false

/-- A handler that takes all bytes off ring 0 as soon as the pipe has put some there, and puts ring
1 in its place. -/
def react (o : Owner Codec Unit) (_ : HandlerId) : Edge → Machine Codec Unit Unit
  | .readable => do
    if (← getPipe 0).destination = 0 then
      Pipe.clear 0
      let _ ← Pipe.switchTo o 0 1
  | _ => pure ()

def owner : Owner Codec Unit := .nest 8 react 3

/-- Makes two rings that have room for four bytes, and a pipe into the first one. -/
def make : Machine Codec Unit Unit := do
  let _ ← SharedRing.create (.empty 4 .heap)
  let _ ← SharedRing.create (.empty 4 .heap)
  let _ ← Pipe.create .unwrap 0 (.identity .whole)
    { PipeOptions.standard with sourceCapacity := some 8 }
  Pipe.addHandler 0 3

/-- Stores into the pipe. -/
def feed : Machine Codec Unit Unit := do
  let _ ← Pipe.storeFrom owner 0 source

/-- The world after both. -/
def world : World Codec Unit := [make, feed].foldl (fun w m => m.left w) (World.empty ())

/-- The pipe may be switched to ring 1, and only there. -/
def allowed (_ : PipeId) (r : RingId) : Prop := r = 1

theorem conduct_react (handler : HandlerId) (edge : Edge) :
    Conduct (Rules.trading allowed) (owner.react handler edge) := by
  refine conduct_nest (fun o reacts handler edge => ?_) 3 handler edge
  cases edge with
  | readable =>
      have looks : Conduct (Rules.trading allowed)
          (getPipe 0 : Machine Codec Unit (Pipe Codec)) :=
        .aside (.own fun w => ⟨Nat.le_refl _, fun _ => ⟨_, rfl⟩, fun _ _ => .rfl, fun _ => id,
          fun _ => .rfl⟩)
      have clears : Conduct (Rules.trading allowed) (Pipe.clear 0 : Machine Codec Unit Unit) :=
        .call (c := .clear 0) (o := o) nofun nofun nofun nofun reacts
      have switches : Conduct (Rules.trading allowed) (Pipe.switchTo o 0 1) := by
        refine .call (c := .switch 0 1) ?_ nofun nofun nofun reacts
        rintro p candidate ⟨_, rfl⟩
        rfl
      refine .andThen looks fun pipe => ?_
      split
      · exact .andThen clears fun _ => .andThen switches fun _ => .gives _
      · exact .gives _
  | writable => exact .gives _
  | error e => exact .gives _

theorem conduct_feed : Conduct (Rules.trading allowed) feed :=
  .andThen (.feed 0 conduct_react nofun (fun _ => .gives _) (.gives _)) fun _ => .gives _

end Changeover

end ByteFlow
