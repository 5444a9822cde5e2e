/-
# Runs that are vetted

A run computes places in rings and lengths by subtraction. It stands here a second time, in a form
that halts as soon as an access would go wrong: where a piece of a ring is not there, where bytes
are to be dropped that are not there, where a stream claims more than it was offered, and where a
difference of lengths would be below zero. The forms that single operations have for this purpose
are used as they are.

A vetted run that comes to its end is a run, also of an owner who grants more passes. So whatever is
shown of vetted runs is true of runs, and besides no access goes wrong in them.
-/

import ByteFlow.Proofs.Access
import ByteFlow.Proofs.Advance
import ByteFlow.Proofs.Manner
import ByteFlow.Proofs.Passive

namespace ByteFlow

variable {τ ω α β γ : Type}

/-! ## What is vetted -/

namespace Ring

/-- How many more bytes fit. -/
def free? (r : Ring) : Option Nat := do
  guard (r.used ≤ r.capacity)
  return r.free

theorem free?_eq {r : Ring} (valid : r.Valid) : r.free? = some r.free := by
  rw [free?, guard, if_pos valid.used_le]
  rfl

end Ring

namespace Queue

/-- Takes the head segment out, if there is one. -/
def popFront? (q : Queue) : Option (Option (Ring × Queue)) :=
  match q.popFront with
  | none => some none
  | some (segment, rest) => do
    guard (segment.used ≤ q.bytes)
    return some (segment, rest)

theorem popFront?_eq {q : Queue} (valid : q.Valid) : q.popFront? = some q.popFront := by
  unfold popFront?
  split
  · rename_i nothing
    rw [nothing]
  · rename_i segment rest popped
    have counted := (valid.popFront popped).2.2.2
    rw [popped, guard, if_pos (counted.symm ▸ Nat.le_add_right _ _)]
    rfl

end Queue

namespace Pipe

/-- What an advance does with the source after a step, given the input of the step. A step that
claims to have used more than that is not followed up. -/
def absorb? (source : Ring) (input : Block) (step : Step) : Option Unit :=
  if input.size < step.consumed then some ()
  else do
    let rest ← (source.consume step.consumed).toOption
    if step.isUnderflow then let _ ← rest.defragment?

/-- What an advance does with the source. -/
def advance? [Transform τ] (pipe : Pipe τ) : Option Unit := do
  let (input, _) ← pipe.source.spans?
  match pipe.called.result with
  | .ok step => absorb? pipe.source input step
  | .error _ => return ()

theorem absorb?_eq {source : Ring} (valid : source.Valid) (step : Step) :
    absorb? source source.readable step = some () := by
  unfold absorb?
  split
  · rfl
  · rename_i le
    obtain ⟨inside, _⟩ := toList_eq_used_append valid (Nat.not_lt.1 le)
    rw [Ring.consume, if_pos inside]
    change (if step.isUnderflow then _ else _ : Option Unit) = _
    split
    · rw [Ring.defragment?_eq (valid.discard inside)]
      rfl
    · rfl

theorem advance?_eq [Transform τ] {pipe : Pipe τ} (valid : pipe.source.Valid) :
    pipe.advance? = some () := by
  unfold advance?
  rw [Ring.spans?_eq valid]
  change (match pipe.called.result with
    | .ok step => absorb? pipe.source pipe.source.readable step
    | .error _ => some ()) = some ()
  split
  · exact absorb?_eq valid _
  · rfl

end Pipe

/-! ## Vetted programs -/

namespace Machine

/-- Halts unless the access goes well. -/
def vet (access : Option γ) : Machine τ ω Unit :=
  match access with
  | some _ => pure ()
  | none => throw (.misuse .unaddressable)

/-- A check makes no difference where it does not halt. -/
theorem mimics_vet {access : Option γ} {pre : World τ ω → Prop} {f : Unit → Machine τ ω α}
    {m : Machine τ ω α} {post : α → World τ ω → Prop} (rest : Mimics False id pre (f ()) m post) :
    Mimics False id pre (vet access >>= f) m post := by
  cases access with
  | none => exact .gives_up id _
  | some => exact rest

end Machine

open Machine

namespace Ring

/-- Offers spans of content, given by first cell and length, at most `max` bytes in all. -/
def writeSpansVetted (sink : Sink (Machine τ ω)) :
    List (Nat × Nat) → Nat → Ring → Machine τ ω (Ring × Bytes × Option Error)
  | [], _, r => pure (r, [], none)
  | (start, count) :: rest, max, r => do
    vet (r.slice? start (min count max))
    let offer := (r.cells.slice start (min count max)).toList
    if offer.isEmpty then pure (r, [], none)
    else do
      match ← sink.write offer with
      | .error e => pure (r, [], some e)
      | .ok count =>
        vet (guard (count ≤ offer.length ∧ count ≤ max) : Option Unit)
        vet (r.consume count).toOption
        let taken := offer.take count
        let r := r.discard taken.length
        if taken.length < offer.length then pure (r, taken, none)
        else
          let (r, more, failure) ← writeSpansVetted sink rest (max - taken.length) r
          pure (r, taken ++ more, failure)

/-- Writes at most `max` bytes of content into a sink. -/
def writeToVetted (r : Ring) (sink : Sink (Machine τ ω)) (max : Nat) : Machine τ ω Outflow :=
  if r.cleaned then pure ⟨r, [], .error (.closed .write)⟩
  else do
    vet (guard (r.head ≤ r.capacity) : Option Unit)
    let (r, moved, failure) ← writeSpansVetted sink r.usedSpans max r
    match failure with
    | some e => pure ⟨r, moved, .error e⟩
    | none => pure ⟨r, moved, .ok moved.length⟩

end Ring

variable [Inhabited τ]

namespace SharedRing

/-- Stores as much of `data` as fits. -/
def storeVetted (o : Owner τ ω) (id : RingId) (data : Bytes) :
    Machine τ ω (Except Error Nat) := do
  vet ((← getRing id).store? data)
  store o id data

/-- A shared ring as a sink. -/
def sinkVetted (o : Owner τ ω) (id : RingId) : Sink (Machine τ ω) := ⟨storeVetted o id⟩

end SharedRing

namespace Pipe

variable [Transform τ]

/-- Calls the transform once. -/
def transformOnceVetted (p : PipeId) : Machine τ ω (Except Error Bool) := do
  let pipe ← getPipe p
  if pipe.isReady then
    vet pipe.advance?
    let advanced := pipe.advance p
    modifyPipe p fun _ => advanced.pipe
    recordAll advanced.events
    insist advanced.outcome
  else return .ok false

/-- The manner of vetted runs. -/
def vetted (o : Owner τ ω) : Manner τ ω Unit where
  room := Ring.free?
  front := Queue.popFront?
  pour d segment room := segment.writeToVetted (SharedRing.sinkVetted o d) room
  transform := transformOnceVetted
  poured _ _ := ()
  called _ _ _ := ()

/-- Runs a pipe, unless a run is in progress. -/
def runVetted (o : Owner τ ω) (p : PipeId) : Machine τ ω Unit :=
  (vetted o).run o p () fun _ => Manner.ending o p

end Pipe

/-! ## Vetted runs are runs -/

namespace Ring

omit [Inhabited τ] in
theorem mimics_writeSpans {sink sink' : Sink (Machine τ ω)}
    (writes : ∀ offered, Mimics False id (fun _ => True) (sink.write offered)
      (sink'.write offered) fun _ _ => True)
    (spans : List (Nat × Nat)) (max : Nat) (r : Ring) :
    Mimics False id (fun _ => True) (writeSpansVetted sink spans max r)
      (writeSpans sink' spans max r) fun _ _ => True := by
  induction spans generalizing max r with
  | nil => exact .same
  | cons span spans ih =>
      obtain ⟨start, count⟩ := span
      unfold writeSpansVetted writeSpans
      refine mimics_vet ?_
      dsimp only
      split
      · exact .same
      · refine (writes _).bind fun answer => ?_
        cases answer with
        | error e => exact .same
        | ok count =>
            refine mimics_vet (mimics_vet ?_)
            dsimp only [id]
            split
            · exact .same
            · exact (ih _ _).bind fun _ => .same

omit [Inhabited τ] in
theorem mimics_writeTo {sink sink' : Sink (Machine τ ω)}
    (writes : ∀ offered, Mimics False id (fun _ => True) (sink.write offered)
      (sink'.write offered) fun _ _ => True) (r : Ring) (max : Nat) :
    Mimics False id (fun _ => True) (r.writeToVetted sink max) (r.writeTo sink' max)
      fun _ _ => True := by
  unfold writeToVetted writeTo
  split
  · exact .same
  · exact mimics_vet ((mimics_writeSpans writes _ _ _).bind fun _ => .same)

end Ring

theorem SharedRing.mimics_store {o o' : Owner τ ω} (below : o.Below o') (d : RingId)
    (data : Bytes) :
    Mimics False id (fun _ => True) (storeVetted o d data) (store o' d data) fun _ _ => True := by
  obtain ⟨passes, rfl⟩ := below.exists_passes
  refine ⟨fun w _ _ _ ran => ?_, False.elim⟩
  have looked : storeVetted o d data w =
      (vet ((w.rings.get d).ring.store? data) >>= fun _ => store o d data) w := rfl
  have checked : Mimics False id (fun _ => True)
      (vet ((w.rings.get d).ring.store? data) >>= fun _ => store o d data) (store o d data)
      fun _ _ => True := mimics_vet .same
  rw [looked] at ran
  exact checked.ends trivial ran

namespace Pipe

variable [Transform τ] {o o' : Owner τ ω} (below : o.Below o') (p : PipeId)

theorem mimics_transformOnce :
    Mimics False id (fun _ : World τ ω => True) (transformOnceVetted p) (transformOnce p)
      fun _ _ => True := by
  refine .next (keeps_getPipe p) fun pipe => ?_
  split
  · exact mimics_vet .same
  · exact .same

include below

/-- Nothing has to be known of the world: where an access goes wrong, a vetted run halts. -/
theorem follows_vetted : (vetted o).Follows o o' p False fun _ _ => True where
  below := below
  exact := False.elim
  room := by
    intro ring room found
    obtain ⟨_, _, found⟩ := Option.bind_eq_some_iff.1 found
    cases found
    rfl
  front := by
    intro queue front found
    dsimp only [vetted] at found
    unfold Queue.popFront? at found
    cases popped : queue.popFront with
    | none =>
        rw [popped] at found
        cases found
        rfl
    | some out =>
        rw [popped] at found
        obtain ⟨_, _, found⟩ := Option.bind_eq_some_iff.1 found
        cases found
        rfl
  total := False.elim
  log _ _ := keeps_fact
  pours _ _ _ := (Ring.mimics_writeTo (SharedRing.mimics_store below _) _ _).of_imp
    (fun _ _ => trivial) fun _ _ _ => ⟨fun _ => trivial, fun _ _ => trivial, fun _ _ _ _ => trivial⟩
  transforms _ := (mimics_transformOnce p).of_imp (fun _ _ => trivial) fun _ _ => id

/-- A vetted run that comes to its end is a run, also if more passes are granted. -/
theorem run_of_runVetted {w w' : World τ ω} (ran : runVetted o p w = .ok () w') :
    run o' p w = .ok () w' := by
  have enters : Ensures (fun _ : World τ ω => True)
      (modifyPipe p fun pipe => { pipe with calls := pipe.calls + 1 }) fun _ _ => True := keeps_fact
  have fails (s : Unit) (e : Error) :
      Ensures (fun _ : World τ ω => True) (fail o p e) fun _ _ => True := keeps_fact
  have mimics : Mimics False id (fun _ => True) (runVetted o p) (run o' p) fun _ _ => True :=
    (follows_vetted below p).run fails (fun _ _ => id) () enters (fun _ _ _ => trivial)
      fun _ => .same
  exact (mimics.ends trivial ran).1

end Pipe

end ByteFlow
