/-
# What survives a halt

A run that halts, because a promise was broken or because passes ran out, leaves the world as it was
at that moment, and whoever catches the halt goes on from there. `Upholds inv pre m post` speaks of
all runs: at the end `post` holds, and at a halt the invariant does. `Preserves inv m` is the
special case in which the invariant is all there is before and after.

A handler that is told of an edge sees the world in the middle of a call, which may never come to
its end. So what holds of every world that a program can ever look at is no matter of the ends of
calls only.
-/

import ByteFlow.Proofs.Conduct
import ByteFlow.Proofs.Elsewhere

namespace ByteFlow.Machine

variable {τ ω α β : Type}

/-- The world that a run leaves, whether it comes to its end or halts. -/
def left (m : Machine τ ω α) (w : World τ ω) : World τ ω :=
  match m w with
  | .ok _ w' => w'
  | .error _ w' => w'

theorem left_of_ok {m : Machine τ ω α} {w w' : World τ ω} {a : α} (ran : m w = .ok a w') :
    m.left w = w' := by
  unfold left
  rw [ran]

/-- If `m` is started where `pre` holds, then `post` holds of what it gives back and of the world at
its end; and if it halts before, the invariant holds there. -/
def Upholds (inv pre : World τ ω → Prop) (m : Machine τ ω α) (post : α → World τ ω → Prop) :
    Prop :=
  ∀ ⦃w⦄, pre w →
    match m w with
    | .ok a w' => post a w'
    | .error _ w' => inv w'

/-- If `m` is started where the invariant holds, the invariant holds when it stops, in any way. -/
def Preserves (inv : World τ ω → Prop) (m : Machine τ ω α) : Prop := Upholds inv inv m fun _ => inv

variable {inv pre : World τ ω → Prop} {post : α → World τ ω → Prop} {m : Machine τ ω α}

theorem preserves_iff : Preserves inv m ↔ ∀ w, inv w → inv (m.left w) := by
  constructor
  · intro h w holds
    have after := h holds
    unfold left
    cases ran : m w <;> rw [ran] at after <;> exact after
  · intro h w holds
    have after := h w holds
    unfold left at after
    cases ran : m w <;> rw [ran] at after <;> exact after

theorem Upholds.of_imp {pre' : World τ ω → Prop} {post' : α → World τ ω → Prop}
    (h : Upholds inv pre m post) (before : ∀ w, pre' w → pre w)
    (after : ∀ a w, post a w → post' a w) : Upholds inv pre' m post' := by
  intro w holds
  have out := h (before w holds)
  cases ran : m w with
  | ok a w' =>
      rw [ran] at out
      exact after a w' out
  | error halt w' =>
      rw [ran] at out
      exact out

/-- What is known of the ends of a computation can be used besides what it upholds. -/
theorem Upholds.and_ensures {fact : World τ ω → Prop} {post' : α → World τ ω → Prop}
    (h : Upholds inv pre m post) (ends : Ensures fact m post') :
    Upholds inv (fun w => pre w ∧ fact w) m fun a w => post a w ∧ post' a w := by
  intro w ⟨holds, known⟩
  have out := h holds
  cases ran : m w with
  | ok a w' =>
      rw [ran] at out
      exact ⟨out, ends known ran⟩
  | error halt w' =>
      rw [ran] at out
      exact out

/-- A halt leaves less than what was asked for. -/
theorem Upholds.halt_imp {weaker : World τ ω → Prop} (h : Upholds inv pre m post)
    (weaken : ∀ w, inv w → weaker w) : Upholds weaker pre m post := by
  intro w holds
  have out := h holds
  cases ran : m w with
  | ok a w' =>
      rw [ran] at out
      exact out
  | error halt w' =>
      rw [ran] at out
      exact weaken w' out

theorem upholds_pure {a : α} (h : ∀ w, pre w → post a w) :
    Upholds inv pre (pure a : Machine τ ω α) post :=
  h

theorem preserves_pure (a : α) : Preserves inv (pure a : Machine τ ω α) := fun _ => id

theorem upholds_throw {halt : Halt} (h : ∀ w, pre w → inv w) :
    Upholds inv pre (throw halt : Machine τ ω α) post :=
  h

theorem upholds_modify {f : World τ ω → World τ ω} {post : Unit → World τ ω → Prop}
    (h : ∀ w, pre w → post () (f w)) : Upholds inv pre (modify f : Machine τ ω Unit) post :=
  h

theorem upholds_updateRing {r : RingId} {f : Ring → α × Ring}
    (h : ∀ w, pre w → post (f (w.rings.get r).ring).1
      { w with
        rings := w.rings.set r { w.rings.get r with ring := (f (w.rings.get r).ring).2 } }) :
    Upholds inv pre (updateRing r f) post := by
  intro w holds
  rw [updateRing_eq]
  exact h w holds

theorem Upholds.bind {mid : α → World τ ω → Prop} {f : α → Machine τ ω β}
    {post : β → World τ ω → Prop} (first : Upholds inv pre m mid)
    (second : ∀ a, Upholds inv (mid a) (f a) post) : Upholds inv pre (m >>= f) post := by
  intro w holds
  have out := first holds
  cases ran : m w with
  | ok a between =>
      rw [ran] at out
      rw [bind_of_ok ran]
      exact second a out
  | error halt w' =>
      rw [ran] at out
      rw [bind_of_error ran]
      exact out

theorem Preserves.bind {f : α → Machine τ ω β} (first : Preserves inv m)
    (second : ∀ a, Preserves inv (f a)) : Preserves inv (m >>= f) :=
  Upholds.bind first second

theorem closed_preserves (inv : World τ ω → Prop) :
    Closed fun _ (m : Machine τ ω _) => Preserves inv m where
  gives := preserves_pure
  looks := fun _ => id
  andThen := Preserves.bind

/-- What is done on a halt before it goes on starts from what the halt left. -/
theorem Upholds.onHalt {halted : World τ ω → Prop} {cleanup : Machine τ ω β}
    (h : Upholds halted pre m post) (cleans : Upholds inv halted cleanup fun _ => inv) :
    Upholds inv pre (tryCatch m fun halt => do let _ ← cleanup; throw halt) post := by
  intro w holds
  have out := h holds
  change match EStateM.tryCatch m _ w with
    | .ok a w' => post a w'
    | .error _ w' => inv w'
  unfold EStateM.tryCatch
  cases ran : m w with
  | ok a w' =>
      rw [ran] at out
      exact out
  | error halt w' =>
      rw [ran] at out
      have again : Upholds inv halted (do let _ ← cleanup; throw halt : Machine τ ω α) post :=
        cleans.bind fun _ => upholds_throw fun _ => id
      exact again out

theorem Upholds.ensuring {halted : World τ ω → Prop} {mid : α → World τ ω → Prop}
    {cleanup : Machine τ ω Unit} (h : Upholds halted pre m mid)
    (rescues : Upholds inv halted cleanup fun _ => inv)
    (cleans : ∀ a, Upholds inv (mid a) cleanup fun _ => post a) :
    Upholds inv pre (ensuring m cleanup) post :=
  (h.onHalt rescues).bind fun a => (cleans a).bind fun _ => upholds_pure fun _ => id

theorem Preserves.ensuring {cleanup : Machine τ ω Unit} (h : Preserves inv m)
    (cleans : Preserves inv cleanup) : Preserves inv (ensuring m cleanup) :=
  Upholds.ensuring h cleans fun _ => cleans

/-- What holds of each world that a computation may start from, can be used to prove what it
upholds. -/
theorem Upholds.pointwise (h : ∀ w, pre w → Upholds inv (· = w) m post) :
    Upholds inv pre m post :=
  fun _ holds => h _ holds rfl

theorem Upholds.here {w : World τ ω} (holds : pre w) (h : Upholds inv pre m post) :
    Upholds inv (· = w) m post :=
  h.of_imp (fun _ same => same ▸ holds) fun _ _ => id

theorem Upholds.at_getRing {r : RingId} {f : Ring → Machine τ ω β} {w : World τ ω}
    {post : β → World τ ω → Prop} (h : Upholds inv (· = w) (f (w.rings.get r).ring) post) :
    Upholds inv (· = w) (getRing r >>= f) post := by
  rintro _ rfl
  exact h rfl

theorem Upholds.at_record {event : Event} {f : Unit → Machine τ ω β} {w : World τ ω}
    {post : β → World τ ω → Prop}
    (h : Upholds inv (· = { w with journal := event :: w.journal }) (f ()) post) :
    Upholds inv (· = w) (record event >>= f) post := by
  rintro _ rfl
  exact h rfl

/-- A ring that is filled from a source stays valid, whatever else the source keeps. -/
theorem upholds_storeFrom {source : Source (Machine τ ω)}
    (reads : ∀ wanted, Preserves inv (source.read wanted)) (ends : Preserves inv source.isEnded)
    (r : Ring) :
    Upholds inv inv (r.storeFrom source) fun intake w =>
      inv w ∧ (r.Valid → r.Fills intake.moved intake.ring) := by
  have kept := Ring.closed_storeFrom (closed_preserves inv) reads ends r
  have fills : Ensures (fun _ : World τ ω => True) (r.storeFrom source) fun intake _ =>
      r.Valid → r.Fills intake.moved intake.ring := by
    intro w intake w' holds ran valid
    have reads (wanted : Nat) : Keeps (fun _ => True) (source.read wanted) := keeps_fact
    exact (Ring.ensures_storeFrom reads keeps_fact valid holds ran).2
  exact (kept.and_ensures fills).of_imp (fun _ h => ⟨h, trivial⟩) fun _ _ => id

/-- A ring that is written out stays valid, whatever else the sink keeps. -/
theorem upholds_writeTo {inv : World τ ω → Prop} {sink : Sink (Machine τ ω)}
    (writes : ∀ offered, Preserves inv (sink.write offered)) (r : Ring) (max : Nat) :
    Upholds inv inv (r.writeTo sink max) fun outflow w =>
      inv w ∧ (r.Valid → r.Drains outflow.moved outflow.ring) := by
  have kept := Ring.closed_writeTo (closed_preserves inv) writes r max
  have drains : Ensures (fun _ : World τ ω => True) (r.writeTo sink max) fun outflow _ =>
      r.Valid → r.Drains outflow.moved outflow.ring := by
    intro w outflow w' holds ran valid
    have answers (offered : Bytes) :
        Ensures (fun _ => True) (sink.write offered) fun _ _ => True ∧ True :=
      fun _ _ _ _ _ => ⟨trivial, trivial⟩
    exact (Ring.ensures_writeTo answers valid max holds ran).2.drains
  exact (kept.and_ensures drains).of_imp (fun _ h => ⟨h, trivial⟩) fun _ _ => id

variable [Inhabited τ]

theorem upholds_modifyPipe {p : PipeId} {f : Pipe τ → Pipe τ} {post : Unit → World τ ω → Prop}
    (h : ∀ w, pre w → post () { w with pipes := w.pipes.set p (f (w.pipes.get p)) }) :
    Upholds inv pre (modifyPipe p f) post :=
  h

/-- What is read of a pipe is what the world has. -/
theorem Upholds.at_getPipe {p : PipeId} {f : Pipe τ → Machine τ ω β} {w : World τ ω}
    {post : β → World τ ω → Prop} (h : Upholds inv (· = w) (f (w.pipes.get p)) post) :
    Upholds inv (· = w) (getPipe p >>= f) post := by
  rintro _ rfl
  exact h rfl

theorem Upholds.at_modifyPipe {p : PipeId} {g : Pipe τ → Pipe τ} {f : Unit → Machine τ ω β}
    {w : World τ ω} {post : β → World τ ω → Prop}
    (h : Upholds inv (· = { w with pipes := w.pipes.set p (g (w.pipes.get p)) }) (f ()) post) :
    Upholds inv (· = w) (modifyPipe p g >>= f) post := by
  rintro _ rfl
  exact h rfl

/-- However it stops, to make a pipe changes nothing, or opens the pipe. -/
theorem left_create (direction : Direction) (d : RingId) (transform : τ) (options : PipeOptions)
    (w : World τ ω) :
    (Pipe.create direction d transform options).left w = w ∨ ∃ capacity entry,
      (Pipe.create direction d transform options).left w =
        { w.opened direction d transform options capacity with
          journal := .logged entry ::
            (w.opened direction d transform options capacity).journal } := by
  unfold Pipe.create
  split
  · exact .inl rfl
  · dsimp only
    let capacity := options.sourceCapacity.getD (w.rings.get d).ring.capacity
    change (if capacity = 0 then _ else _ : Machine τ ω (Except Error PipeId)).left w = w ∨
      ∃ _ _, (if capacity = 0 then _ else _ : Machine τ ω (Except Error PipeId)).left w = _
    split
    · exact .inl rfl
    · cases created : Ring.create capacity options.sourceRegion with
      | error misuse => exact .inl rfl
      | ok source =>
          obtain ⟨_, rfl⟩ := Ring.create_eq_ok_iff.1 created
          exact .inr ⟨capacity, _, rfl⟩

/-- To register a handler with a pipe adds to the handlers of this pipe, and does nothing else to
any pipe. -/
theorem left_addHandler (q : PipeId) (handler : HandlerId) (w : World τ ω) (p : PipeId) :
    ∃ handlers, ((Pipe.addHandler q handler).left w).pipes.get p =
        { w.pipes.get p with handlers } ∧
      (∀ other ∈ (w.pipes.get p).handlers, other ∈ handlers) ∧
      ((w.pipes.get p).handlers.Nodup → handlers.Nodup) := by
  by_cases own : q = p
  · subst own
    let handlers := enlist (w.pipes.get q).handlers handler
    have more : ∀ other ∈ (w.pipes.get q).handlers, other ∈ handlers :=
      fun other member => mem_enlist.2 (.inl member)
    exact ⟨handlers, (Table.get_set _ _ _ _).trans (if_pos rfl), more,
      fun nodup => nodup_enlist nodup handler⟩
  · exact ⟨_, (Table.get_set _ _ _ _).trans (if_neg own), fun _ => id, id⟩

/-! ## Edges

An invariant that looks neither at the journal nor at the rings, nor at how many calls of a pipe are
in progress, survives all edges if the handlers preserve it. -/

/-- The invariant is about pipes and the owner, and about no call of a pipe that is in progress. -/
structure Aloof (inv : World τ ω → Prop) : Prop where
  journal : ∀ (w : World τ ω) journal, inv w → inv { w with journal }
  rings : ∀ (w : World τ ω) rings, inv w → inv { w with rings }
  calls : ∀ p (f : Nat → Nat),
    Preserves inv (modifyPipe p fun pipe => { pipe with calls := f pipe.calls })

namespace Aloof

theorem record (aloof : Aloof inv) (event : Event) : Preserves inv (record event) :=
  fun w => aloof.journal w _

theorem modifyShared (aloof : Aloof inv) (r : RingId) (f : SharedRing → SharedRing) :
    Preserves inv (modifyShared r f) :=
  fun w => aloof.rings w _

theorem updateRing (aloof : Aloof inv) (r : RingId) (f : Ring → α × Ring) :
    Preserves inv (updateRing r f) :=
  fun w => aloof.rings w _

theorem retire (aloof : Aloof inv) (p : PipeId) : Preserves inv (Pipe.retire p) :=
  (closed_preserves inv).retire fun r => aloof.modifyShared r _

theorem during (aloof : Aloof inv) {body : Machine τ ω α} (h : Preserves inv body) (p : PipeId) :
    Preserves inv (Pipe.during p body) := by
  apply (aloof.calls p (· + 1)).bind
  intro _
  apply h.ensuring
  exact (aloof.calls p (· - 1)).bind fun _ => aloof.retire p

theorem admits (aloof : Aloof inv) : Admits fun _ (m : Machine τ ω _) => Preserves inv m where
  toClosed := closed_preserves inv
  log _ := aloof.record _
  announce _ _ _ := aloof.record _
  listen p _ h := by
    apply ((closed_preserves inv).getPipe p).bind
    intro pipe
    split
    · exact aloof.during h p
    · exact preserves_pure _
  shared := aloof.modifyShared
  updated := aloof.updateRing
  delivered _ _ := aloof.record _
  called := aloof.during

end Aloof

end ByteFlow.Machine

namespace ByteFlow

open Machine

variable {τ ω α : Type} [Inhabited τ] [Transform τ] {rules : Rules τ ω}

/-- An invariant that survives each permitted call, as soon as the handlers and streams preserve it,
survives a whole program, also one that halts. -/
theorem Conduct.preserves {inv : World τ ω → Prop} {m : Machine τ ω α} (h : Conduct rules m)
    (aside : ∀ {α : Type} {m : Machine τ ω α}, rules.ignores m → Preserves inv m)
    (called : ∀ {α : Type} {o : Owner τ ω} {c : Call τ ω α}, rules.permits c →
      (∀ source, c.source? = some source → ∀ wanted, Preserves inv (source.read wanted)) →
      (∀ source, c.source? = some source → Preserves inv source.isEnded) →
      (∀ sink, c.sink? = some sink → ∀ offered, Preserves inv (sink.write offered)) →
      (∀ handler edge, Preserves inv (o.react handler edge)) → Preserves inv (c.perform o)) :
    Preserves inv m := by
  refine h.has (K := fun _ _ m => Preserves inv m) (fun _ => closed_preserves _)
    (fun _ _ _ => upholds_throw fun _ => id) (fun ignores _ => aside ignores) ?_ ()
  intro β o c permitted reads ended writes reacts _
  exact called permitted (fun source eq wanted => reads source eq wanted ())
    (fun source eq => ended source eq ()) (fun sink eq offered => writes sink eq offered ())
    (reacts ())

end ByteFlow
