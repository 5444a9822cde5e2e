/-
# What a machine ensures

Partial correctness for computations on the world. `Ensures pre m post` speaks of the runs of `m`
that come to their end; a run that halts before, because a promise was broken or because passes ran
out, leaves a call in progress, and nothing is claimed of the world at that moment.

`Keeps inv m` is the special case of an invariant. Handlers are arbitrary computations, so what is
proved of a call that may be interrupted by them always rests on what they keep.
-/

import ByteFlow.World

namespace ByteFlow.Machine

variable {τ ω α β : Type}

/-- If `m` is started where `pre` holds and comes to its end, `post` holds of what it gives back and
of the world it leaves. -/
def Ensures (pre : World τ ω → Prop) (m : Machine τ ω α) (post : α → World τ ω → Prop) : Prop :=
  ∀ ⦃w a w'⦄, pre w → m w = .ok a w' → post a w'

/-- If `m` is started where the invariant holds and comes to its end, the invariant holds again. -/
def Keeps (inv : World τ ω → Prop) (m : Machine τ ω α) : Prop := Ensures inv m fun _ => inv

variable {pre inv : World τ ω → Prop} {post : α → World τ ω → Prop} {m : Machine τ ω α}

/-- A run of two computations in turn passes through the world between them. -/
theorem bind_eq_ok {f : α → Machine τ ω β} {w w' : World τ ω} {b : β} :
    (m >>= f) w = .ok b w' ↔ ∃ a between, m w = .ok a between ∧ f a between = .ok b w' := by
  change EStateM.bind m f w = _ ↔ _
  unfold EStateM.bind
  cases m w with
  | ok a between =>
      refine ⟨fun ran => ⟨a, between, rfl, ran⟩, ?_⟩
      rintro ⟨_, _, same, ran⟩
      cases same
      exact ran
  | error halt between =>
      constructor
      · intro ran
        cases ran
      · rintro ⟨_, _, same, _⟩
        cases same

/-- After a run that ends the computation goes on from there. -/
theorem bind_of_ok {f : α → Machine τ ω β} {w w' : World τ ω} {a : α} (ran : m w = .ok a w') :
    (m >>= f) w = f a w' := by
  change EStateM.bind m f w = _
  rw [EStateM.bind, ran]

/-- After a run that halts nothing comes. -/
theorem bind_of_error {f : α → Machine τ ω β} {w w' : World τ ω} {halt : Halt}
    (ran : m w = .error halt w') : (m >>= f) w = .error halt w' := by
  change EStateM.bind m f w = _
  rw [EStateM.bind, ran]

/-- A run that ends needs no rescue. -/
theorem tryCatch_of_ok {handle : Halt → Machine τ ω α} {w w' : World τ ω} {a : α}
    (ran : m w = .ok a w') : tryCatch m handle w = .ok a w' := by
  change EStateM.tryCatch m handle w = _
  unfold EStateM.tryCatch
  rw [ran]

/-- A run that halts is rescued where it has halted. -/
theorem tryCatch_of_error {handle : Halt → Machine τ ω α} {w w' : World τ ω} {halt : Halt}
    (ran : m w = .error halt w') : tryCatch m handle w = handle halt w' := by
  change EStateM.tryCatch m handle w = _
  unfold EStateM.tryCatch
  rw [ran]
  rfl

/-- Whether a run comes to its end, with a result and a world that pass a test. -/
def ends (m : Machine τ ω α) (w : World τ ω) (test : α → World τ ω → Bool) : Bool :=
  match m w with
  | .ok a w' => test a w'
  | .error _ _ => false

theorem ends_iff {w : World τ ω} {test : α → World τ ω → Bool} :
    m.ends w test ↔ ∃ a w', m w = .ok a w' ∧ test a w' := by
  unfold ends
  cases m w with
  | ok a w' =>
      refine ⟨fun passed => ⟨a, w', rfl, passed⟩, ?_⟩
      rintro ⟨_, _, same, passed⟩
      cases same
      exact passed
  | error halt w' =>
      constructor
      · nofun
      · rintro ⟨_, _, same, _⟩
        cases same

theorem eq_ok_of_toOption {ε : Type} {result : Except ε α} {a : α}
    (ok : result.toOption = some a) : result = .ok a := by
  cases result with
  | error e => cases ok
  | ok b =>
      cases ok
      rfl

theorem Ensures.of_imp {pre' : World τ ω → Prop} {post' : α → World τ ω → Prop}
    (h : Ensures pre m post) (before : ∀ w, pre' w → pre w)
    (after : ∀ a w, post a w → post' a w) : Ensures pre' m post' :=
  fun _ _ _ holds ran => after _ _ (h (before _ holds) ran)

theorem Ensures.post_imp {post' : α → World τ ω → Prop} (h : Ensures pre m post)
    (after : ∀ a w, post a w → post' a w) : Ensures pre m post' :=
  h.of_imp (fun _ => id) after

theorem Ensures.pre_imp {pre' : World τ ω → Prop} (h : Ensures pre m post)
    (before : ∀ w, pre' w → pre w) : Ensures pre' m post :=
  h.of_imp before fun _ _ => id

/-- What holds wherever a computation may start can be used to prove what it ensures. -/
theorem Ensures.assuming {fact : Prop} (implied : ∀ w, pre w → fact)
    (h : fact → Ensures pre m post) : Ensures pre m post :=
  fun _ _ _ holds ran => h (implied _ holds) holds ran

/-- What a computation ensures for two reasons, it ensures together. -/
theorem Ensures.and {pre' : World τ ω → Prop} {post' : α → World τ ω → Prop}
    (h : Ensures pre m post) (h' : Ensures pre' m post') :
    Ensures (fun w => pre w ∧ pre' w) m fun a w => post a w ∧ post' a w :=
  fun _ _ _ ⟨holds, holds'⟩ ran => ⟨h holds ran, h' holds' ran⟩

/-- What does not depend on the world survives every computation. -/
theorem keeps_fact {fact : Prop} : Keeps (fun _ => fact) m := fun _ _ _ holds _ => holds

theorem ensures_pure {a : α} (h : ∀ w, pre w → post a w) :
    Ensures pre (pure a : Machine τ ω α) post := by
  intro w b w' holds ran
  cases ran
  exact h w holds

theorem keeps_pure (a : α) : Keeps inv (pure a : Machine τ ω α) := ensures_pure fun _ => id

theorem Ensures.bind {mid : α → World τ ω → Prop} {f : α → Machine τ ω β}
    {post : β → World τ ω → Prop} (first : Ensures pre m mid)
    (second : ∀ a, Ensures (mid a) (f a) post) : Ensures pre (m >>= f) post := by
  intro w b w' holds ran
  obtain ⟨a, between, ran_first, ran_second⟩ := bind_eq_ok.1 ran
  exact second a (first holds ran_first) ran_second

theorem Keeps.bind {f : α → Machine τ ω β} (first : Keeps inv m)
    (second : ∀ a, Keeps inv (f a)) : Keeps inv (m >>= f) :=
  Ensures.bind first second

/-- A property of computations that wholes have if their parts do. To look at the world has it. -/
structure Closed (K : ∀ α : Type, Machine τ ω α → Prop) : Prop where
  gives : ∀ {α : Type} (a : α), K α (pure a)
  looks : K (World τ ω) get
  andThen : ∀ {α β : Type} {m : Machine τ ω α} {f : α → Machine τ ω β}, K α m →
    (∀ a, K β (f a)) → K β (m >>= f)

namespace Closed

variable {K : ∀ α : Type, Machine τ ω α → Prop}

theorem getShared (closed : Closed K) (r : RingId) : K _ (getShared r) :=
  closed.andThen closed.looks fun _ => closed.gives _

theorem getRing (closed : Closed K) (r : RingId) : K _ (getRing r) :=
  closed.andThen closed.looks fun _ => closed.gives _

theorem getPipe [Inhabited τ] (closed : Closed K) (p : PipeId) : K _ (getPipe p) :=
  closed.andThen closed.looks fun _ => closed.gives _

theorem forM (closed : Closed K) {γ : Type} {f : γ → Machine τ ω PUnit} {list : List γ}
    (h : ∀ c ∈ list, K _ (f c)) : K _ (list.forM f) := by
  induction list with
  | nil => exact closed.gives _
  | cons c rest ih =>
      exact closed.andThen (h c List.mem_cons_self) fun _ => ih fun d member => h d (.tail _ member)

/-- A computation that may be left out before a result is given back. -/
theorem perhaps (closed : Closed K) {m : Machine τ ω Unit} (h : K _ m) (c : Prop) [Decidable c]
    (a : α) :
    K α (do
      if c then
        m
      return a) := by
  split
  · exact closed.andThen h fun _ => closed.gives _
  · exact closed.gives _

end Closed

theorem keeps_get : Keeps inv (get : Machine τ ω (World τ ω)) := by
  intro w a w' holds ran
  cases ran
  exact holds

theorem closed_keeps (inv : World τ ω → Prop) :
    Closed fun _ (m : Machine τ ω _) => Keeps inv m where
  gives := keeps_pure
  looks := keeps_get
  andThen := Keeps.bind

theorem ensures_throw (halt : Halt) : Ensures pre (throw halt : Machine τ ω α) post := by
  intro w a w' _ ran
  cases ran

theorem ensures_modify {f : World τ ω → World τ ω} {post : Unit → World τ ω → Prop}
    (h : ∀ w, pre w → post () (f w)) : Ensures pre (modify f : Machine τ ω Unit) post := by
  intro w a w' holds ran
  cases ran
  exact h w holds

/-- A handler that always goes on halting adds no end to the runs of a computation. -/
theorem ensures_tryCatch {handle : Halt → Machine τ ω α} (h : Ensures pre m post)
    (goes_on : ∀ halt, Ensures (fun _ => True) (handle halt) fun _ _ => False) :
    Ensures pre (tryCatch m handle) post := by
  intro w a w' holds ran
  change EStateM.tryCatch m handle w = _ at ran
  unfold EStateM.tryCatch at ran
  cases body : m w with
  | ok b between =>
      rw [body] at ran
      cases ran
      exact h holds body
  | error halt between =>
      rw [body] at ran
      exact (goes_on halt trivial ran).elim

/-- What is done on a halt before it goes on does not matter at an end that is no halt. -/
theorem Ensures.onHalt {cleanup : Machine τ ω β} (h : Ensures pre m post) :
    Ensures pre (tryCatch m fun halt => do let _ ← cleanup; throw halt) post := by
  have forgets : Ensures (fun _ => True) cleanup fun _ _ => True := fun _ _ _ _ _ => trivial
  exact ensures_tryCatch h fun halt => forgets.bind fun _ => ensures_throw halt

/-- What comes after every end of a computation comes after its ends that do not halt. -/
theorem Ensures.ensuring {mid : α → World τ ω → Prop} {cleanup : Machine τ ω Unit}
    (body : Ensures pre m mid) (after : ∀ a, Ensures (mid a) cleanup fun _ => post a) :
    Ensures pre (ensuring m cleanup) post := by
  refine body.onHalt.bind fun a => ?_
  exact (after a).bind fun _ => ensures_pure fun _ => id

theorem keeps_forM {γ : Type} {f : γ → Machine τ ω PUnit} {list : List γ}
    (h : ∀ c ∈ list, Keeps inv (f c)) : Keeps inv (list.forM f) :=
  (closed_keeps inv).forM h

/-- If one step of a loop leads from one invariant to another and every step keeps both, the whole
loop leads from the one to the other. -/
theorem ensures_forM_of_mem {γ : Type} {f : γ → Machine τ ω PUnit} {list : List γ} {c : γ}
    {goal : World τ ω → Prop} (member : c ∈ list) (leads : Ensures inv (f c) fun _ => goal)
    (before : ∀ d ∈ list, Keeps inv (f d)) (after : ∀ d ∈ list, Keeps goal (f d)) :
    Ensures inv (list.forM f) fun _ => goal := by
  induction member with
  | head rest =>
      exact leads.bind fun _ => keeps_forM fun d later => after d (.tail _ later)
  | tail d member ih =>
      refine Ensures.bind (before d List.mem_cons_self) fun _ => ?_
      exact ih (fun e later => before e (.tail _ later)) fun e later => after e (.tail _ later)

/-! ## The primitive steps -/

theorem ensures_record {event : Event} {post : Unit → World τ ω → Prop}
    (h : ∀ w, pre w → post () { w with journal := event :: w.journal }) :
    Ensures pre (record event) post :=
  ensures_modify h

theorem ensures_recordAll {events : List Event} {post : Unit → World τ ω → Prop}
    (h : ∀ w, pre w → post () { w with journal := events ++ w.journal }) :
    Ensures pre (recordAll events) post :=
  ensures_modify h

theorem ensures_modifyShared {r : RingId} {f : SharedRing → SharedRing}
    {post : Unit → World τ ω → Prop}
    (h : ∀ w, pre w → post () { w with rings := w.rings.set r (f (w.rings.get r)) }) :
    Ensures pre (modifyShared r f) post :=
  ensures_modify h

/-- To change a ring in its place is to put what becomes of it in its place. -/
theorem updateRing_eq (r : RingId) (f : Ring → α × Ring) (w : World τ ω) :
    updateRing r f w = .ok (f (w.rings.get r).ring).1
      { w with
        rings := w.rings.set r { w.rings.get r with ring := (f (w.rings.get r).ring).2 } } := by
  unfold updateRing
  simp only [Table.update_eq]
  rfl

theorem ensures_updateRing {r : RingId} {f : Ring → α × Ring}
    (h : ∀ w, pre w → post (f (w.rings.get r).ring).1
      { w with
        rings := w.rings.set r { w.rings.get r with ring := (f (w.rings.get r).ring).2 } }) :
    Ensures pre (updateRing r f) post := by
  intro w a w' holds ran
  rw [updateRing_eq] at ran
  cases ran
  exact h w holds

theorem keeps_getShared (r : RingId) : Keeps inv (getShared r) := (closed_keeps inv).getShared r

theorem keeps_getRing (r : RingId) : Keeps inv (getRing r) := (closed_keeps inv).getRing r

theorem ensures_insist {outcome : Except Misuse α}
    (h : ∀ a, outcome = .ok a → ∀ w, pre w → post a w) :
    Ensures pre (insist outcome : Machine τ ω α) post := by
  cases outcome with
  | ok a => exact ensures_pure (h a rfl)
  | error misuse => exact ensures_throw _

/-! ## From one world

Steps that only look at the world, or change a record in it, are followed best from a world that is
given: the next computation starts from a world that is known as well as the one before. -/

/-- What a computation ensures from each world of a kind, it ensures from that kind. -/
theorem Ensures.pointwise (h : ∀ w, pre w → Ensures (· = w) m post) : Ensures pre m post :=
  fun _ _ _ holds ran => h _ holds rfl ran

/-- From a world that is given, an invariant that holds there takes over. -/
theorem Ensures.here {w : World τ ω} (holds : pre w) (h : Ensures pre m post) :
    Ensures (· = w) m post :=
  h.pre_imp fun _ same => same ▸ holds

section Steps

variable {w : World τ ω} {post : β → World τ ω → Prop}

theorem Ensures.at_get {f : World τ ω → Machine τ ω β} (h : Ensures (· = w) (f w) post) :
    Ensures (· = w) (get >>= f) post := by
  rintro _ b w' rfl ran
  exact h rfl ran

theorem Ensures.at_getShared {r : RingId} {f : SharedRing → Machine τ ω β}
    (h : Ensures (· = w) (f (w.rings.get r)) post) : Ensures (· = w) (getShared r >>= f) post := by
  rintro _ b w' rfl ran
  exact h rfl ran

theorem Ensures.at_getRing {r : RingId} {f : Ring → Machine τ ω β}
    (h : Ensures (· = w) (f (w.rings.get r).ring) post) :
    Ensures (· = w) (getRing r >>= f) post := by
  rintro _ b w' rfl ran
  exact h rfl ran

theorem Ensures.at_modifyShared {r : RingId} {g : SharedRing → SharedRing}
    {f : Unit → Machine τ ω β}
    (h : Ensures (· = { w with rings := w.rings.set r (g (w.rings.get r)) }) (f ()) post) :
    Ensures (· = w) (modifyShared r g >>= f) post := by
  rintro _ b w' rfl ran
  exact h rfl ran

theorem Ensures.at_record {event : Event} {f : Unit → Machine τ ω β}
    (h : Ensures (· = { w with journal := event :: w.journal }) (f ()) post) :
    Ensures (· = w) (record event >>= f) post := by
  rintro _ b w' rfl ran
  exact h rfl ran

theorem Ensures.at_recordAll {events : List Event} {f : Unit → Machine τ ω β}
    (h : Ensures (· = { w with journal := events ++ w.journal }) (f ()) post) :
    Ensures (· = w) (recordAll events >>= f) post := by
  rintro _ b w' rfl ran
  exact h rfl ran

/-- A step of which the outcome is known. -/
theorem Ensures.at_ok {f : α → Machine τ ω β} {a : α} {w' : World τ ω} (ran : m w = .ok a w')
    (h : Ensures (· = w') (f a) post) : Ensures (· = w) (m >>= f) post := by
  rintro _ b w'' rfl out
  rw [bind_of_ok ran] at out
  exact h rfl out

theorem Ensures.at_insist {outcome : Except Misuse α} {f : α → Machine τ ω β}
    (h : ∀ a, outcome = .ok a → Ensures (· = w) (f a) post) :
    Ensures (· = w) (insist outcome >>= f) post := by
  cases outcome with
  | ok a => exact h a rfl
  | error misuse =>
      rintro _ b w' rfl ran
      cases ran

end Steps

variable [Inhabited τ]

theorem ensures_modifyPipe {p : PipeId} {f : Pipe τ → Pipe τ} {post : Unit → World τ ω → Prop}
    (h : ∀ w, pre w → post () { w with pipes := w.pipes.set p (f (w.pipes.get p)) }) :
    Ensures pre (modifyPipe p f) post :=
  ensures_modify h

theorem keeps_getPipe (p : PipeId) : Keeps inv (getPipe p) := (closed_keeps inv).getPipe p

section Steps

variable {w : World τ ω} {post : β → World τ ω → Prop}

theorem Ensures.at_getPipe {p : PipeId} {f : Pipe τ → Machine τ ω β}
    (h : Ensures (· = w) (f (w.pipes.get p)) post) : Ensures (· = w) (getPipe p >>= f) post := by
  rintro _ b w' rfl ran
  exact h rfl ran

theorem Ensures.at_modifyPipe {p : PipeId} {g : Pipe τ → Pipe τ} {f : Unit → Machine τ ω β}
    (h : Ensures (· = { w with pipes := w.pipes.set p (g (w.pipes.get p)) }) (f ()) post) :
    Ensures (· = w) (modifyPipe p g >>= f) post := by
  rintro _ b w' rfl ran
  exact h rfl ran

end Steps

end ByteFlow.Machine
