/-
# Computations that agree

A program can often be described by another one that says more plainly what happens: it writes to
other sinks, checks what it does, or takes notes. The two need not be the same everywhere, only from
the worlds in which the program is run.

`Mimics strict plain pre m m' post` says that `m` comes to no other ends than `m'` from where `pre`
holds, and that `post` holds there. What `m` gives back is more than what `m'` does; `plain` takes
off the rest. If it is `strict`, it halts as `m'` does too, and then the two are the same. Otherwise
it may halt where `m'` goes on, and what is shown of its ends is true of `m'`.
-/

import ByteFlow.Proofs.Survival

namespace ByteFlow

open Machine

variable {τ ω α β γ δ : Type}

/-- From where `pre` holds, `m` ends as `m'` does, where `post` holds. If it is `strict`, it also
halts as `m'` does. -/
structure Mimics (strict : Prop) (plain : β → α) (pre : World τ ω → Prop) (m : Machine τ ω β)
    (m' : Machine τ ω α) (post : β → World τ ω → Prop) : Prop where
  ends : ∀ ⦃w b w'⦄, pre w → m w = .ok b w' → m' w = .ok (plain b) w' ∧ post b w'
  halts : strict → ∀ ⦃w halt w'⦄, pre w → m w = .error halt w' → m' w = .error halt w'

namespace Mimics

variable {strict : Prop} {plain : β → α} {pre : World τ ω → Prop} {m : Machine τ ω β}
  {m' : Machine τ ω α} {post : β → World τ ω → Prop}

/-- A computation mimics itself, and what it ensures can be used besides. -/
theorem refl {m : Machine τ ω α} {post : α → World τ ω → Prop} (h : Ensures pre m post) :
    Mimics strict id pre m m post :=
  ⟨fun _ _ _ holds ran => ⟨ran, h holds ran⟩, fun _ _ _ _ _ => id⟩

@[inherit_doc refl]
theorem same {m : Machine τ ω α} : Mimics strict id pre m m fun _ _ => True :=
  .refl fun _ _ _ _ _ => trivial

theorem gives {b : β} (h : ∀ w, pre w → post b w) :
    Mimics strict plain pre (pure b) (pure (plain b)) post := by
  refine ⟨fun w _ _ holds ran => ?_, fun _ _ _ _ _ => nofun⟩
  cases ran
  exact ⟨rfl, h w holds⟩

theorem stops (halt : Halt) : Mimics strict plain pre (throw halt) (throw halt) post := by
  refine ⟨fun _ _ _ _ => nofun, fun _ _ _ _ _ ran => ?_⟩
  cases ran
  exact rfl

/-- What may halt where the other goes on, does. -/
theorem gives_up (lax : ¬ strict) (halt : Halt) : Mimics strict plain pre (throw halt) m' post :=
  ⟨fun _ _ _ _ => nofun, fun strictly => (lax strictly).elim⟩

theorem of_imp {pre' : World τ ω → Prop} {post' : β → World τ ω → Prop}
    (h : Mimics strict plain pre m m' post) (before : ∀ w, pre' w → pre w)
    (after : ∀ b w, post b w → post' b w) : Mimics strict plain pre' m m' post' :=
  ⟨fun w _ _ holds ran => (h.ends (before w holds) ran).imp_right (after _ _),
    fun strictly w _ _ holds ran => h.halts strictly (before w holds) ran⟩

theorem here {w : World τ ω} (holds : pre w) (h : Mimics strict plain pre m m' post) :
    Mimics strict plain (· = w) m m' post :=
  h.of_imp (fun _ same => same ▸ holds) fun _ _ => id

theorem pointwise (h : ∀ w, pre w → Mimics strict plain (· = w) m m' post) :
    Mimics strict plain pre m m' post :=
  ⟨fun w _ _ holds ran => (h w holds).ends rfl ran,
    fun strictly w _ _ holds ran => (h w holds).halts strictly rfl ran⟩

/-- If the first parts agree, and the rests do from where the first parts lead, the whole does. -/
theorem bind {plain' : γ → δ} {mid : β → World τ ω → Prop} {f : β → Machine τ ω γ}
    {f' : α → Machine τ ω δ} {post : γ → World τ ω → Prop}
    (first : Mimics strict plain pre m m' mid)
    (rest : ∀ b, Mimics strict plain' (mid b) (f b) (f' (plain b)) post) :
    Mimics strict plain' pre (m >>= f) (m' >>= f') post := by
  constructor
  · intro w c w' holds ran
    obtain ⟨b, between, ran, next⟩ := bind_eq_ok.1 ran
    obtain ⟨same, reached⟩ := first.ends holds ran
    rw [bind_of_ok same]
    exact (rest b).ends reached next
  · intro strictly w halt w' holds ran
    cases begun : m w with
    | ok b between =>
        obtain ⟨same, reached⟩ := first.ends holds begun
        rw [bind_of_ok begun] at ran
        rw [bind_of_ok same]
        exact (rest b).halts strictly reached ran
    | error halt' between =>
        rw [bind_of_error begun] at ran
        cases ran
        exact bind_of_error (first.halts strictly holds begun)

/-- Both begin with the same. -/
theorem next {n : Machine τ ω γ} {mid : γ → World τ ω → Prop} {f : γ → Machine τ ω β}
    {f' : γ → Machine τ ω α} (h : Ensures pre n mid)
    (rest : ∀ c, Mimics strict plain (mid c) (f c) (f' c) post) :
    Mimics strict plain pre (n >>= f) (n >>= f') post :=
  (Mimics.refl h).bind rest

/-- To give a note back besides makes no difference. -/
theorem note {n : Machine τ ω Unit} {b : β} (h : Ensures pre n fun _ => post b) :
    Mimics strict (fun _ => ()) pre (do n; return b) n post := by
  have plainly : n = do n; return () := (bind_pure n).symm
  rw [plainly, bind_assoc]
  exact .next h fun _ => .gives fun _ => id

/-- What is done on a halt before it goes on makes no difference. -/
theorem onHalt {cleanup : Machine τ ω γ} (h : Mimics strict plain pre m m' post) :
    Mimics strict plain pre (tryCatch m fun halt => do let _ ← cleanup; throw halt)
      (tryCatch m' fun halt => do let _ ← cleanup; throw halt) post := by
  constructor
  · intro w b w' holds ran
    cases begun : m w with
    | ok c between =>
        rw [tryCatch_of_ok begun] at ran
        cases ran
        obtain ⟨same, reached⟩ := h.ends holds begun
        exact ⟨tryCatch_of_ok same, reached⟩
    | error halt between =>
        rw [tryCatch_of_error begun] at ran
        obtain ⟨_, _, _, thrown⟩ := bind_eq_ok.1 ran
        cases thrown
  · intro strictly w halt w' holds ran
    cases begun : m w with
    | ok c between =>
        rw [tryCatch_of_ok begun] at ran
        cases ran
    | error halt' between =>
        rw [tryCatch_of_error begun] at ran
        rw [tryCatch_of_error (h.halts strictly holds begun)]
        -- The cleanup is the same, and so is the halt that goes on after it.
        cases cleaned : cleanup between with
        | ok c after =>
            rw [bind_of_ok cleaned] at ran ⊢
            cases ran
            exact rfl
        | error halt'' after =>
            rw [bind_of_error cleaned] at ran ⊢
            cases ran
            exact rfl

/-- Loops agree if their steps do, from where all steps lead. -/
theorem forM {f f' : γ → Machine τ ω PUnit}
    (h : ∀ c, Mimics strict id pre (f c) (f' c) fun _ => pre) (list : List γ) :
    Mimics strict id pre (list.forM f) (list.forM f') fun _ => pre := by
  induction list with
  | nil => exact .gives fun _ => id
  | cons c rest ih => exact (h c).bind fun _ => ih

/-- If the other comes to an end, this is where both end. -/
theorem exists_of_ends (h : Mimics strict plain pre m m' post) (strictly : strict)
    {w w' : World τ ω} {a : α} (holds : pre w) (ran : m' w = .ok a w') :
    ∃ b, m w = .ok b w' ∧ plain b = a ∧ post b w' := by
  cases begun : m w with
  | ok b between =>
      obtain ⟨same, reached⟩ := h.ends holds begun
      cases ran.symm.trans same
      exact ⟨b, rfl, rfl, reached⟩
  | error halt between => cases ran.symm.trans (h.halts strictly holds begun)

/-- To whatever end the other comes, it comes too. -/
theorem ensures (h : Mimics strict plain pre m m' post) (strictly : strict) :
    Ensures pre m' fun a w => ∃ b, plain b = a ∧ post b w := by
  intro w a w' holds ran
  obtain ⟨b, _, same, reached⟩ := h.exists_of_ends strictly holds ran
  exact ⟨b, same, reached⟩

/-- What halts alike and gives back the same is the same. -/
theorem eq {m m' : Machine τ ω α} {post : α → World τ ω → Prop} (h : Mimics strict id pre m m' post)
    (strictly : strict) {w : World τ ω} (holds : pre w) : m w = m' w := by
  cases ran : m w with
  | ok a w' => exact (h.ends holds ran).1.symm
  | error halt w' => exact (h.halts strictly holds ran).symm

variable {w : World τ ω}

theorem of_eq {m m' : Machine τ ω α} (same : m w = m' w) :
    Mimics strict id (· = w) m m' fun _ _ => True := by
  refine ⟨?_, fun _ => ?_⟩
  · rintro _ _ _ rfl ran
    exact ⟨same.symm.trans ran, trivial⟩
  · rintro _ _ _ rfl ran
    exact same.symm.trans ran

/-- What is known of the ends can be used besides. -/
theorem and_ensures {m' : Machine τ ω β} {post' : β → World τ ω → Prop}
    (h : Mimics strict id pre m m' post) (known : Ensures pre m' post') :
    Mimics strict id pre m m' post' := by
  refine ⟨fun _ _ _ holds ran => ?_, h.halts⟩
  have same := (h.ends holds ran).1
  exact ⟨same, known holds same⟩

theorem at_getRing {r : RingId} {f : Ring → Machine τ ω β} {f' : Ring → Machine τ ω α}
    (h : Mimics strict plain (· = w) (f (w.rings.get r).ring) (f' (w.rings.get r).ring) post) :
    Mimics strict plain (· = w) (getRing r >>= f) (getRing r >>= f') post := by
  constructor
  · rintro _ b w' rfl ran
    exact h.ends rfl ran
  · rintro strictly _ halt w' rfl ran
    exact h.halts strictly rfl ran

variable [Inhabited τ]

theorem at_getPipe {p : PipeId} {f : Pipe τ → Machine τ ω β} {f' : Pipe τ → Machine τ ω α}
    (h : Mimics strict plain (· = w) (f (w.pipes.get p)) (f' (w.pipes.get p)) post) :
    Mimics strict plain (· = w) (getPipe p >>= f) (getPipe p >>= f') post := by
  constructor
  · rintro _ b w' rfl ran
    exact h.ends rfl ran
  · rintro strictly _ halt w' rfl ran
    exact h.halts strictly rfl ran

theorem at_modifyPipe {p : PipeId} {g : Pipe τ → Pipe τ} {f : Unit → Machine τ ω β}
    {f' : Unit → Machine τ ω α}
    (h : Mimics strict plain (· = { w with pipes := w.pipes.set p (g (w.pipes.get p)) }) (f ())
      (f' ()) post) :
    Mimics strict plain (· = w) (modifyPipe p g >>= f) (modifyPipe p g >>= f') post := by
  constructor
  · rintro _ b w' rfl ran
    exact h.ends rfl ran
  · rintro strictly _ halt w' rfl ran
    exact h.halts strictly rfl ran

/-- A call of a pipe mimics another one if its body does once the pipe was entered. -/
theorem during {m : Machine τ ω β} {p : PipeId} {inside : World τ ω → Prop}
    (enters : Ensures pre (modifyPipe p fun pipe => { pipe with calls := pipe.calls + 1 })
      fun _ => inside)
    (h : Mimics strict plain inside m m' fun _ _ => True) :
    Mimics strict plain pre (Pipe.during p m) (Pipe.during p m') fun _ _ => True := by
  refine .next enters fun _ => h.onHalt.bind fun b => ?_
  exact .next keeps_fact fun _ => .gives fun _ => id

end Mimics

end ByteFlow
