/-
# The listener of a pipe follows its destination

Any number of pipes share rings, are switched from one ring to another, also by handlers in the
middle of a drain, and are dropped. The listener of a pipe that is held is among the observers of
its destination, once, and observes no other ring. A pipe that was dropped may still have calls in
progress; at the end of the last one its listener is gone.

So what holds depends on how many calls of each pipe are in progress, and a call of a pipe is made
one call deeper. Between the moment at which a pipe's life ends and the one at which its listener is
taken away, `Listening` leaves that pipe out.
-/

import ByteFlow.Proofs.History
import ByteFlow.Proofs.Withstanding

namespace ByteFlow

open Machine

variable {τ ω α : Type}

namespace World

/-- Whether pipe `p` was made. -/
def Opened (p : PipeId) (w : World τ ω) : Prop := ∃ event ∈ w.journal, event.opens p

theorem opened_append {p : PipeId} {w : World τ ω} {events : List Event}
    (none : ∀ event ∈ events, event.opens p = false) :
    Opened p { w with journal := events ++ w.journal } ↔ w.Opened p := by
  constructor
  · rintro ⟨event, member, opens⟩
    rcases List.mem_append.1 member with new | old
    · cases (none event new).symm.trans opens
    · exact ⟨event, old, opens⟩
  · rintro ⟨event, member, opens⟩
    exact ⟨event, List.mem_append_right _ member, opens⟩

/-- Whether the listener of pipe `p` is among the observers of ring `r`. -/
def Listens (p : PipeId) (r : RingId) (w : World τ ω) : Prop :=
  .listener p ∈ (w.rings.get r).observers

/-- The world without the listener of pipe `p` at ring `r`. -/
def detached (r : RingId) (p : PipeId) (w : World τ ω) : World τ ω :=
  { w with rings := w.rings.set r { w.rings.get r with
      observers := (w.rings.get r).observers.filter (· ≠ .listener p) } }

/-- The world with the listener of pipe `p` at ring `r`. -/
def attached (r : RingId) (p : PipeId) (w : World τ ω) : World τ ω :=
  { w with rings := w.rings.set r { w.rings.get r with
      observers := enlist (w.rings.get r).observers (.listener p) } }

variable {w : World τ ω} {p q : PipeId} {r s : RingId}

theorem listens_detached : (w.detached r p).Listens q s ↔ w.Listens q s ∧ ¬ (q = p ∧ s = r) := by
  unfold Listens detached
  dsimp only
  rw [Table.get_set]
  split
  · rename_i own
    subst own
    simp
  · rename_i other
    simp [Ne.symm other]

theorem listens_attached : (w.attached r p).Listens q s ↔ w.Listens q s ∨ q = p ∧ s = r := by
  unfold Listens attached
  dsimp only
  rw [Table.get_set]
  split
  · rename_i own
    subst own
    simp [mem_enlist]
  · rename_i other
    simp [Ne.symm other]

theorem nodup_detached (nodup : ∀ r, (w.rings.get r).observers.Nodup) (s : RingId) :
    ((w.detached r p).rings.get s).observers.Nodup := by
  unfold detached
  dsimp only
  rw [Table.get_set]
  split
  · exact (nodup r).filter _
  · exact nodup s

theorem nodup_attached (nodup : ∀ r, (w.rings.get r).observers.Nodup) (s : RingId) :
    ((w.attached r p).rings.get s).observers.Nodup := by
  unfold attached
  dsimp only
  rw [Table.get_set]
  split
  · exact nodup_enlist (nodup r) _
  · exact nodup s

end World

variable [Inhabited τ]

/-- The world once the destination of pipe `p` was switched, before the pipe runs. -/
def World.switched (p : PipeId) (candidate : RingId) (w : World τ ω) : World τ ω :=
  let pipe := w.pipes.get p
  let ring := (w.rings.get candidate).ring
  { w with
    rings := ((w.detached pipe.destination p).attached candidate p).rings
    pipes := w.pipes.set p { pipe with destination := candidate }
    journal := .logged (.switched pipe.direction ring.capacity pipe.queue.bytes) ::
      .redirected p candidate ring.used :: w.journal }

/-- The listeners of all pipes are where they should be, with `depth` calls of each pipe in
progress. The life of a pipe that is `leaving` has ended just now. -/
structure Listening (leaving : Option PipeId) (depth : PipeId → Nat) (w : World τ ω) : Prop where
  calls : ∀ p, (w.pipes.get p).calls = depth p
  inUse : ∀ p, w.Opened p → p < w.pipes.next
  unborn : ∀ p, w.pipes.next ≤ p → ∀ r, ¬ w.Listens p r
  sole : ∀ p, w.Opened p → ∀ r, w.Listens p r → r = (w.pipes.get p).destination
  present : ∀ p, w.Opened p → (w.pipes.get p).held = true →
    w.Listens p (w.pipes.get p).destination
  absent : ∀ p, w.Opened p → (w.pipes.get p).held = false → depth p = 0 → leaving ≠ some p →
    ¬ w.Listens p (w.pipes.get p).destination
  nodup : ∀ r, (w.rings.get r).observers.Nodup

/-- One more call of a pipe is in progress. -/
def deeper (p : PipeId) (depth : PipeId → Nat) : PipeId → Nat :=
  fun q => if q = p then depth q + 1 else depth q

namespace Listening

variable {leaving : Option PipeId} {depth : PipeId → Nat} {w : World τ ω} {p : PipeId}

/-- Nothing has changed that listeners depend on. -/
structure Same (w w' : World τ ω) : Prop where
  next : w.pipes.next ≤ w'.pipes.next
  pipes : ∀ p, (w'.pipes.get p).destination = (w.pipes.get p).destination ∧
    (w'.pipes.get p).held = (w.pipes.get p).held ∧ (w'.pipes.get p).calls = (w.pipes.get p).calls
  listeners : ∀ p r, w'.Listens p r ↔ w.Listens p r
  nodup : ∀ r, (w.rings.get r).observers.Nodup → (w'.rings.get r).observers.Nodup
  opened : ∀ p, w'.Opened p ↔ w.Opened p

theorem of_same (h : Listening leaving depth w) {w' : World τ ω} (same : Same w w') :
    Listening leaving depth w' where
  calls p := by
    obtain ⟨_, _, calls⟩ := same.pipes p
    exact calls.trans (h.calls p)
  inUse p opened := Nat.lt_of_lt_of_le (h.inUse p ((same.opened p).1 opened)) same.next
  unborn p unused r listens :=
    h.unborn p (Nat.le_trans same.next unused) r ((same.listeners p r).1 listens)
  sole p opened r listens := by
    obtain ⟨destination, _⟩ := same.pipes p
    rw [destination]
    exact h.sole p ((same.opened p).1 opened) r ((same.listeners p r).1 listens)
  present p opened held := by
    obtain ⟨destination, kept, _⟩ := same.pipes p
    rw [destination, same.listeners]
    exact h.present p ((same.opened p).1 opened) (kept.symm.trans held)
  absent p opened dropped ended stays := by
    obtain ⟨destination, kept, _⟩ := same.pipes p
    rw [destination, same.listeners]
    exact h.absent p ((same.opened p).1 opened) (kept.symm.trans dropped) ended stays
  nodup r := same.nodup r (h.nodup r)

theorem set_pipe (h : Listening leaving depth w) {pipe : Pipe τ}
    (same : pipe.destination = (w.pipes.get p).destination ∧ pipe.held = (w.pipes.get p).held ∧
      pipe.calls = (w.pipes.get p).calls) :
    Listening leaving depth { w with pipes := w.pipes.set p pipe } := by
  refine h.of_same ⟨?_, fun q => ?_, fun _ _ => .rfl, fun _ => id, fun _ => .rfl⟩
  · rw [Table.next_set]
    exact Nat.le_max_left _ _
  · rw [Table.get_set]
    split
    · rename_i own
      subst own
      exact same
    · exact ⟨rfl, rfl, rfl⟩

theorem set_journal (h : Listening leaving depth w) {journal : List Event}
    (same : ∀ p, ({ w with journal } : World τ ω).Opened p ↔ w.Opened p) :
    Listening leaving depth { w with journal } :=
  h.of_same ⟨Nat.le_refl _, fun _ => ⟨rfl, rfl, rfl⟩, fun _ _ => .rfl, fun _ => id, same⟩

theorem set_ring (h : Listening leaving depth w) {r : RingId} {ring : Ring} :
    Listening leaving depth { w with rings := w.rings.set r { w.rings.get r with ring } } := by
  have same (s : RingId) : ((w.rings.set r { w.rings.get r with ring }).get s).observers =
      (w.rings.get s).observers := by
    rw [Table.get_set]
    split
    · rename_i own
      rw [own]
    · rfl
  refine h.of_same ⟨Nat.le_refl _, fun _ => ⟨rfl, rfl, rfl⟩, fun p s => ?_, fun s nodup => ?_,
    fun _ => .rfl⟩
  · unfold World.Listens
    dsimp only
    rw [same]
  · dsimp only
    rw [same]
    exact nodup

/-- A call of a pipe begins or ends, or its owner lets it go. -/
theorem set_life (h : Listening none depth w) {leaving : Option PipeId} {depth' : PipeId → Nat}
    {pipe : Pipe τ} (destination : pipe.destination = (w.pipes.get p).destination)
    (held : pipe.held = true → (w.pipes.get p).held = true)
    (calls : ∀ q, depth' q = if q = p then pipe.calls else depth q)
    (leaves : pipe.held = false → pipe.calls = 0 → leaving = some p) :
    Listening leaving depth' { w with pipes := w.pipes.set p pipe } := by
  have own : (w.pipes.set p pipe).get p = pipe := by rw [Table.get_set, if_pos rfl]
  have other {q : PipeId} (differs : q ≠ p) : (w.pipes.set p pipe).get q = w.pipes.get q := by
    rw [Table.get_set, if_neg differs.symm]
  have depth_own : depth' p = pipe.calls := by rw [calls, if_pos rfl]
  have depth_other {q : PipeId} (differs : q ≠ p) : depth' q = depth q := by
    rw [calls, if_neg differs]
  have goes (q : PipeId) :
      ((w.pipes.set p pipe).get q).destination = (w.pipes.get q).destination := by
    by_cases same : q = p
    · rw [same, own, destination]
    · rw [other same]
  refine ⟨fun q => ?_, fun q opened => ?_, fun q unused => ?_, fun q opened r listens => ?_,
    fun q opened kept => ?_, fun q opened dropped ended stays => ?_, h.nodup⟩
  · by_cases same : q = p
    · rw [same, depth_own, own]
    · rw [depth_other same, other same]
      exact h.calls q
  · exact Table.lt_next_set_of_lt (h.inUse q opened) _ _
  · exact h.unborn q (Nat.le_trans ((w.pipes.next_set p pipe).symm ▸ Nat.le_max_left _ _) unused)
  · exact (h.sole q opened r listens).trans (goes q).symm
  · have before : (w.pipes.get q).held = true := by
      by_cases same : q = p
      · subst same
        exact held (own ▸ kept)
      · exact other same ▸ kept
    dsimp only
    rw [goes]
    exact h.present q opened before
  · dsimp only at dropped ⊢
    by_cases same : q = p
    · subst same
      rw [own] at dropped
      exact (stays (leaves dropped (depth_own.symm.trans ended))).elim
    · rw [other same] at dropped
      rw [depth_other same] at ended
      rw [goes]
      exact h.absent q opened dropped ended nofun

theorem enter (h : Listening none depth w) (p : PipeId) :
    Listening none (deeper p depth) { w with
      pipes := w.pipes.set p { w.pipes.get p with calls := (w.pipes.get p).calls + 1 } } := by
  refine h.set_life rfl id (fun q => ?_) nofun
  unfold deeper
  split
  · rename_i same
    rw [same, ← h.calls p]
  · rfl

/-- At the end of the last call of a pipe that was dropped, its life has ended. -/
theorem leave (h : Listening none (deeper p depth) w) :
    Listening (some p) depth { w with
      pipes := w.pipes.set p { w.pipes.get p with calls := (w.pipes.get p).calls - 1 } } := by
  refine h.set_life rfl id (fun q => ?_) fun _ _ => rfl
  have calls := h.calls p
  unfold deeper at calls ⊢
  rw [if_pos rfl] at calls
  split
  · rename_i same
    rw [same]
    exact (congrArg (· - 1) calls).symm
  · rfl

theorem drop (h : Listening none depth w) (p : PipeId) :
    Listening (some p) depth { w with
      pipes := w.pipes.set p { w.pipes.get p with held := false } } := by
  refine h.set_life rfl nofun (fun q => ?_) fun _ _ => rfl
  split
  · rename_i same
    rw [same]
    exact (h.calls p).symm
  · rfl

/-- The listener of a pipe whose life has ended is taken away. -/
theorem retire {halted : World τ ω → Prop} :
    Upholds halted (Listening (some p) depth) (Pipe.retire p) fun _ => Listening none depth := by
  refine .pointwise fun w h => .at_getPipe ?_
  cases alive : (w.pipes.get p).isAlive with
  | false =>
      obtain ⟨dropped, _⟩ := Bool.or_eq_false_iff.1 alive
      have detached : Listening none depth (w.detached (w.pipes.get p).destination p) := by
        refine ⟨h.calls, h.inUse, fun q unused r listens => ?_, fun q opened r listens => ?_,
          fun q opened held => ?_, fun q opened gone ended _ listens => ?_,
          World.nodup_detached h.nodup⟩
        · exact h.unborn q unused r (World.listens_detached.1 listens).1
        · exact h.sole q opened r (World.listens_detached.1 listens).1
        · refine World.listens_detached.2 ⟨h.present q opened held, fun ⟨same, _⟩ => ?_⟩
          cases (same ▸ held).symm.trans dropped
        · obtain ⟨before, other⟩ := World.listens_detached.1 listens
          refine h.absent q opened gone ended (fun own => ?_) before
          cases own
          exact other ⟨rfl, rfl⟩
      rintro _ rfl
      exact detached
  | true =>
      refine .here ?_ (upholds_pure fun _ => id)
      refine ⟨h.calls, h.inUse, h.unborn, h.sole, h.present, fun q opened dropped ended _ => ?_,
        h.nodup⟩
      refine h.absent q opened dropped ended fun own => ?_
      cases own
      rw [Pipe.isAlive, dropped, h.calls, ended] at alive
      cases alive

/-- At whatever depth a computation runs, it leaves the listeners where they should be. -/
def Kept (m : Machine τ ω α) : Prop := ∀ depth, Preserves (Listening none depth) m

theorem closed : Closed fun _ (m : Machine τ ω _) => Kept m where
  gives a _ := preserves_pure a
  looks _ := fun _ => id
  andThen first second depth := (first depth).bind fun a => second a depth

/-- The body of a call runs one call deeper. -/
theorem kept_during {body : Machine τ ω α}
    (h : ∀ depth, 0 < depth p → Preserves (Listening none depth) body) :
    Kept (Pipe.during p body) := by
  intro depth
  have inside : 0 < deeper p depth p := by
    rw [deeper, if_pos rfl]
    exact Nat.succ_pos _
  have leaves : Upholds (Listening none depth) (Listening none (deeper p depth)) (do
      modifyPipe p fun pipe => { pipe with calls := pipe.calls - 1 }
      Pipe.retire p : Machine τ ω Unit) fun _ => Listening none depth := by
    have ends : Upholds (Listening none depth) (Listening none (deeper p depth))
        (modifyPipe p fun pipe => { pipe with calls := pipe.calls - 1 })
        fun _ => Listening (τ := τ) (ω := ω) (some p) depth := upholds_modifyPipe fun w => leave
    exact ends.bind fun _ => retire
  have begins : Upholds (Listening none depth) (Listening none depth)
      (modifyPipe p fun pipe => { pipe with calls := pipe.calls + 1 })
      fun _ => Listening (τ := τ) (ω := ω) none (deeper p depth) :=
    upholds_modifyPipe fun w h => h.enter p
  exact begins.bind fun _ => Upholds.ensuring (h (deeper p depth) inside) leaves fun _ => leaves

theorem kept_record {event : Event} (opens : ∀ p, event.opens p = false) :
    Kept (record event : Machine τ ω Unit) := by
  intro depth w h
  have quiet (p : PipeId) : ∀ other ∈ [event], other.opens p = false :=
    List.forall_mem_singleton.2 (opens p)
  exact h.set_journal fun p => World.opened_append (quiet p)

theorem kept_modifyPipe {f : Pipe τ → Pipe τ} (p : PipeId)
    (same : ∀ pipe, (f pipe).destination = pipe.destination ∧ (f pipe).held = pipe.held ∧
      (f pipe).calls = pipe.calls) : Kept (ω := ω) (modifyPipe p f) :=
  fun _ => upholds_modifyPipe fun _ h => h.set_pipe (same _)

theorem handles : Handles fun _ (m : Machine τ ω _) => Kept m where
  toClosed := closed
  log _ := kept_record fun _ => rfl
  announce _ _ announces := kept_record announces.isNote.opens
  listen p _ h := by
    apply closed.andThen (closed.getPipe p)
    intro pipe
    split
    · exact kept_during fun depth _ => h depth
    · exact closed.gives _
  called h p := kept_during fun depth _ => h depth
  set _ _ _ := upholds_modify fun _ h => h.set_ring
  updated r f _ := by
    intro w h
    unfold updateRing
    simp only [Table.update_eq]
    exact h.set_ring
  delivered _ _ := kept_record fun _ => rfl

/-- The listener of one pipe, which lives, has moved to the destination that the pipe has now. -/
theorem redirect (h : Listening none depth w) {w' : World τ ω} {pipe : Pipe τ}
    (pipes : w'.pipes = w.pipes.set p pipe) (lives : pipe.held = false → 0 < depth p)
    (calls : pipe.calls = depth p) (own : w'.Listens p pipe.destination)
    (only : w'.Opened p → ∀ r, w'.Listens p r → r = pipe.destination)
    (others : ∀ q, q ≠ p → ∀ r, w'.Listens q r ↔ w.Listens q r)
    (opened : ∀ q, q ≠ p → w'.Opened q → w.Opened q)
    (nodup : ∀ r, (w'.rings.get r).observers.Nodup) : Listening none depth w' := by
  have here : w'.pipes.get p = pipe := by rw [pipes, Table.get_set, if_pos rfl]
  have there {q : PipeId} (other : q ≠ p) : w'.pipes.get q = w.pipes.get q := by
    rw [pipes, Table.get_set, if_neg other.symm]
  have inUse : p < w'.pipes.next ∧ w.pipes.next ≤ w'.pipes.next := by
    rw [pipes, Table.next_set]
    exact ⟨Nat.le_max_right _ _, Nat.le_max_left _ _⟩
  -- Of pipe `p` each field says what is given here, and of other pipes what it said before.
  refine ⟨fun q => ?_, fun q made => ?_, fun q unused r => ?_, fun q made r => ?_,
    fun q made held => ?_, fun q made dropped ended _ => ?_, nodup⟩ <;> by_cases self : q = p
  · rw [self, here, calls]
  · rw [there self]
    exact h.calls q
  · rw [self]
    exact inUse.1
  · exact Nat.lt_of_lt_of_le (h.inUse q (opened q self made)) inUse.2
  · exact (Nat.lt_irrefl p (Nat.lt_of_lt_of_le inUse.1 (self ▸ unused))).elim
  · rw [others q self]
    exact h.unborn q (Nat.le_trans inUse.2 unused) r
  · subst self
    rw [here]
    exact only made r
  · rw [others q self, there self]
    exact h.sole q (opened q self made) r
  · rw [self, here]
    exact own
  · rw [there self] at held ⊢
    exact (others q self _).2 (h.present q (opened q self made) held)
  · subst self
    exact (Nat.ne_of_gt (lives (here ▸ dropped)) ended).elim
  · rw [there self] at dropped ⊢
    rw [others q self]
    exact h.absent q (opened q self made) dropped ended nofun

/-- While a call of the pipe is in progress, its destination may be switched. -/
theorem switched (h : Listening none depth w) (inside : 0 < depth p) (candidate : RingId) :
    Listening none depth (w.switched p candidate) := by
  have listens {q : PipeId} {r : RingId} : (w.switched p candidate).Listens q r ↔
      (w.Listens q r ∧ ¬ (q = p ∧ r = (w.pipes.get p).destination)) ∨ q = p ∧ r = candidate :=
    World.listens_attached.trans (or_congr_left World.listens_detached)
  have same {q : PipeId} (opened : (w.switched p candidate).Opened q) : w.Opened q := by
    obtain ⟨event, member, opens⟩ := opened
    rcases List.mem_cons.1 member with rfl | member
    · cases opens
    · rcases List.mem_cons.1 member with rfl | old
      · cases opens
      · exact ⟨event, old, opens⟩
  refine h.redirect rfl (fun _ => inside) (h.calls p) (listens.2 (.inr ⟨rfl, rfl⟩)) ?_ ?_
    (fun q _ => same) (World.nodup_attached (World.nodup_detached h.nodup))
  · intro opened r now
    rcases listens.1 now with ⟨before, elsewhere⟩ | ⟨_, there⟩
    · exact (elsewhere ⟨rfl, h.sole p (same opened) r before⟩).elim
    · exact there
  · intro q other r
    rw [listens]
    exact ⟨fun now => now.elim And.left fun impossible => (other impossible.1).elim,
      fun before => .inl ⟨before, fun impossible => other impossible.1⟩⟩

section Reacting

variable [Transform τ] [Transform.Candid τ] {o : Owner τ ω}
  (reacts : ∀ handler edge, Kept (o.react handler edge))

include reacts

theorem run (p : PipeId) : Kept (Pipe.run o p) := by
  have enters := handles (τ := τ) (ω := ω).toEnters
  have releases : Kept (ω := ω) (Pipe.release (τ := τ) p) := by
    apply closed.andThen (closed.getPipe p)
    intro pipe
    refine closed.andThen (kept_modifyPipe p fun _ => ⟨rfl, rfl, rfl⟩) fun _ => ?_
    exact closed.andThen (kept_record fun _ => rfl) fun _ => closed.gives _
  have fails : ∀ e, Kept (Pipe.fail o p e) :=
    enters.fail (fun _ => kept_modifyPipe p fun _ => ⟨rfl, rfl, rfl⟩)
      (fun _ _ announces => kept_record announces.isNote.opens) reacts
  have operates (depth : PipeId → Nat) : Preserves (Listening none depth) (Pipe.operate o p) := by
    have withstands : Withstands o p (.any (Listening none depth)) (Listening none depth) :=
      { halts := fun _ => id
        log := fun entry => enters.log entry depth
        take := fun w _ _ h _ => ⟨h.set_pipe ⟨rfl, rfl, rfl⟩, trivial⟩
        put := fun w _ h _ _ => h.set_pipe ⟨rfl, rfl, rfl⟩
        mark := fun w h => h.set_pipe ⟨rfl, rfl, rfl⟩
        advance := fun w h _ => by
          obtain ⟨_, _, _, _, _, same, _⟩ := (w.pipes.get p).advance_same p
          have advanced : Listening none depth
              { w with pipes := w.pipes.set p ((w.pipes.get p).advance p).pipe } := by
            rw [same]
            exact h.set_pipe ⟨rfl, rfl, rfl⟩
          refine advanced.set_journal fun q => World.opened_append fun event member => ?_
          rcases Pipe.report_or_call_of_mem_advance member with report | call
          · exact (report.isElsewhere q).1
          · exact call.opens q
        store := fun d data => handles.store reacts d data depth }
    exact withstands.weathers.operate fun e => fails e depth
  exact enters.run (kept_modifyPipe p fun _ => ⟨rfl, rfl, rfl⟩)
    (fun depth => (operates depth).onHalt (releases depth)) releases
    (fun _ signals => kept_record signals.isNote.opens) reacts

theorem switch (p : PipeId) (candidate : RingId) : Kept (Pipe.switchTo o p candidate) := by
  refine kept_during fun depth inside => .pointwise fun w h => .at_getPipe (.at_getRing ?_)
  refine .at_getRing ?_
  split
  · exact .here h (preserves_pure _)
  · have goes_on : Preserves (Listening none depth) (do
        Pipe.run o p
        return .ok (w.pipes.get p).destination : Machine τ ω (Except Error RingId)) :=
      (run reacts p depth).bind fun _ => preserves_pure _
    rintro _ rfl
    exact goes_on (h.switched inside candidate)

/-- Every call leaves the listeners where they should be, on whichever pipe or ring. -/
theorem perform {c : Call τ ω α}
    (reads : ∀ source, c.source? = some source → ∀ wanted, Kept (source.read wanted))
    (ended : ∀ source, c.source? = some source → Kept source.isEnded)
    (writes : ∀ sink, c.sink? = some sink → ∀ offered, Kept (sink.write offered)) :
    Kept (c.perform o) := by
  cases c with
  | feed p source =>
      exact handles.toEnters.feed (fun _ => kept_modifyPipe p fun _ => ⟨rfl, rfl, rfl⟩)
        (fun _ => kept_record fun _ => rfl) (run reacts p) (reads source rfl) (ended source rfl)
  | run p => exact run reacts p
  | empty p sink max => exact handles.empty reacts (run reacts) p (writes sink rfl) max
  | switch p candidate => exact switch reacts p candidate
  | clear p => exact handles.clear p
  | clean p =>
      exact handles.toEnters.giveBack handles.clean (kept_modifyPipe p fun _ => ⟨rfl, rfl, rfl⟩)
  | store r data => exact handles.store reacts r data
  | fill r source => exact handles.fill reacts r (reads source rfl) (ended source rfl)
  | pour r sink max => exact handles.pour reacts (run reacts) r (writes sink rfl) max

end Reacting

theorem kept_drop (p : PipeId) : Kept (Pipe.drop p : Machine τ ω Unit) := by
  intro depth
  have drops : Upholds (Listening none depth) (Listening none depth)
      (modifyPipe p fun pipe => { pipe with held := false })
      fun _ => Listening (τ := τ) (ω := ω) (some p) depth := upholds_modifyPipe fun w h => h.drop p
  exact drops.bind fun _ => retire

/-- A new pipe listens to its destination, and nobody has called it yet. -/
theorem opened (h : Listening none depth w) (direction : Direction) (d : RingId) (transform : τ)
    (options : PipeOptions) (capacity : Nat) (entry : LogRecord) :
    Listening none depth { w.opened direction d transform options capacity with
      journal := .logged entry :: (w.opened direction d transform options capacity).journal } := by
  have listens {q : PipeId} {r : RingId} :
      (w.opened direction d transform options capacity).Listens q r ↔
        w.Listens q r ∨ q = w.pipes.next ∧ r = d := World.listens_attached
  have fresh : depth w.pipes.next = 0 := by
    rw [← h.calls, Table.get_of_next_le (Nat.le_refl _)]
    rfl
  refine h.redirect rfl nofun fresh.symm (listens.2 (.inr ⟨rfl, rfl⟩)) ?_ ?_ ?_
    (World.nodup_attached h.nodup)
  · intro _ r now
    rcases listens.1 now with before | ⟨_, there⟩
    · exact (h.unborn _ (Nat.le_refl _) r before).elim
    · exact there
  · intro q other r
    exact listens.trans (or_iff_left fun impossible => other impossible.1)
  · rintro q other ⟨event, member, opens⟩
    rcases List.mem_cons.1 member with rfl | member
    · cases opens
    · rcases List.mem_cons.1 member with rfl | old
      · exact (other (beq_iff_eq.1 opens).symm).elim
      · exact ⟨event, old, opens⟩

/-- In a world without pipes nobody listens. -/
theorem empty (owner : ω) : Listening none (fun _ => 0) (World.empty owner : World τ ω) := by
  have none (p : PipeId) : ¬ (World.empty owner : World τ ω).Opened p := by
    rintro ⟨_, member, _⟩
    cases member
  have nobody (r : RingId) : ((World.empty owner : World τ ω).rings.get r).observers = [] := by
    rw [World.empty, Table.get_of_next_le (Nat.zero_le r)]
    rfl
  refine ⟨fun p => ?_, fun p opened => (none p opened).elim, fun p _ r listens => ?_,
    fun p opened => (none p opened).elim, fun p opened => (none p opened).elim,
    fun p opened => (none p opened).elim, fun r => ?_⟩
  · rw [World.empty, Table.get_of_next_le (Nat.zero_le p)]
    rfl
  · rw [World.Listens, nobody] at listens
    cases listens
  · rw [nobody]
    exact List.nodup_nil

end Listening

end ByteFlow
