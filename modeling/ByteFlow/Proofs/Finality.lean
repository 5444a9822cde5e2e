/-
# Cleaning is final

A program may clean a pipe between calls or from inside any edge. `Rules.closing` describes the
programs of which it is shown here that nothing comes back after that: they may make any calls, also
switch the pipe to a fresh ring, as long as no stream reaches into what bytes are moved into or out
of meanwhile. Between calls they may look at the world, and take down what was cleaned.

What is left of a pipe that was cleaned is so little that its calls can be written down: a run does
nothing, a store is refused, and to clean it again cleans the ring that is the destination then.
-/

import ByteFlow.Proofs.Dryness
import ByteFlow.Proofs.Switching

namespace ByteFlow

open Machine

variable {τ ω α : Type} [Inhabited τ]

/-! ## Calls of a pipe that was cleaned -/

namespace Pipe

variable {p : PipeId} {w : World τ ω}

theorem isSettled_of_shut (shut : (w.pipes.get p).Shut) : isSettled p w = .ok true w := by
  change EStateM.Result.ok (((w.pipes.get p).queue.isEmpty || _) && !(w.pipes.get p).isReady) w = _
  rw [shut.queue, shut.isReady]
  rfl

variable [Transform τ] {o : Owner τ ω}

theorem operate_of_shut (shut : (w.pipes.get p).Shut) (granted : 0 < o.passes) :
    operate o p w = .ok () w := by
  obtain ⟨passes, eq⟩ := Nat.exists_eq_succ_of_ne_zero (Nat.ne_of_gt granted)
  have settles : settle o p o.passes w = .ok (.ok ()) w := by
    rw [eq]
    exact bind_of_ok (isSettled_of_shut shut)
  change (if (w.pipes.get p).failure.isNone then _ else _ : Machine τ ω Unit) w = _
  split
  · exact bind_of_ok settles
  · rfl

omit [Inhabited τ] [Transform τ] in
/-- A pipe that begins a run and releases it is as it was. -/
theorem Operates.released {pipe : Pipe τ} (rests : pipe.Operates false) :
    { pipe with operating := false, pendingWritable := false } = pipe := by
  obtain ⟨operating, due⟩ := rests
  cases pipe
  cases operating
  cases due rfl
  rfl

omit [Transform τ] in
theorem get_begun : ((w.entered p).begun p).pipes.get p =
    { w.pipes.get p with calls := (w.pipes.get p).calls + 1, operating := true } := by
  change ((w.entered p).changed p fun pipe => { pipe with operating := true }).pipes.get p = _
  rw [World.get_changed, get_entered]

omit [Inhabited τ] [Transform τ] in
/-- What a run puts on record that does nothing else than to put `events` on record. -/
def bracket (p : PipeId) (pipe : Pipe τ) (events : List Event) : List Event :=
  .ended p false pipe.handlers :: (events ++ [.started p])

omit [Transform τ] in
theorem Operates.due_begun (rests : (w.pipes.get p).Operates false) :
    (((w.entered p).begun p).pipes.get p).pendingWritable = false := by
  rw [get_begun]
  exact rests.due rfl

omit [Transform τ] in
/-- A run that begins, puts events on record and is released leaves the world as it found it, but
for what is on record. -/
theorem released_of_begun (rests : (w.pipes.get p).Operates false) (events : List Event) :
    World.released p { (w.entered p).begun p with
      journal := events ++ ((w.entered p).begun p).journal } =
        World.entered p { w with journal := (w.pipes.get p).bracket p events ++ w.journal } := by
  have counted : Operates false { w.pipes.get p with calls := (w.pipes.get p).calls + 1 } :=
    ⟨rests.operating, rests.due⟩
  have pipes : ((w.entered p).begun p).pipes.set p { ((w.entered p).begun p).pipes.get p with
      operating := false, pendingWritable := false } = (w.entered p).pipes := by
    rw [get_begun]
    refine (Table.set_set _ _ _ _).trans ((Table.set_set _ _ _ _).trans ?_)
    exact congrArg (w.pipes.set p) counted.released
  have handlers : (((w.entered p).begun p).pipes.get p).handlers = (w.pipes.get p).handlers := by
    rw [get_begun]
  let after (pipes : Table (Pipe τ)) (freed : Bool) (handlers : List HandlerId) : World τ ω :=
    { w with pipes, journal := .ended p freed handlers :: (events ++ .started p :: w.journal) }
  change after (((w.entered p).begun p).pipes.set p _)
    (((w.entered p).begun p).pipes.get p).pendingWritable
    (((w.entered p).begun p).pipes.get p).handlers = _
  rw [pipes, rests.due_begun, handlers]
  change _ = { w.entered p with journal := (w.pipes.get p).bracket p events ++ w.journal }
  rw [bracket, List.cons_append, List.append_assoc]
  rfl

/-- A run during which events go on record, and nothing else happens, does nothing else. -/
theorem run_of_operate (rests : (w.pipes.get p).Operates false) (events : List Event)
    (operates : operate o p ((w.entered p).begun p) = .ok () { (w.entered p).begun p with
      journal := events ++ ((w.entered p).begun p).journal }) :
    run o p w = during p (pure ())
      { w with journal := (w.pipes.get p).bracket p events ++ w.journal } := by
  apply during_congr
  have idle : ¬ ((w.entered p).pipes.get p).operating = true := by
    rw [get_entered]
    exact Bool.eq_false_iff.1 rests.operating
  change (if ((w.entered p).pipes.get p).operating then _ else _ : Machine τ ω Unit) _ = _
  rw [if_neg idle]
  have begins : modifyPipe p (fun pipe => { pipe with operating := true }) (w.entered p) =
      .ok () ((w.entered p).changed p fun pipe => { pipe with operating := true }) := rfl
  have starts : record (.started p)
      ((w.entered p).changed p fun pipe => { pipe with operating := true }) =
        .ok () ((w.entered p).begun p) := rfl
  have caught {handle : Halt → Machine τ ω Unit} :
      tryCatch (operate o p) handle ((w.entered p).begun p) = _ := tryCatch_of_ok operates
  have releases : release p { (w.entered p).begun p with
      journal := events ++ ((w.entered p).begun p).journal } = .ok false (World.entered p
        { w with journal := (w.pipes.get p).bracket p events ++ w.journal }) := by
    rw [release_eq, released_of_begun rests events]
    exact congrArg (EStateM.Result.ok · _) rests.due_begun
  exact (bind_of_ok begins).trans ((bind_of_ok starts).trans ((bind_of_ok caught).trans
    ((bind_of_ok releases).trans rfl)))

/-- What a run of a pipe puts on record of which nothing comes. -/
def idled (p : PipeId) (pipe : Pipe τ) : List Event :=
  if pipe.operating then [.logged (.runInProgress pipe.direction)] else pipe.bracket p []

/-- A run of a pipe of which nothing is left does nothing, also inside another one. -/
theorem run_of_shut {busy : Bool} (shut : (w.pipes.get p).Shut)
    (operates : (w.pipes.get p).Operates busy) (granted : 0 < o.passes) :
    run o p w = during p (pure ())
      { w with journal := (w.pipes.get p).idled p ++ w.journal } := by
  cases busy with
  | false =>
      have begun : (((w.entered p).begun p).pipes.get p).Shut := by
        rw [get_begun]
        exact ⟨shut.source, shut.queue, shut.scratch⟩
      rw [idled, operates.operating]
      exact run_of_operate operates [] (operate_of_shut begun granted)
  | true =>
      rw [idled, operates.operating]
      apply during_congr
      have runs : ((w.entered p).pipes.get p).operating = true := by
        rw [get_entered]
        exact operates.operating
      change (if ((w.entered p).pipes.get p).operating then _ else _ : Machine τ ω Unit) _ = _
      rw [if_pos runs, get_entered]
      rfl

omit [Transform τ] in
/-- A switch changes what observes the rings, and not what is in them. -/
theorem content_switched {candidate r : RingId} :
    (w.switched p candidate).content r = w.content r :=
  (ring_set_observers _ _ _ r).trans (ring_set_observers _ _ _ r)

/-- A switch of a pipe of which nothing is left only exchanges the rings. -/
theorem switchTo_of_shut {busy : Bool} {candidate : RingId} (shut : (w.pipes.get p).Shut)
    (operates : (w.pipes.get p).Operates busy) (granted : 0 < o.passes)
    (accepted : switchRefusal (w.content (w.pipes.get p).destination) (w.content candidate) =
      none) :
    switchTo o p candidate w = during p (pure (.ok (w.pipes.get p).destination))
      { w.switched p candidate with
        journal := (w.pipes.get p).idled p ++ (w.switched p candidate).journal } := by
  rw [switchTo_of_accepted accepted]
  apply during_congr
  let inside := (w.switched p candidate).entered p
  have own : inside.pipes.get p = { w.pipes.get p with
      destination := candidate, calls := (w.pipes.get p).calls + 1 } := by
    have switched : (w.switched p candidate).pipes.get p =
        { w.pipes.get p with destination := candidate } := by
      rw [World.switched, Table.get_set, if_pos rfl]
    rw [get_entered, switched]
  have shut' : (inside.pipes.get p).Shut := by
    rw [own]
    exact ⟨shut.source, shut.queue, shut.scratch⟩
  have operates' : (inside.pipes.get p).Operates busy := by
    rw [own]
    exact ⟨operates.operating, operates.due⟩
  have alive : (inside.pipes.get p).isAlive := by
    rw [own, isAlive]
    exact Bool.or_eq_true_iff.2 (.inr (decide_eq_true (Nat.succ_pos _)))
  have same : (inside.pipes.get p).idled p = (w.pipes.get p).idled p := by
    rw [own]
    rfl
  have inUse : p < inside.pipes.next := Table.lt_next_set _ _ _
  have ran : run o p inside = .ok () { inside with
      journal := (w.pipes.get p).idled p ++ inside.journal } := by
    rw [run_of_shut shut' operates' granted, same]
    exact during_pure (w := { inside with journal := (w.pipes.get p).idled p ++ inside.journal })
      inUse alive ()
  exact (bind_of_ok ran).trans rfl

/-- How a store into the pipe is refused, if nothing is left of the pipe. -/
def refusal (pipe : Pipe τ) : Error :=
  match pipe.failure with
  | some kind => ⟨.store, kind, none⟩
  | none => .closed .store

/-- What is put on record of a store that is refused: that no byte came in, unless the pipe has
failed before. -/
def refused (p : PipeId) (pipe : Pipe τ) : List Event :=
  if pipe.failure.isNone then [.received p []] else []

/-- A pipe of which nothing is left refuses to store, and does not read the source. -/
theorem storeFrom_of_shut (shut : (w.pipes.get p).Shut) (source : Source (Machine τ ω)) :
    storeFrom o p source w = during p (pure (.error (w.pipes.get p).refusal))
      { w with journal := (w.pipes.get p).refused p ++ w.journal } := by
  cases failed : (w.pipes.get p).failure with
  | some kind =>
      rw [storeFrom_of_failed failed, refusal, refused, failed]
      rfl
  | none =>
      rw [refusal, refused, failed]
      apply during_congr
      have live : ((w.entered p).pipes.get p).failure = none := by
        rw [get_entered]
        exact failed
      have checked : failureCheck p (w.entered p) = .ok (.ok ()) (w.entered p) := by
        rw [failureCheck_eq, live]
      have refuses : (((w.entered p).pipes.get p).source.storeFrom source : Machine τ ω Intake)
          (w.entered p) = .ok ⟨((w.entered p).pipes.get p).source, [], .error (.closed .store)⟩
            (w.entered p) := by
        have closed : ((w.entered p).pipes.get p).source.cleaned = true := by
          rw [get_entered]
          exact shut.source.cleaned
        unfold Ring.storeFrom
        rw [if_pos closed]
        rfl
      have restored : modifyPipe p (fun pipe => { pipe with
          source := ((w.entered p).pipes.get p).source }) (w.entered p) = .ok () (w.entered p) := by
        have same : (w.entered p).pipes.set p ((w.entered p).pipes.get p) = (w.entered p).pipes :=
          Table.set_get (Table.lt_next_set _ _ _)
        change EStateM.Result.ok () { w.entered p with
          pipes := (w.entered p).pipes.set p ((w.entered p).pipes.get p) } = _
        rw [same]
      exact (bind_of_ok checked).trans ((bind_of_ok refuses).trans (bind_of_ok restored))

omit [Inhabited τ] [Transform τ] in
/-- To give back the memory of a pipe of which nothing is left changes nothing. -/
theorem Shut.cleaned_eq {pipe : Pipe τ} (shut : pipe.Shut) :
    { pipe with
      queue := pipe.queue.clear
      scratch := .empty
      source := pipe.source.clean } = pipe := by
  obtain ⟨source, queue, scratch⟩ := shut
  rw [source.clean_eq]
  cases pipe
  cases queue
  cases scratch
  rfl

omit [Transform τ] in
/-- To clean a pipe of which nothing is left cleans the destination that it has now. -/
theorem clean_of_shut (inUse : p < w.pipes.next) (shut : (w.pipes.get p).Shut) :
    clean p w = .ok () { w with
      rings := w.rings.set (w.pipes.get p).destination
        { w.rings.get (w.pipes.get p).destination with
          ring := (w.content (w.pipes.get p).destination).clean }
      journal := .logged (.pipeCleaned (w.pipes.get p).direction) :: w.journal } := by
  have empties : modifyPipe p (fun pipe => { pipe with
      queue := pipe.queue.clear
      scratch := .empty
      source := pipe.source.clean }) w = .ok () w := by
    have same := (congrArg (w.pipes.set p) shut.cleaned_eq).trans (Table.set_get inUse)
    change EStateM.Result.ok () { w with pipes := w.pipes.set p _ } = _
    rw [same]
  exact bind_of_ok empties

end Pipe

/-! ## The rest of a run -/

/-- A ring as a sink of pipe `p`, which takes nothing once the pipe was cleaned. -/
def Pipe.closedSink (o : Owner τ ω) (p : PipeId) (d : RingId) : Sink (Machine τ ω) where
  write offered := do
    if (← getPipe p).source.cleaned then return .ok 0 else SharedRing.store o d offered

/-- From when the pipe was cleaned, a run stores into no ring, also a run that is in progress. -/
theorem Closing.runBy_closedSink [Transform τ] [Transform.Candid τ] {p : PipeId} {notes : Notes ω}
    {past : Option (List Event)} {w : World τ ω} {o : Owner τ ω}
    (h : Closing p notes past w)
    (reacts : ∀ handler edge, Preserves (Closing p notes past) (o.react handler edge)) :
    Pipe.runBy (Pipe.closedSink o p) o p w = Pipe.run o p w := by
  refine (withstands reacts).runBy_eq ?_ ?_ ?_ h
  · intro w segment rest h popped offered
    let out := w.changed p fun pipe => { pipe with queue := rest }
    have intact : ¬ (out.pipes.get p).source.cleaned = true := by
      rw [World.get_changed]
      exact fun cleaned => Pipe.not_shut_of_popFront popped (h.shut cleaned)
    change (if (out.pipes.get p).source.cleaned then _ else _ :
      Machine τ ω (Except Error Nat)) out = _
    rw [if_neg intact]
    rfl
  · exact fun w h => h.set_pipe fun _ => .of_same ⟨rfl, rfl, rfl⟩
  · intro w h
    have begun : Closing p notes past (w.changed p fun pipe => { pipe with operating := true }) :=
      h.set_pipe fun _ => .of_same ⟨rfl, rfl, rfl⟩
    exact begun.set_journal (traffic_of_still rfl rfl)

/-! ## Programs -/

/-- Handlers have come and gone, the pipe may have been dropped, and it may have been noted that it
was cleaned if it was. -/
structure Bypassed (p : PipeId) (notes : Notes ω) (w w' : World τ ω) : Prop where
  inUse : p < w'.pipes.next
  pipe : ∃ handlers held, w'.pipes.get p = { w.pipes.get p with handlers, held }
  traffic : traffic p w'.journal = traffic p w.journal
  shut : notes.shut w'.owner → notes.shut w.owner ∨ (w.pipes.get p).source.cleaned = true

/-- Rings that were cleaned are as they were, and those that were noted now were cleaned. -/
structure Remains (notes : Notes ω) (w w' : World τ ω) : Prop where
  rings : ∀ r, w'.content r = w.content r ∨
    (w.content r).cleaned = false ∧ ((w'.content r).cleaned = true → (w'.content r).used = 0)
  gone : ∀ r, notes.gone w'.owner r → notes.gone w.owner r ∨ (w.content r).cleaned = true

/-- Nothing has come into what is kept for pipe `p`, and no pipe leads there now that did not
before. What was noted to be in it was in it, and the pipe had been cleaned. -/
structure Refrains (p : PipeId) (notes : Notes ω) (reserve : Reserve) (w w' : World τ ω) :
    Prop where
  elsewhere : ∀ q, q ≠ p → reserve.others q → reserve.rings (w'.pipes.get q).destination →
    reserve.rings (w.pipes.get q).destination
  barren : ∀ q, q ≠ p → ¬ reserve.others q → (w.pipes.get q).Barren → (w'.pipes.get q).Barren
  rings : ∀ r, reserve.rings r → (w.content r).Valid →
    (w'.content r).Valid ∧ (w'.content r).toList <:+ (w.content r).toList
  held : ∀ r bytes, reserve.rings r → notes.held w'.owner r bytes → notes.held w.owner r bytes ∨
    (w.pipes.get p).source.cleaned = true ∧ (w.content r).toList <:+ bytes

/-- Any calls are permitted, on any pipes and rings, also to switch and to clean them; except that
nobody stores into a ring that is kept for pipe `p`, and no other pipe is switched to one. Between
calls a program may do anything with other pipes, with rings that were not cleaned, and with itself,
as long as it brings nothing into what is kept for the pipe. -/
def Rules.closing (p : PipeId) (notes : Notes ω) (reserve : Reserve) : Rules τ ω where
  permits c := c.LeavesAlone p ∧ c.Spares p reserve
  ignores m := (∀ w, p < w.pipes.next → Bypassed p notes w (m.left w)) ∧
    ∀ w, Remains notes w (m.left w) ∧ Refrains p notes reserve w (m.left w)

/-- Pipe `p` is in use and operates or not, as said. What was cleaned holds nothing, what was noted
was cleaned, and what is kept for the pipe gets nothing from when the pipe was cleaned. -/
structure Standing (p : PipeId) (notes : Notes ω) (reserve : Reserve) (busy : Bool)
    (w : World τ ω) : Prop where
  dry : Dry p notes reserve notes.held w
  emptied : Emptied notes w
  operates : Operates p busy w

section Programs

variable {p : PipeId} {notes : Notes ω} {reserve : Reserve} {past : Option (List Event)}
  {busy : Bool} {w w' : World τ ω} {m : Machine τ ω α}

/-- Nothing has come into a ring that is as it was. -/
theorem Refrains.of_rings (pipes : ∀ q, q ≠ p → ∃ handlers,
      w'.pipes.get q = { w.pipes.get q with handlers })
    (content : ∀ r, w'.content r = w.content r)
    (held : ∀ r bytes, reserve.rings r → notes.held w'.owner r bytes →
      notes.held w.owner r bytes ∨
        (w.pipes.get p).source.cleaned = true ∧ (w.content r).toList <:+ bytes) :
    Refrains p notes reserve w w' := by
  refine ⟨fun q other _ led => ?_, fun q other _ barren => ?_, fun r _ valid => ?_, held⟩
  · obtain ⟨_, same⟩ := pipes q other
    rw [same] at led
    exact led
  · obtain ⟨_, same⟩ := pipes q other
    rw [same]
    exact barren.of_same rfl rfl
  · rw [content]
    exact ⟨valid, List.suffix_rfl⟩

/-- Handlers of any pipe may come between calls. -/
theorem closing_addHandler (q : PipeId) (handler : HandlerId) :
    (Rules.closing (τ := τ) p notes reserve).ignores (Pipe.addHandler q handler) := by
  refine ⟨fun w inUse => ?_, fun w => ⟨⟨fun r => .inl rfl, fun r => .inl⟩, ?_⟩⟩
  · obtain ⟨handlers, same, _⟩ := left_addHandler q handler w p
    exact ⟨Table.lt_next_set_of_lt inUse _ _, ⟨handlers, _, same⟩, rfl, .inl⟩
  · refine .of_rings (fun s _ => ?_) (fun _ => rfl) fun _ _ _ => .inl
    obtain ⟨handlers, same, _⟩ := left_addHandler q handler w s
    exact ⟨handlers, same⟩

namespace Bypassed

theorem closing (bypassed : Bypassed p notes w w') (h : Closing p notes past w) :
    Closing p notes past w' := by
  obtain ⟨handlers, held, same⟩ := bypassed.pipe
  refine ⟨bypassed.inUse, ?_, ?_, ?_, ?_⟩
  all_goals rw [same]
  · exact ⟨h.order.source, h.order.queue⟩
  · exact fun closed => ⟨(h.shut closed).source, (h.shut closed).queue, (h.shut closed).scratch⟩
  · exact fun noted => (bypassed.shut noted).elim h.noted id
  · intro base eq
    rw [bypassed.traffic]
    exact h.past base eq

theorem operates (bypassed : Bypassed p notes w w') (h : Operates p busy w) :
    Operates p busy w' := by
  obtain ⟨handlers, held, same⟩ := bypassed.pipe
  refine ⟨bypassed.inUse, ?_⟩
  rw [same]
  exact ⟨h.2.operating, h.2.due⟩

/-- What is kept for the pipe stays dry, whatever is held of it, if that is true. -/
theorem dry (bypassed : Bypassed p notes w w') (refrains : Refrains p notes reserve w w')
    {held : ω → RingId → Bytes → Prop} (h : Dry p notes reserve held w)
    (noted : ∀ r bytes, reserve.rings r → held w'.owner r bytes → held w.owner r bytes ∨
      (w.pipes.get p).source.cleaned = true ∧ (w.content r).toList <:+ bytes) :
    Dry p notes reserve held w' := by
  have rings (r : RingId) (kept : reserve.rings r) := refrains.rings r kept (h.kept.valid r kept)
  refine ⟨bypassed.closing h.closing, ⟨fun q other busy led => ?_, fun q other idle => ?_,
    fun r kept => (rings r kept).1⟩, fun r bytes kept claimed => ?_⟩
  · exact h.kept.elsewhere q other busy (refrains.elsewhere q other busy led)
  · exact refrains.barren q other idle (h.kept.barren q other idle)
  · obtain ⟨cleaned, rest⟩ := (noted r bytes kept claimed).elim (h.rest r bytes kept) id
    obtain ⟨_, _, same⟩ := bypassed.pipe
    rw [same]
    exact ⟨cleaned, (rings r kept).2.trans rest⟩

end Bypassed

omit [Inhabited τ] in
theorem Remains.emptied (remains : Remains notes w w') (h : Emptied notes w) :
    Emptied notes w' := by
  refine ⟨fun r closed => ?_, fun r noted => ?_⟩
  · rcases remains.rings r with same | ⟨_, tight⟩
    · rw [same] at closed ⊢
      exact h.tight r closed
    · exact tight closed
  · have before : (w.content r).cleaned = true := (remains.gone r noted).elim (h.noted r) id
    rcases remains.rings r with same | ⟨intact, _⟩
    · rw [same]
      exact before
    · cases before.symm.trans intact

variable [Transform τ]

/-- A program brings no ring back. -/
theorem Emptied.preserves_conduct (conduct : Conduct (Rules.closing p notes reserve) m) :
    Preserves (Emptied notes) m := by
  refine conduct.preserves ?_ fun permitted reads ended writes reacts =>
    perform reacts permitted.1 reads ended writes
  intro β m ⟨_, remains⟩
  exact preserves_iff.2 fun w h => (remains w).1.emptied h

variable [Transform.Candid τ]

/-- A program does not bring the pipe back. -/
theorem Closing.preserves_conduct (conduct : Conduct (Rules.closing p notes reserve) m) :
    Preserves (Closing p notes past) m := by
  refine conduct.preserves ?_ fun permitted reads ended writes reacts =>
    perform reacts permitted.1 reads ended writes
  intro β m ⟨bypasses, _⟩
  exact preserves_iff.2 fun w h => (bypasses w h.inUse).closing h

/-- A program brings nothing into what is kept for the pipe, once the pipe was cleaned. -/
theorem Dry.preserves_conduct (conduct : Conduct (Rules.closing p notes reserve) m)
    {held : ω → RingId → Bytes → Prop}
    (noted : ∀ w w' : World τ ω, Refrains p notes reserve w w' → ∀ r bytes, reserve.rings r →
      held w'.owner r bytes → held w.owner r bytes ∨
        (w.pipes.get p).source.cleaned = true ∧ (w.content r).toList <:+ bytes) :
    Preserves (Dry p notes reserve held) m := by
  refine conduct.preserves ?_ fun permitted reads ended writes reacts =>
    perform reacts permitted.1 permitted.2 reads ended writes
  intro β m ⟨bypasses, spares⟩
  exact preserves_iff.2 fun w h =>
    (bypasses w h.closing.inUse).dry (spares w).2 h (noted w _ (spares w).2)

namespace Standing

/-- A program leaves behind no more of what was cleaned than there was before. -/
theorem preserves_conduct (conduct : Conduct (Rules.closing p notes reserve) m) :
    Preserves (Standing p notes reserve busy) m := by
  refine preserves_iff.2 fun w h => ⟨?_, ?_, ?_⟩
  · have keeps := Dry.preserves_conduct conduct fun _ _ refrains => refrains.held
    exact preserves_iff.1 keeps w h.dry
  · exact preserves_iff.1 (Emptied.preserves_conduct conduct) w h.emptied
  · refine preserves_iff.1 (Operates.preserves_conduct ?_ conduct busy) w h.operates
    intro β m ⟨bypasses, _⟩ busy
    exact preserves_iff.2 fun w h => (bypasses w h.1).operates h

/-- From when nothing is left of the pipe, its traffic is over. -/
theorem ended (h : Standing p notes reserve busy w) (shut : (w.pipes.get p).Shut)
    (conduct : Conduct (Rules.closing p notes reserve) m) :
    ((m.left w).pipes.get p).Shut ∧ traffic p (m.left w).journal = traffic p w.journal := by
  have closing := h.dry.closing
  have closed : Closing p notes (some (traffic p w.journal)) w := by
    refine ⟨closing.inUse, closing.order, closing.shut, closing.noted, fun base eq => ?_⟩
    cases eq
    exact ⟨shut.source.cleaned, rfl⟩
  have after := preserves_iff.1 (Closing.preserves_conduct conduct) w closed
  obtain ⟨gone, same⟩ := after.past _ rfl
  exact ⟨after.shut gone, same⟩

/-- From when nothing is left of the pipe, what is kept for it gets nothing. -/
theorem dried (h : Standing p notes reserve busy w) (shut : (w.pipes.get p).Shut)
    (conduct : Conduct (Rules.closing p notes reserve) m) {r : RingId} (kept : reserve.rings r) :
    ((m.left w).content r).toList <:+ (w.content r).toList := by
  have dry : Dry p notes reserve (fun _ s bytes => bytes = (w.content s).toList) w :=
    ⟨h.dry.closing, h.dry.kept, fun s bytes _ same => ⟨shut.source.cleaned, [], same.symm⟩⟩
  have keeps : Preserves (Dry p notes reserve fun _ s bytes => bytes = (w.content s).toList) m :=
    Dry.preserves_conduct conduct fun _ _ _ _ _ _ => .inl
  exact ((preserves_iff.1 keeps w dry).rest r _ kept rfl).2

omit [Transform τ] [Transform.Candid τ] in
/-- At whatever moment a pipe is cleaned, nothing is left of it, nor of its destination. -/
theorem exists_clean (h : Standing p notes reserve busy w) :
    ∃ w', Pipe.clean p w = .ok () w' ∧ (w'.pipes.get p).Shut ∧
      (w'.content (w.pipes.get p).destination).Gone := by
  let after := { w.pipes.get p with
    queue := (w.pipes.get p).queue.clear
    scratch := .empty
    source := (w.pipes.get p).source.clean }
  have cleaned : (w.pipes.set p after).get p = after := by rw [Table.get_set, if_pos rfl]
  have gone := Ring.gone_clean (h.emptied.tight (w.pipes.get p).destination)
  refine ⟨_, rfl, ?_, ?_⟩
  · change ((w.pipes.set p after).get p).Shut
    rw [cleaned]
    exact h.dry.closing.shut_clean
  · change ((w.rings.set ((w.pipes.set p after).get p).destination
      { w.rings.get ((w.pipes.set p after).get p).destination with
        ring := (w.rings.get ((w.pipes.set p after).get p).destination).ring.clean }).get
      (w.pipes.get p).destination).ring.Gone
    rw [cleaned, Table.get_set, if_pos rfl]
    exact gone

omit [Transform τ] [Transform.Candid τ] in
/-- A new pipe, in a world in which what was cleaned holds nothing. -/
theorem opened {w₀ : World τ ω} (emptied : Emptied notes w₀)
    (kept : reserve.Kept w₀.pipes.next w₀) (unnoted : ¬ notes.shut w₀.owner)
    (unheld : ∀ r bytes, ¬ notes.held w₀.owner r bytes) (direction : Direction) (d : RingId)
    (transform : τ) (options : PipeOptions) (capacity : Nat) (entry : LogRecord) :
    Standing w₀.pipes.next notes reserve false
      { w₀.opened direction d transform options capacity with
        journal :=
          .logged entry :: (w₀.opened direction d transform options capacity).journal } := by
  have same (pipe : Pipe τ) : (w₀.pipes.set w₀.pipes.next pipe).get w₀.pipes.next = pipe := by
    rw [Table.get_set, if_pos rfl]
  have others (pipe : Pipe τ) {q : PipeId} (other : q ≠ w₀.pipes.next) :
      (w₀.pipes.set w₀.pipes.next pipe).get q = w₀.pipes.get q := by
    rw [Table.get_set, if_neg other.symm]
  have content (r : RingId) : World.content r (w₀.opened direction d transform options capacity) =
      w₀.content r := ring_set_observers _ _ _ r
  have observed : Emptied notes { w₀ with
      rings := w₀.rings.set d { w₀.rings.get d with
        observers := enlist (w₀.rings.get d).observers (.listener w₀.pipes.next) } } :=
    emptied.set_ring (emptied.tight d) id
  refine ⟨⟨⟨Table.lt_next_set _ _ _, ?_, ?_, fun noted => (unnoted noted).elim, nofun⟩,
    ⟨fun q other => ?_, fun q other => ?_, fun r saved => ?_⟩,
    fun r bytes _ noted => (unheld r bytes noted).elim⟩,
    ⟨observed.1, observed.2⟩, Table.lt_next_set _ _ _, ?_⟩
  · dsimp only [World.opened]
    rw [same]
    exact ⟨Ring.valid_empty _ _, Queue.sound_empty⟩
  · dsimp only [World.opened]
    rw [same]
    exact nofun
  · dsimp only [World.opened]
    rw [others _ other]
    exact kept.elsewhere q other
  · dsimp only [World.opened]
    rw [others _ other]
    exact kept.barren q other
  · exact (content r).symm ▸ kept.valid r saved
  · dsimp only [World.opened]
    rw [same]
    exact ⟨rfl, fun _ => rfl⟩

end Standing

/-- Nothing more comes of the pipe, also while it operates. -/
structure Finished [Transform τ] (p : PipeId) (w : World τ ω) : Prop where
  /-- A run does nothing. -/
  runs : ∀ o : Owner τ ω, 0 < o.passes → ∃ w', Passed p ((w.pipes.get p).idled p) w w' ∧
    Pipe.run o p w = .ok () w'
  /-- A store is refused, and does not read the source. -/
  refuses : ∀ (o : Owner τ ω) (source : Source (Machine τ ω)), ∃ w',
    Passed p ((w.pipes.get p).refused p) w w' ∧
      Pipe.storeFrom o p source w = .ok (.error (w.pipes.get p).refusal) w'
  /-- To clean the pipe once more cleans the destination that it has now. -/
  cleans : Pipe.clean p w = .ok () { w with
    rings := w.rings.set (w.pipes.get p).destination
      { w.rings.get (w.pipes.get p).destination with
        ring := (w.content (w.pipes.get p).destination).clean }
    journal := .logged (.pipeCleaned (w.pipes.get p).direction) :: w.journal }
  /-- A switch to another ring is refused if the ring is unfit. -/
  stays : ∀ (o : Owner τ ω) candidate, Unfit p candidate w → ∃ e w', Passed p [] w w' ∧
    Pipe.switchTo o p candidate w = .ok (.error e) w'
  /-- Otherwise it only exchanges the rings, and moves no byte. -/
  exchanges : ∀ (o : Owner τ ω) candidate, 0 < o.passes → ¬ Unfit p candidate w →
    ∃ w', Passed p ((w.pipes.get p).idled p) (w.switched p candidate) w' ∧
      (∀ r, w'.content r = w.content r) ∧
      Pipe.switchTo o p candidate w = .ok (.ok (w.pipes.get p).destination) w'

omit [Transform.Candid τ] in
theorem Standing.finished (h : Standing p notes reserve busy w) (shut : (w.pipes.get p).Shut) :
    Finished p w where
  runs o granted := by
    obtain ⟨w', passed, entered⟩ := exists_passed p ((w.pipes.get p).idled p) w ()
    exact ⟨w', passed, (Pipe.run_of_shut shut h.operates.2 granted).trans entered⟩
  refuses o source := by
    obtain ⟨w', passed, entered⟩ := exists_passed p ((w.pipes.get p).refused p) w
      (Except.error (w.pipes.get p).refusal : Except Error Stored)
    exact ⟨w', passed, (Pipe.storeFrom_of_shut shut source).trans entered⟩
  cleans := Pipe.clean_of_shut h.dry.closing.inUse shut
  stays o candidate unfit := by
    obtain ⟨e, refused⟩ := Option.ne_none_iff_exists'.1 (unfit_iff.1 unfit)
    obtain ⟨w', passed, entered⟩ := exists_passed p [] w (Except.error e : Except Error RingId)
    exact ⟨e, w', passed, (Pipe.switchTo_of_refused refused).trans entered⟩
  exchanges o candidate granted fit := by
    have accepted : Pipe.switchRefusal (w.content (w.pipes.get p).destination)
        (w.content candidate) = none := not_not.1 fun refused => fit (unfit_iff.2 refused)
    obtain ⟨w', passed, entered⟩ := exists_passed p ((w.pipes.get p).idled p)
      (w.switched p candidate)
      (Except.ok (w.pipes.get p).destination : Except Error RingId)
    refine ⟨w', passed, fun r => (passed.content r).trans Pipe.content_switched, ?_⟩
    exact (Pipe.switchTo_of_shut shut h.operates.2 granted accepted).trans entered

end Programs

/-- To clean a pipe is final, at whatever moment it is done.

A new pipe stands, and it stands at the end of every program that keeps to the rules, however the
program ends: what the program has noted was cleaned then, holds nothing now, between calls the pipe
does not operate, and in a ring that was kept for the pipe there is no more than the rest of what
the program has noted to be in it once the pipe had been cleaned.

At any moment at which a pipe stands, also inside an edge, nothing is left of it and its destination
once it was cleaned. From then on nothing is left of it at the end of any program, the transform was
not called, no byte has come into the pipe, and none into a ring that was kept for it, be it the
destination or not; a run, also the one in progress, stores into no ring. And at any moment, inside
an edge or not, a run does nothing, a store is refused, to clean the pipe once more only cleans the
destination it has now, and a switch only exchanges the rings. -/
theorem clean_is_final [Transform τ] [Transform.Candid τ] {direction : Direction} {d : RingId}
    {transform : τ} {options : PipeOptions} {notes : Notes ω} {reserve : Reserve}
    {w₀ w₁ : World τ ω} {p : PipeId} (emptied : Emptied notes w₀)
    (kept : reserve.Kept p w₀) (unnoted : ¬ notes.shut w₀.owner)
    (unheld : ∀ r bytes, ¬ notes.held w₀.owner r bytes)
    (made : Pipe.create direction d transform options w₀ = .ok (.ok p) w₁) :
    Standing p notes reserve false w₁ ∧
      ∀ busy (w : World τ ω), Standing p notes reserve busy w →
        ((w.pipes.get p).operating = busy ∧ (notes.shut w.owner → (w.pipes.get p).Shut) ∧
          (∀ r, notes.gone w.owner r → (w.content r).Gone) ∧
          ∀ r bytes, reserve.rings r → notes.held w.owner r bytes →
            (w.content r).toList <:+ bytes) ∧
        (∃ w', Pipe.clean p w = .ok () w' ∧ (w'.pipes.get p).Shut ∧
          (w'.content (w.pipes.get p).destination).Gone) ∧
        (∀ {α : Type} {m : Machine τ ω α}, Conduct (Rules.closing p notes reserve) m →
          Standing p notes reserve busy (m.left w) ∧
            ((w.pipes.get p).Shut → ((m.left w).pipes.get p).Shut ∧
              traffic p (m.left w).journal = traffic p w.journal ∧
              ∀ r, reserve.rings r → ((m.left w).content r).toList <:+ (w.content r).toList)) ∧
        (∀ o : Owner τ ω,
          (∀ handler edge, Conduct (Rules.closing p notes reserve) (o.react handler edge)) →
          Pipe.runBy (Pipe.closedSink o p) o p w = Pipe.run o p w) ∧
        ((w.pipes.get p).Shut → Finished p w) := by
  refine ⟨?_, fun busy w standing => ⟨⟨?_, fun noted => ?_, fun r noted => ?_,
    fun r bytes saved noted => ?_⟩, ?_, fun conduct => ⟨?_, fun shut => ?_⟩, fun o reacts => ?_,
    standing.finished⟩⟩
  · have starts : Ensures (· = w₀) (Pipe.create direction d transform options) fun made w' =>
        ∀ p, made = .ok p → reserve.Kept p w₀ → Standing p notes reserve false w' := by
      refine Pipe.ensures_create (fun e => nofun) ?_
      rintro capacity entry _ _ _ _ ⟨⟩ kept
      exact .opened emptied kept unnoted unheld direction d transform options capacity entry
    exact starts rfl made p rfl kept
  · exact standing.operates.2.operating
  · exact standing.dry.closing.shut (standing.dry.closing.noted noted)
  · exact standing.emptied.gone (standing.emptied.noted r noted)
  · exact (standing.dry.rest r bytes saved noted).2
  · exact standing.exists_clean
  · exact preserves_iff.1 (Standing.preserves_conduct conduct) w standing
  · obtain ⟨after, same⟩ := standing.ended shut conduct
    exact ⟨after, same, fun r saved => standing.dried shut conduct saved⟩
  · have closes (handler : HandlerId) (edge : Edge) :
        Preserves (Closing p notes none) (o.react handler edge) :=
      Closing.preserves_conduct (reacts handler edge)
    exact standing.dry.closing.runBy_closedSink closes

namespace Closure

/-- A source that has six bytes ready. -/
def source : Source (Machine Codec (Option RingId)) where
  read wanted := pure (.ok ([1, 2, 3, 4, 5, 6].take wanted))
  isEnded := pure false

/-- Takes down that the pipe and ring `d` were cleaned, and that ring 1 holds nothing, if this is
so. -/
def note (d : RingId) : Machine Codec (Option RingId) Unit :=
  modify fun w =>
    if (w.pipes.get 0).source.cleaned ∧ (w.content d).cleaned ∧ (w.content 1).toList = [] then
      { w with owner := some d }
    else w

/-- A handler that cleans the pipe as soon as the destination is readable, and puts a fresh ring in
its place. -/
def react (o : Owner Codec (Option RingId)) (_ : HandlerId) :
    Edge → Machine Codec (Option RingId) Unit
  | .readable => do
    let pipe ← getPipe 0
    Pipe.clean 0
    note pipe.destination
    let _ ← Pipe.switchTo o 0 1
  | _ => pure ()

def owner : Owner Codec (Option RingId) := .nest 8 react 2

/-- A world with two rings that have room for four bytes. -/
def world : World Codec (Option RingId) :=
  ⟨⟨[⟨.empty 4 .heap, []⟩, ⟨.empty 4 .heap, []⟩]⟩, .empty, [], none⟩

/-- Makes a pipe that copies. -/
def make : Machine Codec (Option RingId) (Except Error PipeId) :=
  Pipe.create .unwrap 0 (.identity .whole) { PipeOptions.standard with sourceCapacity := some 8 }

/-- Registers the handler, and stores into the pipe. -/
def feed : Machine Codec (Option RingId) (Except Error Stored) := do
  Pipe.addHandler 0 3
  Pipe.storeFrom owner 0 source

/-- Tries to go on. -/
def retry : Machine Codec (Option RingId) (Except Error Stored) := do
  Pipe.run owner 0
  Pipe.storeFrom owner 0 source

/-- That the pipe was cleaned is noted together with the destination it had, and with what the ring
held that is to come in its place. -/
def notes : Notes (Option RingId) where
  shut noted := noted.isSome
  gone noted r := noted = some r
  held noted r bytes := noted.isSome ∧ r = 1 ∧ bytes = []

/-- Ring 1 is kept for the pipe, which is the only one. -/
def reserve : Reserve where
  rings r := r = 1
  others _ := False

theorem conduct_note (d : RingId) : Conduct (Rules.closing 0 notes reserve) (note d) := by
  have cases (w : World Codec (Option RingId)) : (note d).left w = w ∨
      ((w.pipes.get 0).source.cleaned ∧ (w.content d).cleaned ∧ (w.content 1).toList = []) ∧
        (note d).left w = { w with owner := some d } := by
    change (if _ then _ else _) = w ∨ _ ∧ (if _ then _ else _) = { w with owner := some d }
    split
    · rename_i cleaned
      exact .inr ⟨cleaned, rfl⟩
    · exact .inl rfl
  refine .aside ⟨fun w inUse => ?_, fun w => ?_⟩
  · rcases cases w with same | ⟨⟨cleaned, _⟩, same⟩ <;> rw [same]
    · exact ⟨inUse, ⟨_, _, rfl⟩, rfl, .inl⟩
    · exact ⟨inUse, ⟨_, _, rfl⟩, rfl, fun _ => .inr cleaned⟩
  · rcases cases w with same | ⟨⟨shut, cleaned, empty⟩, same⟩ <;> rw [same]
    · exact ⟨⟨fun r => .inl rfl, fun r => .inl⟩,
        .of_rings (fun _ _ => ⟨_, rfl⟩) (fun _ => rfl) fun _ _ _ => .inl⟩
    · refine ⟨⟨fun r => .inl rfl, fun r noted => .inr ?_⟩,
        .of_rings (fun _ _ => ⟨_, rfl⟩) (fun _ => rfl) fun r bytes kept _ => .inr ⟨shut, ?_⟩⟩
      · cases noted
        exact cleaned
      · cases kept
        rw [empty]
        exact List.nil_suffix

theorem conduct_feeding {o : Owner Codec (Option RingId)}
    (reacts : ∀ handler edge, Conduct (Rules.closing 0 notes reserve) (o.react handler edge)) :
    Conduct (Rules.closing 0 notes reserve) (Pipe.storeFrom o 0 source) :=
  .feed 0 reacts ⟨fun _ => ⟨fun _ => leaves_pure _ _, leaves_pure _ _⟩, trivial⟩
    (fun _ => .gives _) (.gives _)

theorem conduct_react (handler : HandlerId) (edge : Edge) :
    Conduct (Rules.closing 0 notes reserve) (owner.react handler edge) := by
  refine conduct_nest (fun o reacts handler edge => ?_) 2 handler edge
  cases edge with
  | readable =>
      have looks : Conduct (Rules.closing 0 notes reserve)
          (getPipe 0 : Machine Codec (Option RingId) (Pipe Codec)) :=
        .aside ⟨fun w inUse => ⟨inUse, ⟨_, _, rfl⟩, rfl, .inl⟩,
          fun w => ⟨⟨fun r => .inl rfl, fun r => .inl⟩,
            .of_rings (fun _ _ => ⟨_, rfl⟩) (fun _ => rfl) fun _ _ _ => .inl⟩⟩
      have cleans : Conduct (Rules.closing 0 notes reserve) (Pipe.clean 0) :=
        .call (c := .clean 0) (o := o) ⟨trivial, trivial⟩ nofun nofun nofun reacts
      have switches : Conduct (Rules.closing 0 notes reserve) (Pipe.switchTo o 0 1) :=
        .call (c := .switch 0 1) ⟨trivial, fun other => (other rfl).elim⟩ nofun nofun nofun reacts
      exact .andThen looks fun pipe => .andThen cleans fun _ => .andThen (conduct_note _) fun _ =>
        .andThen switches fun _ => .gives _
  | writable => exact .gives _
  | error e => exact .gives _

theorem conduct_feed : Conduct (Rules.closing 0 notes reserve) feed :=
  .andThen (.aside (closing_addHandler 0 3)) fun _ => conduct_feeding conduct_react

theorem conduct_retry : Conduct (Rules.closing 0 notes reserve) retry :=
  .andThen (.call (c := .run 0) ⟨trivial, trivial⟩ nofun nofun nofun conduct_react) fun _ =>
    conduct_feeding conduct_react

end Closure

/-- A handler cleans a pipe while a segment is half drained, and puts a fresh ring in the place of
the destination. The pipe tries to go on, and later its owner does; neither gets anywhere, and the
fresh ring stays empty. -/
theorem clean_is_final_closure :
    ∃ w₁ a w₂ b w₃, Closure.make Closure.world = .ok (.ok 0) w₁ ∧ Closure.feed w₁ = .ok a w₂ ∧
      w₂.owner = some 0 ∧ (w₂.pipes.get 0).destination = 1 ∧ (w₂.content 1).toList = [] ∧
      (w₂.pipes.get 0).Shut ∧ (w₂.content 0).Gone ∧ Finished 0 w₂ ∧
      Closure.retry w₂ = .ok b w₃ ∧ (w₃.pipes.get 0).Shut ∧
      traffic 0 w₃.journal = traffic 0 w₂.journal ∧ (traffic 0 w₂.journal).length = 2 ∧
      (w₃.content 1).toList = [] := by
  have runs : Closure.make.ends Closure.world fun made w₁ => made.toOption = some 0 &&
      Closure.feed.ends w₁ fun _ w₂ =>
        (w₂.owner = some 0 ∧ (w₂.pipes.get 0).destination = 1 ∧
          (traffic 0 w₂.journal).length = 2) &&
        Closure.retry.ends w₂ fun _ _ => true := by decide +kernel
  obtain ⟨made, w₁, make, runs⟩ := ends_iff.1 runs
  obtain ⟨first, runs⟩ := Bool.and_eq_true_iff.1 runs
  obtain rfl := eq_ok_of_toOption (of_decide_eq_true first)
  obtain ⟨a, w₂, feed, runs⟩ := ends_iff.1 runs
  obtain ⟨cleaned, runs⟩ := Bool.and_eq_true_iff.1 runs
  obtain ⟨noted, switched, moved⟩ := of_decide_eq_true cleaned
  obtain ⟨b, w₃, retry, _⟩ := ends_iff.1 runs
  have emptied : Emptied Closure.notes Closure.world := by
    refine ⟨fun r closed => ?_, nofun⟩
    match r with
    | 0 | 1 | _ + 2 => cases closed
  have kept : Closure.reserve.Kept 0 Closure.world := by
    refine ⟨fun _ _ => False.elim, fun q _ _ => ?_, fun r saved => ?_⟩
    · rw [Closure.world, Table.get_of_next_le (Nat.zero_le q)]
      exact ⟨Ring.valid_empty _ _, rfl, rfl⟩
    · cases saved
      exact Ring.valid_empty _ _
  have unnoted : ¬ Closure.notes.shut Closure.world.owner := nofun
  obtain ⟨start, final⟩ := clean_is_final emptied kept unnoted (fun _ _ => nofun) make
  have stands := ((final false w₁ start).2.2.1 Closure.conduct_feed).1
  rw [left_of_ok feed] at stands
  obtain ⟨⟨_, shut, gone, held⟩, _, programs, _, finished⟩ := final false w₂ stands
  have some : w₂.owner.isSome := by rw [noted]; rfl
  have fresh : (w₂.content 1).toList = [] := List.suffix_nil.1 (held 1 [] rfl ⟨some, rfl, rfl⟩)
  obtain ⟨still, same, rest⟩ := (programs Closure.conduct_retry).2 (shut some)
  rw [left_of_ok retry] at still same rest
  have empty := rest 1 rfl
  rw [fresh] at empty
  exact ⟨w₁, a, w₂, b, w₃, make, feed, noted, switched, fresh, shut some, gone 0 noted,
    finished (shut some), retry, still, same, moved, List.suffix_nil.1 empty⟩

end ByteFlow
