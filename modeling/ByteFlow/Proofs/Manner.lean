/-
# Manners of running

A run drains and transforms in turn until neither does anything. It can be made in other manners:
with other sinks in the place of rings, with a check of every access, with notes taken of what it
does. What may differ is collected in a `Manner`; the loops of a run are written down once more
here, for all manners alike.

A manner `Follows` runs if each of its parts comes to no other ends than the part of a run, as long
as something holds of the world and of what was noted so far. Then the whole does, and that holds at
its end.
-/

import ByteFlow.Proofs.Agreement
import ByteFlow.Proofs.Entering
import ByteFlow.Proofs.Withstanding

namespace ByteFlow

open Machine

variable {τ ω σ γ : Type}

namespace Machine

/-- Goes on with what an access finds, or halts if the access goes wrong. -/
def access (found : Option γ) : Machine τ ω γ :=
  match found with
  | some c => return c
  | none => throw (.misuse .unaddressable)

/-- What is there is found. -/
theorem access_some_bind {α : Type} (c : γ) (f : γ → Machine τ ω α) :
    (access (some c) >>= f) = f c := rfl

end Machine

/-- How runs are made, and what is noted of them. -/
structure Manner (τ ω σ : Type) where
  /-- How much room there is in a ring. -/
  room : Ring → Option Nat
  /-- The segment at the front of a queue, if there is one, and the segments behind it. -/
  front : Queue → Option (Option (Ring × Queue))
  /-- Writes a segment into a ring, at most so many bytes. -/
  pour : RingId → Ring → Nat → Machine τ ω Outflow
  /-- Calls the transform of a pipe once, if there is something to transform. -/
  transform : PipeId → Machine τ ω (Except Error Bool)
  /-- What is noted of a segment that was written. -/
  poured : σ → Outflow → σ
  /-- What is noted of a call of the transform, which found the pipe as it was and left it as it
  is. -/
  called : σ → (before after : Pipe τ) → σ

namespace Manner

section Definitions

variable [Inhabited τ]

/-- Whether neither draining nor transforming could do anything. -/
def isSettled (manner : Manner τ ω σ) (p : PipeId) : Machine τ ω Bool := do
  let pipe ← getPipe p
  let room ← access (manner.room (← getRing pipe.destination))
  return (pipe.queue.isEmpty || room == 0) && !pipe.isReady

/-- Drains segments into `destination`. -/
def drainInto (manner : Manner τ ω σ) (p : PipeId) (destination : RingId) :
    (passes count : Nat) → σ → Machine τ ω (Except Error Pipe.Drained × σ)
  | 0, _, _ => throw .exhausted
  | passes + 1, count, s => do
    let pipe ← getPipe p
    let room ← access (manner.room (← getRing destination))
    if room = 0 ∨ pipe.destination ≠ destination then
      return (.ok (.moved count), s)
    else
      match ← access (manner.front pipe.queue) with
      | none => return (.ok (.moved count), s)
      | some (segment, rest) =>
        modifyPipe p fun pipe => { pipe with queue := rest }
        let outflow ← manner.pour destination segment room
        let s := manner.poured s outflow
        if (← getPipe p).source.cleaned then
          log (.cleanedWhileDraining pipe.direction)
          return (.ok .cleaned, s)
        else
          modifyPipe p fun pipe => { pipe with queue := pipe.queue.pushFront outflow.ring }
          match outflow.result with
          | .error e => return (.error e, s)
          | .ok written =>
            if outflow.ring.isEmpty then
              modifyPipe p fun pipe => { pipe with pendingWritable := true }
            if written = 0 then return (.ok (.moved count), s)
            else manner.drainInto p destination passes (count + written) s

/-- Drains the queue into the destination that the pipe has now. -/
def drain (manner : Manner τ ω σ) (o : Owner τ ω) (p : PipeId) (s : σ) :
    Machine τ ω (Except Error Bool × σ) := do
  let pipe ← getPipe p
  match ← manner.drainInto p pipe.destination o.passes 0 s with
  | (.error e, s) => return (.error e, s)
  | (.ok .cleaned, s) => return (.ok false, s)
  | (.ok (.moved count), s) =>
    if 0 < count then log (.drained pipe.direction count)
    return (.ok (0 < count), s)

/-- Calls the transform once. -/
def transformOnce (manner : Manner τ ω σ) (p : PipeId) (s : σ) :
    Machine τ ω (Except Error Bool × σ) := do
  let before ← getPipe p
  let answer ← manner.transform p
  let after ← getPipe p
  return (answer, manner.called s before after)

/-- Drains and transforms in turn until neither does anything. -/
def settle (manner : Manner τ ω σ) (o : Owner τ ω) (p : PipeId) :
    (passes : Nat) → σ → Machine τ ω (Except Error Unit × σ)
  | 0, _ => throw .exhausted
  | passes + 1, s => do
    if ← manner.isSettled p then return (.ok (), s)
    else
      match ← manner.drain o p s with
      | (.error e, s) => return (.error e, s)
      | (.ok drained, s) =>
        match ← manner.transformOnce p s with
        | (.error e, s) => return (.error e, s)
        | (.ok transformed, s) =>
          if drained || transformed then manner.settle o p passes s else return (.ok (), s)

/-- What happens while a pipe operates. -/
def operate (manner : Manner τ ω σ) (o : Owner τ ω) (p : PipeId) (s : σ) : Machine τ ω σ := do
  if (← getPipe p).failure.isNone then
    match ← manner.settle o p o.passes s with
    | (.error e, s) =>
      Pipe.fail o p e
      return s
    | (.ok (), s) => return s
  else return s

/-- Runs a pipe, unless a run is in progress, and ends the run as is said, given what was noted. -/
def run (manner : Manner τ ω σ) (o : Owner τ ω) (p : PipeId) (s : σ)
    (ending : σ → Machine τ ω Unit) : Machine τ ω Unit :=
  Pipe.during p do
    let pipe ← getPipe p
    if pipe.operating then log (.runInProgress pipe.direction)
    else
      modifyPipe p fun pipe => { pipe with operating := true }
      record (.started p)
      let s ← tryCatch (manner.operate o p s) fun halt => do
        let _ ← Pipe.release p
        throw halt
      ending s

/-- The end of a run: if it has made room, the pipe turns writable. -/
def ending (o : Owner τ ω) (p : PipeId) : Machine τ ω Unit := do
  if ← Pipe.release p then Pipe.emit o p .writable

/-- The manner of runs, with notes taken. -/
def noting [Transform τ] (o : Owner τ ω) (poured : σ → Outflow → σ)
    (called : σ → (before after : Pipe τ) → σ) : Manner τ ω σ where
  room ring := some ring.free
  front queue := some queue.popFront
  pour d segment room := segment.writeTo (SharedRing.sink o d) room
  transform := Pipe.transformOnce
  poured := poured
  called := called

/-- The manner of runs, with other sinks in the place of rings. -/
def into [Transform τ] (sinks : RingId → Sink (Machine τ ω)) : Manner τ ω Unit where
  room ring := some ring.free
  front queue := some queue.popFront
  pour d segment room := segment.writeTo (sinks d) room
  transform := Pipe.transformOnce
  poured _ _ := ()
  called _ _ _ := ()

end Definitions

end Manner

/-- Runs a pipe as `run` does, with other sinks in the place of rings. -/
def Pipe.runBy [Inhabited τ] [Transform τ] (sinks : RingId → Sink (Machine τ ω)) (o : Owner τ ω)
    (p : PipeId) : Machine τ ω Unit :=
  (Manner.into sinks).run o p () fun _ => Manner.ending o p

/-- The owners have the same handlers, and the second one grants at least as many passes. -/
structure Owner.Below (o o' : Owner τ ω) : Prop where
  react : o'.react = o.react
  passes : o.passes ≤ o'.passes

namespace Owner.Below

variable {o o' : Owner τ ω}

theorem refl (o : Owner τ ω) : o.Below o := ⟨rfl, Nat.le_refl _⟩

/-- How many passes are granted makes no difference to telling edges. -/
theorem exists_passes (below : o.Below o') : ∃ passes, o' = { o with passes } := by
  obtain ⟨react, passes⟩ := o'
  cases below.react
  exact ⟨passes, rfl⟩

variable [Inhabited τ] (below : o.Below o') (p : PipeId)

include below

theorem emit_eq (edge : Edge) : Pipe.emit o p edge = Pipe.emit o' p edge := by
  obtain ⟨passes, rfl⟩ := below.exists_passes
  rfl

theorem fail_eq (e : Error) : Pipe.fail o p e = Pipe.fail o' p e := by
  obtain ⟨passes, rfl⟩ := below.exists_passes
  rfl

end Owner.Below

/-- What is noted of a segment that was written holds as soon as what is left of it is back in the
queue; or at once, if the pipe was cleaned meanwhile. -/
structure Outflow.Returns [Inhabited τ] (p : PipeId) (outflow : Outflow) (noted : World τ ω → Prop)
    (w : World τ ω) : Prop where
  cleaned : (w.pipes.get p).source.cleaned = true → noted w
  /-- Something is left of the segment, or the ring has failed to take it. -/
  left : (w.pipes.get p).source.cleaned = false →
    (∀ written, outflow.result = .ok written → outflow.ring.isEmpty = false) →
    noted (w.changed p fun pipe => { pipe with queue := pipe.queue.pushFront outflow.ring })
  /-- The segment is drained to its end, so room was made. -/
  drained : (w.pipes.get p).source.cleaned = false →
    ∀ written, outflow.result = .ok written → outflow.ring.isEmpty = true →
    noted ((w.changed p fun pipe =>
      { pipe with queue := pipe.queue.pushFront outflow.ring }).changed
        p fun pipe => { pipe with pendingWritable := true })

namespace Manner

variable [Inhabited τ] [Transform τ]

/-- The parts of a manner come to no other ends than those of the runs of pipe `p`, and `noted` goes
on to hold of what was noted. -/
structure Follows (manner : Manner τ ω σ) (o o' : Owner τ ω) (p : PipeId) (strict : Prop)
    (noted : σ → World τ ω → Prop) : Prop where
  below : o.Below o'
  exact : strict → o'.passes ≤ o.passes
  room : ∀ {ring found}, manner.room ring = some found → found = ring.free
  front : ∀ {queue found}, manner.front queue = some found → found = queue.popFront
  total : strict → (∀ ring, manner.room ring ≠ none) ∧ ∀ queue, manner.front queue ≠ none
  log : ∀ s entry, Keeps (noted s) (log entry)
  pours : ∀ {s w segment rest}, noted s w →
    (w.pipes.get p).queue.popFront = some (segment, rest) →
    0 < (w.rings.get (w.pipes.get p).destination).ring.free →
    Mimics strict id (· = w.changed p fun pipe => { pipe with queue := rest })
      (manner.pour (w.pipes.get p).destination segment
        (w.rings.get (w.pipes.get p).destination).ring.free)
      (segment.writeTo (SharedRing.sink o' (w.pipes.get p).destination)
        (w.rings.get (w.pipes.get p).destination).ring.free)
      fun outflow => outflow.Returns p (noted (manner.poured s outflow))
  transforms : ∀ {s w}, noted s w →
    Mimics strict id (· = w) (manner.transform p) (Pipe.transformOnce p) fun _ w' =>
      noted (manner.called s (w.pipes.get p) (w'.pipes.get p)) w'

/-- Notes can be taken of a run if they go on to hold. -/
theorem follows_noting {o : Owner τ ω} {p : PipeId} {poured : σ → Outflow → σ}
    {called : σ → Pipe τ → Pipe τ → σ} {noted : σ → World τ ω → Prop}
    (logs : ∀ s entry, Keeps (noted s) (Machine.log entry))
    (pours : ∀ {s w segment rest}, noted s w →
      (w.pipes.get p).queue.popFront = some (segment, rest) →
      0 < (w.rings.get (w.pipes.get p).destination).ring.free →
      Ensures (· = w.changed p fun pipe => { pipe with queue := rest })
        (segment.writeTo (SharedRing.sink o (w.pipes.get p).destination)
          (w.rings.get (w.pipes.get p).destination).ring.free)
        fun outflow => outflow.Returns p (noted (poured s outflow)))
    (calls : ∀ {s w}, noted s w → Ensures (· = w) (Pipe.transformOnce p) fun _ w' =>
      noted (called s (w.pipes.get p) (w'.pipes.get p)) w') :
    (noting o poured called).Follows o o p True noted where
  below := .refl o
  exact _ := Nat.le_refl _
  room := by
    rintro _ _ ⟨⟩
    rfl
  front := by
    rintro _ _ ⟨⟩
    rfl
  total _ := ⟨fun _ => nofun, fun _ => nofun⟩
  log := logs
  pours holds popped room := .refl (pours holds popped room)
  transforms holds := .refl (calls holds)

namespace Follows

variable {manner : Manner τ ω σ} {o o' : Owner τ ω} {p : PipeId} {strict : Prop}
  {noted : σ → World τ ω → Prop} (follows : manner.Follows o o' p strict noted)

include follows

/-- An access finds what is there, or goes wrong where that may be. -/
theorem access_room {α β : Type} {plain : β → α} {pre : World τ ω → Prop} {ring : Ring}
    {f : Nat → Machine τ ω β} {m' : Machine τ ω α} {post : β → World τ ω → Prop}
    (h : Mimics strict plain pre (f ring.free) m' post) :
    Mimics strict plain pre (access (manner.room ring) >>= f) m' post := by
  cases found : manner.room ring with
  | none => exact .gives_up (fun strictly => (follows.total strictly).1 ring found) _
  | some room =>
      rw [follows.room found]
      exact h

@[inherit_doc access_room]
theorem access_front {α β : Type} {plain : β → α} {pre : World τ ω → Prop} {queue : Queue}
    {f : Option (Ring × Queue) → Machine τ ω β} {m' : Machine τ ω α}
    {post : β → World τ ω → Prop} (h : Mimics strict plain pre (f queue.popFront) m' post) :
    Mimics strict plain pre (access (manner.front queue) >>= f) m' post := by
  cases found : manner.front queue with
  | none => exact .gives_up (fun strictly => (follows.total strictly).2 queue found) _
  | some front =>
      rw [follows.front found]
      exact h

theorem isSettled (s : σ) :
    Mimics strict id (noted s) (manner.isSettled p) (Pipe.isSettled p) fun _ => noted s := by
  refine .pointwise fun w h => .at_getPipe (.at_getRing (follows.access_room (.here h ?_)))
  exact .gives fun _ => id

theorem drainInto (d : RingId) {passes passes' : Nat} (le : passes ≤ passes')
    (exact : strict → passes' ≤ passes) (count : Nat) (s : σ) :
    Mimics strict Prod.fst (noted s) (manner.drainInto p d passes count s)
      (Pipe.drainInto o' p d passes' count) fun got => noted got.2 := by
  induction passes generalizing passes' count s with
  | zero =>
      by_cases strictly : strict
      · rw [Nat.le_zero.1 (exact strictly)]
        exact .stops _
      · exact .gives_up strictly _
  | succ passes ih =>
      obtain ⟨passes', rfl⟩ := Nat.exists_eq_add_one.2 (Nat.zero_lt_of_lt le)
      refine .pointwise fun w h => .at_getPipe (.at_getRing (follows.access_room ?_))
      dsimp only
      split
      · exact .here h (.gives fun _ => id)
      · rename_i goes_on
        obtain ⟨room, there⟩ := not_or.1 goes_on
        refine follows.access_front ?_
        cases popped : (w.pipes.get p).queue.popFront with
        | none => exact .here h (.gives fun _ => id)
        | some out =>
            obtain ⟨segment, rest⟩ := out
            obtain rfl := Decidable.not_not.1 there
            have pours := follows.pours h popped (Nat.pos_of_ne_zero room)
            refine .at_modifyPipe (pours.bind fun outflow => ?_)
            refine .pointwise fun w' returns => .at_getPipe ?_
            dsimp only [id]
            split
            · rename_i cleaned
              have logs := follows.log (manner.poured s outflow)
              exact .here (returns.cleaned cleaned) (.next (logs _) fun _ => .gives fun _ => id)
            · rename_i intact
              have intact := Bool.eq_false_iff.2 intact
              refine .at_modifyPipe ?_
              cases result : outflow.result with
              | error e =>
                  have left := returns.left intact fun written ok => by rw [result] at ok; cases ok
                  exact .here left (.gives fun _ => id)
              | ok written =>
                  have onward : Mimics strict Prod.fst (noted (manner.poured s outflow))
                      (if written = 0 then pure (.ok (.moved count), manner.poured s outflow)
                        else manner.drainInto p (w.pipes.get p).destination passes
                          (count + written) (manner.poured s outflow))
                      (if written = 0 then pure (.ok (.moved count))
                        else Pipe.drainInto o' p (w.pipes.get p).destination passes'
                          (count + written)) fun got => noted got.2 := by
                    split
                    · exact .gives fun _ => id
                    · exact ih (Nat.le_of_succ_le_succ le)
                        (fun strictly => Nat.le_of_succ_le_succ (exact strictly)) _ _
                  dsimp only
                  split
                  · rename_i drained
                    have marked := returns.drained intact written result drained
                    exact .at_modifyPipe (.here marked onward)
                  · rename_i some
                    have left := returns.left intact fun _ _ => Bool.eq_false_iff.2 some
                    exact .here left onward

theorem drain (s : σ) :
    Mimics strict Prod.fst (noted s) (manner.drain o p s) (Pipe.drain o' p)
      fun got => noted got.2 := by
  refine .next (keeps_getPipe p) fun pipe => ?_
  refine (follows.drainInto pipe.destination follows.below.passes follows.exact 0 s).bind ?_
  rintro ⟨e | cleaned | count, s⟩
  · exact .gives fun _ => id
  · exact .gives fun _ => id
  · dsimp only
    split
    · exact .next (follows.log s _) fun _ => .gives fun _ => id
    · exact .gives fun _ => id

theorem transformOnce (s : σ) :
    Mimics strict Prod.fst (noted s) (manner.transformOnce p s) (Pipe.transformOnce p)
      fun got => noted got.2 := by
  refine .pointwise fun w h => ?_
  -- Only the manner looks at the pipe before and after the call.
  have calls := follows.transforms h
  constructor
  · rintro _ ⟨answer, s'⟩ w' rfl ran
    obtain ⟨before, _, got, ran⟩ := bind_eq_ok.1 ran
    cases got
    obtain ⟨answer', after, called, ran⟩ := bind_eq_ok.1 ran
    cases ran
    exact calls.ends rfl called
  · intro strictly w' halt after same ran
    subst same
    cases called : manner.transform p w' with
    | ok answer between =>
        have ends : manner.transformOnce p s w' = .ok (answer, _) between :=
          (bind_of_ok rfl).trans ((bind_of_ok called).trans rfl)
        cases ends.symm.trans ran
    | error halt' between =>
        have halts : manner.transformOnce p s w' = .error halt' between :=
          (bind_of_ok rfl).trans (bind_of_error called)
        cases halts.symm.trans ran
        exact calls.halts strictly rfl called

theorem settle {passes passes' : Nat} (le : passes ≤ passes') (exact : strict → passes' ≤ passes)
    (s : σ) :
    Mimics strict Prod.fst (noted s) (manner.settle o p passes s) (Pipe.settle o' p passes')
      fun got => noted got.2 := by
  induction passes generalizing passes' s with
  | zero =>
      by_cases strictly : strict
      · rw [Nat.le_zero.1 (exact strictly)]
        exact .stops _
      · exact .gives_up strictly _
  | succ passes ih =>
      obtain ⟨passes', rfl⟩ := Nat.exists_eq_add_one.2 (Nat.zero_lt_of_lt le)
      refine (follows.isSettled s).bind fun settled => ?_
      dsimp only [id]
      split
      · exact .gives fun _ => id
      · refine (follows.drain s).bind ?_
        rintro ⟨e | drained, s⟩
        · exact .gives fun _ => id
        · refine (follows.transformOnce s).bind ?_
          rintro ⟨e | transformed, s⟩
          · exact .gives fun _ => id
          · dsimp only
            split
            · exact ih (Nat.le_of_succ_le_succ le)
                (fun strictly => Nat.le_of_succ_le_succ (exact strictly)) s
            · exact .gives fun _ => id

section Ends

variable {after : σ → World τ ω → Prop}
  (fails : ∀ s e, Ensures (noted s) (Pipe.fail o p e) fun _ => after s)
  (passes : ∀ s w, noted s w → after s w)

include fails passes

theorem operate (s : σ) :
    Mimics strict (fun _ => ()) (noted s) (manner.operate o p s) (Pipe.operate o' p) after := by
  refine .next (keeps_getPipe p) fun pipe => ?_
  split
  · refine (follows.settle follows.below.passes follows.exact s).bind ?_
    rintro ⟨e | settled, s⟩
    · dsimp only
      rw [← follows.below.fail_eq]
      exact .note (fails s e)
    · exact .gives (passes s)
  · exact .gives (passes s)

/-- If the parts follow those of runs, and the ending does what the end of a run does, the whole is
a run. -/
theorem run {pre inside : World τ ω → Prop} (s : σ) {ends : σ → Machine τ ω Unit}
    (enters : Ensures pre (modifyPipe p fun pipe => { pipe with calls := pipe.calls + 1 })
      fun _ => inside)
    (begins : ∀ w, inside w → (w.pipes.get p).operating = false → noted s (w.begun p))
    (ending : ∀ s, Mimics strict id (after s) (ends s) (Manner.ending o p) fun _ _ => True) :
    Mimics strict id pre (manner.run o p s ends) (Pipe.run o' p) fun _ _ => True := by
  refine .during enters (.pointwise fun w h => .at_getPipe ?_)
  split
  · exact .same
  · rename_i idle
    have begun := begins w h (Bool.eq_false_iff.2 idle)
    have starts : Ensures (· = w.changed p fun pipe => { pipe with operating := true })
        (record (.started p)) fun _ => noted s := by
      refine ensures_record ?_
      rintro _ rfl
      exact begun
    refine .at_modifyPipe (.next starts fun _ => ?_)
    refine (follows.operate fails passes s).onHalt.bind fun s => ?_
    have ends := ending s
    rw [Manner.ending, follows.below.emit_eq] at ends
    exact ends

end Ends

end Follows

end Manner

/-! ## Other sinks -/

/-- A segment in one piece is written at once, so sinks need to agree only at that moment. -/
theorem Ring.mimics_writeTo_piece {strict : Prop} {halted : World τ ω → Prop}
    {sink sink' : Sink (Machine τ ω)} {segment : Ring} {room : Nat} {w : World τ ω}
    (before : (Segments.pieces halted).before segment) (some : 0 < room)
    (same : ∀ offered, sink.write offered w = sink'.write offered w) :
    Mimics strict id (· = w) (segment.writeTo sink room) (segment.writeTo sink' room)
      fun _ _ => True := by
  obtain ⟨⟨valid, held⟩, piece, intact⟩ := before
  rw [Ring.writeTo_of_isContiguous valid intact piece held some,
    Ring.writeTo_of_isContiguous valid intact piece held some, map_eq_pure_bind, map_eq_pure_bind]
  exact (Mimics.of_eq (same _)).bind fun _ => .same

namespace Machine.Withstands

variable [Inhabited τ] [Transform τ] {o : Owner τ ω} {p : PipeId} {halted inv : World τ ω → Prop}
  (withstands : Withstands o p (.pieces halted) inv) {sinks : RingId → Sink (Machine τ ω)}
  (agrees : ∀ {w : World τ ω} {segment rest}, inv w →
    (w.pipes.get p).queue.popFront = some (segment, rest) → ∀ offered,
      (sinks (w.pipes.get p).destination).write offered
          (w.changed p fun pipe => { pipe with queue := rest }) =
        (SharedRing.sink o (w.pipes.get p).destination).write offered
          (w.changed p fun pipe => { pipe with queue := rest }))

include withstands agrees

/-- It is enough that the sinks do what the rings do wherever a segment was taken out. -/
theorem follows_into : (Manner.into sinks).Follows o o p True fun _ => inv where
  below := .refl o
  exact _ := Nat.le_refl _
  room := by
    rintro _ _ ⟨⟩
    rfl
  front := by
    rintro _ _ ⟨⟩
    rfl
  total _ := ⟨fun _ => nofun, fun _ => nofun⟩
  log _ entry := (withstands.log entry).ensures
  pours := by
    intro _ w segment rest holds popped room
    obtain ⟨taken, before⟩ := withstands.take w segment rest holds popped
    have stores (data : Bytes) : Upholds halted inv
        ((SharedRing.sink o (w.pipes.get p).destination).write data) fun _ => inv :=
      withstands.store _ data
    have writes : Ensures inv (segment.writeTo (SharedRing.sink o (w.pipes.get p).destination)
        (w.rings.get (w.pipes.get p).destination).ring.free)
        fun outflow w => inv w ∧ (Segments.pieces halted).after outflow.ring :=
      ((Segments.pieces halted).pours before room stores).ensures
    refine (Ring.mimics_writeTo_piece before room (agrees holds popped)).and_ensures
      ((Ensures.here taken writes).post_imp ?_)
    intro outflow w' ⟨holds, after⟩
    have back (intact : (w'.pipes.get p).source.cleaned = false) :=
      withstands.put w' _ holds intact after
    exact ⟨fun _ => holds, fun intact _ => back intact,
      fun intact _ _ _ => withstands.mark _ (back intact)⟩
  transforms holds := (Mimics.refl withstands.weathers.transformOnce.ensures).here holds

/-- Then a run with these sinks is a run. -/
theorem runBy_eq
    (counts : ∀ w, inv w → inv (w.changed p fun pipe => { pipe with calls := pipe.calls + 1 }))
    (begins : ∀ w, inv w → inv (w.begun p))
    {w : World τ ω} (holds : inv w) : Pipe.runBy sinks o p w = Pipe.run o p w := by
  have follows := withstands.follows_into agrees
  have fails (s : Unit) (e : Error) :
      Ensures inv (Pipe.fail o p e) fun _ _ => True := fun _ _ _ _ _ => trivial
  have same : Mimics True id inv (Pipe.runBy sinks o p) (Pipe.run o p) fun _ _ => True :=
    follows.run fails (fun _ _ _ => trivial) () (ensures_modifyPipe counts)
      (fun w holds _ => begins w holds) fun _ => .same
  exact same.eq trivial holds

end Machine.Withstands

end ByteFlow
