/-
# Stores whose stream fails

A store reads once for each piece of free space, so its stream may fail after bytes have come in. A
store that ends with the error of its stream does not run the pipe, and those bytes lie where they
are until somebody else does. Mostly that makes no difference, since nothing would come of them: a
pipe that was still before has an empty source, or waits for room, or waits for more of a unit that
lies where it can grow most, with all free space in one piece behind it.

The last is not so if the source cannot be moved. There may be room before the unit too, so that the
stream fails once the unit has grown as far as it can, which may be enough for the transform.
`Pipe.Interrupted` says when this is so, and it is shown that nothing else keeps a store from
leaving a pipe still.
-/

import ByteFlow.Proofs.Failure
import ByteFlow.Proofs.Repose

namespace ByteFlow

open Machine

variable {τ ω : Type}

/-! ## Bytes that come in -/

namespace Pipe

variable {pipe : Pipe Codec} {ring after : Ring} {moved : Bytes}

/-- What the transform makes of all that is in the source. -/
def outlook (pipe : Pipe Codec) : Step :=
  (pipe.transform.step pipe.source.toList
    (.new pipe.queue pipe.scratch pipe.options.ceiling)).1

theorem called_eq (piece : pipe.source.isContiguous) :
    pipe.called = .ofStep pipe.transform (pipe.transform.step pipe.source.toList
      (.new pipe.queue pipe.scratch pipe.options.ceiling)) := by
  rw [← Ring.toList_readable_of_isContiguous piece]
  rfl

theorem outlook_of_called {step : Step} (piece : pipe.source.isContiguous)
    (called : pipe.called = pipe.untouched step) : pipe.outlook = step := by
  have result : pipe.called.result = .ok step := congrArg Transformed.result called
  rw [called_eq piece] at result
  exact Except.ok.inj result

/-- A call in which nothing is used leaves everything as it was. -/
theorem called_of_endsAt (piece : pipe.source.isContiguous) (ends : pipe.outlook.EndsAt 0) :
    pipe.called = pipe.untouched pipe.outlook :=
  Transform.Placid.placid _ _ _ _ ends (congrArg Transformed.result (called_eq piece))

/-- A dormant pipe of which the source lies in one piece stays dormant when more comes in behind,
unless the source cannot be moved and something of it would be used then. -/
theorem Dormant.fills (dormant : pipe.Dormant) (order : pipe.InOrder)
    (fills : pipe.source.Fills moved after) (ends : pipe.source.FillsEnd after) :
    Dormant { pipe with source := after } ∨
      pipe.source.region = .fixed ∧ ¬(outlook { pipe with source := after }).EndsAt 0 := by
  obtain ⟨begun, piece, _, whole, room⟩ := ends
  have held : pipe.source.used ≠ 0 := fun none => begun (order.source.head_eq none)
  cases dormant with
  | done called =>
      have some : pipe.source.toList ≠ [] := fun none => held (by
        rw [← order.source.length_toList, none, List.length_nil])
      have unused : pipe.outlook = .done 0 := outlook_of_called piece called
      have ended : pipe.transform.step pipe.source.toList
          (.new pipe.queue pipe.scratch pipe.options.ceiling) =
            (.done 0, .new pipe.queue pipe.scratch pipe.options.ceiling) :=
        Prod.ext unused (pipe.transform.step_of_endsAt (.inl unused))
      have still : outlook { pipe with source := after } = .done 0 := by
        have appended := pipe.transform.step_append some ended moved
        rw [← fills.content] at appended
        exact congrArg Prod.fst appended
      have untouched : Pipe.called { pipe with source := after } = _ :=
        called_of_endsAt whole (.inl still)
      rw [still] at untouched
      exact .inl (.done untouched)
  | waits called _ _ front =>
      have stuck : pipe.source.canDefragment = false := Bool.eq_false_iff.2 fun h => begun (front h)
      by_cases ends : (outlook { pipe with source := after }).EndsAt 0
      · have untouched : Pipe.called { pipe with source := after } = _ :=
          called_of_endsAt whole ends
        rcases ends with still | still
        · rw [still] at untouched
          exact .inl (.done untouched)
        · rw [still] at untouched
          refine .inl (.waits untouched whole room fun movable => ?_)
          have same : after.canDefragment = pipe.source.canDefragment := by
            rw [Ring.canDefragment, fills.region, fills.cleaned]
            rfl
          cases (same.symm.trans movable).symm.trans stuck
      · have intact : pipe.source.cleaned = false :=
          Bool.eq_false_iff.2 fun cleaned => held (order.source.used_eq cleaned)
        rw [Ring.canDefragment, intact, Bool.not_false, Bool.and_true] at stuck
        cases region : pipe.source.region with
        | fixed => exact .inr ⟨rfl, ends⟩
        | heap =>
            rw [region] at stuck
            cases stuck

/-- Before a store whose stream has failed, and after it: bytes have come into a source that cannot
be moved, the transform may be called, and would use some of what is there, but the pipe has neither
failed nor been run. -/
structure Interrupted (before after : Pipe Codec) (answer : Except Error Stored) : Prop where
  live : after.failure = none
  failed : ∃ e, answer = .error e
  fixed : before.source.region = .fixed
  grown : before.source.used < after.source.used
  ready : after.isReady
  useful : ¬after.outlook.EndsAt 0

/-- A still pipe stays still when its stream fails, or is interrupted. -/
theorem Still.fills (still : pipe.Still ring) (live : pipe.failure = none)
    (usable : ring.cleaned = false) (order : pipe.InOrder) (fills : pipe.source.Fills moved after)
    (ends : pipe.source.FillsEnd after) :
    Still { pipe with source := after } ring ∨
      pipe.source.region = .fixed ∧ isReady { pipe with source := after } ∧
        ¬(outlook { pipe with source := after }).EndsAt 0 := by
  cases ready : isReady { pipe with source := after } with
  | false =>
      cases still with
      | failed failed => exact (failed live).elim
      | unready spent _ => exact .inl (.unready spent ready)
      | dormant spent _ => exact .inl (.unready spent ready)
      | refused cleaned => cases usable.symm.trans cleaned
  | true =>
      cases still with
      | failed failed => exact (failed live).elim
      | unready spent unready =>
          -- The source is not empty, so it was the queue that kept the transform from being called.
          have held : pipe.source.isEmpty = false :=
            beq_eq_false_iff_ne.2 fun none => ends.begun (order.source.head_eq none)
          have below := (Bool.and_eq_true_iff.1 ready).2
          have able : pipe.isReady = true := Bool.and_eq_true_iff.2 ⟨by rw [held]; rfl, below⟩
          cases unready.symm.trans able
      | dormant spent dormant =>
          refine (dormant.fills order fills ends).imp ?_ ?_
          · exact fun dormant => .dormant spent dormant
          · exact fun ⟨fixed, useful⟩ => ⟨fixed, rfl, useful⟩
      | refused cleaned => cases usable.symm.trans cleaned

/-- Nothing of what is in the source would be used in a still pipe, if the transform may be
called. -/
theorem Still.endsAt (still : pipe.Still ring) (live : pipe.failure = none)
    (usable : ring.cleaned = false) (piece : pipe.source.isContiguous) (ready : pipe.isReady) :
    pipe.outlook.EndsAt 0 := by
  cases still with
  | failed failed => exact (failed live).elim
  | unready spent unready => cases ready.symm.trans unready
  | dormant spent dormant =>
      cases dormant with
      | done called => exact .inl (outlook_of_called piece called)
      | waits called => exact .inr (outlook_of_called piece called)
  | refused cleaned => cases usable.symm.trans cleaned

end Pipe

/-! ## Stores -/

section Stores

variable [Inhabited τ]

/-- The pipe, and what is in its destination. -/
def World.site (p : PipeId) (w : World τ ω) : Pipe τ × Ring :=
  (w.pipes.get p, w.content (w.pipes.get p).destination)

/-- A source that comes to its end whenever it is asked, and leaves the pipe and what is in its
destination alone. It may fail. -/
structure Source.Spares (p : PipeId) (source : Source (Machine τ ω)) : Prop where
  read : ∀ wanted site, Secures (fun w => w.site p = site) (source.read wanted)
    fun _ w => w.site p = site
  ended : ∀ site, Secures (fun w => w.site p = site) source.isEnded fun _ w => w.site p = site

/-- A ring that is stored into from such a source is filled. If the source fails, it has stored
nothing, or has just filled the first of two pieces of free space. -/
theorem Source.Spares.exists_storeFrom {p : PipeId} {source : Source (Machine τ ω)}
    (spares : source.Spares p) {r : Ring} (valid : r.Valid) (w : World τ ω) :
    ∃ intake w', r.storeFrom source w = .ok intake w' ∧ w'.site p = w.site p ∧
      r.Fills intake.moved intake.ring ∧ ∀ e, intake.result = .error e →
        (intake.ring = r ∧ intake.moved = []) ∨ r.FillsEnd intake.ring := by
  have reads : Secures (fun w' => w'.site p = w.site p) (r.storeFrom source)
      fun _ w' => w'.site p = w.site p :=
    Ring.closed_storeFrom (closed_secures _) (fun wanted => spares.read wanted _)
      (spares.ended _) r
  have kept {α : Type} (m : Machine τ ω α) : Keeps (fun _ => True) m :=
    fun _ _ _ _ _ => trivial
  obtain ⟨intake, w', ran, site⟩ := reads.exists_ok rfl
  have filled := Ring.ensures_storeFrom (fun wanted => kept (source.read wanted)) (kept _) valid
    trivial ran
  exact ⟨intake, w', ran, site, filled.2, Ring.ensures_storeFrom_of_error valid trivial ran⟩

theorem World.site_entered {p : PipeId} {w : World τ ω} : (w.entered p).site p =
    ({ w.pipes.get p with calls := (w.pipes.get p).calls + 1 },
      w.content (w.pipes.get p).destination) := by
  rw [World.site, Pipe.get_entered]
  rfl

theorem World.site_left {p : PipeId} {w : World τ ω} : (w.left p).site p =
    ({ w.pipes.get p with calls := (w.pipes.get p).calls - 1 },
      w.content (w.pipes.get p).destination) := by
  rw [World.site, World.left, Table.get_set, if_pos rfl]
  rfl

namespace Pipe

variable [Transform τ] {o : Owner τ ω} {p : PipeId} {source : Source (Machine τ ω)}
  {w w' : World τ ω} {intake : Intake}

/-- The world once what has come in is in the source of the pipe. -/
def received (p : PipeId) (intake : Intake) (w : World τ ω) : World τ ω :=
  { w with
    pipes := w.pipes.set p { w.pipes.get p with source := intake.ring }
    journal := .received p intake.moved :: w.journal }

omit [Transform τ] in
/-- A call was entered, and then only a ring came in the place of the source. -/
theorem site_received (site : w'.site p = (w.entered p).site p) :
    (received p intake w').site p =
      ({ w.pipes.get p with source := intake.ring, calls := (w.pipes.get p).calls + 1 },
        w.content (w.pipes.get p).destination) := by
  rw [World.site_entered] at site
  obtain ⟨own, content⟩ := Prod.mk.inj site
  rw [own] at content
  rw [World.site, received, Table.get_set, if_pos rfl, own]
  exact congrArg _ content

/-- How a store answers, once it has run the pipe. -/
def answer (pipe : Pipe τ) (stored : Stored) : Except Error Stored :=
  match pipe.failure with
  | some kind => .error ⟨.store, kind, none⟩
  | none => .ok stored

omit [Inhabited τ] [Transform τ] in
/-- An error is answered only by a pipe that has failed. -/
theorem failure_ne_none {pipe : Pipe τ} {stored : Stored} {e : Error}
    (failed : pipe.answer stored = .error e) : pipe.failure ≠ none := by
  intro live
  rw [answer, live] at failed
  cases failed

section Intake

variable (live : (w.pipes.get p).failure = none)
  (read : (w.pipes.get p).source.storeFrom source (w.entered p) = .ok intake w')

include live read

/-- What a store does once its bytes have come in is what it does. -/
theorem storeFrom_of_read {answer : Except Error Stored} {after : World τ ω}
    (ends : (do
      match intake.result with
      | .error e => return .error e
      | .ok stored =>
        if stored.isEos then log (.sourceEnded (← getPipe p).direction)
        run o p
        match ← failureCheck p with
        | .error e => return .error e
        | .ok () => return .ok stored : Machine τ ω (Except Error Stored))
      (received p intake w') = .ok answer after)
    (held : (after.pipes.get p).held = true) :
    storeFrom o p source w = .ok answer (after.left p) := by
  have checked : failureCheck p (w.entered p) = .ok (.ok ()) (w.entered p) := by
    rw [failureCheck_eq, get_entered, live]
  have reads : ((w.entered p).pipes.get p).source.storeFrom source (w.entered p) =
      .ok intake w' := by
    rw [get_entered]
    exact read
  refine during_of_ok ((bind_of_ok checked).trans ((bind_of_ok reads).trans ?_)) held
  exact ends

/-- A store whose stream fails leaves what has come in in the source, and does not run the pipe. -/
theorem exists_storeFrom_of_error (held : (w.pipes.get p).held = true)
    (site : w'.site p = (w.entered p).site p) {e : Error} (failed : intake.result = .error e) :
    ∃ after, storeFrom o p source w = .ok (.error e) after ∧ after.site p =
      ({ w.pipes.get p with source := intake.ring }, w.content (w.pipes.get p).destination) := by
  have came : (received p intake w').site p = _ := site_received site
  obtain ⟨own, content⟩ := Prod.mk.inj came
  rw [own] at content
  refine ⟨(received p intake w').left p, storeFrom_of_read live read ?_ ?_, ?_⟩
  · rw [failed]
    rfl
  · rw [own]
    exact held
  · rw [World.site_left, own]
    exact congrArg _ content

/-- A store whose stream does not fail runs the pipe. It fails only if the pipe has failed. -/
theorem exists_storeFrom_of_ok {d : RingId} {stored : Stored} (came : intake.result = .ok stored)
    (runs : ∀ u : World τ ω, u.site p = (received p intake w').site p →
      ∃ u', run o p u = .ok () u' ∧ (u'.pipes.get p).Left p d (u'.content d)) :
    ∃ answer after, storeFrom o p source w = .ok answer after ∧
      (after.pipes.get p).Left p d (after.content d) ∧
      ∀ e, answer = .error e → (after.pipes.get p).failure ≠ none := by
  have finishes {u u' : World τ ω} (ran : run o p u = .ok () u') : (do
      run o p
      match ← failureCheck p with
      | .error e => return .error e
      | .ok () => return .ok stored : Machine τ ω (Except Error Stored)) u =
      .ok ((u'.pipes.get p).answer stored) u' := by
    refine (bind_of_ok ran).trans ((bind_of_ok (failureCheck_eq p u')).trans ?_)
    unfold answer
    cases (u'.pipes.get p).failure <;> rfl
  obtain ⟨u, left, ends⟩ : ∃ u : World τ ω, (u.pipes.get p).Left p d (u.content d) ∧ (do
      if stored.isEos then log (.sourceEnded (← getPipe p).direction)
      run o p
      match ← failureCheck p with
      | .error e => return .error e
      | .ok () => return .ok stored : Machine τ ω (Except Error Stored))
      (received p intake w') = .ok ((u.pipes.get p).answer stored) u := by
    cases stored with
    | bytes count =>
        obtain ⟨u, ran, left⟩ := runs (received p intake w') rfl
        exact ⟨u, left, finishes ran⟩
    | eos =>
        let between : World τ ω := received p intake w'
        obtain ⟨u, ran, left⟩ := runs { between with
          journal := .logged (.sourceEnded (between.pipes.get p).direction) :: between.journal } rfl
        exact ⟨u, left, finishes ran⟩
  obtain ⟨own, _⟩ := Prod.mk.inj (World.site_left (p := p) (w := u))
  refine ⟨_, u.left p, storeFrom_of_read live read (by rw [came]; exact ends) left.held, ?_⟩
  rw [own]
  exact ⟨left.counted _, fun e => failure_ne_none⟩

end Intake

omit [Inhabited τ] [Transform τ] in
theorem Sound.fills {pipe : Pipe τ} (sound : pipe.Sound) {moved : Bytes} {after : Ring}
    (fills : pipe.source.Fills moved after) : Sound { pipe with source := after } where
  source := fills.valid
  queue := sound.queue
  emptied cleaned := sound.emptied (fills.cleaned.symm.trans cleaned)

/-- A run of the pipe comes to its end, and changes nothing about the pipe and its destination. -/
def Settled (o : Owner τ ω) (p : PipeId) (w : World τ ω) : Prop :=
  ∃ w', run o p w = .ok () w' ∧ w'.site p = w.site p

theorem Idles.settled (idles : Idles o p w) : Settled o p w := by
  obtain ⟨_, w', passed, _, ran⟩ := idles
  refine ⟨w', ran, ?_⟩
  rw [World.site, passed.pipes, passed.content]
  rfl

section Site

variable {pipe : Pipe τ} {ring : Ring} (site : w.site p = (pipe, ring))

include site

theorem Still.idles_of_site (still : pipe.Still ring) (sound : pipe.Sound)
    (operates : pipe.Operates false) (granted : 0 < o.passes) : Idles o p w := by
  obtain ⟨rfl, rfl⟩ := Prod.mk.inj site
  exact still.idles sound operates granted

theorem exists_run_of_site [Transform.Proper τ] {good : τ → Prop}
    (answers : Transform.Answers good) (passive : o.Passive)
    (idle : pipe.Idle good pipe.destination ring)
    (granted : pipe.source.used + 2 * ring.free + pipe.options.ceiling + 2 ≤ o.passes) :
    ∃ w', run o p w = .ok () w' ∧
      (w'.pipes.get p).Left p pipe.destination (w'.content pipe.destination) := by
  obtain ⟨rfl, rfl⟩ := Prod.mk.inj site
  obtain ⟨w', ran, left⟩ := exists_runVetted answers passive idle granted
  exact ⟨w', run_of_runVetted ⟨rfl, Nat.le_refl _⟩ p ran, left⟩

/-- A pipe that stays as it is in a run is as a run leaves it. -/
theorem Settled.left_of_site [Transform.Proper τ] {good : τ → Prop} (settled : Settled o p w)
    (answers : Transform.Answers good) (passive : o.Passive)
    (idle : pipe.Idle good pipe.destination ring)
    (granted : pipe.source.used + 2 * ring.free + pipe.options.ceiling + 2 ≤ o.passes) :
    pipe.Left p pipe.destination ring := by
  obtain ⟨w', ran, left⟩ := exists_run_of_site site answers passive idle granted
  obtain ⟨after, same, stays⟩ := settled
  cases same.symm.trans ran
  obtain ⟨own, content⟩ := Prod.mk.inj (stays.trans site)
  rw [own] at content left
  rwa [content] at left

end Site

end Pipe

end Stores

section Failing

variable {o : Owner Codec ω} {p : PipeId} {w : World Codec ω} {pipe : Pipe Codec} {ring : Ring}

/-- Where a stream has failed, the pipe idles if it was still before, unless it is interrupted. -/
theorem idles_iff_of_error (passive : o.Passive) (left : pipe.Left p pipe.destination ring)
    (live : pipe.failure = none) (usable : ring.cleaned = false) {moved : Bytes} {after : Ring}
    (fills : pipe.source.Fills moved after)
    (stopped : (after = pipe.source ∧ moved = []) ∨ pipe.source.FillsEnd after)
    (site : w.site p = ({ pipe with source := after }, ring))
    (granted : after.used + 2 * ring.free + pipe.options.ceiling + 2 ≤ o.passes) (e : Error) :
    Pipe.Idles o p w ↔ ¬pipe.Interrupted (w.pipes.get p) (.error e) := by
  have sound := left.toSound.fills fills
  have rests : Pipe.Operates false { pipe with source := after } :=
    ⟨left.operates.operating, left.operates.due⟩
  have idles (still : Pipe.Still { pipe with source := after } ring) : Pipe.Idles o p w :=
    still.idles_of_site site sound rests (by omega)
  have own : w.pipes.get p = { pipe with source := after } := congrArg Prod.fst site
  rw [own]
  rcases stopped with ⟨rfl, _⟩ | ends
  · refine iff_of_true (idles left.ended.still) fun interrupted => ?_
    exact Nat.lt_irrefl _ interrupted.grown
  · refine ⟨fun idle interrupted => interrupted.useful ?_, fun calm => ?_⟩
    · have run : Pipe.Idle (fun _ : Codec => True) pipe.destination
          { pipe with source := after } ring :=
        ⟨⟨sound, left.usable, rfl, left.held⟩, left.operates.operating, trivial⟩
      have again := idle.settled.left_of_site site Codec.answers passive run granted
      exact again.ended.still.endsAt live usable ends.whole interrupted.ready
    · refine (left.ended.still.fills live usable left.toInOrder fills ends).elim idles ?_
      rintro ⟨fixed, ready, useful⟩
      exact (calm ⟨live, ⟨e, rfl⟩, fixed, ends.grown, ready, useful⟩).elim

/-- Where a stream has not failed, the store runs the pipe, and so the pipe idles. An error is
answered only if the pipe has failed. -/
theorem exists_idles_of_ok (passive : o.Passive)
    (idle : (w.pipes.get p).Idle (fun _ => True) (w.pipes.get p).destination
      (w.content (w.pipes.get p).destination))
    (granted : (w.pipes.get p).source.capacity +
      2 * (w.content (w.pipes.get p).destination).free + (w.pipes.get p).options.ceiling + 2 ≤
        o.passes)
    (live : (w.pipes.get p).failure = none) {source : Source (Machine Codec ω)} {intake : Intake}
    {between : World Codec ω}
    (read : (w.pipes.get p).source.storeFrom source (w.entered p) = .ok intake between)
    (site : between.site p = (w.entered p).site p)
    (fills : (w.pipes.get p).source.Fills intake.moved intake.ring) {stored : Stored}
    (came : intake.result = .ok stored) :
    ∃ answer w', Pipe.storeFrom o p source w = .ok answer w' ∧ Pipe.Idles o p w' ∧
      ∀ e, answer = .error e → (w'.pipes.get p).failure ≠ none := by
  have after := idle.toSound.fills fills
  have fits := fills.valid.used_le
  rw [fills.capacity] at fits
  have within : intake.ring.used + 2 * (w.content (w.pipes.get p).destination).free +
      (w.pipes.get p).options.ceiling + 2 ≤ o.passes := by omega
  have runs (u : World Codec ω) (same : u.site p = (Pipe.received p intake between).site p) :
      ∃ u', Pipe.run o p u = .ok () u' ∧
        (u'.pipes.get p).Left p (w.pipes.get p).destination
          (u'.content (w.pipes.get p).destination) := by
    have ready : Pipe.Idle (fun _ : Codec => True) (w.pipes.get p).destination
        { w.pipes.get p with
          source := intake.ring
          calls := (w.pipes.get p).calls + 1 }
        (w.content (w.pipes.get p).destination) :=
      ⟨⟨⟨⟨after.source, after.queue⟩, after.emptied⟩, idle.usable, rfl, idle.held⟩,
        idle.operating, trivial⟩
    have found := same.trans (Pipe.site_received site)
    have ran := Pipe.exists_run_of_site found Codec.answers passive ready within
    exact ran
  obtain ⟨answer, w', stored, left, fails⟩ := Pipe.exists_storeFrom_of_ok live read came runs
  exact ⟨answer, w', stored, left.idles (by omega), fails⟩

end Failing

/-- Whether the stream of a store fails or not, the store comes to its end, and leaves a pipe of the
library still that was still before, unless the store is interrupted.

The pipe may be in any state that a program can bring about, as long as its destination was not
cleaned. -/
theorem store_settles_iff {o : Owner Codec ω} (passive : o.Passive) {p : PipeId} {w : World Codec ω}
    (reached : Reached p w) (held : (w.pipes.get p).held = true)
    (usable : (w.content (w.pipes.get p).destination).cleaned = false)
    (granted : (w.pipes.get p).source.capacity +
      2 * (w.content (w.pipes.get p).destination).free + (w.pipes.get p).options.ceiling + 2 ≤
        o.passes)
    (settled : Pipe.Settled o p w) {source : Source (Machine Codec ω)} (spares : source.Spares p) :
    ∃ answer w', Pipe.storeFrom o p source w = .ok answer w' ∧
      (Pipe.Idles o p w' ↔ ¬(w.pipes.get p).Interrupted (w'.pipes.get p) answer) := by
  obtain ⟨sound, _, operates⟩ := reached.sound
  have order := sound.pipes p
  have inside := order.source.used_le
  have positive : 0 < o.passes := by omega
  have idle : (w.pipes.get p).Idle (fun _ : Codec => True) _ _ :=
    sound.idle operates.operating trivial held
  have left := settled.left_of_site rfl Codec.answers passive idle (by omega)
  cases failed : (w.pipes.get p).failure with
  | some kind =>
      obtain ⟨w', passed, entered⟩ := exists_passed p [] w
        (Except.error ⟨.store, kind, none⟩ : Except Error Stored)
      refine ⟨_, w', (Pipe.storeFrom_of_failed failed o source).trans entered, iff_of_true ?_ ?_⟩
      · rw [← passed.pipes, ← passed.content] at left
        exact left.idles positive
      · intro interrupted
        have live := interrupted.live
        rw [passed.pipes, failed] at live
        cases live
  | none =>
      obtain ⟨intake, between, read, site, fills, stopped⟩ :=
        spares.exists_storeFrom order.source (w.entered p)
      have fits := fills.valid.used_le
      rw [fills.capacity] at fits
      cases result : intake.result with
      | error e =>
          obtain ⟨w', stored, site'⟩ :=
            Pipe.exists_storeFrom_of_error (o := o) failed read held site result
          refine ⟨_, w', stored, ?_⟩
          exact idles_iff_of_error passive left failed usable fills (stopped e result) site'
            (by omega) e
      | ok came =>
          obtain ⟨answer, w', stored, idles, fails⟩ :=
            exists_idles_of_ok passive idle granted failed read site fills result
          refine ⟨answer, w', stored, iff_of_true idles ?_⟩
          rintro ⟨live, ⟨e, refused⟩, _⟩
          exact fails e refused live

/-! ## A stream that breaks -/

namespace Breach

/-- A source that has a frame ready, and the beginning of another one. -/
def source : Source (Machine Codec Bool) where
  read wanted := pure (.ok ([0, 0, 0, 1, 97, 0, 0, 0].take wanted))
  isEnded := pure false

/-- A source that has the rest of that frame ready, and fails when it is asked again. -/
def broken : Source (Machine Codec Bool) where
  read wanted := fun w =>
    if w.owner then .ok (.error (.io .store ⟨.connectionReset, "reset"⟩)) w
    else .ok (.ok ([1, 98].take wanted)) { w with owner := true }
  isEnded := pure false

theorem spares : broken.Spares 0 where
  read wanted site w same := by
    unfold broken
    cases owner : w.owner
    all_goals
      dsimp only
      rw [owner]
      exact same
  ended site := upholds_pure fun _ => id

def owner : Owner Codec Bool := ⟨fun _ _ => pure (), 26⟩

theorem passive : owner.Passive := fun _ _ => discreet_pure _

/-- A world with a ring that has room for four bytes. -/
def world : World Codec Bool := ⟨⟨[⟨.empty 4 .heap, []⟩]⟩, .empty, [], false⟩

theorem sound : world.Sound :=
  (World.Sound.empty false).set_ring (r := 0) (Ring.valid_empty 4 .heap)

/-- Makes a pipe that takes frames apart, with a source that cannot be moved. -/
def make : Machine Codec Bool (Except Error PipeId) :=
  Pipe.create .unwrap 0 (.frameDecoder .standard) ⟨8, some 10, .fixed⟩

/-- Stores into the pipe. -/
def feed : Machine Codec Bool (Except Error Stored) := Pipe.storeFrom owner 0 source

theorem conduct : Conduct (Rules.custody 0) feed :=
  .feed 0 (fun _ _ => .gives _) trivial (fun _ => .gives _) (.gives _)

theorem conduct_run : Conduct (Rules.custody 0) (Pipe.run owner 0) :=
  .call (c := .run 0) trivial nofun nofun nofun fun _ _ => .gives _

end Breach

/-- A frame is completed by the two bytes that fit behind its beginning, and then the stream fails.
The frame lies in the source, whole, and nobody takes it apart before the next run. -/
theorem store_settles_iff_breach :
    ∃ w₁ a w₂ w₃ e w₄, Breach.make Breach.world = .ok (.ok 0) w₁ ∧ Breach.feed w₁ = .ok a w₂ ∧
      Pipe.run Breach.owner 0 w₂ = .ok () w₃ ∧ Pipe.Settled Breach.owner 0 w₃ ∧
      Pipe.storeFrom Breach.owner 0 Breach.broken w₃ = .ok (.error e) w₄ ∧
      (w₄.pipes.get 0).outlook = .done 5 ∧ ¬Pipe.Idles Breach.owner 0 w₄ := by
  have runs : Breach.make.ends Breach.world fun made w₁ => made.toOption = some 0 &&
      Breach.feed.ends w₁ fun _ w₂ => ((w₂.pipes.get 0).held = true ∧
        (w₂.pipes.get 0).source.used + 2 * (w₂.content (w₂.pipes.get 0).destination).free +
          (w₂.pipes.get 0).options.ceiling + 2 ≤ Breach.owner.passes) &&
        (Pipe.run Breach.owner 0).ends w₂ fun _ w₃ => ((w₃.pipes.get 0).held = true ∧
          (w₃.content (w₃.pipes.get 0).destination).cleaned = false ∧
          (w₃.pipes.get 0).source.capacity +
            2 * (w₃.content (w₃.pipes.get 0).destination).free +
            (w₃.pipes.get 0).options.ceiling + 2 ≤ Breach.owner.passes ∧
          (w₃.pipes.get 0).source.region = .fixed ∧ (w₃.pipes.get 0).source.used = 3) &&
          (Pipe.storeFrom Breach.owner 0 Breach.broken).ends w₃ fun answer w₄ =>
            answer.toOption = none ∧ (w₄.pipes.get 0).failure = none ∧
              (w₄.pipes.get 0).source.used = 5 ∧ (w₄.pipes.get 0).isReady = true ∧
              (w₄.pipes.get 0).outlook = .done 5 := by decide +kernel
  obtain ⟨made, w₁, make, runs⟩ := ends_iff.1 runs
  obtain ⟨first, runs⟩ := Bool.and_eq_true_iff.1 runs
  obtain rfl := eq_ok_of_toOption (of_decide_eq_true first)
  obtain ⟨a, w₂, feed, runs⟩ := ends_iff.1 runs
  obtain ⟨able, runs⟩ := Bool.and_eq_true_iff.1 runs
  obtain ⟨held₂, granted₂⟩ := of_decide_eq_true able
  obtain ⟨⟨⟩, w₃, run, runs⟩ := ends_iff.1 runs
  obtain ⟨able, runs⟩ := Bool.and_eq_true_iff.1 runs
  obtain ⟨held, usable, granted, fixed, waiting⟩ := of_decide_eq_true able
  obtain ⟨answer, w₄, stored, after⟩ := ends_iff.1 runs
  obtain ⟨refused, live, grown, ready, useful⟩ := of_decide_eq_true after
  have fed : Reached 0 w₂ :=
    ⟨_, _, _, _, _, _, _, _, Breach.sound, make, Breach.conduct, left_of_ok feed⟩
  have reached : Reached 0 w₃ :=
    ⟨_, _, _, _, _, _, _, _, Breach.sound, make,
      .andThen Breach.conduct fun _ => Breach.conduct_run, left_of_ok ((bind_of_ok feed).trans run)⟩
  have settled : Pipe.Settled Breach.owner 0 w₃ := by
    have idle : (w₂.pipes.get 0).Idle (fun _ : Codec => True) _ _ :=
      fed.sound.1.idle fed.sound.2.2.operating trivial held₂
    obtain ⟨w, ran, left⟩ := Pipe.exists_run_of_site rfl Codec.answers Breach.passive idle granted₂
    cases run.symm.trans ran
    exact (left.idles (by decide)).settled
  obtain ⟨_, _, again, law⟩ :=
    store_settles_iff Breach.passive reached held usable granted settled Breach.spares
  cases stored.symm.trans again
  cases answer with
  | ok came => cases refused
  | error e =>
      refine ⟨w₁, a, w₂, w₃, e, w₄, make, feed, run, settled, stored, useful, fun idles => ?_⟩
      refine law.1 idles ⟨live, ⟨e, rfl⟩, fixed, ?_, ready, ?_⟩
      · rw [waiting, grown]
        decide
      · rw [useful]
        rintro (impossible | impossible) <;> cases impossible

end ByteFlow
