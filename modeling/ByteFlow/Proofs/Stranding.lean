/-
# No output is stranded

Whenever no call is in progress, a pipe that has not failed has nothing waiting beside free space in
its destination. Its own runs leave it so, and everything that makes room afterwards, or puts
another ring in the place of the destination, starts another run: by the listener, which is told of
every edge, or by the switch itself.

That a sink never fails is needed. A transfer that makes room and then ends with an error tells
nobody, so that the listener would not be told either.
-/

import ByteFlow.Proofs.Settling

namespace ByteFlow

open Machine

variable {τ ω : Type}

/-- A sink that never fails. It may still take less than it is offered, or nothing. -/
def Sink.Willing (sink : Sink (Machine τ ω)) : Prop :=
  ∀ offered, Ensures (fun _ => True) (sink.write offered) fun answer _ =>
    ∃ count, answer = .ok count

/-- A sink that takes everything it is offered. -/
def Sink.Greedy (sink : Sink (Machine τ ω)) : Prop :=
  ∀ offered, Ensures (fun _ => True) (sink.write offered) fun answer _ =>
    answer = .ok offered.length

theorem Sink.Greedy.willing {sink : Sink (Machine τ ω)} (greedy : sink.Greedy) : sink.Willing :=
  fun offered => (greedy offered).post_imp fun _ _ answered => ⟨_, answered⟩

variable [Inhabited τ]

/-- Writes the destination of a pipe into a sink again and again, until nothing is left to write. -/
def Pipe.exhaust [Transform τ] (o : Owner τ ω) (p : PipeId) (sink : Sink (Machine τ ω))
    (max : Nat) : (passes : Nat) → Machine τ ω Unit
  | 0 => throw .exhausted
  | passes + 1 => do
    match ← Pipe.writeTo o p sink max with
    | .ok 0 => return ()
    | _ => exhaust o p sink max passes

namespace Attended

variable {p : PipeId} {R : RingId → Prop} {size : Nat} {phase : Phase} {w w' : World τ ω}

section Reacting

variable [Transform τ] [Transform.Proper τ] {o : Owner τ ω}
  (reacts : ∀ phase handler edge,
    Keeps (Attended p R size (Phase.Holds phase) : World τ ω → Prop) (o.react handler edge))

include reacts

/-! ## Calls -/

theorem keeps_storeFrom {source : Source (Machine τ ω)}
    (reads : ∀ wanted, Keeps (Attended p R size phase.Holds) (source.read wanted))
    (ends : Keeps (Attended p R size phase.Holds) source.isEnded) (q : PipeId) :
    Keeps (Attended p R size phase.Holds) (Pipe.storeFrom o q source) := by
  by_cases own : q = p
  · rw [own]
    refine steady.keeps_during ?_ p
    apply Keeps.bind (steady.hosts.failureCheck p)
    intro failed
    cases failed with
    | error e => exact keeps_pure _
    | ok =>
        refine .pointwise fun w h => .at_getPipe ?_
        have intact := h.2.1.intact
        have read := Ring.ensures_storeFrom reads ends h.2.1.source
        refine Ensures.bind (.here h read) fun intake => ?_
        refine .pointwise fun w ⟨h, fills⟩ => .at_modifyPipe (.at_record ?_)
        have source : intake.ring.Valid ∧ intake.ring.cleaned = false :=
          ⟨fills.valid, fills.cleaned.trans intact⟩
        have received : Attended p R size phase.Holds { w with
            pipes := w.pipes.set p { w.pipes.get p with source := intake.ring } } :=
          set_pipe (h.2.1.update rfl rfl source h.2.1.queue) (h.2.2.of_same rfl rfl rfl id)
        exact .here received (steady.hosts.onIntake (keeps_run reacts p) intake.result)
  · exact (blind reacts own).keeps_storeFrom reads ends

omit reacts [Transform τ] [Transform.Proper τ] in
/-- With the destination the listener moves over to another ring, which may have room. -/
theorem redirected (h : Attended p R size phase.Holds w) {candidate : RingId} (range : R candidate)
    {rings : Table SharedRing} (inUse : candidate < rings.next)
    (same : ∀ r, (rings.get r).ring = (w.rings.get r).ring)
    (listens : .listener p ∈ (rings.get candidate).observers)
    (capacity : (w.rings.get candidate).ring.capacity = size) (journal : List Event) :
    Attended p R size phase.owed.Holds { w with
      rings, journal
      pipes := w.pipes.set p { w.pipes.get p with destination := candidate } } := by
  have served := h.2.1
  refine set_pipe (w := { w with rings, journal }) ?_ ?_
  · refine { served with inUse, inRange := range, ring := ?_, capacity := ?_, listens }
    · intro r inside
      rw [same]
      exact served.ring r inside
    · rw [same]
      exact capacity
  · exact (h.2.2.owed _).of_same rfl rfl rfl id

/-- A switch owes the pipe a run, and starts it. -/
theorem keeps_switchTo {q : PipeId} {candidate : RingId} (range : q = p → R candidate) :
    Keeps (Attended p R size phase.Holds) (Pipe.switchTo o q candidate) := by
  by_cases own : q = p
  · have range := range own
    rw [own]
    refine steady.keeps_during ?_ p
    refine .pointwise fun w h => .at_getPipe (.at_getRing (.at_getRing ?_))
    split
    · exact .here h (keeps_pure _)
    · rename_i admitted
      have capacity := (Pipe.switchRefusal_eq_none_iff.1 admitted).2.1.symm.trans h.2.1.capacity
      refine .at_modifyShared (.at_modifyPipe (.at_record (.at_modifyShared ?_)))
      refine Ensures.bind
        (.here (h.redirected range ?_ ?_ ?_ capacity _) (steady.log _)) fun _ => ?_
      · exact Table.lt_next_set _ _ _
      · intro r
        rw [ring_set_observers, ring_set_observers]
      · rw [Table.get_set, if_pos rfl]
        exact mem_enlist.2 (.inr rfl)
      · exact (ensures_run reacts phase).bind fun _ => keeps_pure _
  · exact (blind reacts own).keeps_switchTo candidate

/-! ## Room -/

theorem keeps_fireWritable (r : RingId) :
    Keeps (Attended p R size phase.Holds) (SharedRing.fireWritable o r) :=
  steady.hosts.fireWritable (reacts phase) (keeps_run reacts) r

/-- The listener is among those who are told that the destination has room now, and settles what is
owed when its turn comes. -/
theorem ensures_fireWritable (phase : Phase) (r : RingId) :
    Ensures (fun w => Attended p R size phase.owed.Holds w ∧ (w.pipes.get p).destination = r)
      (SharedRing.fireWritable o r) fun _ => Attended p R size phase.Holds := by
  refine .pointwise fun w ⟨h, current⟩ => ?_
  have fired : Attended p R size phase.owed.Holds
      { w with journal := .fired (.ring r) .writable :: w.journal } := h
  refine .at_record (.at_getShared (.here fired ?_))
  have listens := h.2.1.listens
  rw [current] at listens
  refine ensures_forM_of_mem listens ?_
    (fun _ _ => steady.hosts.tellWritable (reacts _) fun q _ => keeps_run reacts q)
    fun _ _ => steady.hosts.tellWritable (reacts _) fun q _ => keeps_run reacts q
  refine .pointwise fun w h => .at_getPipe ?_
  rw [Pipe.isAlive, h.2.1.held]
  exact .here h (ensures_run reacts phase)

/-- What is written out of a ring that is never the destination makes no room for the pipe. -/
theorem keeps_pour_elsewhere {r : RingId} (outside : ¬R r) {sink : Sink (Machine τ ω)}
    (writes : ∀ offered, Keeps (Attended p R size phase.Holds) (sink.write offered)) (max : Nat) :
    Keeps (Attended p R size phase.Holds) (SharedRing.writeTo o r sink max) := by
  refine .pointwise fun w h => .at_getRing ?_
  refine Ensures.bind (.here h (Ring.keeps_writeTo writes _ max)) fun outflow => ?_
  refine .pointwise fun w' h => .at_modifyShared (.at_record ?_)
  have elsewhere : Attended p R size phase.Holds { w' with
      rings := w'.rings.set r { w'.rings.get r with ring := outflow.ring }
      journal := .delivered r outflow.moved :: w'.journal } := by
    refine set_ring (w := w') h (fun inside => (outside inside).elim) ?_ fun _ => h.2.2
    rintro rfl
    exact (outside h.2.1.inRange).elim
  refine .here elsewhere ?_
  cases outflow.result with
  | error e => exact keeps_pure _
  | ok count => exact (closed_keeps _).perhaps (keeps_fireWritable reacts r) _ _

/-- A sink that takes bytes makes room, and whoever wrote to it tells of that if there was none
before. A sink that fails after it has made room would not be told of. -/
theorem ensures_pour {r : RingId} (range : R r) {sink : Sink (Machine τ ω)}
    {unmoved : World τ ω → Prop}
    (writes : ∀ offered,
      Keeps (fun w' => Attended p R size phase.Holds w' ∧ unmoved w') (sink.write offered))
    (willing : sink.Willing) (h : Attended p R size phase.Holds w) (first : unmoved w)
    (leaves : ∀ w', unmoved w' → (w'.rings.get r).ring = (w.rings.get r).ring) (max : Nat) :
    Ensures (· = w) (SharedRing.writeTo o r sink max) fun _ => Attended p R size phase.Holds := by
  refine .at_getRing ?_
  obtain ⟨valid, intact⟩ := h.2.1.ring r range
  have wrote := Ring.ensures_writeTo
    (fun offered => ((writes offered).and (willing offered)).of_imp (fun w h => ⟨h, trivial⟩)
      fun _ _ => id) valid max
  refine Ensures.bind (.here ⟨h, first⟩ wrote) fun outflow => ?_
  refine .pointwise fun w' ⟨⟨h, same⟩, pours⟩ => .at_modifyShared (.at_record ?_)
  have capacity : outflow.ring.capacity = (w'.rings.get r).ring.capacity :=
    pours.drains.capacity.trans (congrArg Ring.capacity (leaves w' same)).symm
  have poured {state : Pipe τ → Ring → Prop}
      (own : r = (w'.pipes.get p).destination → state (w'.pipes.get p) outflow.ring)
      (others : r ≠ (w'.pipes.get p).destination →
        state (w'.pipes.get p) (w'.rings.get (w'.pipes.get p).destination).ring) :
      Attended p R size state { w' with
        rings := w'.rings.set r { w'.rings.get r with ring := outflow.ring }
        journal := .delivered r outflow.moved :: w'.journal } :=
    h.set_ring (fun _ => ⟨pours.drains.valid, pours.drains.cleaned.trans intact, capacity⟩) own
      others
  cases answered : outflow.result with
  | error e =>
      rcases pours.failed e answered with closed | ⟨_, _, impossible⟩
      · rw [intact] at closed
        cases closed
      · cases impossible
  | ok count =>
      dsimp only
      split
      · by_cases current : (w'.pipes.get p).destination = r
        · have owed := poured (fun _ => h.2.2.owed _) fun elsewhere => (elsewhere current.symm).elim
          have told := (ensures_fireWritable reacts phase r).here ⟨owed, current⟩
          exact told.bind fun _ => keeps_pure _
        · have unseen := poured (fun here => (current here.symm).elim) fun _ => h.2.2
          exact Ensures.bind (.here unseen (keeps_fireWritable reacts r)) fun _ => keeps_pure _
      · rename_i no_room
        have full : (w'.rings.get r).ring.free = 0 → outflow.ring.free = 0 := by
          rw [leaves w' same, pours.drains.free_eq valid, ← pours.counted count answered]
          intro full
          rw [full, Nat.zero_add]
          exact Nat.eq_zero_of_not_pos fun some => no_room ⟨full, some⟩
        refine .here (poured ?_ fun _ => h.2.2) (keeps_pure _)
        rintro rfl
        exact h.2.2.of_same rfl rfl rfl full

theorem keeps_pour {r : RingId} {sink : Sink (Machine τ ω)}
    (writes : ∀ offered, Keeps (Attended p R size phase.Holds) (sink.write offered))
    (willing : sink.Willing)
    (leaves : ∀ offered, Leaves (fun w => (w.rings.get r).ring) (sink.write offered)) (max : Nat) :
    Keeps (Attended p R size phase.Holds) (SharedRing.writeTo o r sink max) := by
  by_cases range : R r
  · exact .pointwise fun w h => ensures_pour reacts range
      (fun offered => (leaves offered).keeps_and (writes offered) (w.rings.get r).ring)
      willing h rfl (fun _ same => same) max
  · exact keeps_pour_elsewhere reacts range writes max

theorem keeps_writeTo {q : PipeId} {sink : Sink (Machine τ ω)}
    (writes : ∀ offered, Keeps (Attended p R size phase.Holds) (sink.write offered))
    (willing : sink.Willing) (leaves : ∀ offered, Leaves (heldBy q) (sink.write offered))
    (max : Nat) : Keeps (Attended p R size phase.Holds) (Pipe.writeTo o q sink max) := by
  refine steady.keeps_during (.pointwise fun w h => .at_getPipe ?_) q
  by_cases range : R (w.pipes.get q).destination
  · exact ensures_pour reacts range
      (fun offered => (leaves offered).keeps_and (writes offered) (heldBy q w)) willing h rfl
      (fun _ => ring_eq_of_heldBy) max
  · exact .here h (keeps_pour_elsewhere reacts range writes max)

/-! ## Emptying -/

omit reacts [Transform τ] [Transform.Proper τ] in
/-- What a pipe holds is no concern of the bookkeeping. -/
theorem steady_heldBy {P : RingId × Ring → Prop} :
    Steady fun w : World τ ω => P (heldBy p w) where
  log entry := ensures_record fun _ => id
  announce _ _ _ := ensures_record fun _ => id
  count q f := by
    apply ensures_modifyPipe
    intro w h
    have same : ((w.pipes.set q { w.pipes.get q with calls := f (w.pipes.get q).calls }).get
        p).destination = (w.pipes.get p).destination := by
      rw [Table.get_set]
      split
      · rename_i own
        rw [own]
      · rfl
    unfold heldBy at h ⊢
    rw [same]
    exact h
  retire q := by
    refine (closed_keeps _).retire fun r => ensures_modifyShared fun w h => ?_
    unfold heldBy at h ⊢
    rw [ring_set_observers]
    exact h

omit reacts [Transform.Proper τ] in
/-- A sink that takes everything is given nothing only by an empty destination. -/
theorem ensures_writeTo_nothing {sink : Sink (Machine τ ω)} (greedy : sink.Greedy)
    (leaves : ∀ offered, Leaves (heldBy p) (sink.write offered)) {max : Nat} (some : 0 < max) :
    Ensures (Attended p R size phase.Holds) (Pipe.writeTo o p sink max) fun answer w =>
      answer = .ok 0 → (heldBy p w).2.used = 0 := by
  refine steady.ensures_during (fun answer => ?_) (.pointwise fun w h => .at_getPipe ?_) p
  · exact steady_heldBy (P := fun held => answer = .ok 0 → held.2.used = 0)
  obtain ⟨valid, intact⟩ := h.2.1.ring _ h.2.1.inRange
  refine .at_getRing ?_
  have offers (offered : Bytes) : Ensures (fun w' => heldBy p w' = heldBy p w)
      (sink.write offered) fun answer w' =>
        heldBy p w' = heldBy p w ∧ answer = .ok offered.length :=
    fun _ _ _ same ran => ⟨(leaves offered ran).trans same, greedy offered trivial ran⟩
  have wrote := Ring.ensures_writeTo offers valid max
  refine Ensures.bind (wrote.pre_imp fun _ => congrArg (heldBy p)) fun outflow => ?_
  refine .pointwise fun w' ⟨same, pours⟩ => .at_modifyShared (.at_record ?_)
  cases answered : outflow.result with
  | error e => exact ensures_pure fun _ _ => nofun
  | ok count =>
      dsimp only
      split
      · rename_i made_room
        refine Ensures.bind (.here made_room.2 keeps_fact) fun _ => ensures_pure fun w moved => ?_
        rintro ⟨⟩
        exact (Nat.lt_irrefl 0 moved).elim
      · apply ensures_pure
        rintro _ rfl ⟨⟩
        have nothing : outflow.moved.length = 0 := (pours.counted 0 answered).symm
        have drained : outflow.ring.used = 0 := by
          have total := pours.drains.length_add_used valid
          rcases pours.far intact with far | ⟨offered, _, rfl, short⟩
          · omega
          · exact (Nat.lt_irrefl _ short).elim
        have destination : (w'.pipes.get p).destination = (w.pipes.get p).destination :=
          congrArg Prod.fst same
        change ((w'.rings.set (w.pipes.get p).destination _).get
          (w'.pipes.get p).destination).ring.used = 0
        rw [Table.get_set, if_pos destination.symm]
        exact drained

/-- To empty the destination again and again lets everything through that waits. -/
theorem ensures_exhaust {sink : Sink (Machine τ ω)}
    (writes : ∀ offered, Keeps (Attended p R size Phase.resting.Holds) (sink.write offered))
    (greedy : sink.Greedy) (leaves : ∀ offered, Leaves (heldBy p) (sink.write offered)) {max : Nat}
    (some : 0 < max) (passes : Nat) :
    Ensures (Attended p R size Phase.resting.Holds) (Pipe.exhaust o p sink max passes) fun _ w =>
      Attended p R size Phase.resting.Holds w ∧ (heldBy p w).2.used = 0 := by
  induction passes with
  | zero => exact ensures_throw _
  | succ passes ih =>
      have kept := keeps_writeTo reacts writes greedy.willing leaves max
      have drained : Ensures (Attended p R size Phase.resting.Holds)
          (Pipe.writeTo o p sink max) _ := ensures_writeTo_nothing greedy leaves some
      refine Ensures.bind ((kept.and drained).pre_imp fun _ h => ⟨h, h⟩) fun answer => ?_
      split
      · exact ensures_pure fun w h => ⟨h.1, h.2 rfl⟩
      · exact ih.pre_imp fun w h => h.1

end Reacting

/-- A new pipe has nothing that could wait. -/
theorem ensures_create {d : RingId} (range : R d)
    (usable : ∀ r, R r → (w.rings.get r).ring.Valid ∧ (w.rings.get r).ring.cleaned = false)
    (direction : Direction) (transform : τ) (options : PipeOptions) :
    Ensures (· = w) (Pipe.create direction d transform options) fun made w' =>
      ∀ p, made = .ok p →
        Attended p R (w.rings.get d).ring.capacity Phase.resting.Holds w' := by
  refine Pipe.ensures_create (fun e => nofun) ?_
  rintro capacity entry _ _ _ _ ⟨⟩
  have same := ring_set_observers w.rings d
    (enlist (w.rings.get d).observers (.listener w.pipes.next))
  refine set_pipe (w := { w with
    rings := w.rings.set d { w.rings.get d with
      observers := enlist (w.rings.get d).observers (.listener w.pipes.next) } }) ?_
    ⟨rfl, fun _ => .inl rfl⟩
  exact {
    inUse := Table.lt_next_set _ _ _
    inRange := range
    ring := by
      intro r inside
      rw [same]
      exact usable r inside
    capacity := congrArg Ring.capacity (same d)
    listens := by
      change _ ∈ ((w.rings.set d _).get d).observers
      rw [Table.get_set, if_pos rfl]
      exact mem_enlist.2 (.inr rfl)
    held := rfl
    source := Ring.valid_empty _ _
    intact := rfl
    queue := Queue.sound_empty }

end Attended

/-- The rules for programs that drop nothing: they do anything with any pipes and rings, but neither
clear nor clean, and their sinks never fail. Pipe `p` is switched between the rings in `R`. A stream
does not touch the ring that it is read into or written from at that moment. -/
def Rules.nothingDropped (p : PipeId) (R : RingId → Prop) : Rules τ ω where
  permits c :=
    match c with
    | .feed _ _ => True
    | .run _ => True
    | .empty q sink _ => sink.Willing ∧ ∀ offered, Leaves (heldBy q) (sink.write offered)
    | .switch q candidate => q = p → R candidate
    | .store _ _ => True
    | .fill r source =>
      (∀ wanted, Leaves (fun w => (w.rings.get r).ring) (source.read wanted)) ∧
        Leaves (fun w => (w.rings.get r).ring) source.isEnded
    | .pour r sink _ =>
      sink.Willing ∧ ∀ offered, Leaves (fun w => (w.rings.get r).ring) (sink.write offered)
    | .clear _ => False
    | .clean _ => False
  ignores := Apart p R

/-- Permitted calls keep the phase, whichever it is when they are made. -/
theorem Attended.keeps_perform [Transform τ] [Transform.Proper τ] {p : PipeId} {R : RingId → Prop}
    {size : Nat} {o : Owner τ ω} {α : Type} {c : Call τ ω α}
    (permitted : (Rules.nothingDropped p R).permits c)
    (reads : ∀ source, c.source? = some source →
      ∀ wanted phase, Keeps (Attended p R size (Phase.Holds phase)) (source.read wanted))
    (ended : ∀ source, c.source? = some source →
      ∀ phase, Keeps (Attended p R size (Phase.Holds phase)) source.isEnded)
    (writes : ∀ sink, c.sink? = some sink →
      ∀ offered phase, Keeps (Attended p R size (Phase.Holds phase)) (sink.write offered))
    (reacts : ∀ phase handler edge,
      Keeps (Attended p R size (Phase.Holds phase)) (o.react handler edge))
    (phase : Phase) : Keeps (Attended p R size phase.Holds) (c.perform o) := by
  cases c with
  | feed q source =>
      exact keeps_storeFrom reacts (fun wanted => reads source rfl wanted phase)
        (ended source rfl phase) q
  | run q => exact keeps_run reacts q
  | empty q sink max =>
      exact keeps_writeTo reacts (fun offered => writes sink rfl offered phase) permitted.1
        permitted.2 max
  | switch q candidate => exact keeps_switchTo reacts permitted
  | store r data => exact keeps_store reacts r data
  | fill r source =>
      exact keeps_fill reacts (fun wanted => reads source rfl wanted phase)
        (ended source rfl phase) permitted
  | pour r sink max =>
      exact keeps_pour reacts (fun offered => writes sink rfl offered phase) permitted.1
        permitted.2 max
  | clear q => exact permitted.elim
  | clean q => exact permitted.elim

/-- Between the calls of any program that drops nothing, a pipe that has not failed has nothing
waiting, unless its destination is full. So to write the destination into a sink that takes
everything, until nothing is left to write, leaves nothing waiting either. -/
theorem no_stranded_output [Transform τ] [Transform.Proper τ] {R : RingId → Prop} {d : RingId}
    {direction : Direction} {transform : τ} {options : PipeOptions} {w₀ w₁ w₂ : World τ ω}
    {p : PipeId} {α : Type} {m : Machine τ ω α} {a : α}
    (usable : ∀ r, R r → (w₀.rings.get r).ring.Valid ∧ (w₀.rings.get r).ring.cleaned = false)
    (range : R d) (made : Pipe.create direction d transform options w₀ = .ok (.ok p) w₁)
    (conduct : Conduct (Rules.nothingDropped p R) m) (ran : m w₁ = .ok a w₂) :
    ((w₂.pipes.get p).failure = none →
      (w₂.pipes.get p).queue.isEmpty ∨
        (w₂.rings.get (w₂.pipes.get p).destination).ring.free = 0) ∧
      (0 < (w₀.rings.get d).ring.capacity →
        ∀ {o : Owner τ ω} {sink : Sink (Machine τ ω)} {max passes : Nat} {w₃ : World τ ω},
          (∀ handler edge, Conduct (Rules.nothingDropped p R) (o.react handler edge)) →
          (∀ offered, Conduct (Rules.nothingDropped p R) (sink.write offered)) →
          sink.Greedy → (∀ offered, Leaves (heldBy p) (sink.write offered)) → 0 < max →
          Pipe.exhaust o p sink max passes w₂ = .ok () w₃ →
          (w₃.pipes.get p).failure = none → (w₃.pipes.get p).queue.isEmpty) := by
  have start : Attended p R (w₀.rings.get d).ring.capacity Phase.resting.Holds w₁ :=
    Attended.ensures_create range usable direction transform options rfl made p rfl
  generalize (w₀.rings.get d).ring.capacity = size at start ⊢
  have aside {β : Type} {m : Machine τ ω β} (apart : Apart p R m) (phase : Phase) :
      Keeps (Attended p R size phase.Holds) m :=
    fun _ _ _ h ran => h.untouched (apart h.1 h.2.1.inUse h.2.1.inRange ran)
  have keeps {β : Type} {m : Machine τ ω β} (conduct : Conduct (Rules.nothingDropped p R) m) :
      ∀ phase : Phase, Keeps (Attended p R size phase.Holds) m :=
    conduct.keeps aside fun permitted reads ended writes reacts =>
      Attended.keeps_perform permitted reads ended writes reacts
  have rested := keeps conduct .resting start ran
  refine ⟨rested.2.2.2, ?_⟩
  intro roomy o sink max passes w₃ reacts writes greedy leaves some emptied intact
  have emptying := Attended.ensures_exhaust
    (fun phase handler edge => keeps (reacts handler edge) phase)
    (fun offered => keeps (writes offered) .resting) greedy leaves some passes
  obtain ⟨rested, nothing⟩ := emptying rested emptied
  apply (rested.2.2.2 intact).resolve_right
  intro full
  change (w₃.rings.get (w₃.pipes.get p).destination).ring.used = 0 at nothing
  rw [Ring.free, nothing, rested.2.1.capacity] at full
  exact Nat.ne_of_gt roomy full

namespace Backlog

/-- An owner whose handlers make no calls. -/
def owner : Owner Codec Unit := ⟨fun _ _ => pure (), 8⟩

/-- A world with one ring of two bytes. -/
def world : World Codec Unit := ⟨⟨[⟨.empty 2 .heap, []⟩]⟩, .empty, [], ()⟩

/-- A source that has five bytes ready whenever it is read. -/
def source : Source (Machine Codec Unit) where
  read wanted := pure (.ok ([1, 2, 3, 4, 5].take wanted))
  isEnded := pure false

/-- Makes a pipe that copies into the ring. -/
def make : Machine Codec Unit (Except Error PipeId) :=
  Pipe.create .wrap 0 (.identity .whole) { PipeOptions.standard with sourceCapacity := some 5 }

/-- Stores into the pipe, more than there is room for in the ring. -/
def run : Machine Codec Unit (Except Error Stored) := Pipe.storeFrom owner 0 source

/-- Empties the ring, one byte at a time. -/
def relieve : Machine Codec Unit Unit := Pipe.exhaust owner 0 Sink.void 1 8

theorem conduct_run : Conduct (Rules.nothingDropped 0 (· = 0)) run :=
  .feed 0 (fun _ _ => .gives ()) trivial (fun _ => .gives _) (.gives _)

end Backlog

/-- Three of five bytes have to wait while the ring is full, and none is left once it was emptied,
though each of the edges in between comes after a single byte. -/
theorem no_stranded_output_backlog :
    ∃ w₁ a w₂ w₃, Backlog.make Backlog.world = .ok (.ok 0) w₁ ∧ Backlog.run w₁ = .ok a w₂ ∧
      Backlog.relieve w₂ = .ok () w₃ ∧ (w₂.pipes.get 0).queue.isEmpty = false ∧
      (w₂.rings.get (w₂.pipes.get 0).destination).ring.free = 0 ∧
      (w₃.pipes.get 0).queue.isEmpty := by
  have usable : ∀ r, r = 0 → (Backlog.world.rings.get r).ring.Valid ∧
      (Backlog.world.rings.get r).ring.cleaned = false := by
    rintro _ rfl
    exact ⟨Ring.valid_empty 2 .heap, rfl⟩
  have intact : Backlog.make.ends Backlog.world fun made w₁ => made.toOption = some 0 &&
      Backlog.run.ends w₁ fun _ w₂ => Backlog.relieve.ends w₂ fun _ w₃ =>
        (w₂.pipes.get 0).failure = none ∧ (w₂.pipes.get 0).queue.isEmpty = false ∧
          (w₃.pipes.get 0).failure = none := by decide +kernel
  obtain ⟨made, w₁, make, intact⟩ := ends_iff.1 intact
  obtain ⟨first, intact⟩ := Bool.and_eq_true_iff.1 intact
  obtain rfl := eq_ok_of_toOption (of_decide_eq_true first)
  obtain ⟨a, w₂, run, intact⟩ := ends_iff.1 intact
  obtain ⟨⟨⟩, w₃, relieve, intact⟩ := ends_iff.1 intact
  obtain ⟨before, waiting, after⟩ := of_decide_eq_true intact
  obtain ⟨settled, empties⟩ := no_stranded_output usable rfl make Backlog.conduct_run run
  have full := (settled before).resolve_left (Bool.eq_false_iff.1 waiting)
  have greedy : Sink.Greedy (Sink.void : Sink (Machine Codec Unit)) :=
    fun _ => ensures_pure fun _ _ => rfl
  exact ⟨w₁, a, w₂, w₃, make, run, relieve, waiting, full,
    empties (Nat.zero_lt_succ 1) (fun _ _ => .gives ()) (fun _ => .gives _) greedy
      (fun _ => leaves_pure _ _) Nat.one_pos relieve after⟩

end ByteFlow
