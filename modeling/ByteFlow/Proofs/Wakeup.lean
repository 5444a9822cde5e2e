/-
# Those who wait for room

Whoever finds the source of a pipe full waits for the edge that makes the pipe writable. As long as
the pipe is not cleaned, only the transform takes bytes out of the source, and it is called in runs
only. So from when the source was full, one of three things is true at every moment: the source is
full still, or a run is in progress that has an edge to tell of, or an edge was told of since. At a
moment at which no run is in progress, the second cannot be.

A handler that is told of the edge may fill the source again, which takes nothing back of what it
was told; and a run that starts inside another one leaves it to that one to tell. That nobody is
told who does not have to be is a matter of what runs owe.
-/

import ByteFlow.Proofs.Duties
import ByteFlow.Proofs.Noting

namespace ByteFlow

open Machine

variable {τ ω α : Type}

/-- Since `base`, an edge has made the pipe writable, and after that every handler that stays was
told of such an edge. -/
def Woken (p : PipeId) (stays : HandlerId → Prop) (base journal : List Event) : Prop :=
  ∃ before, base <:+ before ∧ (.fired (.pipe p) .writable :: before) <:+ journal ∧
    ∀ handler, stays handler → ∃ since, (.fired (.pipe p) .writable :: before) <:+ since ∧
      (.notified (.pipe p) handler .writable :: since) <:+ journal

theorem Woken.mono {p : PipeId} {stays : HandlerId → Prop} {base journal journal' : List Event}
    (h : Woken p stays base journal) (later : journal <:+ journal') :
    Woken p stays base journal' := by
  obtain ⟨before, after, fired, told⟩ := h
  refine ⟨before, after, fired.trans later, fun handler stay => ?_⟩
  obtain ⟨since, first, notified⟩ := told handler stay
  exact ⟨since, first, notified.trans later⟩

namespace Pipe

variable {p : PipeId} {stays : HandlerId → Prop} {base journal : List Event} {pipe : Pipe τ}

/-- Whoever has waited for room since `base` waits with good reason, or was told, or is going to
be. -/
structure Awaits (p : PipeId) (stays : HandlerId → Prop) (base : List Event) (pipe : Pipe τ)
    (journal : List Event) : Prop where
  intact : pipe.Intact stays
  later : base <:+ journal
  due : pipe.source.free = 0 ∨ Woken p stays base journal ∨
    pipe.operating = true ∧ pipe.pendingWritable = true

theorem viewed_awaits (p : PipeId) (stays : HandlerId → Prop) (base : List Event) :
    Pipe.View p (Awaits (τ := τ) p stays base) where
  calls _ _ _ h := ⟨h.intact.of_same rfl rfl fun _ _ => id, h.later, h.due⟩
  destination _ _ _ h := ⟨h.intact.of_same rfl rfl fun _ _ => id, h.later, h.due⟩
  event _ _ _ _ h := ⟨h.intact, h.later.trans (List.suffix_cons _ _),
    h.due.imp_right (Or.imp_left (·.mono (List.suffix_cons _ _)))⟩

/-- Likewise, inside a run. -/
structure Presses (p : PipeId) (stays : HandlerId → Prop) (base : List Event) (pipe : Pipe τ)
    (journal : List Event) : Prop extends Awaits p stays base pipe journal where
  operating : pipe.operating = true

theorem viewed_presses (p : PipeId) (stays : HandlerId → Prop) (base : List Event) :
    Pipe.View p (Presses (τ := τ) p stays base) where
  calls _ _ _ h := ⟨(viewed_awaits p stays base).calls _ _ _ h.toAwaits, h.operating⟩
  destination _ _ _ h := ⟨(viewed_awaits p stays base).destination _ _ _ h.toAwaits, h.operating⟩
  event _ _ _ quiet h := ⟨(viewed_awaits p stays base).event _ _ _ quiet h.toAwaits, h.operating⟩

/-- What is taken out of a full source makes an edge due. -/
theorem Presses.advance [Transform τ] [Transform.Proper τ] (h : pipe.Presses p stays base journal)
    (ready : pipe.isReady) :
    (pipe.advance p).pipe.Presses p stays base ((pipe.advance p).events ++ journal) := by
  have later : journal <:+ (pipe.advance p).events ++ journal := List.suffix_append _ _
  have operating : (pipe.advance p).pipe.operating = true := by
    obtain ⟨_, _, _, _, _, same, _⟩ := pipe.advance_same p
    rw [same]
    exact h.operating
  obtain ⟨capacity, used, pending⟩ := eases_advance p (isReady_used ready)
  refine ⟨⟨h.intact.advance p, h.later.trans later, ?_⟩, operating⟩
  rcases h.due with full | woken | ⟨_, due⟩
  · -- Either bytes were taken, which sets the flag, or the source is full still.
    have held := h.intact.source.used_le
    unfold Ring.free at full ⊢
    by_cases taken : (pipe.advance p).pipe.source.used < pipe.source.used
    · have isFull : pipe.source.isFull = true := beq_iff_eq.2 (by omega)
      refine .inr (.inr ⟨operating, ?_⟩)
      simp [pending, isFull, taken]
    · refine .inl ?_
      rw [capacity]
      omega
  · exact .inr (.inl (woken.mono later))
  · refine .inr (.inr ⟨operating, ?_⟩)
    simp [pending, due]

/-- The queue may be another one, and an edge may be due. -/
theorem Presses.set_queue (h : pipe.Presses p stays base journal) {queue : Queue}
    (sound : queue.Sound) : { pipe with queue }.Presses p stays base journal :=
  ⟨⟨h.intact.set_queue sound _ _, h.later, h.due⟩, h.operating⟩

end Pipe

theorem viewed_trail (p : PipeId) (base : List Event) :
    Pipe.View p fun (_ : Pipe τ) journal => base <:+ journal where
  calls _ _ _ := id
  destination _ _ _ := id
  event _ _ _ _ h := h.trans (List.suffix_cons _ _)

variable [Inhabited τ]

/-- What was on record is on record. -/
def Trail (p : PipeId) (base : List Event) : World τ ω → Prop :=
  Shows p fun _ journal => base <:+ journal

/-- Somebody has waited for room in the source of pipe `p` since `base`. -/
def Awaiting (p : PipeId) (stays : HandlerId → Prop) (base : List Event) : World τ ω → Prop :=
  Shows p (Pipe.Awaits p stays base)

/-- Likewise, and a run of the pipe is in progress. -/
def Pressing (p : PipeId) (stays : HandlerId → Prop) (base : List Event) : World τ ω → Prop :=
  Shows p (Pipe.Presses p stays base)

/-! ## Runs -/

section Runs

variable {p : PipeId} {stays : HandlerId → Prop} {base : List Event} {o : Owner τ ω}

theorem Trail.keeps_record (event : Event) :
    Keeps (Trail (τ := τ) (ω := ω) p base) (record event) :=
  ensures_record fun _ h => ⟨h.1, h.2.trans (List.suffix_cons _ _)⟩

theorem Trail.keeps_run [Transform τ] [Transform.Candid τ]
    (trails : ∀ handler edge, Keeps (Trail p base) (o.react handler edge)) (q : PipeId) :
    Keeps (Trail p base) (Pipe.run o q) := by
  refine Shows.keeps_run (viewed_trail p base) trails (fun w _ h => h.set_pipe fun _ => h.2) ?_
  exact fun event _ => Trail.keeps_record event

section Telling

variable (trails : ∀ base handler edge, Keeps (Trail p base) (o.react handler edge))
  (spares : ∀ handler edge, Keeps (Intact p stays) (o.react handler edge))

include trails

theorem Trail.keeps_tell (edge : Edge) (handler : HandlerId) :
    Keeps (Trail p base) (tell o (.pipe p) edge handler) :=
  (Shows.handles (viewed_trail p base)).tell (trails base) (Trail.keeps_record _)

/-- Handlers that are told of an edge were told of it after it fired. -/
theorem ensures_told {fired : List Event} {handlers : List HandlerId} {handler : HandlerId}
    (member : handler ∈ handlers) :
    Ensures (Trail p fired) (handlers.forM (tell o (.pipe p) .writable)) fun _ w =>
      ∃ since, fired <:+ since ∧ Trail p (.notified (.pipe p) handler .writable :: since) w := by
  have leads : Ensures (Trail p fired) (tell o (.pipe p) .writable handler) fun _ w =>
      ∃ since, fired <:+ since ∧ Trail p (.notified (.pipe p) handler .writable :: since) w := by
    refine .pointwise fun w h => .at_record fun w' a w'' same ran => ?_
    refine ⟨w.journal, h.2, trails _ handler .writable ?_ ran⟩
    rw [same]
    exact ⟨h.1, List.suffix_rfl⟩
  -- What a handler was told stays on record while others are told.
  refine ensures_forM_of_mem member leads (fun other _ => Trail.keeps_tell trails _ other) ?_
  intro other _ w a w' told ran
  obtain ⟨since, first, trail⟩ := told
  exact ⟨since, first, Trail.keeps_tell trails .writable other trail ran⟩

include spares

/-- If an edge is told of, nobody has to wait any longer. -/
theorem Awaiting.ensures_emit :
    Ensures (fun w => Intact p stays w ∧ Trail p base w) (Pipe.emit o p .writable) fun _ =>
      Awaiting p stays base := by
  refine .pointwise fun w h => .at_record (.at_getPipe ?_)
  let fired : List Event := .fired (.pipe p) .writable :: w.journal
  let after : World τ ω := { w with journal := fired }
  have intact : Intact p stays after := h.1
  have trail : Trail p fired after := ⟨h.1.1, List.suffix_rfl⟩
  let tells := (w.pipes.get p).handlers.forM (tell o (.pipe p) .writable)
  have spared : Keeps (Intact p stays) tells := keeps_forM fun handler _ =>
    (Shows.handles (viewed_intact p stays)).tell spares (ensures_record fun _ => id)
  have trailed : Keeps (Trail p fired) tells :=
    keeps_forM fun handler _ => Trail.keeps_tell trails .writable handler
  rintro _ a w' rfl ran
  obtain ⟨inUse, remains⟩ := trailed trail ran
  have later : base <:+ fired := h.2.2.trans (List.suffix_cons _ _)
  refine ⟨inUse, (spared intact ran).2, later.trans remains, .inr (.inl ?_)⟩
  refine ⟨w.journal, h.2.2, remains, fun handler stay => ?_⟩
  obtain ⟨since, first, told⟩ := ensures_told trails (h.1.2.handlers handler stay) trail ran
  exact ⟨since, first, told.2⟩

end Telling

/-- Inside a run, those who wait have to do with the run in progress until it ends. -/
theorem Awaiting.keeps_pressing {m : Machine τ ω α} (waits : Keeps (Awaiting p stays base) m)
    (operates : Preserves (Operates p true) m) : Keeps (Pressing p stays base) m := by
  have busy : Keeps (Operates p true) m :=
    ensures_iff_upholds.2 (operates.halt_imp fun _ _ => trivial)
  refine Ensures.of_imp (Ensures.and waits busy) (fun w h => ?_) fun _ w h => ?_
  · exact ⟨⟨h.1, h.2.toAwaits⟩, h.1, h.2.operating, nofun⟩
  · exact ⟨h.1.1, h.1.2, h.2.2.operating⟩

/-- A run that ends with an edge to tell of has not told of it yet. -/
theorem Pressing.ensures_release :
    Ensures (Pressing (τ := τ) (ω := ω) p stays base) (Pipe.release p) fun made w =>
      (made = false → Awaiting p stays base w) ∧ Intact p stays w ∧ Trail p base w := by
  refine .pointwise fun w h => Machine.ensures_release ?_
  have intact := h.2.intact.set_queue h.2.intact.queue false false
  have later := h.2.later.trans (List.suffix_cons
    (.ended p (w.pipes.get p).pendingWritable (w.pipes.get p).handlers) w.journal)
  refine ⟨fun unmade => Shows.released ⟨intact, later, ?_⟩, Shows.released intact,
    Shows.released later⟩
  rcases h.2.due with full | woken | ⟨_, due⟩
  · exact .inl full
  · exact .inr (.inl (woken.mono (List.suffix_cons _ _)))
  · cases due.symm.trans unmade

section Reacting

variable [Transform τ] [Transform.Candid τ]

section Pressing

variable (reacts : ∀ handler edge, Keeps (Pressing p stays base) (o.react handler edge))

include reacts

/-- All through a run there is an edge to tell of, unless there is reason to wait or there was one
already. -/
theorem Pressing.withstands :
    Withstands o p (.pieces fun _ => True) (Pressing (τ := τ) (ω := ω) p stays base) where
  halts _ _ := trivial
  log _ := ensures_iff_upholds.1 (Shows.keeps_record (Pipe.viewed_presses p stays base) rfl)
  take w segment rest h popped := by
    obtain ⟨held, piece, sound⟩ := h.2.intact.queue.popFront popped
    exact ⟨Shows.set_pipe h fun _ => h.2.set_queue sound, held, piece⟩
  put w segment h _ := fun ⟨valid, piece⟩ =>
    Shows.set_pipe h fun _ => h.2.set_queue (h.2.intact.queue.pushFront valid piece)
  mark w h := Shows.set_pipe h fun _ => ⟨⟨h.2.intact.set_queue h.2.intact.queue _ _, h.2.later,
    .inr (.inr ⟨h.2.operating, rfl⟩)⟩, h.2.operating⟩
  advance w h ready := Table.set_self
    (P := fun pipe : Pipe τ => pipe.Presses p stays base (_ ++ w.journal)) (h.2.advance ready)
  store d data := ensures_iff_upholds.1
    ((Shows.handles (Pipe.viewed_presses p stays base)).store reacts d data)

theorem Pressing.keeps_operate : Keeps (Pressing p stays base) (Pipe.operate o p) := by
  have fails (e : Error) : Keeps (Pressing p stays base) (Pipe.fail o p e) := by
    refine (Shows.handles (Pipe.viewed_presses p stays base)).fail (fun _ => ?_)
      (fun _ _ announces => ?_) reacts e
    · exact Shows.keeps_modifyPipe fun _ _ h =>
        ⟨⟨h.intact.of_same rfl rfl fun _ _ => id, h.later, h.due⟩, h.operating⟩
    · exact Shows.keeps_record (Pipe.viewed_presses p stays base) announces.turns_of_error
  exact ensures_iff_upholds.2
    ((Pressing.withstands reacts).weathers.operate fun e => ensures_iff_upholds.1 (fails e))

end Pressing

variable (trails : ∀ base handler edge, Keeps (Trail p base) (o.react handler edge))
  (spares : ∀ handler edge, Keeps (Intact p stays) (o.react handler edge))
  (operates : ∀ handler edge, Preserves (Operates p true) (o.react handler edge))
  (reacts : ∀ handler edge, Keeps (Awaiting p stays base) (o.react handler edge))

include trails spares operates reacts

theorem Awaiting.keeps_run : Keeps (Awaiting p stays base) (Pipe.run o p) := by
  have presses (handler : HandlerId) (edge : Edge) :
      Keeps (Pressing p stays base) (o.react handler edge) :=
    Awaiting.keeps_pressing (reacts handler edge) (operates handler edge)
  have viewed := Pipe.viewed_awaits (τ := τ) p stays base
  refine Shows.keeps_during viewed (.pointwise fun w h => .at_getPipe ?_) p
  split
  · exact .here h (Shows.keeps_record viewed rfl)
  · rename_i idle
    -- Before a run begins nothing is due, so those who wait see a full source, or were told.
    have begun : Pressing p stays base (w.begun p) := by
      have later := List.suffix_cons (.started p) w.journal
      refine Shows.begun
        ⟨⟨h.2.intact.set_queue h.2.intact.queue _ _, h.2.later.trans later, ?_⟩, rfl⟩
      exact h.2.due.imp_right (Or.imp (·.mono later) fun due => (idle due.1).elim)
    refine .at_modifyPipe (.at_record (Ensures.bind
      (.here begun (Pressing.keeps_operate presses).onHalt) fun _ => ?_))
    refine Pressing.ensures_release.bind fun made => ?_
    cases made with
    | false => exact ensures_pure fun w h => h.1 rfl
    | true => exact (Awaiting.ensures_emit trails spares).pre_imp fun w h => h.2

end Reacting

end Runs

/-! ## Bytes that come in -/

section Feeds

variable {p : PipeId} {stays : HandlerId → Prop} {base : List Event}

/-- Bytes that come in take up room and make none, and what happens while they are read takes back
no edge. -/
theorem Awaiting.set_source {w w' : World τ ω} {moved : Bytes} {ring : Ring}
    (h : Awaiting p stays base w) (intact : Intact p stays w') (trail : Trail p w.journal w')
    (runs : (w.pipes.get p).operating = true ∧ (w.pipes.get p).pendingWritable = true →
      Running p true (turned p w.journal) w')
    (fills : (w.pipes.get p).source.Fills moved ring) :
    Awaiting p stays base { w' with
      pipes := w'.pipes.set p { w'.pipes.get p with source := ring } } := by
  have cleaned : ring.cleaned = false := fills.cleaned.trans h.2.intact.uncleaned
  have filled : { w'.pipes.get p with source := ring }.Intact stays :=
    ⟨⟨fills.valid, intact.2.queue⟩, cleaned, intact.2.handlers⟩
  refine Table.set_self (P := fun pipe : Pipe τ => pipe.Awaits p stays base w'.journal)
    ⟨filled, h.2.later.trans trail.2, ?_⟩
  rcases h.2.due with full | woken | due
  · exact .inl (fills.full h.2.intact.source full)
  · exact .inr (.inl (woken.mono trail.2))
  · exact .inr (.inr ⟨(runs due).2.operating, (runs due).2.pending⟩)

/-- What reading from a source keeps of the pipe that the bytes come into. -/
structure Reads (p : PipeId) (stays : HandlerId → Prop) (m : Machine τ ω α) : Prop where
  intact : Keeps (Intact p stays) m
  trail : ∀ base, Keeps (Trail p base) m
  running : ∀ freed count, Keeps (Running p freed count) m

theorem Awaiting.ensures_storeFrom {w : World τ ω} (h : Awaiting p stays base w)
    {source : Source (Machine τ ω)} (reads : ∀ wanted, Reads p stays (source.read wanted))
    (ended : Reads p stays source.isEnded) :
    Ensures (· = w) ((w.pipes.get p).source.storeFrom source) fun intake w' =>
      Awaiting p stays base { w' with
        pipes := w'.pipes.set p { w'.pipes.get p with source := intake.ring } } := by
  let known (w' : World τ ω) : Prop := (Intact p stays w' ∧ Trail p w.journal w') ∧
    ((w.pipes.get p).operating = true ∧ (w.pipes.get p).pendingWritable = true →
      Running p true (turned p w.journal) w')
  have keeps {β : Type} {m : Machine τ ω β} (reads : Reads p stays m) : Keeps known m := by
    refine Ensures.and (Ensures.and reads.intact (reads.trail _)) ?_
    exact fun u b u' runs ran due => reads.running _ _ (runs due) ran
  have start : known w :=
    ⟨⟨⟨h.1, h.2.intact⟩, h.1, List.suffix_rfl⟩, fun due => ⟨h.1, due.1, due.2, rfl⟩⟩
  have fills := Ring.ensures_storeFrom (fun wanted => keeps (reads wanted)) (keeps ended)
    h.2.intact.source
  refine (Ensures.here start fills).post_imp fun intake w' out => ?_
  obtain ⟨⟨⟨intact, trail⟩, runs⟩, filled⟩ := out
  exact h.set_source intact trail runs filled

end Feeds

/-! ## Programs -/

/-- Handlers of pipe `p` have come and gone, except those that stay, and the pipe may have been
dropped. Nothing that went on record makes it writable. -/
structure Passing (p : PipeId) (stays : HandlerId → Prop) (w w' : World τ ω) : Prop where
  inUse : p < w'.pipes.next
  pipe : ∃ handlers held, w'.pipes.get p = { w.pipes.get p with handlers, held } ∧
    ∀ handler, stays handler → handler ∈ (w.pipes.get p).handlers → handler ∈ handlers
  journal : ∃ events, w'.journal = events ++ w.journal ∧ ∀ event ∈ events, event.turns p = false

/-- Any calls are permitted, on any pipes and rings, except to clean the pipe. Between calls a
program may do anything with other pipes, with rings, and with itself. -/
def Rules.waking (p : PipeId) (stays : HandlerId → Prop) : Rules τ ω where
  permits c := ¬ c.cleans p
  ignores m := ∀ w, p < w.pipes.next → Passing p stays w (m.left w)

/-- Handlers of any pipe may come between calls. -/
theorem waking_addHandler {p : PipeId} {stays : HandlerId → Prop} (q : PipeId)
    (handler : HandlerId) :
    (Rules.waking (τ := τ) (ω := ω) p stays).ignores (Pipe.addHandler q handler) := by
  intro w inUse
  obtain ⟨handlers, same, more, _⟩ := left_addHandler q handler w p
  have stay (other : HandlerId) (_ : stays other) := more other
  refine ⟨Table.lt_next_set_of_lt inUse _ _, ⟨handlers, _, same, stay⟩, ?_⟩
  exact ⟨[], rfl, List.forall_mem_nil _⟩

section Programs

variable {p : PipeId} {stays : HandlerId → Prop} {base : List Event} {m : Machine τ ω α}

theorem Passing.shows {view : Pipe τ → List Event → Prop} {w w' : World τ ω}
    (passing : Passing p stays w w') (viewed : Pipe.View p view)
    (spared : ∀ pipe journal handlers held,
      (∀ handler, stays handler → handler ∈ pipe.handlers → handler ∈ handlers) →
        view pipe journal → view { pipe with handlers, held } journal)
    (h : Shows p view w) : Shows p view w' := by
  obtain ⟨handlers, held, same, stay⟩ := passing.pipe
  obtain ⟨events, journal, quiet⟩ := passing.journal
  refine ⟨passing.inUse, ?_⟩
  rw [same, journal]
  exact spared _ _ handlers held stay (h.set_journal viewed quiet).2

theorem Passing.operates {busy : Bool} {w w' : World τ ω} (passing : Passing p stays w w')
    (h : Operates p busy w) : Operates p busy w' := by
  obtain ⟨handlers, held, same, _⟩ := passing.pipe
  refine ⟨passing.inUse, ?_⟩
  rw [same]
  exact ⟨h.2.operating, h.2.due⟩

variable [Transform τ]

/-- A program that keeps to the rules and keeps an invariant. -/
structure Heeds (p : PipeId) (stays : HandlerId → Prop) (inv : World τ ω → Prop)
    (m : Machine τ ω α) : Prop where
  conduct : Conduct (Rules.waking p stays) m
  keeps : Keeps inv m

theorem preserves_operates (conduct : Conduct (Rules.waking p stays) m) (busy : Bool) :
    Preserves (Operates p busy) m := by
  refine Operates.preserves_conduct (fun passes busy => ?_) conduct busy
  exact preserves_iff.2 fun w h => (passes w h.1).operates h

variable [Transform.Candid τ]

/-- What the runs of the pipe keep, and the bytes that come into it, a whole program keeps. -/
theorem Shows.keeps_conduct {ι : Type} {view : ι → Pipe τ → List Event → Prop}
    (viewed : ∀ i, Pipe.View p (view i))
    (spared : ∀ i pipe journal handlers held,
      (∀ handler, stays handler → handler ∈ pipe.handlers → handler ∈ handlers) →
        view i pipe journal → view i { pipe with handlers, held } journal)
    (runs : ∀ o : Owner τ ω,
      (∀ i handler edge, Heeds p stays (Shows p (view i)) (o.react handler edge)) →
        ∀ i, Keeps (Shows p (view i)) (Pipe.run o p))
    (feeds : ∀ (o : Owner τ ω) (source : Source (Machine τ ω)),
      (∀ i handler edge, Heeds p stays (Shows p (view i)) (o.react handler edge)) →
        ∀ i, (∀ wanted, Heeds p stays (Shows p (view i)) (source.read wanted)) →
          Heeds p stays (Shows p (view i)) source.isEnded →
            Keeps (Shows p (view i)) (Pipe.storeFrom o p source))
    (conduct : Conduct (Rules.waking p stays) m) (i : ι) : Keeps (Shows p (view i)) m := by
  induction conduct generalizing i with
  | aside passes =>
      intro w a w' h ran
      have passing := passes w h.1
      rw [left_of_ok ran] at passing
      exact passing.shows (viewed i) (spared i) h
  | gives a => exact keeps_pure a
  | halts halt => exact ensures_throw halt
  | andThen _ _ first rest => exact Ensures.bind (first i) fun a => rest a i
  | call permitted reads ended writes reacts keepsReads keepsEnded keepsWrites keepsReacts =>
      -- Handlers keep to the rules as well as to the view, and runs may rest on both.
      have heeds (i : ι) (handler : HandlerId) (edge : Edge) := Heeds.mk (reacts handler edge)
        (keepsReacts handler edge i)
      exact Shows.keeps_perform (viewed i) (fun handler edge => keepsReacts handler edge i)
        permitted (runs _ heeds i)
        (fun source eq => feeds _ source heeds i
          (fun wanted => ⟨reads source eq wanted, keepsReads source eq wanted i⟩)
          ⟨ended source eq, keepsEnded source eq i⟩)
        (fun source eq wanted => keepsReads source eq wanted i)
        (fun source eq => keepsEnded source eq i)
        fun sink eq offered => keepsWrites sink eq offered i

theorem Intact.keeps_conduct (conduct : Conduct (Rules.waking p stays) m) :
    Keeps (Intact p stays) m := by
  refine Shows.keeps_conduct (fun _ : Unit => viewed_intact p stays) ?_ (fun o heeds _ => ?_)
    (fun o source heeds _ reads ended => ?_) conduct ()
  · exact fun _ pipe _ handlers held stay h => h.of_same rfl rfl stay
  · exact Intact.keeps_run fun handler edge => (heeds () handler edge).keeps
  · exact Intact.keeps_feed (fun handler edge => (heeds () handler edge).keeps)
      (fun wanted => (reads wanted).keeps) ended.keeps

theorem Trail.keeps_conduct (conduct : Conduct (Rules.waking p stays) m) (base : List Event) :
    Keeps (Trail p base) m := by
  have runs (o : Owner τ ω)
      (heeds : ∀ base handler edge, Heeds p stays (Trail p base) (o.react handler edge))
      (base : List Event) : Keeps (Trail p base) (Pipe.run o p) :=
    Trail.keeps_run (fun handler edge => (heeds base handler edge).keeps) p
  refine Shows.keeps_conduct (viewed_trail p) (fun _ _ _ _ _ _ => id) runs ?_ conduct base
  intro o source heeds base reads ended
  exact Shows.keeps_feed_of_blind (viewed_trail p base) (fun _ _ _ => id) (runs o heeds base)
    (fun wanted => (reads wanted).keeps) ended.keeps

/-- Inside a run, no program has an edge to tell of that makes the pipe writable. -/
theorem Running.keeps_conduct (conduct : Conduct (Rules.waking p stays) m) (freed : Bool)
    (count : Nat) : Keeps (Running p freed count) m := by
  refine Shows.keeps_conduct (fun _ : Unit => viewed_runs p freed count) ?_
    (fun o _ _ => Running.keeps_run) ?_ conduct ()
  · exact fun _ pipe _ handlers held _ h => ⟨h.operating, h.pending, h.turned⟩
  · intro o source heeds _ reads ended
    exact Shows.keeps_feed_of_blind (viewed_runs p freed count)
      (fun _ _ _ h => ⟨h.operating, h.pending, h.turned⟩) Running.keeps_run
      (fun wanted => (reads wanted).keeps) ended.keeps

/-- What is owed when a program begins is owed at its end, and nothing else. -/
theorem Owing.keeps_conduct (conduct : Conduct (Rules.waking p stays) m) (owed : List Duty) :
    Keeps (Owing p owed) m := by
  have runs (o : Owner τ ω)
      (heeds : ∀ owed handler edge, Heeds p stays (Owing p owed) (o.react handler edge)) :
      ∀ owed, Keeps (Owing p owed) (Pipe.run o p) :=
    Owing.keeps_run fun owed handler edge => (heeds owed handler edge).keeps
  refine Shows.keeps_conduct (viewed_owes p) ?_ runs ?_ conduct owed
  · exact fun _ pipe _ handlers held _ h => ⟨h.due, h.allows⟩
  · intro o source heeds owed reads ended
    exact Shows.keeps_feed_of_blind (viewed_owes p owed) (fun _ _ _ h => ⟨h.due, h.allows⟩)
      (runs o heeds owed) (fun wanted => (reads wanted).keeps) ended.keeps

theorem Awaiting.keeps_conduct (conduct : Conduct (Rules.waking p stays) m) (base : List Event) :
    Keeps (Awaiting p stays base) m := by
  have reading {β : Type} {m : Machine τ ω β} (conduct : Conduct (Rules.waking p stays) m) :
      Reads p stays m :=
    ⟨Intact.keeps_conduct conduct, Trail.keeps_conduct conduct, Running.keeps_conduct conduct⟩
  have runs (o : Owner τ ω)
      (heeds : ∀ base handler edge, Heeds p stays (Awaiting p stays base) (o.react handler edge))
      (base : List Event) : Keeps (Awaiting p stays base) (Pipe.run o p) := by
    have conduct (handler : HandlerId) (edge : Edge) := (heeds base handler edge).conduct
    exact Awaiting.keeps_run
      (fun base handler edge => Trail.keeps_conduct (conduct handler edge) base)
      (fun handler edge => Intact.keeps_conduct (conduct handler edge))
      (fun handler edge => preserves_operates (conduct handler edge) true)
      fun handler edge => (heeds base handler edge).keeps
  refine Shows.keeps_conduct (Pipe.viewed_awaits p stays) ?_ runs ?_ conduct base
  · exact fun _ pipe _ handlers held stay h =>
      ⟨h.intact.of_same rfl rfl stay, h.later, h.due⟩
  · intro o source heeds base reads ended
    exact Shows.keeps_feed (Pipe.viewed_awaits p stays base) (runs o heeds base) fun w h =>
      Awaiting.ensures_storeFrom h (fun wanted => reading (reads wanted).conduct)
        (reading ended.conduct)

end Programs

/-- Pipe `p` is in use, was not cleaned, and operates or not as said. So far its runs have told of
the edge when it was due, and of no other. -/
structure Alert (p : PipeId) (busy : Bool) (w : World τ ω) : Prop where
  intact : Intact p (fun _ => False) w
  operates : Operates p busy w
  owing : ∃ owed, Owing p owed w

section Alert

variable {p : PipeId} {stays : HandlerId → Prop} {busy : Bool} {w w' : World τ ω}

/-- A new pipe owes nothing. -/
theorem Alert.opened (w : World τ ω) (direction : Direction) (d : RingId) (transform : τ)
    (options : PipeOptions) (capacity : Nat) (entry : LogRecord) :
    Alert w.pipes.next false
      { w.opened direction d transform options capacity with
        journal := .logged entry ::
          (w.opened direction d transform options capacity).journal } where
  intact := Table.set_self (P := Pipe.Intact fun _ => False)
    ⟨⟨Ring.valid_empty _ _, Queue.sound_empty⟩, rfl, nofun⟩
  operates := Table.set_self (P := Pipe.Operates false) ⟨rfl, fun _ => rfl⟩
  owing := by
    have due : duties w.pipes.next (.logged entry ::
        (w.opened direction d transform options capacity).journal) = some [] :=
      (duties_of_quiet rfl).trans (duties_of_opened _ _ _ _)
    exact ⟨[], Table.set_self (P := fun pipe : Pipe τ => pipe.Owes w.pipes.next [] _)
      ⟨due, .settled⟩⟩

/-- Handlers that are registered may be among those that stay. -/
theorem Alert.staying (alert : Alert p busy w)
    (registered : ∀ handler, stays handler → handler ∈ (w.pipes.get p).handlers) :
    Intact p stays w :=
  ⟨alert.intact.1, alert.intact.2.toInOrder, alert.intact.2.uncleaned, registered⟩

variable [Transform τ] [Transform.Candid τ]

variable {m : Machine τ ω α} {a : α} (conduct : Conduct (Rules.waking p stays) m)
  (ran : m w = .ok a w')

include conduct ran

theorem Alert.keeps (alert : Alert p busy w)
    (registered : ∀ handler, stays handler → handler ∈ (w.pipes.get p).handlers) :
    Alert p busy w' ∧ duties p w'.journal = duties p w.journal ∧
      ∀ handler, stays handler → handler ∈ (w'.pipes.get p).handlers := by
  have intact := Intact.keeps_conduct conduct (alert.staying registered) ran
  have operates := preserves_operates conduct busy alert.operates
  rw [ran] at operates
  obtain ⟨owed, owing⟩ := alert.owing
  have owing' := Owing.keeps_conduct conduct owed owing ran
  refine ⟨⟨?_, operates, owed, owing'⟩, owing'.2.due.trans owing.2.due.symm, intact.2.handlers⟩
  exact ⟨intact.1, intact.2.toInOrder, intact.2.uncleaned, nofun⟩

theorem Alert.woken (alert : Alert p false w)
    (registered : ∀ handler, stays handler → handler ∈ (w.pipes.get p).handlers)
    (full : (w.pipes.get p).source.free = 0) (room : 0 < (w'.pipes.get p).source.free) :
    Woken p stays w.journal w'.journal := by
  have intact := alert.staying registered
  have waits : Awaiting p stays w.journal w := ⟨intact.1, intact.2, List.suffix_rfl, .inl full⟩
  have operates := preserves_operates conduct false alert.operates
  rw [ran] at operates
  rcases (Awaiting.keeps_conduct conduct w.journal waits ran).2.due with full | woken | ⟨busy, _⟩
  · omega
  · exact woken
  · cases busy.symm.trans operates.2.operating

end Alert

namespace Standstill

/-- A source that has so many bytes ready. -/
def source (count : Nat) : Source (Machine Codec Unit) where
  read wanted := pure (.ok ((List.replicate count 7).take wanted))
  isEnded := pure false

/-- A sink that takes all it is offered. -/
def sink : Sink (Machine Codec Unit) where
  write offered := pure (.ok offered.length)

/-- A handler that stores a byte into the pipe as soon as there is room. -/
def react (o : Owner Codec Unit) (_ : HandlerId) : Edge → Machine Codec Unit Unit
  | .writable => do
    let _ ← Pipe.storeFrom o 0 (source 1)
  | _ => pure ()

def owner : Owner Codec Unit := .nest 8 react 3

/-- A world with a ring that has room for two bytes. -/
def world : World Codec Unit := ⟨⟨[⟨.empty 2 .heap, []⟩]⟩, .empty, [], ()⟩

/-- Makes a pipe that copies, with a source of four bytes, and a queue that holds two. -/
def make : Machine Codec Unit (Except Error PipeId) :=
  Pipe.create .unwrap 0 (.identity .whole) ⟨2, some 4, .heap⟩

/-- Registers the handler, and stores until nothing more goes in. -/
def feed : Machine Codec Unit Unit := do
  Pipe.addHandler 0 3
  let _ ← Pipe.storeFrom owner 0 (source 4)
  let _ ← Pipe.storeFrom owner 0 (source 4)

/-- Takes all bytes off the destination. -/
def relieve : Machine Codec Unit (Except Error Nat) := Pipe.writeTo owner 0 sink 2

/-- The handler is not taken away. -/
def stays (handler : HandlerId) : Prop := handler = 3

variable {staying : HandlerId → Prop}

theorem conduct_storeFrom {o : Owner Codec Unit}
    (reacts : ∀ handler edge, Conduct (Rules.waking 0 staying) (o.react handler edge))
    (count : Nat) : Conduct (Rules.waking 0 staying) (Pipe.storeFrom o 0 (source count)) :=
  .feed 0 reacts id (fun _ => .gives _) (.gives _)

theorem conduct_react (handler : HandlerId) (edge : Edge) :
    Conduct (Rules.waking 0 staying) (owner.react handler edge) := by
  refine conduct_nest (fun o reacts handler edge => ?_) 3 handler edge
  cases edge with
  | writable => exact .andThen (conduct_storeFrom reacts 1) fun _ => .gives _
  | readable => exact .gives _
  | error e => exact .gives _

theorem conduct_feed : Conduct (Rules.waking 0 staying) feed :=
  .andThen (.aside (waking_addHandler 0 3)) fun _ =>
    .andThen (conduct_storeFrom conduct_react 4) fun _ =>
      .andThen (conduct_storeFrom conduct_react 4) fun _ => .gives _

end Standstill

end ByteFlow
