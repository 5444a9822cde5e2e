/-
# What programs do with a pipe

A program that owns pipes and rings is a computation that makes calls, one after another, each of
them chosen by what the calls before gave back. While a call tells an edge, handlers make further
calls, which may tell edges again. `Conduct` describes such programs by the calls they are permitted
to make, at every depth, and by what else they may do between calls. Streams that a call is given
are parts of the program too, and may make calls of their own.

What else a program may do is mostly to stay `Apart`: to leave the pipe, the content of its
destination and the books of the pipe alone. Other pipes and other rings are apart, and so are
handlers that come and go.

A call that is made from inside an edge meets handlers of its own. The handlers of an owner may run
calls of another owner only, so owners are nested as deep as edges are; `nest` builds such a tower,
and how high it has to be depends on the run alone.
-/

import ByteFlow.Pipe.Calls
import ByteFlow.Proofs.Ensures
import ByteFlow.Proofs.Ledger
import ByteFlow.Ring.Content

namespace ByteFlow

variable {τ ω α β : Type}

/-! ## A new pipe -/

/-- The world with a new pipe into ring `d`, before the log says so. -/
def World.opened (w : World τ ω) [Inhabited τ] (direction : Direction) (d : RingId) (transform : τ)
    (options : PipeOptions) (capacity : Nat) : World τ ω :=
  { w with
    pipes := w.pipes.set w.pipes.next
      (.new direction options (.empty capacity options.sourceRegion) transform d)
    journal := .opened w.pipes.next d (w.rings.get d).ring.used :: w.journal
    rings := w.rings.set d { w.rings.get d with
      observers := enlist (w.rings.get d).observers (.listener w.pipes.next) } }

/-- To make a pipe is refused and changes nothing, or opens the pipe. -/
theorem Pipe.ensures_create [Inhabited τ] {direction : Direction} {d : RingId} {transform : τ}
    {options : PipeOptions} {w : World τ ω} {post : Except Error PipeId → World τ ω → Prop}
    (refuses : ∀ e, post (.error e) w)
    (opens : ∀ capacity entry, options.validate = .ok () → capacity ≠ 0 →
      capacity = options.sourceCapacity.getD (w.rings.get d).ring.capacity →
      post (.ok w.pipes.next)
      { w.opened direction d transform options capacity with
        journal := .logged entry ::
          (w.opened direction d transform options capacity).journal }) :
    Machine.Ensures (· = w) (create direction d transform options) post := by
  unfold create
  split
  · apply Machine.ensures_pure
    rintro _ rfl
    exact refuses _
  · rename_i validated
    refine .at_getRing ?_
    dsimp only
    split
    · apply Machine.ensures_pure
      rintro _ rfl
      exact refuses _
    · rename_i some
      refine .at_insist fun source created => .at_get (.at_modifyPipe (.at_record ?_))
      obtain ⟨_, rfl⟩ := Ring.create_eq_ok_iff.1 created
      refine .at_modifyShared (.at_record (Machine.ensures_pure ?_))
      rintro _ rfl
      exact opens _ _ validated some rfl

/-! ## Programs -/

/-- A call that the owner of pipes and rings can make, with the type of what it gives back. -/
inductive Call (τ ω : Type) : Type → Type where
  /-- Stores from a source into a pipe. -/
  | feed (p : PipeId) (source : Source (Machine τ ω)) : Call τ ω (Except Error Stored)
  /-- Runs a pipe. -/
  | run (p : PipeId) : Call τ ω Unit
  /-- Writes the destination of a pipe into a sink. -/
  | empty (p : PipeId) (sink : Sink (Machine τ ω)) (max : Nat) : Call τ ω (Except Error Nat)
  /-- Puts a ring in the place of the destination of a pipe. -/
  | switch (p : PipeId) (candidate : RingId) : Call τ ω (Except Error RingId)
  /-- Drops the content of the destination of a pipe. -/
  | clear (p : PipeId) : Call τ ω Unit
  /-- Gives back the memory of a pipe and of its destination. -/
  | clean (p : PipeId) : Call τ ω Unit
  /-- Stores bytes into a ring. -/
  | store (r : RingId) (data : Bytes) : Call τ ω (Except Error Nat)
  /-- Stores from a source into a ring. -/
  | fill (r : RingId) (source : Source (Machine τ ω)) : Call τ ω (Except Error Stored)
  /-- Writes a ring into a sink. -/
  | pour (r : RingId) (sink : Sink (Machine τ ω)) (max : Nat) : Call τ ω (Except Error Nat)

/-- Makes a call for an owner, whose handlers are told of the edges. -/
def Call.perform [Inhabited τ] [Transform τ] (o : Owner τ ω) : Call τ ω α → Machine τ ω α
  | .feed p source => Pipe.storeFrom o p source
  | .run p => Pipe.run o p
  | .empty p sink max => Pipe.writeTo o p sink max
  | .switch p candidate => Pipe.switchTo o p candidate
  | .clear p => Pipe.clear p
  | .clean p => Pipe.clean p
  | .store r data => SharedRing.store o r data
  | .fill r source => SharedRing.storeFrom o r source
  | .pour r sink max => SharedRing.writeTo o r sink max

/-- The source that a call reads from. -/
def Call.source? : Call τ ω α → Option (Source (Machine τ ω))
  | .feed _ source | .fill _ source => some source
  | _ => none

/-- The sink that a call writes to. -/
def Call.sink? : Call τ ω α → Option (Sink (Machine τ ω))
  | .empty _ sink _ | .pour _ sink _ => some sink
  | _ => none

/-- What programs may do. -/
structure Rules (τ ω : Type) where
  /-- The calls that are permitted. -/
  permits : ∀ {α : Type}, Call τ ω α → Prop
  /-- What may be done besides. -/
  ignores : ∀ {α : Type}, Machine τ ω α → Prop

/-- A program that keeps to the rules, from inside edges and from inside its streams too. -/
inductive Conduct [Inhabited τ] [Transform τ] (rules : Rules τ ω) :
    ∀ {α : Type}, Machine τ ω α → Prop where
  | aside {α : Type} {m : Machine τ ω α} (h : rules.ignores m) : Conduct rules m
  | gives {α : Type} (a : α) : Conduct rules (pure a : Machine τ ω α)
  | halts {α : Type} (halt : Halt) : Conduct rules (throw halt : Machine τ ω α)
  | andThen {α β : Type} {m : Machine τ ω α} {f : α → Machine τ ω β} (first : Conduct rules m)
      (rest : ∀ a, Conduct rules (f a)) : Conduct rules (m >>= f)
  | call {α : Type} {o : Owner τ ω} {c : Call τ ω α} (permitted : rules.permits c)
      (reads : ∀ source, c.source? = some source → ∀ wanted, Conduct rules (source.read wanted))
      (ended : ∀ source, c.source? = some source → Conduct rules source.isEnded)
      (writes : ∀ sink, c.sink? = some sink → ∀ offered, Conduct rules (sink.write offered))
      (reacts : ∀ handler edge, Conduct rules (o.react handler edge)) :
      Conduct rules (c.perform o)

section Conduct

open Machine

variable [Inhabited τ] [Transform τ] {rules : Rules τ ω}

/-- What every permitted call has, as soon as the handlers and streams have it, a whole program has.
There may be several such properties, so that what holds between calls can differ from what holds
inside an edge. -/
theorem Conduct.has {ι : Type} {K : ι → ∀ α : Type, Machine τ ω α → Prop}
    (closed : ∀ i, Closed (K i)) (halts : ∀ i {α : Type} halt, K i α (throw halt))
    (aside : ∀ {α : Type} {m : Machine τ ω α}, rules.ignores m → ∀ i, K i _ m)
    (called : ∀ {α : Type} {o : Owner τ ω} {c : Call τ ω α}, rules.permits c →
      (∀ source, c.source? = some source → ∀ wanted i, K i _ (source.read wanted)) →
      (∀ source, c.source? = some source → ∀ i, K i _ source.isEnded) →
      (∀ sink, c.sink? = some sink → ∀ offered i, K i _ (sink.write offered)) →
      (∀ i handler edge, K i _ (o.react handler edge)) → ∀ i, K i _ (c.perform o))
    {m : Machine τ ω α} (h : Conduct rules m) : ∀ i, K i _ m := by
  induction h with
  | aside h => exact aside h
  | gives a => exact fun i => (closed i).gives a
  | halts halt => exact fun i => halts i halt
  | andThen _ _ first rest => exact fun i => (closed i).andThen (first i) fun a => rest a i
  | call permitted _ _ _ _ reads ended writes reacts =>
      exact called permitted reads ended writes fun i handler edge => reacts handler edge i

/-- Invariants that survive each permitted call, as soon as the handlers keep them, survive a whole
program. -/
theorem Conduct.keeps {ι : Type} {inv : ι → World τ ω → Prop}
    (aside : ∀ {α : Type} {m : Machine τ ω α}, rules.ignores m → ∀ i, Keeps (inv i) m)
    (called : ∀ {α : Type} {o : Owner τ ω} {c : Call τ ω α}, rules.permits c →
      (∀ source, c.source? = some source → ∀ wanted i, Keeps (inv i) (source.read wanted)) →
      (∀ source, c.source? = some source → ∀ i, Keeps (inv i) source.isEnded) →
      (∀ sink, c.sink? = some sink → ∀ offered i, Keeps (inv i) (sink.write offered)) →
      (∀ i handler edge, Keeps (inv i) (o.react handler edge)) → ∀ i, Keeps (inv i) (c.perform o))
    {m : Machine τ ω α} (h : Conduct rules m) : ∀ i, Keeps (inv i) m :=
  h.has (fun i => closed_keeps (inv i)) (fun _ _ _ => ensures_throw _) aside called

section Streams

variable {o : Owner τ ω} (p : PipeId)
  (reacts : ∀ handler edge, Conduct rules (o.react handler edge))

include reacts

/-- To store into a pipe keeps to the rules if the source does. -/
theorem Conduct.feed {source : Source (Machine τ ω)} (permitted : rules.permits (.feed p source))
    (reads : ∀ wanted, Conduct rules (source.read wanted))
    (ended : Conduct rules source.isEnded) : Conduct rules (Pipe.storeFrom o p source) := by
  refine .call (c := .feed p source) permitted ?_ ?_ nofun reacts
  · rintro _ ⟨⟩
    exact reads
  · rintro _ ⟨⟩
    exact ended

/-- To empty the destination of a pipe keeps to the rules if the sink does. -/
theorem Conduct.empty {sink : Sink (Machine τ ω)} {max : Nat}
    (permitted : rules.permits (.empty p sink max))
    (writes : ∀ offered, Conduct rules (sink.write offered)) :
    Conduct rules (Pipe.writeTo o p sink max) := by
  refine .call (c := .empty p sink max) permitted nofun nofun ?_ reacts
  rintro _ ⟨⟩
  exact writes

end Streams

/-- Owners inside owners: handlers make their calls for the owner below, and those of the lowest
one halt. -/
def Owner.nest (passes : Nat) (react : Owner τ ω → HandlerId → Edge → Machine τ ω Unit) :
    Nat → Owner τ ω
  | 0 => ⟨fun _ _ => throw .exhausted, passes⟩
  | depth + 1 => ⟨react (nest passes react depth), passes⟩

/-- Handlers that keep to the rules if those below do, keep to them at every depth. -/
theorem conduct_nest {passes : Nat} {react : Owner τ ω → HandlerId → Edge → Machine τ ω Unit}
    (step : ∀ o : Owner τ ω, (∀ handler edge, Conduct rules (o.react handler edge)) →
      ∀ handler edge, Conduct rules (react o handler edge)) (depth : Nat) :
    ∀ handler edge, Conduct rules ((Owner.nest passes react depth).react handler edge) := by
  induction depth with
  | zero => exact fun _ _ => .halts _
  | succ depth ih => exact step _ ih

end Conduct

/-! ## Leaving things alone -/

/-- A computation that leaves a part of the world as it is. -/
def Leaves {γ : Type} (part : World τ ω → γ) (m : Machine τ ω α) : Prop :=
  ∀ ⦃w a w'⦄, m w = .ok a w' → part w' = part w

theorem leaves_pure {γ : Type} (part : World τ ω → γ) (a : α) :
    Leaves part (pure a : Machine τ ω α) := by
  intro w b w' ran
  cases ran
  rfl

theorem Leaves.keeps {γ : Type} {part : World τ ω → γ} {m : Machine τ ω α}
    (leaves : Leaves part m) (value : γ) : Machine.Keeps (fun w => part w = value) m :=
  fun _ _ _ same ran => (leaves ran).trans same

theorem Leaves.keeps_and {γ : Type} {part : World τ ω → γ} {m : Machine τ ω α}
    (leaves : Leaves part m) {inv : World τ ω → Prop} (h : Machine.Keeps inv m) (value : γ) :
    Machine.Keeps (fun w => inv w ∧ part w = value) m :=
  fun _ _ _ ⟨holds, same⟩ ran => ⟨h holds ran, (leaves ran).trans same⟩

variable [Inhabited τ]

/-- Nothing happened to a pipe between two worlds, and nothing to the rings in `R` that the pipe
could notice. Handlers and bytes may have come and gone elsewhere. -/
structure Untouched (p : PipeId) (R : RingId → Prop) (w w' : World τ ω) : Prop where
  inUse : p < w'.pipes.next
  pipe : ∃ handlers, w'.pipes.get p = { w.pipes.get p with handlers }
  destinationInUse : (w.pipes.get p).destination < w'.rings.next
  destination : (w'.rings.get (w.pipes.get p).destination).ring =
    (w.rings.get (w.pipes.get p).destination).ring
  valid : ∀ r, R r → (w.rings.get r).ring.Valid → (w'.rings.get r).ring.Valid
  cleaned : ∀ r, R r → (w'.rings.get r).ring.cleaned = (w.rings.get r).ring.cleaned
  listeners : ∀ r, R r → ∀ q,
    .listener q ∈ (w'.rings.get r).observers ↔ .listener q ∈ (w.rings.get r).observers
  ledger : Ledger.of p w'.journal = Ledger.of p w.journal

/-- A computation that touches neither the pipe nor what is in its destination, once there is such a
pipe and its destination is in `R`. -/
def Apart (p : PipeId) (R : RingId → Prop) (m : Machine τ ω α) : Prop :=
  ∀ ⦃w a w'⦄, p < w.pipes.next → (w.pipes.get p).destination < w.rings.next →
    R (w.pipes.get p).destination → m w = .ok a w' → Untouched p R w w'

/-- The destination of a pipe and what is in it. -/
def heldBy (p : PipeId) (w : World τ ω) : RingId × Ring :=
  ((w.pipes.get p).destination, (w.rings.get (w.pipes.get p).destination).ring)

theorem ring_eq_of_heldBy {p : PipeId} {w w' : World τ ω} (same : heldBy p w' = heldBy p w) :
    (w'.rings.get (w.pipes.get p).destination).ring =
      (w.rings.get (w.pipes.get p).destination).ring := by
  have destination : (w'.pipes.get p).destination = (w.pipes.get p).destination :=
    congrArg Prod.fst same
  have ring : (w'.rings.get (w'.pipes.get p).destination).ring =
      (w.rings.get (w.pipes.get p).destination).ring := congrArg Prod.snd same
  rw [destination] at ring
  exact ring

end ByteFlow
