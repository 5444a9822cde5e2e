/-
# Sound worlds

A world is sound if all its rings are valid, the buffers of all its pipes are in order, and of a
source that was cleaned nothing is left in the queue. Whatever programs do with pipes and rings,
however they end, and from inside whichever edge they do it, they leave the world sound. Nothing is
asked of their handlers and streams but that they do so too.

`Rules.custody` describes the programs of which this is shown: they make any calls, and what they do
besides leaves the world sound and the pipe operating or not, as it was. To make rings and pipes, to
come and go as a handler, and to empty or clean a ring from outside are such doings.
-/

import ByteFlow.Proofs.Entering
import ByteFlow.Proofs.Operating
import ByteFlow.Proofs.Upkeep

namespace ByteFlow

open Machine

variable {τ ω α : Type}

/-- The buffers of the pipe are in order, and of a source that was cleaned nothing is left in the
queue. -/
structure Pipe.Sound (pipe : Pipe τ) : Prop extends pipe.InOrder where
  emptied : pipe.source.cleaned = true → pipe.queue.isEmpty = true

namespace Pipe.Sound

variable {pipe : Pipe τ}

theorem new (direction : Direction) (options : PipeOptions) (capacity : Nat) (region : Region)
    (transform : τ) (destination : RingId) :
    (Pipe.new direction options (.empty capacity region) transform destination).Sound :=
  ⟨⟨Ring.valid_empty _ _, Queue.sound_empty⟩, nofun⟩

/-- Where a segment waits, the source was not cleaned. -/
theorem intact (h : pipe.Sound) {segment : Ring} {rest : Queue}
    (popped : pipe.queue.popFront = some (segment, rest)) : pipe.source.cleaned = false := by
  refine Bool.eq_false_iff.2 fun cleaned => ?_
  have none := Queue.isEmpty_iff_segments_eq_nil.1 (h.emptied cleaned)
  rw [(Queue.popFront_eq_some popped).1] at none
  cases none

theorem advance [Transform τ] [Transform.Proper τ] (h : pipe.Sound) (ready : pipe.isReady)
    (p : PipeId) : (pipe.advance p).pipe.Sound := by
  refine ⟨h.toInOrder.advance p, fun cleaned => ?_⟩
  obtain ⟨_, _, _, _, _, same, intact⟩ := pipe.advance_same p
  rw [same] at cleaned
  have some := (Bool.and_eq_true_iff.1 ready).1
  have none := h.source.used_eq (intact.symm.trans cleaned)
  rw [Ring.isEmpty, none] at some
  cases some

end Pipe.Sound

variable [Inhabited τ]

/-- All pipes and rings are sound. -/
structure World.Sound (w : World τ ω) : Prop where
  pipes : ∀ p, (w.pipes.get p).Sound
  rings : ∀ r, (w.content r).Valid

namespace World.Sound

theorem empty (owner : ω) : (World.empty owner : World τ ω).Sound where
  pipes p := by
    rw [World.empty, Table.get_of_next_le (Nat.zero_le p)]
    exact .new _ _ _ _ _ _
  rings r := by
    rw [World.content, World.empty, Table.get_of_next_le (Nat.zero_le r)]
    exact Ring.valid_empty _ _

variable {w : World τ ω}

theorem set_pipe (h : w.Sound) {p : PipeId} {pipe : Pipe τ} (sound : pipe.Sound) :
    World.Sound { w with pipes := w.pipes.set p pipe } := by
  refine ⟨fun q => ?_, h.rings⟩
  rw [Table.get_set]
  split
  · exact sound
  · exact h.pipes q

theorem set_ring (h : w.Sound) {r : RingId} {shared : SharedRing} (valid : shared.ring.Valid) :
    World.Sound { w with rings := w.rings.set r shared } := by
  refine ⟨h.pipes, fun s => ?_⟩
  rw [World.content, Table.get_set]
  split
  · exact valid
  · exact h.rings s

theorem record (event : Event) : Preserves (World.Sound (τ := τ) (ω := ω)) (record event) :=
  fun _ h => ⟨h.pipes, h.rings⟩

/-- Who observes a ring does not matter. -/
theorem observe (r : RingId) (f : List Observer → List Observer) :
    Preserves (World.Sound (τ := τ) (ω := ω)) (modifyShared r fun shared =>
      { shared with observers := f shared.observers }) :=
  upholds_modify fun _ h => h.set_ring (h.rings r)

/-- Most changes to a pipe leave its buffers alone. -/
theorem modifyPipe {q : PipeId} {f : Pipe τ → Pipe τ}
    (same : ∀ pipe, (f pipe).source = pipe.source ∧ (f pipe).queue = pipe.queue) :
    Preserves (World.Sound (ω := ω)) (modifyPipe q f) := by
  refine upholds_modifyPipe fun w h => h.set_pipe ?_
  obtain ⟨source, queue⟩ := same (w.pipes.get q)
  obtain ⟨⟨valid, sound⟩, emptied⟩ := h.pipes q
  exact ⟨⟨source ▸ valid, queue ▸ sound⟩, by rw [source, queue]; exact emptied⟩

theorem stable : Stable (World.Sound (τ := τ) (ω := ω)) where
  log _ := record _
  announce _ _ _ := record _
  count _ _ := modifyPipe fun _ => ⟨rfl, rfl⟩
  detach r _ := observe r _

theorem tends : TendsRings (World.Sound (τ := τ) (ω := ω)) where
  toStable := stable
  valid h := h.rings
  replace h _ _ valid := h.set_ring valid
  delivered _ _ := record _

theorem enters : Enters fun _ (m : Machine τ ω _) => Preserves World.Sound m := stable.enters

/-! ### Calls -/

theorem clean (q : PipeId) : Preserves (World.Sound (τ := τ) (ω := ω)) (Pipe.clean q) := by
  refine enters.giveBack tends.cleanRing (upholds_modifyPipe fun w h => h.set_pipe ?_)
  exact ⟨⟨(h.pipes q).source.clean, Queue.sound_empty⟩, fun _ => rfl⟩

section Reacting

variable {o : Owner τ ω} (reacts : ∀ handler edge, Preserves World.Sound (o.react handler edge))

include reacts

variable [Transform τ] [Transform.Proper τ]

theorem withstands (q : PipeId) : Withstands o q (.pieces World.Sound) World.Sound where
  halts _ := id
  log _ := record _
  take w segment rest h popped := by
    obtain ⟨held, piece, sound⟩ := (h.pipes q).queue.popFront popped
    refine ⟨h.set_pipe ⟨⟨(h.pipes q).source, sound⟩, fun cleaned => ?_⟩, held, piece⟩
    rw [(h.pipes q).intact popped] at cleaned
    cases cleaned
  put w segment h intact := fun ⟨valid, piece⟩ => by
    refine h.set_pipe ⟨⟨(h.pipes q).source, (h.pipes q).queue.pushFront valid piece⟩, ?_⟩
    intro cleaned
    rw [intact] at cleaned
    cases cleaned
  mark w h := h.set_pipe ⟨⟨(h.pipes q).source, (h.pipes q).queue⟩, (h.pipes q).emptied⟩
  advance w h ready := by
    have after := h.set_pipe (p := q) ((h.pipes q).advance ready q)
    exact ⟨after.pipes, after.rings⟩
  store := tends.store reacts

theorem run (q : PipeId) : Preserves World.Sound (Pipe.run o q) := by
  refine (withstands reacts q).weathers.run enters ?_ (fun e => ?_) (fun _ _ => record _) reacts
  · exact fun w _ _ h =>
      h.set_pipe ⟨⟨(h.pipes q).source, (h.pipes q).queue⟩, (h.pipes q).emptied⟩
  · exact enters.fail (fun _ => modifyPipe fun _ => ⟨rfl, rfl⟩) (fun _ _ _ => record _) reacts e

theorem feed (q : PipeId) {source : Source (Machine τ ω)}
    (reads : ∀ wanted, Preserves World.Sound (source.read wanted))
    (ends : Preserves World.Sound source.isEnded) :
    Preserves World.Sound (Pipe.storeFrom o q source) := by
  refine enters.called ?_ q
  apply (enters.failureCheck q).bind
  intro failed
  cases failed with
  | error e => exact preserves_pure _
  | ok =>
      refine .pointwise fun w h => .at_getPipe ?_
      -- A source that was cleaned is not filled, so nobody could touch the pipe meanwhile.
      have intakes : Upholds World.Sound (· = w) ((w.pipes.get q).source.storeFrom source)
          fun intake w' => w'.Sound ∧ intake.ring.Valid ∧
            (intake.ring.cleaned = true → (w'.pipes.get q).queue.isEmpty = true) := by
        by_cases shut : (w.pipes.get q).source.cleaned
        · have refuses : ((w.pipes.get q).source.storeFrom source : Machine τ ω Intake) =
              pure ⟨(w.pipes.get q).source, [], .error (.closed .store)⟩ := if_pos shut
          rw [refuses]
          refine upholds_pure ?_
          rintro _ rfl
          exact ⟨h, (h.pipes q).source, (h.pipes q).emptied⟩
        · refine (Upholds.here h (upholds_storeFrom reads ends _)).of_imp (fun _ => id) ?_
          intro intake w' ⟨h', fills⟩
          have filled := fills (h.pipes q).source
          exact ⟨h', filled.valid, fun cleaned => (shut (filled.cleaned.symm.trans cleaned)).elim⟩
      refine Upholds.bind intakes fun intake => .pointwise fun w' ⟨h', valid, emptied⟩ => ?_
      refine .at_modifyPipe (.here (h'.set_pipe ⟨⟨valid, (h'.pipes q).queue⟩, emptied⟩) ?_)
      exact (record _).bind fun _ => enters.onIntake (run reacts q) intake.result

/-- Every call leaves the world sound. -/
theorem perform {c : Call τ ω α}
    (reads : ∀ source, c.source? = some source →
      ∀ wanted, Preserves World.Sound (source.read wanted))
    (ended : ∀ source, c.source? = some source → Preserves World.Sound source.isEnded)
    (writes : ∀ sink, c.sink? = some sink →
      ∀ offered, Preserves World.Sound (sink.write offered)) :
    Preserves World.Sound (c.perform o) := by
  cases c with
  | feed q source => exact feed reacts q (reads source rfl) (ended source rfl)
  | run q => exact run reacts q
  | empty q sink max => exact tends.empty reacts (run reacts) q (writes sink rfl) max
  | switch q candidate =>
      exact enters.switch (fun r => observe r fun members => enlist members (.listener q))
        (fun r => observe r _) (modifyPipe fun _ => ⟨rfl, rfl⟩) (fun _ _ => record _)
        (run reacts q)
  | clear q => exact tends.clear q
  | clean q => exact clean q
  | store r data => exact tends.store reacts r data
  | fill r source => exact tends.fill reacts r (reads source rfl) (ended source rfl)
  | pour r sink max => exact tends.pour reacts (run reacts) r (writes sink rfl) max

end Reacting

end World.Sound

/-! ## Programs -/

/-- What leaves the world sound, and the pipe operating or not, as it was. -/
structure Harmless (p : PipeId) (m : Machine τ ω α) : Prop where
  sound : Preserves World.Sound m
  operates : ∀ busy, Preserves (Operates p busy) m

/-- Programs make any calls, and what they do besides is harmless. -/
def Rules.custody (p : PipeId) : Rules τ ω where
  permits _ := True
  ignores m := Harmless p m

namespace Harmless

variable {p : PipeId}

/-- To make a pipe of any transform, into any ring, is harmless. -/
theorem create (direction : Direction) (d : RingId) (transform : τ) (options : PipeOptions) :
    Harmless p (Pipe.create direction d transform options : Machine τ ω _) where
  sound := preserves_iff.2 fun w h => by
    rcases left_create direction d transform options w with same | ⟨capacity, entry, same⟩
    · exact same.symm ▸ h
    · rw [same]
      have observed : World.Sound { w with rings := w.rings.set d { w.rings.get d with
          observers := enlist (w.rings.get d).observers (.listener w.pipes.next) } } :=
        h.set_ring (h.rings d)
      have opened := observed.set_pipe (p := w.pipes.next)
        (.new direction options capacity options.sourceRegion transform d)
      exact ⟨opened.pipes, opened.rings⟩
  operates busy := preserves_iff.2 fun w h => by
    rcases left_create direction d transform options w with same | ⟨capacity, entry, same⟩
    · exact same.symm ▸ h
    · rw [same]
      have other : w.pipes.next ≠ p := Nat.ne_of_gt h.1
      let pipe : Pipe τ := .new direction options (.empty capacity options.sourceRegion) transform d
      have opened : Operates p busy { w with pipes := w.pipes.set w.pipes.next pipe } :=
        h.set_pipe fun own => (other own).elim
      exact ⟨opened.1, opened.2⟩

/-- To clean a ring from outside is harmless. -/
theorem cleanRing (r : RingId) : Harmless p (SharedRing.clean r : Machine τ ω _) where
  sound := World.Sound.tends.cleanRing r
  operates _ := Operates.aloof.admits.clean r

end Harmless

section Programs

variable [Transform τ] [Transform.Proper τ] {p : PipeId} {m : Machine τ ω α}

/-- A program leaves the world sound, also where it halts. -/
theorem World.Sound.preserves_conduct (conduct : Conduct (Rules.custody p) m) :
    Preserves World.Sound m :=
  conduct.preserves Harmless.sound fun _ reads ended writes reacts =>
    perform reacts reads ended writes

/-- A program has left this world, with a pipe that was made in a sound one before it. -/
def Reached (p : PipeId) (w : World τ ω) : Prop :=
  ∃ (direction : Direction) (d : RingId) (transform : τ) (options : PipeOptions)
    (w₀ w₁ : World τ ω) (α : Type) (m : Machine τ ω α), w₀.Sound ∧
      Pipe.create direction d transform options w₀ = .ok (.ok p) w₁ ∧
        Conduct (Rules.custody p) m ∧ m.left w₁ = w

/-- From when a pipe is made into a sound world, the world is sound after every program, and the
pipe does not operate between programs. -/
theorem Reached.sound {w : World τ ω} (reached : Reached p w) : w.Sound ∧ Operates p false w := by
  obtain ⟨direction, d, transform, options, w₀, w₁, α, m, sound, made, conduct, rfl⟩ := reached
  have starts : Ensures (· = w₀) (Pipe.create direction d transform options) fun made w =>
      ∀ p, made = .ok p → Operates p false w := by
    refine Pipe.ensures_create (fun e => nofun) ?_
    rintro capacity entry _ _ _ _ ⟨⟩
    exact Table.set_self (P := Pipe.Operates false) ⟨rfl, fun _ => rfl⟩
  have creates : Harmless p (Pipe.create direction d transform options : Machine τ ω _) :=
    .create direction d transform options
  have opened : w₁.Sound := left_of_ok made ▸ preserves_iff.1 creates.sound w₀ sound
  refine ⟨preserves_iff.1 (World.Sound.preserves_conduct conduct) w₁ opened, ?_⟩
  have operates : Preserves (Operates p false) m :=
    Operates.preserves_conduct (fun (harmless : Harmless p _) => harmless.operates) conduct false
  exact preserves_iff.1 operates w₁ (starts rfl made p rfl)

end Programs

end ByteFlow
