/-
# Rings in the hands of programs

The rings that programs share are `Tidy`: each of them is valid, and nobody is registered with it
twice. That is so of an empty world, and every program keeps it so, whatever calls it makes and from
wherever it makes them, also if it halts in the middle of one. `World.Reached` are the worlds that
programs leave behind, so all of them are tidy.

Those who watch a ring are told of an edge one after the other. `SharedRing.tellEach` says what it
is to be told: a handler is told itself, and a listener has a pipe that does something about it.
-/

import ByteFlow.Proofs.Fifo
import ByteFlow.Proofs.Withstanding

namespace ByteFlow

open Machine

variable {τ ω α : Type}

/-! ## Tidy rings -/

/-- The ring is valid, and nobody is registered with it twice. -/
structure SharedRing.Tidy (shared : SharedRing) : Prop where
  valid : shared.ring.Valid
  nodup : shared.observers.Nodup

/-- All rings are tidy. -/
def World.Tidy (w : World τ ω) : Prop := ∀ r, (w.rings.get r).Tidy

namespace World.Tidy

theorem empty (owner : ω) : (World.empty owner : World τ ω).Tidy := by
  intro r
  rw [World.empty, Table.get_of_next_le (Nat.zero_le r)]
  exact ⟨Ring.valid_empty _ _, List.nodup_nil⟩

theorem set_ring {w : World τ ω} (h : w.Tidy) (r : RingId) {shared : SharedRing}
    (tidy : shared.Tidy) : World.Tidy { w with rings := w.rings.set r shared } := by
  intro s
  dsimp only
  rw [Table.get_set]
  split
  · exact tidy
  · exact h s

/-- Who comes or goes is registered once, if that was so of all before. -/
theorem observe (r : RingId) {f : List Observer → List Observer}
    (nodup : ∀ {observers}, observers.Nodup → (f observers).Nodup) :
    Preserves (World.Tidy (τ := τ) (ω := ω)) (modifyShared r fun shared =>
      { shared with observers := f shared.observers }) :=
  upholds_modify fun _ h => h.set_ring r ⟨(h r).valid, nodup (h r).nodup⟩

theorem attach (r : RingId) (observer : Observer) :
    Preserves (World.Tidy (τ := τ) (ω := ω)) (attach r observer) :=
  observe r fun nodup => nodup_enlist nodup observer

theorem detach (r : RingId) (observer : Observer) :
    Preserves (World.Tidy (τ := τ) (ω := ω)) (detach r observer) :=
  observe r fun nodup => nodup.filter _

theorem record (event : Event) : Preserves (World.Tidy (τ := τ) (ω := ω)) (record event) :=
  upholds_modify fun _ => id

variable [Inhabited τ]

/-- It is not about pipes. -/
theorem modifyPipe (p : PipeId) (f : Pipe τ → Pipe τ) :
    Preserves (World.Tidy (ω := ω)) (modifyPipe p f) :=
  upholds_modifyPipe fun _ => id

theorem tends : TendsRings (World.Tidy (τ := τ) (ω := ω)) where
  log _ := record _
  announce _ _ _ := record _
  count p _ := modifyPipe p _
  detach := detach
  valid h r := (h r).valid
  replace h r _ valid := h.set_ring r ⟨valid, (h r).nodup⟩
  delivered _ _ := record _

end World.Tidy

/-! ## Worlds that programs leave behind -/

variable [Inhabited τ]

/-- What a program does with rings and pipes beside the calls that store, write out and run: it
makes them and lets them go, comes and goes as a handler, empties or cleans a ring, moves its
content, and looks at whatever it likes. What it keeps for itself is its own business. -/
inductive Housekeeping : ∀ {α : Type}, Machine τ ω α → Prop
  | makesRing {ring : Ring} (reachable : ring.Reachable) : Housekeeping (SharedRing.create ring)
  | makesPipe (direction : Direction) (d : RingId) (transform : τ) (options : PipeOptions) :
      Housekeeping (Pipe.create direction d transform options)
  | drops (p : PipeId) : Housekeeping (Pipe.drop p)
  | joins (r : RingId) (handler : HandlerId) : Housekeeping (attach r (.handler handler))
  | leaves (r : RingId) (handler : HandlerId) : Housekeeping (detach r (.handler handler))
  | joinsPipe (p : PipeId) (handler : HandlerId) : Housekeeping (Pipe.addHandler p handler)
  | leavesPipe (p : PipeId) (handler : HandlerId) : Housekeeping (Pipe.removeHandler p handler)
  | clears (r : RingId) : Housekeeping (SharedRing.clear r)
  | cleans (r : RingId) : Housekeeping (SharedRing.clean r)
  | defragments (r : RingId) : Housekeeping (SharedRing.defragment r)
  | looks : Housekeeping get
  | keeps (f : ω → ω) : Housekeeping (modify fun w => { w with owner := f w.owner })

/-- Programs make any calls, and do their housekeeping besides. -/
def Rules.housekeeping : Rules τ ω where
  permits _ := True
  ignores m := Housekeeping m

variable [Transform τ]

/-- Programs have left this world, one after the other. Any of them may have halted, in the middle
of whatever it did, so a world that is seen from inside an edge is among these. -/
inductive World.Reached : World τ ω → Prop
  | empty (owner : ω) : Reached (World.empty owner)
  | after {w : World τ ω} {α : Type} {m : Machine τ ω α} (reached : Reached w)
      (conduct : Conduct .housekeeping m) : Reached (m.left w)

namespace World.Tidy

omit [Transform τ] in
/-- Housekeeping leaves the rings tidy. -/
theorem housekeeping {m : Machine τ ω α} (h : Housekeeping m) : Preserves World.Tidy m := by
  cases h with
  | makesRing reachable =>
      refine .pointwise fun _ h => ?_
      rintro _ rfl
      exact h.set_ring _ ⟨reachable.valid, List.nodup_nil⟩
  | makesPipe direction d transform options =>
      refine preserves_iff.2 fun w h => ?_
      rcases left_create direction d transform options w with same | ⟨capacity, entry, same⟩
      · exact same.symm ▸ h
      · rw [same]
        exact h.set_ring d ⟨(h d).valid, nodup_enlist (h d).nodup _⟩
  | drops p =>
      exact (modifyPipe p _).bind fun _ => (closed_preserves _).retire fun r => detach r _
  | joins r handler => exact attach r _
  | leaves r handler => exact detach r _
  | joinsPipe p handler => exact modifyPipe p _
  | leavesPipe p handler => exact modifyPipe p _
  | clears r => exact tends.clearRing r
  | cleans r => exact tends.cleanRing r
  | defragments r => exact tends.defragment r
  | looks => exact (closed_preserves _).looks
  | keeps f => exact upholds_modify fun _ => id

section Reacting

variable {o : Owner τ ω} (reacts : ∀ handler edge, Preserves World.Tidy (o.react handler edge))

include reacts

theorem withstands (q : PipeId) : Withstands o q (.any World.Tidy) World.Tidy where
  halts _ := id
  log _ := record _
  take _ _ _ h _ := ⟨h, trivial⟩
  put _ _ h _ _ := h
  mark _ h := h
  advance _ h _ := h
  store := tends.store reacts

theorem run (q : PipeId) : Preserves World.Tidy (Pipe.run o q) := by
  refine (withstands reacts q).weathers.run tends.enters (fun _ _ _ h => h) (fun e => ?_)
    (fun _ _ => record _) reacts
  exact tends.enters.fail (fun _ => modifyPipe q _) (fun _ _ _ => record _) reacts e

/-- Every call leaves the rings tidy. -/
theorem perform {c : Call τ ω α}
    (reads : ∀ source, c.source? = some source →
      ∀ wanted, Preserves World.Tidy (source.read wanted))
    (ended : ∀ source, c.source? = some source → Preserves World.Tidy source.isEnded)
    (writes : ∀ sink, c.sink? = some sink →
      ∀ offered, Preserves World.Tidy (sink.write offered)) :
    Preserves World.Tidy (c.perform o) := by
  cases c with
  | feed q source =>
      exact tends.enters.feed (fun _ => modifyPipe q _) (fun _ => record _) (run reacts q)
        (reads source rfl) (ended source rfl)
  | run q => exact run reacts q
  | empty q sink max => exact tends.empty reacts (run reacts) q (writes sink rfl) max
  | switch q candidate =>
      exact tends.enters.switch (fun r => attach r _) (fun r => detach r _) (modifyPipe q _)
        (fun _ _ => record _) (run reacts q)
  | clear q => exact tends.clear q
  | clean q => exact tends.enters.giveBack tends.cleanRing (modifyPipe q _)
  | store r data => exact tends.store reacts r data
  | fill r source => exact tends.fill reacts r (reads source rfl) (ended source rfl)
  | pour r sink max => exact tends.pour reacts (run reacts) r (writes sink rfl) max

end Reacting

/-- Programs leave the rings tidy, also where they halt. -/
theorem preserves_conduct {m : Machine τ ω α} (conduct : Conduct .housekeeping m) :
    Preserves World.Tidy m :=
  conduct.preserves housekeeping fun _ reads ended writes reacts =>
    perform reacts reads ended writes

end World.Tidy

/-- Whatever programs did, the rings that they share are tidy. -/
theorem World.Reached.tidy {w : World τ ω} (reached : w.Reached) : w.Tidy := by
  induction reached with
  | empty owner => exact .empty owner
  | after _ conduct ih => exact preserves_iff.1 (Tidy.preserves_conduct conduct) _ ih

/-! ## Who is told of an edge -/

namespace SharedRing

omit [Transform τ]

/-- Tells some of those who watch a ring of an edge, each of them once, in order. -/
def tellEach (listen : PipeId → Machine τ ω Unit) (o : Owner τ ω) (id : RingId) (edge : Edge) :
    List Observer → Machine τ ω Unit
  | [] => return ()
  | .listener p :: others => do
    listen p
    tellEach listen o id edge others
  | .handler handler :: others => do
    record (.notified (.ring id) handler edge)
    o.react handler edge
    tellEach listen o id edge others

omit [Inhabited τ] in
/-- A loop over observers tells each of them once, if that is what it does with each. -/
theorem forM_eq_tellEach {listen : PipeId → Machine τ ω Unit} {o : Owner τ ω} {id : RingId}
    {edge : Edge} {f : Observer → Machine τ ω PUnit} (listener : ∀ p, f (.listener p) = listen p)
    (handler : ∀ told, f (.handler told) = tell o (.ring id) edge told)
    (observers : List Observer) : observers.forM f = tellEach listen o id edge observers := by
  induction observers with
  | nil => rfl
  | cons observer others ih =>
      change (f observer >>= fun _ => others.forM f) = _
      rw [ih]
      cases observer with
      | listener p =>
          rw [listener]
          rfl
      | handler told =>
          rw [handler]
          rfl

end SharedRing

end ByteFlow
