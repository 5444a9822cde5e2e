/-
# The edge that makes a ring readable

A store into a ring that was empty, and holds bytes afterwards, makes the ring readable. Its
observers are told of this once, and of nothing else, however the store ends.

That a store fails is no reason to tell nobody, and yet a failed store tells nobody. It makes no
difference, because a store that fails has not made the ring readable. A source can fail after it
has given bytes only if it is read twice, and it is read twice only if the free space is in two
pieces. The free space of an empty ring is in one piece, since such a ring begins at its first cell:
this is so of every ring that programs can come to hold.
-/

import ByteFlow.Proofs.Tidiness
import ByteFlow.Transform.Codec

namespace ByteFlow

open Machine

variable {τ ω α : Type} [Inhabited τ] [Transform τ]

/-! ## What a store tells -/

namespace SharedRing

omit [Transform τ]

/-- A store that leaves bytes where there were none. -/
def turnsReadable (before after : Ring) : Bool := before.isEmpty && !after.isEmpty

/-- Does something, and after that tells everybody who watches the ring by now, if the ring was
empty before and holds bytes. What came of it does not matter. -/
def tellingReadable (o : Owner τ ω) (id : RingId) (m : Machine τ ω α) : Machine τ ω α := do
  let before ← getRing id
  let answer ← m
  let after ← getShared id
  if turnsReadable before after.ring then
    record (.fired (.ring id) .readable)
    tellEach (Pipe.listenReadable o) o id .readable after.observers
  return answer

/-- Stores as much of `data` as fits, and tells nobody. -/
def storeQuietly (id : RingId) (data : Bytes) : Machine τ ω (Except Error Nat) :=
  updateRing id fun ring => ((ring.store data).2, (ring.store data).1)

/-- Stores as many bytes from a source as fit, and tells nobody. -/
def storeFromQuietly (id : RingId) (source : Source (Machine τ ω)) :
    Machine τ ω (Except Error Stored) := do
  let intake ← (← getRing id).storeFrom source
  setRing id intake.ring
  return intake.result

variable {o : Owner τ ω} {id : RingId} {w w₁ : World τ ω}

/-- The world with another content of the ring. -/
def replaced (id : RingId) (ring : Ring) (w : World τ ω) : World τ ω :=
  { w with rings := w.rings.set id { w.rings.get id with ring } }

omit [Inhabited τ] in
theorem get_replaced (id : RingId) (ring : Ring) (w : World τ ω) :
    (replaced id ring w).rings.get id = { w.rings.get id with ring } := by
  rw [replaced, Table.get_set, if_pos rfl]

omit [Inhabited τ] in
theorem storeQuietly_eq (data : Bytes) :
    (storeQuietly id data : Machine τ ω _) w =
      .ok ((w.rings.get id).ring.store data).2
        (replaced id ((w.rings.get id).ring.store data).1 w) :=
  updateRing_eq id _ w

theorem fireReadable_eq :
    fireReadable o id w =
      (do
        record (.fired (.ring id) .readable)
        tellEach (Pipe.listenReadable o) o id .readable (w.rings.get id).observers :
          Machine τ ω Unit) w := by
  change ((w.rings.get id).observers.forM _ : Machine τ ω PUnit) _ = _
  rw [forM_eq_tellEach (fun _ => rfl) fun _ => rfl]
  rfl

theorem tellingReadable_of_error {m : Machine τ ω α} {halt : Halt} (ran : m w = .error halt w₁) :
    tellingReadable o id m w = .error halt w₁ := by
  change (m >>= fun _ => _) w = _
  exact bind_of_error ran

/-- What is told is what the content of the ring says, before and after. -/
theorem tellingReadable_of_ok {m : Machine τ ω α} {answer : α} {ring : Ring}
    (ran : m w = .ok answer (replaced id ring w₁)) :
    tellingReadable o id m w =
      (do
        if turnsReadable (w.rings.get id).ring ring then fireReadable o id
        return answer : Machine τ ω α) (replaced id ring w₁) := by
  refine (bind_of_ok ran).trans ?_
  change (if turnsReadable _ ((replaced id ring w₁).rings.get id).ring then _ else _ :
    Machine τ ω α) (replaced id ring w₁) = _
  rw [get_replaced]
  by_cases turned : turnsReadable (w.rings.get id).ring ring
  · rw [if_pos turned, if_pos turned]
    change _ = EStateM.bind (fireReadable o id) _ (replaced id ring w₁)
    unfold EStateM.bind
    rw [fireReadable_eq, get_replaced]
    rfl
  · rw [if_neg turned, if_neg turned]

theorem store_eq_telling (data : Bytes) :
    store o id data w = tellingReadable o id (storeQuietly id data) w := by
  rw [tellingReadable_of_ok (storeQuietly_eq data)]
  refine (bind_of_ok (updateRing_eq id _ w)).trans ?_
  by_cases closed : (w.rings.get id).ring.cleaned
  · -- A ring that refuses stays as it is, so it did not turn readable.
    have refuses : (w.rings.get id).ring.store data =
        ((w.rings.get id).ring, .error (.closed .store)) := if_pos closed
    have same : turnsReadable (w.rings.get id).ring (w.rings.get id).ring = false := by
      unfold turnsReadable
      rw [Bool.and_not_self]
    rw [refuses]
    dsimp only
    rw [same]
    rfl
  · have stores : ((w.rings.get id).ring.store data).2 =
        .ok (min data.length (w.rings.get id).ring.free) := by
      rw [Ring.store, if_neg closed]
    dsimp only
    rw [stores]
    rfl

theorem storeFrom_eq_telling (valid : (w.rings.get id).ring.Valid) (source : Source (Machine τ ω)) :
    storeFrom o id source w = tellingReadable o id (storeFromQuietly id source) w := by
  cases ran : (w.rings.get id).ring.storeFrom source w with
  | error halt w₁ =>
      have quiet : storeFromQuietly id source w = .error halt w₁ := by
        change ((w.rings.get id).ring.storeFrom source >>= _) w = _
        exact bind_of_error ran
      rw [tellingReadable_of_error quiet]
      change ((w.rings.get id).ring.storeFrom source >>= _) w = _
      exact bind_of_error ran
  | ok intake w₁ =>
      have stores : storeFromQuietly id source w = .ok intake.result (replaced id intake.ring w₁) :=
        bind_of_ok ran
      rw [tellingReadable_of_ok stores]
      refine (bind_of_ok ran).trans ?_
      obtain ⟨ring, moved, result⟩ := intake
      cases result with
      | ok stored => rfl
      | error e =>
          have quiet : turnsReadable (w.rings.get id).ring ring = false := by
            by_cases held : (w.rings.get id).ring.used = 0
            · have stopped := Ring.ensures_storeFrom_of_used_eq_zero valid held trivial ran
              have same : ring = (w.rings.get id).ring := (stopped e rfl).1
              rw [same, turnsReadable, Bool.and_not_self]
            · rw [turnsReadable, Ring.isEmpty, beq_eq_false_iff_ne.2 held, Bool.false_and]
          dsimp only
          rw [quiet]
          rfl

/-- Stores that tell nobody leave the rings tidy, so nobody is told twice. -/
theorem tidy_storeFromQuietly {source : Source (Machine τ ω)}
    (reads : ∀ wanted, Preserves World.Tidy (source.read wanted))
    (ends : Preserves World.Tidy source.isEnded) :
    Preserves World.Tidy (storeFromQuietly id source) := by
  refine .pointwise fun w h => .at_getRing ?_
  refine Upholds.bind (.here h (upholds_storeFrom reads ends _)) fun intake => ?_
  refine .pointwise fun w₁ ⟨h₁, fills⟩ => ?_
  have filled := (fills (h id).valid).valid
  exact .here h₁ ((World.Tidy.tends.setRing id filled).bind fun _ => preserves_pure _)

end SharedRing

/-- Whatever was done to a ring before, each kind of store into it does what it would do if it told
nobody, and then tells the observers, once, exactly if there were no bytes before and there are some
afterwards, whether it succeeds or fails. At the moment at which they are told nobody is registered
twice. Of the source nothing is asked for the first part, and for the second that it is a program.
-/
theorem readable_edge_law {w : World τ ω} (reached : w.Reached) (o : Owner τ ω) (id : RingId) :
    (∀ data,
      SharedRing.store o id data w =
          SharedRing.tellingReadable o id (SharedRing.storeQuietly id data) w ∧
        (SharedRing.sink o id).write data w =
          SharedRing.tellingReadable o id (SharedRing.storeQuietly id data) w ∧
        (((SharedRing.storeQuietly id data).left w).rings.get id).observers.Nodup) ∧
      ∀ source : Source (Machine τ ω),
        SharedRing.storeFrom o id source w =
            SharedRing.tellingReadable o id (SharedRing.storeFromQuietly id source) w ∧
          ((∀ wanted, Conduct .housekeeping (source.read wanted)) →
            Conduct .housekeeping source.isEnded →
            (((SharedRing.storeFromQuietly id source).left w).rings.get id).observers.Nodup) := by
  have tidy := reached.tidy
  refine ⟨fun data => ⟨?_, ?_, ?_⟩, fun source => ⟨?_, fun reads ends => ?_⟩⟩
  · exact SharedRing.store_eq_telling data
  · exact SharedRing.store_eq_telling data
  · rw [left_of_ok (SharedRing.storeQuietly_eq data), SharedRing.get_replaced]
    exact (tidy id).nodup
  · exact SharedRing.storeFrom_eq_telling (tidy id).valid source
  · have stores : Preserves World.Tidy (SharedRing.storeFromQuietly id source) :=
      SharedRing.tidy_storeFromQuietly (fun wanted => World.Tidy.preserves_conduct (reads wanted))
        (World.Tidy.preserves_conduct ends)
    exact (preserves_iff.1 stores w tidy id).nodup

namespace Refill

/-- An owner whose handlers make no calls. -/
def owner : Owner Codec Bytes := ⟨fun _ _ => pure (), 8⟩

/-- A sink that takes everything. -/
def sink : Sink (Machine Codec Bytes) := ⟨fun offered => pure (.ok offered.length)⟩

/-- A source that gives bytes that the owner keeps, and fails when there are none left. -/
def source : Source (Machine Codec Bytes) where
  read wanted := do
    let bytes := (← get).owner
    modify fun w => { w with owner := w.owner.drop wanted }
    if bytes.isEmpty then return .error .underflow else return .ok (bytes.take wanted)
  isEnded := pure false

/-- Content goes round the end of a ring and is written out in two pieces, while a handler watches.
In the end the ring is empty. -/
def history : Machine Codec Bytes RingId := do
  let r ← SharedRing.create (.empty 4 .heap)
  attach r (.handler 0)
  let _ ← SharedRing.store owner r [1, 2, 3]
  let _ ← SharedRing.writeTo owner r sink 2
  let _ ← SharedRing.store owner r [4, 5, 6]
  let _ ← SharedRing.writeTo owner r sink 4
  return r

/-- The world after that, in which the owner keeps two bytes. -/
def world : World Codec Bytes := history.left (World.empty [7, 8])

/-- How often the handler was told that the ring has turned readable. -/
def told (w : World Codec Bytes) : Nat :=
  w.journal.countP fun
    | .notified _ 0 .readable => true
    | _ => false

theorem reacts (handler : HandlerId) (edge : Edge) :
    Conduct .housekeeping (owner.react handler edge) :=
  .gives ()

theorem conduct_store (r : RingId) (data : Bytes) :
    Conduct .housekeeping (SharedRing.store owner r data) :=
  .call (c := .store r data) trivial nofun nofun nofun reacts

theorem conduct_writeTo (r : RingId) (max : Nat) :
    Conduct .housekeeping (SharedRing.writeTo owner r sink max) := by
  refine .call (c := .pour r sink max) trivial nofun nofun ?_ reacts
  rintro _ ⟨⟩ offered
  exact .gives _

theorem reached : world.Reached := by
  have reachable : (Ring.empty 4 .heap).Reachable :=
    ⟨Unit, _, [], (), .create (Ring.create_eq_ok_iff.2 ⟨by decide, rfl⟩), nofun, rfl⟩
  refine .after (.empty _) (.andThen (.aside (.makesRing reachable)) fun r => ?_)
  refine .andThen (.aside (.joins r 0)) fun _ => ?_
  refine .andThen (conduct_store r _) fun _ => ?_
  refine .andThen (conduct_writeTo r _) fun _ => ?_
  refine .andThen (conduct_store r _) fun _ => ?_
  exact .andThen (conduct_writeTo r _) fun _ => .gives r

theorem conduct_read (wanted : Nat) : Conduct .housekeeping (source.read wanted) := by
  refine .andThen (.aside .looks) fun w => ?_
  refine .andThen (.aside (.keeps (List.drop wanted))) fun _ => ?_
  split <;> exact .gives _

end Refill

/-- The ring has been round its end and is empty again. Two bytes come into it, and the handler is
told for the second time. -/
theorem readable_edge_law_refill :
    Refill.world.Reached ∧ (Refill.world.rings.get 0).ring.isEmpty ∧
      SharedRing.storeFrom Refill.owner 0 Refill.source Refill.world =
        SharedRing.tellingReadable Refill.owner 0 (SharedRing.storeFromQuietly 0 Refill.source)
          Refill.world ∧
      (((SharedRing.storeFromQuietly 0 Refill.source).left Refill.world).rings.get
        0).observers.Nodup ∧
      (SharedRing.storeFrom Refill.owner 0 Refill.source).ends Refill.world fun answer w =>
        answer.toBool && (Refill.told Refill.world, Refill.told w) == (1, 2) := by
  obtain ⟨_, fills⟩ := readable_edge_law Refill.reached Refill.owner 0
  obtain ⟨law, once⟩ := fills Refill.source
  exact ⟨Refill.reached, by decide +kernel, law, once Refill.conduct_read (.gives false),
    by decide +kernel⟩

end ByteFlow
