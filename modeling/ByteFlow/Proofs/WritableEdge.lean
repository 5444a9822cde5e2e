/-
# The edge that makes a ring writable

A transfer out of a ring that was full, and has room afterwards, makes the ring writable. One would
expect that the observers are told of this once, and of nothing else, however the transfer ends.

That is so for every transfer that succeeds. A transfer can also make room and then fail: a full
ring usually wraps, so it is offered to the sink in two pieces, and the sink may take the first and
fail on the second. Nobody is told of such an edge, and since the ring is not full any more, no
later transfer will make up for it.
-/

import ByteFlow.Proofs.Tidiness
import ByteFlow.Transform.Codec

namespace ByteFlow

open Machine

variable {τ ω : Type} [Inhabited τ]

namespace SharedRing

/-- A transfer that leaves room where there was none. -/
def turnsWritable (before : Ring) (outflow : Outflow) : Bool :=
  before.free == 0 && 0 < outflow.ring.free

theorem turnsWritable_iff {before : Ring} {outflow : Outflow} :
    turnsWritable before outflow ↔ before.free = 0 ∧ 0 < outflow.ring.free := by
  unfold turnsWritable
  rw [Bool.and_eq_true_iff, beq_iff_eq, decide_eq_true_iff]

variable [Transform τ]

omit [Transform τ] in
/-- Writes at most `max` bytes into a sink, and tells nobody. -/
def writeToQuietly (id : RingId) (sink : Sink (Machine τ ω)) (max : Nat) :
    Machine τ ω Outflow := do
  let outflow ← (← getRing id).writeTo sink max
  setRing id outflow.ring
  record (.delivered id outflow.moved)
  return outflow

/-- Writes at most `max` bytes into a sink, and after that tells everybody who watches the ring by
now, if `tells` says so of the ring as it was and of the transfer. -/
def writeToTelling (tells : Ring → Outflow → Bool) (o : Owner τ ω) (id : RingId)
    (sink : Sink (Machine τ ω)) (max : Nat) : Machine τ ω (Except Error Nat) := do
  let before ← getRing id
  let outflow ← writeToQuietly id sink max
  let after ← getShared id
  if tells before outflow then
    record (.fired (.ring id) .writable)
    tellEach (Pipe.listenWritable o) o id .writable after.observers
  return outflow.result

variable {o : Owner τ ω} {id : RingId} {sink : Sink (Machine τ ω)} {max : Nat} {w w₁ : World τ ω}
  {outflow : Outflow} {tells tells' : Ring → Outflow → Bool}

/-- The world after a transfer, before anybody is told. -/
def settled (id : RingId) (outflow : Outflow) (w : World τ ω) : World τ ω :=
  { w with
    rings := w.rings.set id { w.rings.get id with ring := outflow.ring }
    journal := .delivered id outflow.moved :: w.journal }

theorem fireWritable_eq :
    fireWritable o id w =
      (do
        record (.fired (.ring id) .writable)
        tellEach (Pipe.listenWritable o) o id .writable (w.rings.get id).observers :
          Machine τ ω Unit) w := by
  change ((w.rings.get id).observers.forM _ : Machine τ ω PUnit) _ = _
  rw [forM_eq_tellEach (fun _ => rfl) fun _ => rfl]
  rfl

omit [Inhabited τ] [Transform τ] in
theorem writeToQuietly_of_ok (ran : (w.rings.get id).ring.writeTo sink max w = .ok outflow w₁) :
    writeToQuietly id sink max w = .ok outflow (settled id outflow w₁) :=
  bind_of_ok ran

theorem writeToTelling_of_error {halt : Halt}
    (ran : (w.rings.get id).ring.writeTo sink max w = .error halt w₁) :
    writeToTelling tells o id sink max w = .error halt w₁ := by
  have quiet : writeToQuietly id sink max w = .error halt w₁ := by
    change ((w.rings.get id).ring.writeTo sink max >>= fun _ => _) w = _
    exact bind_of_error ran
  change (writeToQuietly id sink max >>= fun _ => _) w = _
  exact bind_of_error quiet

theorem writeToTelling_of_ok (ran : (w.rings.get id).ring.writeTo sink max w = .ok outflow w₁) :
    writeToTelling tells o id sink max w =
      (do
        if tells (w.rings.get id).ring outflow then fireWritable o id
        return outflow.result : Machine τ ω (Except Error Nat)) (settled id outflow w₁) := by
  refine (bind_of_ok (writeToQuietly_of_ok ran)).trans ?_
  change (if tells (w.rings.get id).ring outflow then _ else _ : Machine τ ω (Except Error Nat))
    (settled id outflow w₁) = _
  by_cases told : tells (w.rings.get id).ring outflow
  · rw [if_pos told, if_pos told]
    change _ = EStateM.bind (fireWritable o id) _ (settled id outflow w₁)
    unfold EStateM.bind
    rw [fireWritable_eq]
    rfl
  · rw [if_neg told, if_neg told]

theorem writeTo_of_ok (ran : (w.rings.get id).ring.writeTo sink max w = .ok outflow w₁) :
    writeTo o id sink max w =
      (match outflow.result with
      | .error e => return .error e
      | .ok written => do
        if (w.rings.get id).ring.free = 0 ∧ 0 < written then fireWritable o id
        return .ok written : Machine τ ω (Except Error Nat)) (settled id outflow w₁) :=
  bind_of_ok ran

/-- When to tell matters only for the transfer that takes place. -/
theorem writeToTelling_congr
    (same : ∀ outflow w', (w.rings.get id).ring.writeTo sink max w = .ok outflow w' →
      tells (w.rings.get id).ring outflow = tells' (w.rings.get id).ring outflow) :
    writeToTelling tells o id sink max w = writeToTelling tells' o id sink max w := by
  cases ran : (w.rings.get id).ring.writeTo sink max w with
  | ok outflow w₁ =>
      rw [writeToTelling_of_ok ran, writeToTelling_of_ok ran, same outflow w₁ ran]
  | error halt w₁ => rw [writeToTelling_of_error ran, writeToTelling_of_error ran]

/-- Observers are told when there is room where there was none and the transfer has succeeded. -/
theorem writeTo_eq_telling (valid : (w.rings.get id).ring.Valid) :
    writeTo o id sink max w =
      writeToTelling (fun before outflow => turnsWritable before outflow && outflow.result.toBool)
        o id sink max w := by
  cases ran : (w.rings.get id).ring.writeTo sink max w with
  | error halt w₁ => exact (bind_of_error ran).trans (writeToTelling_of_error ran).symm
  | ok outflow w₁ =>
      rw [writeTo_of_ok ran, writeToTelling_of_ok ran]
      have offers (offered : Bytes) : Ensures (fun _ : World τ ω => True) (sink.write offered)
          fun answer _ => True ∧ (fun _ _ => True) offered answer :=
        fun _ _ _ _ _ => ⟨trivial, trivial⟩
      obtain ⟨_, pours⟩ := Ring.ensures_writeTo offers valid max trivial ran
      cases answered : outflow.result with
      | error e =>
          dsimp only
          rw [show (Except.error e : Except Error Nat).toBool = false from rfl, Bool.and_false]
          rfl
      | ok written =>
          have room : ((w.rings.get id).ring.free = 0 ∧ 0 < written) ↔
              turnsWritable (w.rings.get id).ring outflow := by
            rw [turnsWritable_iff, pours.drains.free_eq valid, ← pours.counted written answered]
            omega
          dsimp only
          rw [show (Except.ok written : Except Error Nat).toBool = true from rfl, Bool.and_true]
          simp only [room]

/-! ## What goes on record -/

/-- More than `n` events are on record. -/
def Recorded (n : Nat) (w : World τ ω) : Prop := n < w.journal.length

omit [Inhabited τ] [Transform τ] in
theorem keeps_record_recorded {n : Nat} (event : Event) :
    Keeps (Recorded (τ := τ) (ω := ω) n) (record event) :=
  ensures_record fun _ => Nat.lt_succ_of_lt

omit [Transform τ] in
theorem steady_recorded {n : Nat} : Steady (Recorded (τ := τ) (ω := ω) n) where
  log _ := keeps_record_recorded _
  announce _ _ _ := keeps_record_recorded _
  count _ _ := ensures_modifyPipe fun _ => id
  retire _ := (closed_keeps _).retire fun _ => ensures_modifyShared fun _ => id

/-- If no handler takes anything off the record, no run does. -/
theorem blind_recorded {n : Nat}
    (reacts : ∀ handler edge, Keeps (Recorded (τ := τ) (ω := ω) n) (o.react handler edge))
    (q : PipeId) : Blind o q (Recorded n) where
  toSteady := steady_recorded
  own event _ := keeps_record_recorded event
  advanced pipe := by
    refine ensures_recordAll fun w h => ?_
    change n < (_ ++ w.journal).length
    rw [List.length_append]
    exact Nat.lt_of_lt_of_le h (Nat.le_add_left _ _)
  pipe _ _ := id
  attach r := ensures_modifyShared fun _ => id
  detach r := ensures_modifyShared fun _ => id
  store r data :=
    ensures_store (fun _ => id) fun _ => steady_recorded.hosts.fireReadable reacts r
  reacts := reacts

/-- To tell of an edge leaves a trace. -/
theorem ensures_fireWritable_recorded
    (reacts : ∀ n handler edge, Keeps (Recorded (τ := τ) (ω := ω) n) (o.react handler edge))
    (id : RingId) :
    Ensures (· = w) (fireWritable o id) fun _ => Recorded w.journal.length := by
  have fired : Recorded w.journal.length
      { w with journal := .fired (.ring id) .writable :: w.journal } := Nat.lt_succ_self _
  refine .at_record (.here fired ?_)
  apply Keeps.bind (keeps_getShared id)
  intro shared
  apply keeps_forM
  intro observer _
  exact steady_recorded.hosts.tellWritable (reacts _)
    fun q _ => (blind_recorded (reacts _) q).keeps_run

omit [Transform τ] in
/-- A transfer that tells nobody leaves the rings tidy, so nobody is told twice. -/
theorem tidy_writeToQuietly (writes : ∀ offered, Preserves World.Tidy (sink.write offered)) :
    Preserves World.Tidy (writeToQuietly id sink max) := by
  refine .pointwise fun w h => .at_getRing ?_
  refine Upholds.bind (.here h (upholds_writeTo writes _ max)) fun outflow => ?_
  refine .pointwise fun w₁ ⟨h₁, drains⟩ => ?_
  have drained := (drains (h id).valid).valid
  refine Upholds.bind (.here h₁ (World.Tidy.tends.setRing id drained)) fun _ => ?_
  exact (World.Tidy.record _).bind fun _ => preserves_pure _

end SharedRing

/-- Writing out of a ring does what it would do if it told nobody, and then tells the observers of
an edge, once, exactly if there was no room before, there is room afterwards and the transfer has
succeeded. So it does what one would expect, which is to tell of an edge however the transfer ends,
exactly if the transfer does not fail after it has made room. At the moment at which they are told
nobody is registered twice.

Nothing is asked of the sink in the first two parts; of the handlers, for the second part, that they
leave on record what is there. The third is about worlds that programs leave, and sinks that are
programs. -/
theorem writable_edge_law [Transform τ] {o : Owner τ ω} {id : RingId} {w : World τ ω}
    (valid : (w.rings.get id).ring.Valid) (sink : Sink (Machine τ ω)) (max : Nat) :
    SharedRing.writeTo o id sink max w =
        SharedRing.writeToTelling
          (fun before outflow => SharedRing.turnsWritable before outflow && outflow.result.toBool)
          o id sink max w ∧
      ((∀ n handler edge, Keeps (SharedRing.Recorded n) (o.react handler edge)) →
        (SharedRing.writeTo o id sink max w =
            SharedRing.writeToTelling SharedRing.turnsWritable o id sink max w ↔
          ∀ outflow w', (w.rings.get id).ring.writeTo sink max w = .ok outflow w' →
            SharedRing.turnsWritable (w.rings.get id).ring outflow →
            outflow.result.toBool)) ∧
      (w.Reached → (∀ offered, Conduct .housekeeping (sink.write offered)) →
        (((SharedRing.writeToQuietly id sink max).left w).rings.get id).observers.Nodup) := by
  have law : SharedRing.writeTo o id sink max w = _ := SharedRing.writeTo_eq_telling valid
  refine ⟨law, fun reacts => ⟨fun expected outflow w₁ ran turned => ?_, fun succeeds => ?_⟩,
    fun reached writes => ?_⟩
  · cases succeeded : outflow.result.toBool with
    | true => rfl
    | false =>
        rw [law, SharedRing.writeToTelling_of_ok ran, SharedRing.writeToTelling_of_ok ran, turned,
          succeeded] at expected
        obtain ⟨_, after, told, ended⟩ := bind_eq_ok.1 expected.symm
        have more := SharedRing.ensures_fireWritable_recorded reacts id rfl told
        cases ended
        exact (Nat.lt_irrefl _ more).elim
  · rw [law]
    apply SharedRing.writeToTelling_congr
    intro outflow w' ran
    by_cases turned : SharedRing.turnsWritable (w.rings.get id).ring outflow
    · rw [turned, succeeds outflow w' ran turned]
      rfl
    · rw [Bool.eq_false_iff.2 turned]
      rfl
  · have transfers : Preserves World.Tidy (SharedRing.writeToQuietly id sink max) :=
      SharedRing.tidy_writeToQuietly fun offered => World.Tidy.preserves_conduct (writes offered)
    exact (preserves_iff.1 transfers w reached.tidy id).nodup

namespace Snag

/-- A full ring that wraps: its content is in two pieces, `[1, 2]` and `[3, 4]`. -/
def ring : Ring := (((Ring.empty 4 .heap).store [0, 0, 1, 2]).1.discard 2).store [3, 4] |>.1

/-- A world with that ring, which a handler watches. -/
def world : World Codec Unit := ⟨⟨[⟨ring, [.handler 0]⟩]⟩, .empty, [], ()⟩

/-- An owner whose handlers make no calls. -/
def owner : Owner Codec Unit := ⟨fun _ _ => pure (), 8⟩

/-- A sink that takes the first piece and fails on the second. -/
def sink : Sink (Machine Codec Unit) where
  write offered := pure (if offered = [1, 2] then .ok 2 else .error .underflow)

end Snag

/-- The first of two pieces leaves a full ring, and the handler that waits for room is not told. -/
theorem writable_edge_law_snag :
    (Snag.world.rings.get 0).ring.Valid ∧
      SharedRing.writeTo Snag.owner 0 Snag.sink 4 Snag.world ≠
        SharedRing.writeToTelling SharedRing.turnsWritable Snag.owner 0 Snag.sink 4 Snag.world := by
  have stored := (Ring.valid_empty 4 .heap).store [0, 0, 1, 2]
  have valid : (Snag.world.rings.get 0).ring.Valid := (stored.discard (by decide)).store [3, 4]
  have quiet (n : Nat) (handler : HandlerId) (edge : Edge) :
      Keeps (SharedRing.Recorded n) (Snag.owner.react handler edge) := keeps_pure _
  refine ⟨valid, fun expected => ?_⟩
  have succeeds := ((writable_edge_law valid Snag.sink 4).2.1 quiet).1 expected
  have snag : ((Snag.world.rings.get 0).ring.writeTo Snag.sink 4 : Machine Codec Unit Outflow).ends
      Snag.world fun outflow _ =>
        SharedRing.turnsWritable (Snag.world.rings.get 0).ring outflow &&
          !outflow.result.toBool := by
    decide +kernel
  obtain ⟨outflow, w', ran, passed⟩ := ends_iff.1 snag
  obtain ⟨turned, failed⟩ := Bool.and_eq_true_iff.1 passed
  rw [succeeds outflow w' ran turned] at failed
  cases failed

end ByteFlow
