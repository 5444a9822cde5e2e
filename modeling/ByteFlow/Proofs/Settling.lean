/-
# A run settles what is owed

A run only ends when neither draining nor transforming does anything, and every way in which
draining can come to do nothing leaves an empty queue or a full destination: nothing is taken only
by a ring without room, and a destination that was switched in the meantime was switched by a
handler, after something had been moved. So a pipe that was owed a run is at rest after it.

The phases of `ByteFlow.Proofs.Attention` are followed here through the runs of the pipe itself.
-/

import ByteFlow.Proofs.Attention

namespace ByteFlow

open Machine

variable {τ ω : Type}

/-- A run is in progress that has looked at the queue and the destination; if it was `idle`, it left
nothing waiting beside free space. -/
def Looked (idle : Prop) (pipe : Pipe τ) (destination : Ring) : Prop :=
  pipe.operating = true ∧ (idle → Spent pipe destination)

variable [Inhabited τ]

namespace Attended

variable {p : PipeId} {R : RingId → Prop} {size : Nat} {phase : Phase} {w w' : World τ ω}

section Reacting

variable {o : Owner τ ω}
  (reacts : ∀ phase handler edge,
    Keeps (Attended p R size (Phase.Holds phase) : World τ ω → Prop) (o.react handler edge))

/-! ## Draining -/

/-- A ring that has room takes something of what it is offered. -/
theorem ensures_store {d : RingId} {data : Bytes} (some : data ≠ []) :
    Ensures (fun w : World τ ω =>
        (w.rings.get d).ring.cleaned = false ∧ (w.rings.get d).ring.free ≠ 0)
      (SharedRing.store o d data) fun answer _ => ∃ count, answer = .ok count ∧ 0 < count := by
  refine Machine.ensures_store (fun w ⟨intact, room⟩ => ?_) fun answer => keeps_fact
  refine ⟨min data.length (w.rings.get d).ring.free, ?_, ?_⟩
  · rw [Ring.store, if_neg (Bool.eq_false_iff.1 intact)]
  · exact Nat.lt_min.2 ⟨List.length_pos_iff.2 some, Nat.pos_of_ne_zero room⟩

include reacts

/-- Something of the head segment goes into a destination that has room. -/
theorem ensures_writeTo_segment {segment : Ring} (valid : segment.Valid) (held : segment.used ≠ 0)
    (piece : segment.isContiguous ∧ segment.cleaned = false) (d : RingId) {room : Nat}
    (wanted : 0 < room) :
    Ensures
      (fun w => Attended p R size Phase.running.Holds w ∧
        (w.rings.get d).ring.cleaned = false ∧ (w.rings.get d).ring.free ≠ 0)
      (segment.writeTo (SharedRing.sink o d) room)
      fun outflow w => Attended p R size Phase.running.Holds w ∧
        (∃ count, outflow.result = .ok count ∧ 0 < count) ∧ outflow.ring.Valid ∧
          outflow.ring.isContiguous ∧ outflow.ring.cleaned = false := by
  have some : segment.toList.take room ≠ [] := by
    intro none
    rcases List.take_eq_nil_iff.1 none with zero | nothing
    · exact Nat.ne_of_gt wanted zero
    · exact held (beq_iff_eq.1 ((Ring.toList_eq_nil_iff valid).1 nothing))
  rw [Ring.writeTo_of_isContiguous valid piece.2 piece.1 held wanted, map_eq_pure_bind]
  have kept : Keeps (Attended p R size Phase.running.Holds)
      (SharedRing.store o d (segment.toList.take room)) := keeps_store reacts d _
  refine (Ensures.and kept (ensures_store some)).bind fun answer => ?_
  refine ensures_pure fun w ⟨h, count, answered, counted⟩ => ⟨h, ?_, ?_⟩
  · rw [answered]
    refine ⟨((segment.toList.take room).take count).length, rfl, List.length_pos_iff.2 ?_⟩
    intro none
    rcases List.take_eq_nil_iff.1 none with zero | nothing
    · exact Nat.ne_of_gt counted zero
    · exact some nothing
  · have content := (List.take_append_drop room segment.toList).symm
    have drains := (Ring.drains_afterOffer valid content answer).1
    exact ⟨drains.valid, Ring.isContiguous_afterOffer valid piece.1 content answer,
      drains.cleaned.trans piece.2⟩

/-- Draining that moves nothing has found the queue empty or the destination full. It cannot have
found another destination, for nobody had a chance to switch it. -/
theorem ensures_drainInto (d : RingId) (passes count : Nat) :
    Ensures
      (Attended p R size fun pipe _ => pipe.operating = true ∧ (count = 0 → pipe.destination = d))
      (Pipe.drainInto o p d passes count) fun answer w =>
        match answer with
        | .ok (.moved moved) => Attended p R size (Looked (moved = 0)) w
        | _ => False := by
  induction passes generalizing count with
  | zero => exact ensures_throw _
  | succ passes ih =>
      unfold Pipe.drainInto
      refine .pointwise fun w ⟨inUse, served, operating, first⟩ => .at_getPipe (.at_getRing ?_)
      dsimp only
      split
      · rename_i stops
        apply ensures_pure
        rintro _ rfl
        refine ⟨inUse, served, operating, fun none => .inr ?_⟩
        rw [first none]
        exact stops.resolve_right fun elsewhere => elsewhere (first none)
      · rename_i goes_on
        obtain ⟨room, current⟩ := not_or.1 goes_on
        have current := Decidable.not_not.1 current
        split
        · rename_i popped
          apply ensures_pure
          rintro _ rfl
          refine ⟨inUse, served, operating, fun _ => .inl ?_⟩
          exact Queue.isEmpty_iff_segments_eq_nil.2 (Queue.popFront_eq_none_iff.1 popped)
        · rename_i segment rest popped
          obtain ⟨⟨valid, held⟩, piece, rest_sound⟩ := served.queue.popFront popped
          have taken_out : Attended p R size Phase.running.Holds
              { w with pipes := w.pipes.set p { w.pipes.get p with queue := rest } } :=
            set_pipe (served.update rfl rfl ⟨served.source, served.intact⟩ rest_sound) operating
          have intact : (w.rings.get d).ring.cleaned = false :=
            (served.ring d (current ▸ served.inRange)).2
          have wrote := ensures_writeTo_segment reacts valid held piece d (Nat.pos_of_ne_zero room)
          refine .at_modifyPipe (Ensures.bind (.here ⟨taken_out, intact, room⟩ wrote) ?_)
          intro outflow
          refine .pointwise fun w ⟨⟨inUse, served, operating⟩, took, left⟩ => .at_getPipe ?_
          rw [if_neg (Bool.eq_false_iff.1 served.intact)]
          have put_back : Attended p R size Phase.running.Holds { w with
              pipes := w.pipes.set p { w.pipes.get p with
                queue := (w.pipes.get p).queue.pushFront outflow.ring } } :=
            set_pipe (served.update rfl rfl ⟨served.source, served.intact⟩
              (served.queue.pushFront left.1 left.2)) operating
          refine .at_modifyPipe (.here put_back ?_)
          obtain ⟨written, took, counted⟩ := took
          have onward : Ensures (Attended p R size Phase.running.Holds)
              (if written = 0 then pure (.ok (.moved count))
                else Pipe.drainInto o p d passes (count + written)) fun answer w =>
              match answer with
              | .ok (.moved moved) => Attended p R size (Looked (moved = 0)) w
              | _ => False := by
            rw [if_neg (Nat.ne_of_gt counted)]
            refine (ih (count + written)).pre_imp fun w ⟨inUse, served, operating⟩ => ?_
            refine ⟨inUse, served, operating, fun none => ?_⟩
            exact (Nat.ne_of_gt (Nat.add_pos_right count counted) none).elim
          rw [took]
          dsimp only
          split
          · have pending : Keeps (Attended (τ := τ) (ω := ω) p R size Phase.running.Holds)
                (modifyPipe p fun pipe => { pipe with pendingWritable := true }) :=
              ensures_modifyPipe fun w h => h.of_same ⟨_, _, _, _, _, rfl⟩
            exact Ensures.bind pending fun _ => onward
          · exact onward

theorem ensures_drain :
    Ensures (Attended p R size Phase.running.Holds) (Pipe.drain o p) fun answer w =>
      match answer with
      | .ok moved => Attended p R size (Looked (moved = false)) w
      | .error _ => False := by
  refine .pointwise fun w ⟨inUse, served, operating⟩ => .at_getPipe ?_
  have drained := ensures_drainInto reacts (w.pipes.get p).destination o.passes 0
  refine Ensures.bind (.here ⟨inUse, served, operating, fun _ => rfl⟩ drained) fun answer => ?_
  rcases answer with e | cleaned | count
  · exact fun _ _ _ impossible => impossible.elim
  · exact fun _ _ _ impossible => impossible.elim
  · have found (w : World τ ω) (h : Attended p R size (Looked (count = 0)) w) :
        Attended p R size (Looked (decide (0 < count) = false)) w := by
      refine ⟨h.1, h.2.1, h.2.2.1, fun none => h.2.2.2 ?_⟩
      exact Nat.eq_zero_of_not_pos (of_decide_eq_false none)
    dsimp only
    split
    · exact Ensures.bind (ensures_record fun _ => id) fun _ => ensures_pure found
    · exact ensures_pure found

variable [Transform τ] [Transform.Proper τ]

/-! ## Runs -/

omit reacts in
/-- A call of the transform that makes no progress leaves the queue alone, and one that fails ends
the stream. -/
theorem ensures_transformOnce {idle : Prop} :
    Ensures (Attended (τ := τ) (ω := ω) p R size (Looked idle)) (Pipe.transformOnce p)
      fun answer w => match answer with
      | .ok progress => Attended p R size (Looked (idle ∧ progress = false)) w
      | .error e => e.kind.isTerminal ∧ Attended p R size Phase.running.Holds w := by
  refine .pointwise fun w ⟨inUse, served, operating, spent⟩ => ?_
  refine Pipe.ensures_transformOnce served.source served.queue ?_
    ⟨inUse, served, operating, fun ⟨idle, _⟩ => spent idle⟩
  intro outcome used pushed advances done
  obtain ⟨source, transform, queue, scratch, pending, same⟩ := advances.same
  have served' : Served p R size ((w.pipes.get p).advance p).pipe w.rings := by
    refine served.update ?_ ?_ ⟨advances.valid, advances.cleaned.trans served.intact⟩
      advances.sound
    · rw [same]
    · rw [same]
  have operating' : ((w.pipes.get p).advance p).pipe.operating = true := by
    rw [same]
    exact operating
  let recorded := { w with journal := ((w.pipes.get p).advance p).events ++ w.journal }
  cases outcome with
  | error e => exact ⟨advances.terminal e done, set_pipe (w := recorded) served' operating'⟩
  | ok progress =>
      refine set_pipe (w := recorded) served' ⟨operating', fun ⟨idle, still⟩ => ?_⟩
      rw [still] at done
      have waiting := advances.idle done
      have before := spent idle
      unfold Spent at before ⊢
      rw [waiting, same]
      exact before

/-- A run that comes to its end by itself has left nothing waiting beside free space. -/
theorem ensures_settle (passes : Nat) :
    Ensures (Attended p R size Phase.running.Holds) (Pipe.settle o p passes) fun answer w =>
      match answer with
      | .ok () => Attended p R size (Looked True) w
      | .error e => e.kind.isTerminal ∧ Attended p R size Phase.running.Holds w := by
  induction passes with
  | zero => exact ensures_throw _
  | succ passes ih =>
      have asked : Ensures (Attended (τ := τ) (ω := ω) p R size Phase.running.Holds)
          (Pipe.isSettled p) fun settled => Attended p R size (Looked (settled = true)) := by
        refine .pointwise fun w ⟨inUse, served, operating⟩ => .at_getPipe (.at_getRing ?_)
        apply ensures_pure
        rintro _ rfl
        refine ⟨inUse, served, operating, fun settled => ?_⟩
        exact (Bool.or_eq_true_iff.1 (Bool.and_eq_true_iff.1 settled).1).imp_right beq_iff_eq.1
      have running {idle : Prop} (w : World τ ω) (h : Attended p R size (Looked idle) w) :
          Attended p R size Phase.running.Holds w := ⟨h.1, h.2.1, h.2.2.1⟩
      refine asked.bind fun settled => ?_
      split
      · rename_i yes
        exact ensures_pure fun w h => ⟨h.1, h.2.1, h.2.2.1, fun _ => h.2.2.2 yes⟩
      · refine Ensures.bind ((ensures_drain reacts).pre_imp running) fun drained => ?_
        cases drained with
        | error e => exact fun _ _ _ impossible => impossible.elim
        | ok drained =>
            refine Ensures.bind ensures_transformOnce fun transformed => ?_
            cases transformed with
            | error e => exact ensures_pure fun _ => id
            | ok transformed =>
                dsimp only
                split
                · exact ih.pre_imp running
                · rename_i idle
                  obtain ⟨none, still⟩ := Bool.or_eq_false_iff.1 (Bool.eq_false_iff.2 idle)
                  exact ensures_pure fun w h =>
                    ⟨h.1, h.2.1, h.2.2.1, fun _ => h.2.2.2 ⟨none, still⟩⟩

omit [Transform τ] [Transform.Proper τ] in
/-- A run that ends with a terminal error has failed for good. -/
theorem ensures_fail {e : Error} (terminal : e.kind.isTerminal) :
    Ensures (Attended p R size Phase.running.Holds) (Pipe.fail o p e) fun _ =>
      Attended p R size Phase.failing.Holds := by
  refine Ensures.bind (keeps_getPipe p) fun pipe => ?_
  rw [if_pos terminal]
  refine Ensures.bind (steady.log _) fun _ => ?_
  have failed : Ensures (Attended (τ := τ) (ω := ω) p R size Phase.running.Holds)
      (modifyPipe p fun pipe => { pipe with failure := some e.kind }) fun _ =>
        Attended p R size Phase.failing.Holds :=
    ensures_modifyPipe fun w ⟨_, served, operating⟩ =>
      set_pipe (served.update rfl rfl ⟨served.source, served.intact⟩ served.queue)
        ⟨operating, Option.some_ne_none _⟩
  exact failed.bind fun _ => steady.hosts.emit (reacts .failing) (fun _ _ => keeps_record _)

/-- What a run leaves behind while it still operates: nothing waiting beside free space, unless the
pipe has failed. -/
theorem ensures_operate :
    Ensures (Attended p R size Phase.running.Holds) (Pipe.operate o p) fun _ => Attended p R size
      fun pipe ring => pipe.operating = true ∧ (pipe.failure = none → Spent pipe ring) := by
  have failed (w : World τ ω) (h : Attended p R size Phase.failing.Holds w) : Attended p R size
      (fun pipe ring => pipe.operating = true ∧ (pipe.failure = none → Spent pipe ring)) w :=
    ⟨h.1, h.2.1, h.2.2.1, fun none => (h.2.2.2 none).elim⟩
  refine .pointwise fun w h => .at_getPipe ?_
  split
  · refine Ensures.bind (.here h (ensures_settle reacts o.passes)) fun settled => ?_
    cases settled with
    | error e =>
        refine .assuming (fun _ => And.left) fun terminal => ?_
        exact ((ensures_fail reacts terminal).pre_imp fun _ => And.right).post_imp fun _ => failed
    | ok => exact ensures_pure fun w h => ⟨h.1, h.2.1, h.2.2.1, fun _ => h.2.2.2 trivial⟩
  · rename_i before
    apply ensures_pure
    rintro _ rfl
    refine failed _ ⟨h.1, h.2.1, h.2.2, fun none => before ?_⟩
    rw [none]
    rfl

omit reacts [Transform τ] [Transform.Proper τ] in
theorem ensures_release :
    Ensures (Attended (τ := τ) (ω := ω) p R size
        fun pipe ring => pipe.operating = true ∧ (pipe.failure = none → Spent pipe ring))
      (Pipe.release p) fun _ => Attended p R size Phase.resting.Holds := by
  refine .pointwise fun w ⟨_, served, _, spent⟩ => .at_getPipe ?_
  have rested : Attended p R size Phase.resting.Holds { w with
      pipes := w.pipes.set p
        { w.pipes.get p with operating := false, pendingWritable := false } } :=
    set_pipe (served.update rfl rfl ⟨served.source, served.intact⟩ served.queue) ⟨rfl, spent⟩
  have recorded (event : Event) :
      Keeps (Attended (τ := τ) (ω := ω) p R size Phase.resting.Holds) (record event) :=
    keeps_record event
  exact .at_modifyPipe (.here rested ((recorded _).bind fun _ => keeps_pure _))

/-- A run that is owed puts the pipe to rest. -/
theorem ensures_run_due :
    Ensures (Attended p R size Phase.due.Holds) (Pipe.run o p) fun _ =>
      Attended p R size Phase.resting.Holds := by
  refine steady.ensures_during (fun _ => steady) (.pointwise fun w h => .at_getPipe ?_) p
  rw [if_neg (Bool.eq_false_iff.1 h.2.2)]
  have begun : Attended p R size Phase.running.Holds
      { w with pipes := w.pipes.set p { w.pipes.get p with operating := true } } :=
    set_pipe (h.2.1.update rfl rfl ⟨h.2.1.source, h.2.1.intact⟩ h.2.1.queue) rfl
  have started : Keeps (Attended (τ := τ) (ω := ω) p R size Phase.running.Holds)
      (record (.started p)) := keeps_record _
  refine .at_modifyPipe (.here begun (Ensures.bind started fun _ => ?_))
  refine Ensures.bind (ensures_operate reacts).onHalt fun _ => ?_
  refine ensures_release.bind fun made_room => ?_
  split
  · exact steady.hosts.emit (reacts .resting) fun _ _ => keeps_record _
  · exact keeps_pure _

/-- A run settles what is owed. One that is started while another is in progress does nothing, and
owes nothing either. -/
theorem ensures_run (phase : Phase) :
    Ensures (Attended p R size phase.owed.Holds) (Pipe.run o p) fun _ =>
      Attended p R size phase.Holds := by
  have busy {phase : Phase} (operates : ∀ (pipe : Pipe τ) ring, phase.Holds pipe ring →
      pipe.operating = true) : Keeps (Attended p R size phase.Holds) (Pipe.run o p) := by
    refine steady.keeps_during (.pointwise fun w h => .at_getPipe ?_) p
    rw [if_pos (operates _ _ h.2.2)]
    exact .here h (steady.log _)
  cases phase with
  | running => exact busy fun _ _ => id
  | failing => exact busy fun _ _ => And.left
  | due => exact (ensures_run_due reacts).post_imp fun _ w h => ⟨h.1, h.2.1, h.2.2.1⟩
  | resting => exact ensures_run_due reacts

/-- A run keeps the phase, of this pipe or of any other. -/
theorem keeps_run (q : PipeId) : Keeps (Attended p R size phase.Holds) (Pipe.run o q) := by
  by_cases own : q = p
  · rw [own]
    exact (ensures_run reacts phase).pre_imp fun w h => ⟨h.1, h.2.1, h.2.2.owed _⟩
  · exact (blind reacts own).keeps_run

end Reacting

end Attended

end ByteFlow
