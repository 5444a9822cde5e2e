/-
# A consumer that comes back

A handler that is told that a pipe has turned readable may empty the destination at once, while the
run that filled it is still in progress. To empty a full destination makes it writable, and starts a
run of its own, which finds the pipe operating and leaves everything to the outer one.

In such company the destination is empty whenever a run goes on, so that it does not stop a run any
more. What ends a run is that the source loses weight, and that one call of the transform cannot
push more than a certain number of bytes for each byte it is given.
-/

import ByteFlow.Proofs.Copying
import ByteFlow.Proofs.RoundTrip

namespace ByteFlow

open Machine

variable {τ ω σ : Type}

/-- What the owner has collected. -/
def Collected (bytes : Bytes) (state : Bytes × σ) : Prop := state.1 = bytes

/-- A sink that appends to what the owner has collected. -/
def Sink.collector : Sink (Machine τ (Bytes × σ)) where
  write offered := modifyGet fun w =>
    (.ok offered.length, { w with owner := (w.owner.1 ++ offered, w.owner.2) })

/-- From here on what was collected is seen, behind what had been collected before. -/
def World.collecting (w : World τ (Bytes × σ)) (first : Bytes) : Scene τ (Bytes × σ) :=
  ⟨w, fun gave => Collected (first ++ gave)⟩

variable [Inhabited τ]

theorem discreet_collector (offered : Bytes) :
    Discreet (Sink.collector.write offered : Machine τ (Bytes × σ) (Except Error Nat)) :=
  fun _ _ same => ⟨same.pipes, same.rings, same.ledgers⟩

/-- What was collected before stays in front. -/
theorem Machine.DiscreetTo.behind {α : Type} {m : Machine τ (Bytes × σ) α}
    (discreet : DiscreetTo Collected m) (first : Bytes) :
    DiscreetTo (fun gave => Collected (first ++ gave)) m := by
  intro before
  refine .pointwise fun w same => ?_
  refine (Upholds.here (World.SameTo.refl _ w) (discreet w)).of_imp (fun _ => id) ?_
  exact fun _ w' after => ⟨same.toSame.trans after.toSame, fun was => after.seen (same.seen was)⟩

variable [Transform τ]

/-- The handler empties the ring when it is told that it has turned readable. On other edges it does
nothing that can be seen. -/
structure Owner.Consumes (o : Owner τ (Bytes × σ)) (handler : HandlerId) (d : RingId)
    (size : Nat) : Prop where
  readable : ∃ inner max, size ≤ max ∧ o.react handler .readable = do
    let _ ← SharedRing.writeTo inner d .collector max
  others : ∀ edge, edge ≠ .readable → DiscreetTo Collected (o.react handler edge)

omit [Transform τ] in
/-- The handlers of a pipe are told. -/
theorem Stands.at_emit {p : PipeId} {d : RingId} {before : Scene τ ω} {pipe : Pipe τ} {ring : Ring}
    {ledger : Ledger} {o : Owner τ ω} {handlers : List HandlerId} (told : pipe.handlers = handlers)
    {edge : Edge} {post : Unit → World τ ω → Prop}
    (h : Secures (Stands p d before pipe ring ledger) (handlers.forM (tell o (.pipe p) edge))
      post) :
    Secures (Stands p d before pipe ring ledger) (Pipe.emit o p edge) post := by
  refine Stands.at_discreet (discreetTo_note trivial) fun _ => Stands.at_getPipe ?_
  rw [told]
  exact h

namespace Course

variable {c : Course τ} {o inner : Owner τ (Bytes × σ)} {p : PipeId} {handler : HandlerId}
  {start : World τ (Bytes × σ)} {first : Bytes} {pipe : Pipe τ} {ring : Ring} {ledger : Ledger}

/-! ## Emptying the destination -/

omit [Transform τ] in
/-- What is in a ring is collected. -/
theorem secures_writeTo_collector {d : RingId} (usable : ring.Valid ∧ ring.cleaned = false)
    {max : Nat} (le : ring.used ≤ max) :
    Secures (Stands p d (start.collecting first) pipe ring ledger)
      (ring.writeTo .collector max) fun outflow w =>
        outflow.result = .ok ring.used ∧ outflow.moved = ring.toList ∧
          ring.Drains ring.toList outflow.ring ∧
          Stands p d ⟨start, fun _ => Collected (first ++ (ledger.accepted ++ ring.toList))⟩ pipe
            ring ledger w := by
  have discreet : Discreet (ring.writeTo (Sink.collector : Sink (Machine τ (Bytes × σ))) max) :=
    Ring.closed_writeTo closed_discreet discreet_collector _ _
  have writes (taken offered : Bytes) :
      Ensures (fun w => Collected (first ++ ledger.accepted ++ taken) w.owner)
        (Sink.collector.write offered : Machine τ (Bytes × σ) (Except Error Nat)) fun answer w =>
          Collected (first ++ ledger.accepted ++ (taken ++ offered.take (Ring.countOf answer)))
            w.owner ∧ answer = .ok offered.length := by
    rintro w _ _ before ⟨⟩
    refine ⟨?_, rfl⟩
    change w.owner.1 ++ offered = _
    rw [Ring.countOf, List.take_length, ← List.append_assoc, ← before]
  have pours := Ring.tracks_writeTo writes usable.1 max
  have begins (w : World τ (Bytes × σ))
      (stands : Stands p d (start.collecting first) pipe ring ledger w) :
      Stands p d start.scene pipe ring ledger w ∧
        Collected (first ++ ledger.accepted ++ []) w.owner := by
    refine ⟨stands.see fun _ => trivial, ?_⟩
    have seen := stands.seen
    rw [stands.ledger] at seen
    rw [List.append_nil]
    exact seen
  have calm : Secures (Stands p d (start.collecting first) pipe ring ledger)
      (ring.writeTo .collector max) fun _ => Stands p d start.scene pipe ring ledger :=
    (Stands.of_discreet (discreetTo_true.2 discreet)).of_imp
      (fun w stands => (begins w stands).1) fun _ _ => id
  refine (calm.and_ensures (pours.pre_imp fun w stands => (begins w stands).2)).of_imp
    (fun _ => id) ?_
  rintro outflow w ⟨stands, collected, pours⟩
  have drains := pours.drains
  have all : outflow.moved.length = ring.used := by
    rcases pours.far usable.2 with all | ⟨offered, _, rfl, short⟩
    · rw [all, Nat.min_eq_right le]
    · exact (Nat.lt_irrefl _ short).elim
  have nothing : outflow.ring.toList = [] := by
    have total := congrArg List.length drains.content
    rw [List.length_append, usable.1.length_toList] at total
    apply List.length_eq_zero_iff.1
    omega
  have whole : outflow.moved = ring.toList := by
    rw [drains.content, nothing, List.append_nil]
  rw [whole] at drains collected
  refine ⟨?_, whole, drains, stands.see fun _ => ?_⟩
  · cases result : outflow.result with
    | error e =>
        rcases pours.failed e result with closed | ⟨_, impossible⟩
        · rw [usable.2] at closed
          cases closed
        · cases impossible
    | ok count => rw [pours.counted count result, all]
  · rw [← List.append_assoc]
    exact collected

/-- While the pipe operates, nothing comes of telling it that its destination is writable. -/
theorem secures_fireWritable_operating {before : Scene τ (Bytes × σ)}
    (works : c.Works pipe ring ledger)
    (alone : (before.world.rings.get c.destination).observers = [.listener p]) :
    Secures (Stands p c.destination before pipe ring ledger)
      (SharedRing.fireWritable inner c.destination)
      fun _ => Stands p c.destination before pipe ring ledger := by
  have run : Secures (Stands p c.destination before pipe ring ledger) (Pipe.run inner p)
      fun _ => Stands p c.destination before pipe ring ledger := by
    have busy : Secures (Stands p c.destination before pipe ring ledger) (Pipe.run inner p)
        fun _ w => ∃ ring' ledger', (ring' = ring ∧ ledger' = ledger) ∧
          Stands p c.destination before pipe ring' ledger' w := by
      refine Stands.during works.alive (Q := fun _ ring' ledger' => ring' = ring ∧ ledger' = ledger)
        (Stands.at_getPipe ?_)
      dsimp only
      rw [works.operating, if_pos rfl]
      refine (Stands.of_discreet ((hosts_discreetTo _).log _)).of_imp (fun _ => id) ?_
      exact fun _ w stands => ⟨ring, ledger, ⟨rfl, rfl⟩, stands⟩
    refine busy.of_imp (fun _ => id) ?_
    rintro _ w ⟨_, _, ⟨rfl, rfl⟩, stands⟩
    exact stands
  have alive : pipe.isAlive = true := by
    rw [Pipe.isAlive, works.alive, Bool.true_or]
  refine Stands.at_discreet (discreetTo_note trivial) fun _ => Stands.at_getShared ?_
  dsimp only
  rw [alone]
  refine Upholds.bind (Stands.at_getPipe ?_) fun _ => upholds_pure fun _ => id
  rw [alive, if_pos rfl]
  exact run

/-- The handler empties the destination while the run goes on. -/
theorem secures_consume (works : c.Works pipe ring ledger)
    (alone : (start.rings.get c.destination).observers = [.listener p]) {max : Nat}
    (le : ring.used ≤ max) :
    Secures (Stands p c.destination (start.collecting first) pipe ring ledger)
      (do let _ ← SharedRing.writeTo inner c.destination .collector max)
      fun _ w => ∃ ring', ring.Drains ring.toList ring' ∧
        Stands p c.destination (start.collecting first) pipe ring' (ledger.accept ring.toList)
          w := by
  have emptied : Secures (Stands p c.destination (start.collecting first) pipe ring ledger)
      (SharedRing.writeTo inner c.destination .collector max) fun _ w => ∃ ring',
        ring.Drains ring.toList ring' ∧
          Stands p c.destination (start.collecting first) pipe ring' (ledger.accept ring.toList)
            w := by
    refine Stands.at_getRing ?_
    refine Upholds.bind (secures_writeTo_collector works.usable le) fun outflow => ?_
    refine .pointwise fun w ⟨result, moved, drains, stands⟩ => .here stands ?_
    have own (journal : List Event) (eq : Ledger.of p journal = ledger) :
        Ledger.of p (.delivered c.destination outflow.moved :: journal) =
          ledger.accept ring.toList := by
      have current := works.current
      rw [← eq] at current ⊢
      rw [Ledger.of_delivered current, moved]
      rfl
    refine Stands.at_setRing (Stands.at_record own id
      (fun q other journal elsewhere => Ledger.of_delivered_elsewhere elsewhere _) ?_)
    rw [result]
    have still : c.Works pipe outflow.ring (ledger.accept ring.toList) :=
      works.passes ((Ring.Fills.refl works.usable.1).passes drains) pipe.queue pipe.pendingWritable
    have told : Secures (Stands p c.destination (start.collecting first) pipe outflow.ring
        (ledger.accept ring.toList)) (SharedRing.fireWritable inner c.destination)
        fun _ => Stands p c.destination (start.collecting first) pipe outflow.ring
          (ledger.accept ring.toList) := secures_fireWritable_operating still alone
    dsimp only
    split
    · refine Upholds.bind (told.of_imp (fun w stands => stands.see id) fun _ _ => id) fun _ => ?_
      exact upholds_pure fun w stands => ⟨_, drains, stands⟩
    · exact upholds_pure fun w stands => ⟨_, drains, stands.see id⟩
  exact Upholds.bind emptied fun _ => upholds_pure fun _ => id

/-- What is stored into the empty destination is collected before the store is over. -/
theorem secures_store_consuming (consumes : o.Consumes handler c.destination c.size)
    (only : c.handlers = [handler])
    (alone : (start.rings.get c.destination).observers = [.listener p])
    (works : c.Works pipe ring ledger) (empty : ring.used = 0) {data : Bytes} (some : data ≠ [])
    (le : data.length ≤ ring.free) :
    Secures (Stands p c.destination (start.collecting first) pipe ring ledger)
      (SharedRing.store o c.destination data) fun answer w => answer = .ok data.length ∧
        ∃ ring', ring'.used = 0 ∧ ring.Passes data data ring' ∧
          Stands p c.destination (start.collecting first) pipe ring' (ledger.accept data) w := by
  obtain ⟨inner, max, sized, reacts⟩ := consumes.readable
  have stored : (ring.store data).2 = .ok data.length := by
    rw [Ring.store, if_neg (Bool.eq_false_iff.1 works.usable.2)]
    exact congrArg Except.ok (Nat.min_eq_left le)
  have fills := Ring.fills_store works.usable.1 data
  rw [stored, Ring.countOf, List.take_length] at fills
  obtain ⟨filled, eq⟩ : ∃ filled, filled = (ring.store data).1 := ⟨_, rfl⟩
  rw [← eq] at fills
  have content : filled.toList = data := by
    have nothing := (Ring.toList_eq_nil_iff works.usable.1).2 (beq_iff_eq.2 empty)
    rw [fills.content, nothing, List.nil_append]
  have held : filled.isEmpty = false := by
    rw [← Bool.not_eq_true, ← Ring.toList_eq_nil_iff fills.valid, content]
    exact some
  -- The run that stores, and the call of the pipe that tells its handlers, are in progress.
  have works' : c.Works { pipe with calls := pipe.calls + 1 } filled ledger :=
    ⟨works.operating, works.alive, works.handlers, works.destination,
      ⟨fills.valid, fills.cleaned.trans works.usable.2⟩, fills.capacity.trans works.size,
      works.current⟩
  have inside : filled.used ≤ max := by
    refine Nat.le_trans fills.valid.used_le ?_
    rw [fills.capacity, works.size]
    exact sized
  have emits : Secures
      (Stands p c.destination (start.collecting first) { pipe with calls := pipe.calls + 1 } filled
        ledger) (Pipe.emit o p .readable) fun _ w => ∃ ring' ledger',
          (filled.Drains data ring' ∧ ledger' = ledger.accept data) ∧
            Stands p c.destination (start.collecting first)
              { pipe with calls := pipe.calls + 1 } ring' ledger' w := by
    have told : Secures (Stands p c.destination (start.collecting first)
        { pipe with calls := pipe.calls + 1 } filled ledger) (o.react handler .readable) _ :=
      reacts ▸ secures_consume works' alone inside
    rw [content] at told
    refine Stands.at_emit (works'.handlers.trans only) ?_
    have note : (Event.notified (.pipe p) handler .readable).IsNote := trivial
    refine Upholds.bind (Stands.at_discreet (discreetTo_note note) fun _ => told) fun _ => ?_
    apply upholds_pure
    rintro w ⟨ring', drains, stands⟩
    exact ⟨ring', _, ⟨drains, rfl⟩, stands⟩
  have told : Secures (Stands p c.destination (start.collecting first) pipe filled ledger)
      (SharedRing.fireReadable o c.destination) fun _ w => ∃ ring' ledger',
        (filled.Drains data ring' ∧ ledger' = ledger.accept data) ∧
          Stands p c.destination (start.collecting first) pipe ring' ledger' w := by
    have alive : pipe.isAlive = true := by
      rw [Pipe.isAlive, works.alive, Bool.true_or]
    have listens : Secures (Stands p c.destination (start.collecting first) pipe filled ledger)
        (Pipe.listenReadable o p) fun _ w => ∃ ring' ledger',
          (filled.Drains data ring' ∧ ledger' = ledger.accept data) ∧
            Stands p c.destination (start.collecting first) pipe ring' ledger' w := by
      refine Stands.at_getPipe ?_
      rw [alive, if_pos rfl]
      exact Stands.during works.alive emits
    refine Stands.at_discreet (discreetTo_note trivial) fun _ => Stands.at_getShared ?_
    have told : (start.rings.get c.destination).observers = [.listener p] := alone
    change Secures _ ((start.rings.get c.destination).observers.forM _) _
    rw [told]
    exact Upholds.bind listens fun _ => upholds_pure fun _ => id
  refine Stands.at_updateRing ?_
  dsimp only
  rw [stored, ← eq, show ring.isEmpty = true from beq_iff_eq.2 empty, held]
  refine Upholds.bind told fun _ => upholds_pure ?_
  rintro w ⟨ring', ledger', ⟨drains, rfl⟩, stands⟩
  have total := congrArg List.length drains.content
  rw [content, List.length_append, drains.valid.length_toList] at total
  exact ⟨rfl, ring', by omega, fills.passes drains, stands⟩

/-! ## The company of a consumer -/

omit [Inhabited τ] [Transform τ] in
/-- It is a matter of the source, the queue and the ceiling whether a pipe on its course is
quiet. -/
theorem quiet_of_same (c : Course τ) : ∀ pipe pipe' : Pipe τ, pipe'.source = pipe.source →
    pipe'.queue = pipe.queue → pipe'.options = pipe.options → c.format.Quiet pipe →
    c.format.Quiet pipe' :=
  Format.Quiet.of_same

/-- The company of a consumer: the destination is empty, and the queue holds no more than one call
of the transform can push if it pushes so many times as much as it uses. -/
def consuming (c : Course τ) (growth : Nat) : Company τ where
  also waiting ring := ring.used = 0 ∧ waiting ≤ growth * c.room
  quiet := c.format.Quiet
  left weight waiting _ := (growth * c.room + 1) * weight + waiting
  quiet_of_same := c.quiet_of_same

/-- What is fixed about a pipe with a consumer. -/
structure Consumed (c : Course τ) (growth : Nat) (o : Owner τ (Bytes × σ))
    (handler : HandlerId) : Prop where
  consumes : o.Consumes handler c.destination c.size
  only : c.handlers = [handler]
  codes : c.format.Codes c.transform
  sized : 0 < c.size
  grows : ∀ {used pushed}, c.format.unit used pushed → pushed.length ≤ growth * used.length
  granted : (growth * c.room + 1) * (c.room + 2) ≤ o.passes

theorem lawful_consuming [Transform.Proper τ] {growth : Nat}
    (consumed : c.Consumed growth o handler)
    (alone : (start.rings.get c.destination).observers = [.listener p]) :
    (c.consuming growth).Lawful c o p (start.collecting first) where
  codes := consumed.codes
  mono also le := ⟨also.1, Nat.le_trans le also.2⟩
  tells edge other told := by
    refine Stands.at_emit (told.trans consumed.only) (Stands.of_discreet ?_)
    refine (closed_discreetTo _).andThen ?_ fun _ => discreetTo_pure _
    have note : (Event.notified (.pipe p) handler edge).IsNote := trivial
    refine (closed_discreetTo _).andThen (discreetTo_note note) fun _ => ?_
    exact (consumed.consumes.others edge other).behind first
  lands works also some le := by
    refine (secures_store_consuming consumed.consumes consumed.only alone works also.1 some
      le).of_imp (fun _ => id) ?_
    rintro answer w ⟨answered, ring', empty, passes, stands⟩
    refine ⟨answered, _, ring', ⟨passes, fun also => ⟨empty, also.2⟩, ?_⟩, stands⟩
    intro weight waiting _ le
    change _ + (waiting - _) + _ ≤ _ + waiting
    omega
  advances {got gave pipe ring ledger outcome} runs spent also ready done := by
    -- The destination is empty and holds something, so that the queue had been drained.
    have room : ring.free ≠ 0 := by
      have size := runs.size
      have sized := consumed.sized
      have empty := also.1
      unfold Ring.free
      omega
    have nothing : pipe.queue.toList = [] := by
      rw [Queue.toList, Queue.isEmpty_iff_segments_eq_nil.1 (spent.resolve_right room)]
      rfl
    obtain ⟨used, pushed, outcome', done', advances, _, turns⟩ :=
      Pipe.turns_advance p runs.source (runs.transform ▸ consumed.codes) runs.queue ready
    cases done.symm.trans done'
    have translates : Translates c.format.unit used pushed := by
      cases turns with
      | onward translates => exact translates
      | idle => exact .nil
    have inside := runs.source.valid.used_le
    rw [← runs.source.valid.length_toList, advances.content, List.length_append,
      runs.source.size] at inside
    have bytes := advances.sound.bytes_eq
    rw [advances.waiting, nothing, List.nil_append] at bytes
    refine ⟨also.1, ?_⟩
    calc (pipe.advance p).pipe.queue.bytes = pushed.length := bytes
      _ ≤ growth * used.length := translates.length_le consumed.grows
      _ ≤ growth * c.room :=
        Nat.mul_le_mul_left growth (Nat.le_trans (Nat.le_add_right _ _) inside)
  unready unready ready := by
    rw [unready] at ready
    cases ready
  idles _ _ _ _ quiet := quiet
  lighter {weight weight' waiting waiting' ring} less _ also := by
    have fits := also.2
    have step : (growth * c.room + 1) * (weight' + 1) ≤ (growth * c.room + 1) * weight :=
      Nat.mul_le_mul_left _ less
    rw [Nat.mul_succ] at step
    change _ * weight' + waiting' < _ * weight + waiting
    omega
  same waiting ring le := Nat.add_le_add_right (Nat.mul_le_mul_left _ le) _
  enough {weight waiting ring} also le _ _ := by
    have fits := also.2
    have step : (growth * c.room + 1) * weight ≤ (growth * c.room + 1) * (c.room + 1) :=
      Nat.mul_le_mul_left _ le
    have granted := consumed.granted
    rw [Nat.mul_succ] at granted
    change _ * weight + waiting < _
    omega

/-! ## From store to store -/

/-- No run of the pipe is in progress, it is the only one that is told of the edges of its
destination, and what was taken from there is collected. -/
structure Tended (c : Course τ) (growth : Nat) (p : PipeId) (first : Bytes)
    (w : World τ (Bytes × σ)) : Prop where
  alone : (w.rings.get c.destination).observers = [.listener p]
  collected : w.owner.1 = first ++ (Ledger.of p w.journal).accepted
  waits : ∃ got gave, (c.consuming growth).Waits c got gave (w.pipes.get p)
    (w.rings.get c.destination).ring (Ledger.of p w.journal)

variable [Transform.Proper τ] {growth : Nat} {w : World τ (Bytes × σ)}

/-- To store into a pipe with a consumer comes to an end. If it is answered with a success, nothing
is left to do for the pipe, and its destination is empty. -/
theorem Tended.storeFrom (consumed : c.Consumed growth o handler) (h : c.Tended growth p first w)
    {source : Source (Machine τ (Bytes × σ))} (discreet : source.DiscreetTo Collected) :
    ∃ answer w', Pipe.storeFrom o p source w = .ok answer w' ∧ c.Tended growth p first w' ∧
      ∀ stored, answer = .ok stored → ∃ got gave, (w'.pipes.get p).failure = none ∧
        (c.consuming growth).Rests c got gave (w'.pipes.get p) (w'.rings.get c.destination).ring
          (Ledger.of p w'.journal) := by
  obtain ⟨alone, collected, got, gave, waits⟩ := h
  have lawful : (c.consuming growth).Lawful c o p (w.collecting first) :=
    lawful_consuming consumed alone
  have found : Finds p c.destination (w.collecting first) ((c.consuming growth).Waits c got gave)
      w := ⟨_, _, _, (Stands.start p c.destination w).see fun _ => collected, waits⟩
  obtain ⟨answer, w', ran, pipe, ring, ledger, stands, fed⟩ :=
    (Company.secures_feed lawful id Company.Waits.uncounted
      ⟨fun wanted => (discreet.read wanted).behind first, discreet.ended.behind first⟩
      (.inl trivial)).exists_ok found
  have same : (w'.rings.get c.destination).ring = ring := congrArg SharedRing.ring stands.ring
  have tended (waits : ∃ got gave, (c.consuming growth).Waits c got gave pipe ring ledger) :
      c.Tended growth p first w' := by
    refine ⟨(congrArg SharedRing.observers stands.ring).trans alone, stands.seen, ?_⟩
    rw [stands.pipe, same, stands.ledger]
    exact waits
  refine ⟨answer, w', ran, ?_⟩
  cases fed with
  | @ran _ _ _ _ moved more rests intact =>
      refine ⟨tended ⟨_, _, rests.toWaits⟩, fun stored answered =>
        ⟨got ++ moved, gave ++ more, ?_⟩⟩
      rw [stands.pipe, same, stands.ledger]
      exact ⟨intact stored answered, rests⟩
  | refused waits => exact ⟨tended ⟨_, _, waits⟩, nofun⟩
  | interrupted may stopped =>
      obtain ⟨got', waits⟩ := stopped.waits id
      exact ⟨tended ⟨_, _, waits⟩, nofun⟩

theorem Tended.storeFrom_all (consumed : c.Consumed growth o handler)
    (h : c.Tended growth p first w) {sources : List (Source (Machine τ (Bytes × σ)))}
    (discreet : ∀ source ∈ sources, source.DiscreetTo Collected) :
    ∃ w', (sources.forM fun source => do let _ ← Pipe.storeFrom o p source) w = .ok () w' ∧
      c.Tended growth p first w' := by
  induction sources generalizing w with
  | nil => exact ⟨w, rfl, h⟩
  | cons source sources ih =>
      obtain ⟨one, others⟩ := List.forall_mem_cons.1 discreet
      obtain ⟨answer, between, ran, tended, _⟩ := h.storeFrom consumed one
      obtain ⟨w', rest, last⟩ := ih tended others
      have first : (do let _ ← Pipe.storeFrom o p source : Machine τ (Bytes × σ) Unit) w =
          .ok () between := bind_of_ok ran
      exact ⟨w', (bind_of_ok first).trans rest, last⟩

end Course

/-! ## What is collected -/

/-- Some bytes are cut into pieces of a bounded length, and each piece is encoded. -/
def Packed (max : Nat) (encode : Bytes → Bytes) (used made : Bytes) : Prop :=
  ∃ pieces : List Bytes, (∀ piece ∈ pieces, piece ≠ [] ∧ piece.length ≤ max) ∧
    used = pieces.flatten ∧ made = (pieces.map encode).flatten

theorem packed_of_translates {max : Nat} {encode : Bytes → Bytes} {used made : Bytes}
    (h : Translates (Format.packing max encode).unit used made) : Packed max encode used made := by
  induction h with
  | nil => exact ⟨[], List.forall_mem_nil _, rfl, rfl⟩
  | @cons piece _ _ _ first _ ih =>
      obtain ⟨pieces, short, rfl, rfl⟩ := ih
      obtain ⟨one, rfl⟩ := first
      exact ⟨piece :: pieces, List.forall_mem_cons.2 ⟨one, short⟩, rfl, rfl⟩

namespace Codec

/-- What there is to have been made of the bytes received, with some of them left over. -/
def Renders (received rest made : Bytes) : Codec → Prop
  | .identity _ => rest = [] ∧ made = received
  | .frameEncoder t => rest = [] ∧ Packed t.maxFrame Frame.encode received made
  | .lineEncoder t => rest = [] ∧ Packed t.lineInput Line.encode received made
  | .frameDecoder t =>
    ∃ payloads, Frame.Framed t.maxFrame received ⟨payloads, rest, none⟩ ∧ made = payloads.flatten
  | .lineDecoder t => t.read received = ⟨made, rest, none⟩

/-- A pipe with so much room in its source cannot fail on the bytes received. -/
def Accepts (room : Nat) (received : Bytes) : Codec → Prop
  | .frameDecoder t => ∃ payloads : List Bytes,
    (∀ payload ∈ payloads, Frame.Fits t.maxFrame payload ∧ (Frame.encode payload).length ≤ room) ∧
      received <+: (payloads.map Frame.encode).flatten
  | .lineDecoder _ => False
  | _ => True

/-- A transform that decodes needs a source in which a unit can be put together. -/
def Suits (options : PipeOptions) : Codec → Prop
  | .frameDecoder _ | .lineDecoder _ => options.sourceRegion = .heap
  | _ => True

/-- No transform pushes more than five bytes for one. -/
def growth : Nat := 5

/-- How a transform codes a format in a pipe with such options. -/
structure Coded (t : Codec) (options : PipeOptions) (F : Format) : Prop where
  codes : F.Codes t
  movable : ∀ {rest : Bytes}, F.incomplete rest → options.sourceRegion = .heap
  grows : ∀ {used pushed}, F.unit used pushed → pushed.length ≤ growth * used.length
  renders : ∀ {used rest pushed}, Translates F.unit used pushed →
    rest = [] ∨ F.incomplete rest → t.Renders (used ++ rest) rest pushed
  intact : ∀ {room consumed content pushed failure}, 0 < room →
    t.Accepts room (consumed ++ content) → F.Standing room consumed content pushed failure →
    failure = none

variable {t : Codec} {options : PipeOptions}

theorem coded_packing {max : Nat} {encode : Bytes → Bytes}
    (codes : (Format.packing max encode).Codes t)
    (grows : ∀ {piece}, piece ≠ [] → (encode piece).length ≤ growth * piece.length)
    (renders : ∀ {used made}, Packed max encode used made → t.Renders used [] made) :
    t.Coded options (.packing max encode) where
  codes := codes
  movable impossible := impossible.elim
  grows := by
    rintro used _ ⟨⟨some, _⟩, rfl⟩
    exact grows some
  renders translates left := by
    obtain rfl := left.resolve_right id
    rw [List.append_nil]
    exact renders (packed_of_translates translates)
  intact _ _ standing := (standing.intact_of_total (fun _ => id) fun _ _ => id).1

theorem coded_frameDecoder (t : FrameDecoder) (heap : options.sourceRegion = .heap) :
    (frameDecoder t).Coded options t.format where
  codes := t.codes
  movable _ := heap
  grows := by
    rintro _ pushed ⟨rfl, _⟩
    rw [Frame.length_encode, growth]
    omega
  renders {used rest pushed} translates left := by
    obtain ⟨payloads, rfl, rfl, fits⟩ := FrameDecoder.frames_of_translates translates
    refine ⟨payloads, ⟨rfl, fits, ?_⟩, rfl⟩
    rcases left with rfl | incomplete
    · exact Frame.begins_nil _
    · exact incomplete.2
  intact {room consumed content pushed failure} some accepts standing := by
    obtain ⟨payloads, fits, more, stream⟩ := accepts
    have whole : Translates (t.format.Within room) (consumed ++ content ++ more) payloads.flatten :=
      stream ▸ FrameDecoder.translates_frames fun payload member =>
        ⟨⟨rfl, (fits payload member).1⟩, (fits payload member).2⟩
    exact standing.intact_of_words t.clear (t.spells.of_imp fun within => within.1)
      (fun within => within.2) some whole

theorem coded_lineDecoder (t : LineDecoder) (heap : options.sourceRegion = .heap) :
    (lineDecoder t).Coded options t.format where
  codes := t.codes
  movable _ := heap
  grows := by
    rintro _ pushed ⟨line, rfl, _, judged⟩
    have short := LineDecoder.length_le_of_judge judged
    rw [List.length_append, growth]
    omega
  renders {used rest pushed} translates left := by
    refine (t.reads_read.of_translates translates rest).trans ?_
    rw [left.elim (fun none => none ▸ t.reads_read.nil) t.reads_read.incomplete, Fed.after,
      List.append_nil]
  intact _ accepts := accepts.elim

/-- Each of the transforms codes a format. -/
theorem Suits.exists_coded (suits : t.Suits options) : ∃ F, t.Coded options F := by
  cases t with
  | identity t =>
      refine ⟨_, coded_packing t.codes (fun _ => ?_) ?_⟩
      · exact Nat.le_mul_of_pos_left _ (by decide)
      · rintro used made ⟨pieces, _, rfl, rfl⟩
        exact ⟨rfl, congrArg List.flatten (List.map_id _)⟩
  | frameEncoder t =>
      refine ⟨_, coded_packing t.codes (fun some => ?_) fun packed => ⟨rfl, packed⟩⟩
      have counted := List.length_pos_iff.2 some
      rw [Frame.length_encode, Frame.headerLength, growth]
      omega
  | lineEncoder t =>
      refine ⟨_, coded_packing t.codes (fun some => ?_) fun packed => ⟨rfl, packed⟩⟩
      have counted := List.length_pos_iff.2 some
      rw [Line.length_encode, Line.encodedLength, Base64.encodedLength, growth]
      omega
  | frameDecoder t => exact ⟨_, coded_frameDecoder t suits⟩
  | lineDecoder t => exact ⟨_, coded_lineDecoder t suits⟩

end Codec

/-- A handler that empties the destination whenever it is told that the pipe has turned readable
misses nothing, though it is told in the middle of a run: after any stores, some of which may have
failed, one more store comes to an end. If it succeeds, destination and queue are empty, what is
left in the source is no whole unit, no run is in progress, and what was pushed for the bytes
consumed so far is collected, in order. -/
theorem consumer_collects_all {σ : Type} {t : Codec} {options : PipeOptions}
    (suits : t.Suits options) {o : Owner Codec (Bytes × σ)} {handler : HandlerId} {d : RingId}
    {direction : Direction} {w₀ w₁ : World Codec (Bytes × σ)} {p : PipeId}
    (usable : (w₀.rings.get d).ring.Valid ∧ (w₀.rings.get d).ring.cleaned = false)
    (drained : (w₀.rings.get d).ring.used = 0) (sized : 0 < (w₀.rings.get d).ring.capacity)
    (unused : (w₀.rings.get d).observers = [])
    (consumes : o.Consumes handler d (w₀.rings.get d).ring.capacity)
    (granted : (Codec.growth * options.sourceCapacity.getD (w₀.rings.get d).ring.capacity + 1) *
      (options.sourceCapacity.getD (w₀.rings.get d).ring.capacity + 2) ≤ o.passes)
    (made : Pipe.create direction d t options w₀ = .ok (.ok p) w₁)
    {sources : List (Source (Machine Codec (Bytes × σ)))}
    (discreet : ∀ source ∈ sources, source.DiscreetTo Collected) :
    ∃ w₂, (do
        Pipe.addHandler p handler
        sources.forM fun source => do let _ ← Pipe.storeFrom o p source) w₁ = .ok () w₂ ∧
      ∀ source, source.DiscreetTo Collected →
        ∃ answer w₃, Pipe.storeFrom o p source w₂ = .ok answer w₃ ∧
          let pipe := w₃.pipes.get p
          let ledger := Ledger.of p w₃.journal
          let room := options.sourceCapacity.getD (w₀.rings.get d).ring.capacity
          (t.Accepts room ledger.received → pipe.failure = none) ∧
          ∀ stored, answer = .ok stored →
            (w₃.rings.get d).ring.used = 0 ∧ pipe.queue.isEmpty ∧ pipe.operating = false ∧
            ledger.received = ledger.consumed ++ pipe.source.toList ∧
            t.Renders ledger.received pipe.source.toList ledger.pushed ∧
            w₃.owner.1 = w₁.owner.1 ++ ledger.pushed := by
  obtain ⟨F, coded⟩ := suits.exists_coded
  let c := Course.new F t d options (w₀.rings.get d).ring
  have opens : c.Opens p w₀ w₁ :=
    Course.ensures_create F usable (fun q member => by rw [unused] at member; cases member)
      direction t coded.movable rfl made p rfl
  have fresh : c.held = [] := (Ring.toList_eq_nil_iff usable.1).2 (beq_iff_eq.2 drained)
  have start : (c.consuming Codec.growth).At c p [] [] w₁ :=
    opens.begins ⟨drained, Nat.zero_le _⟩ fun unready ready => by rw [unready] at ready; cases ready
  obtain ⟨between, added, at_rest⟩ := start.addHandler handler
  let c' := { c with handlers := [handler] }
  have consumed : c'.Consumed Codec.growth o handler :=
    ⟨consumes, rfl, coded.codes, sized, coded.grows, granted⟩
  have tended : c'.Tended Codec.growth p w₁.owner.1 between := by
    have observers : (w₁.rings.get d).observers = [.listener p] :=
      opens.observers.trans (congrArg (enlist · _) unused)
    have rests := at_rest.rests
    cases added
    refine ⟨observers, ?_, [], [], rests.toWaits⟩
    rw [rests.accepted, List.append_nil]
  obtain ⟨w₂, fed, tended⟩ := tended.storeFrom_all consumed discreet
  refine ⟨w₂, (bind_of_ok added).trans fed, fun source discreet => ?_⟩
  obtain ⟨answer, w₃, ran, tended, settled⟩ := tended.storeFrom consumed discreet
  obtain ⟨got, gave, waits⟩ := tended.waits
  refine ⟨answer, w₃, ran, fun accepts => ?_, fun stored answered => ?_⟩
  · refine coded.intact opens.room ?_ waits.standing
    rw [waits.inbound, ← waits.received]
    exact accepts
  · obtain ⟨got, gave, intact, rests⟩ := settled stored answered
    obtain ⟨empty, _⟩ := rests.also intact
    obtain ⟨queue, delivered, _, left⟩ :=
      rests.delivered rfl intact sized opens.room opens.ceiling empty
    have standing := rests.standing
    rw [intact] at standing
    have within : Translates (F.Within _) _ _ := standing
    have received : _ = _ := rests.received.trans rests.inbound.symm
    refine ⟨empty, queue, rests.operating, received, ?_, ?_⟩
    · rw [received]
      exact coded.renders (within.imp fun _ _ _ within => within.1) left
    · rw [tended.collected, rests.accepted, delivered]
      exact congrArg (_ ++ ·) (congrArg (· ++ _) fresh)

namespace Pickup

/-- Comes back for the whole destination. -/
def react : Edge → Machine Codec (Bytes × Unit) Unit
  | .readable => do let _ ← SharedRing.writeTo ⟨fun _ _ => pure (), 1⟩ 0 .collector 2
  | _ => pure ()

def owner : Owner Codec (Bytes × Unit) := ⟨fun _ => react, 410⟩

/-- A world with a ring of two bytes, in which one byte was collected before. -/
def world : World Codec (Bytes × Unit) := ⟨⟨[⟨.empty 2 .heap, []⟩]⟩, .empty, [], ([9], ())⟩

def options : PipeOptions := ⟨1, some 8, .heap⟩

/-- Makes a pipe whose frames are longer than the destination. -/
def make : Machine Codec (Bytes × Unit) (Except Error PipeId) :=
  Pipe.create .unwrap 0 (.frameDecoder ⟨4⟩) options

/-- Gives a first part of some bytes. -/
def source (data : Bytes) : Source (Machine Codec (Bytes × Unit)) :=
  ⟨fun wanted => pure (.ok (data.take wanted)), pure false⟩

/-- Registers the handler, and stores a frame and the beginning of another. -/
def begin : Machine Codec (Bytes × Unit) Unit := do
  Pipe.addHandler 0 7
  [source [0, 0, 0, 3, 1, 2, 3, 0], source [0, 0, 1]].forM fun source => do
    let _ ← Pipe.storeFrom owner 0 source

theorem discreet_source (data : Bytes) : (source data).DiscreetTo (Collected (σ := Unit)) :=
  ⟨fun _ => discreetTo_pure _, discreetTo_pure _⟩

end Pickup

/-- Two payloads are collected, and the first byte of one more frame is left. -/
theorem consumer_collects_all_pickup :
    ∃ w₁ w₂ w₃, Pickup.make Pickup.world = .ok (.ok 0) w₁ ∧ Pickup.begin w₁ = .ok () w₂ ∧
      Pipe.storeFrom Pickup.owner 0 (Pickup.source [5, 0]) w₂ = .ok (.ok (.bytes 2)) w₃ ∧
      (w₃.pipes.get 0).failure = none ∧ (w₃.rings.get 0).ring.used = 0 ∧
      (w₃.pipes.get 0).source.toList = [0] ∧ w₃.owner.1 = [9, 1, 2, 3, 5] := by
  have reached : Pickup.make.ends Pickup.world fun made w₁ =>
      (made.toOption = some 0 ∧ w₁.owner.1 = [9]) && Pickup.begin.ends w₁ fun _ w₂ =>
        (Pipe.storeFrom Pickup.owner 0 (Pickup.source [5, 0])).ends w₂ fun answer w₃ =>
          answer.toOption = some (.bytes 2) ∧
            (Ledger.of 0 w₃.journal).consumed = [0, 0, 0, 3, 1, 2, 3, 0, 0, 0, 1, 5] ∧
            (Ledger.of 0 w₃.journal).received = [0, 0, 0, 3, 1, 2, 3, 0, 0, 0, 1, 5, 0] ∧
            (Ledger.of 0 w₃.journal).pushed = [1, 2, 3, 5] := by decide +kernel
  obtain ⟨made, w₁, make, reached⟩ := ends_iff.1 reached
  obtain ⟨first, later⟩ := Bool.and_eq_true_iff.1 reached
  obtain ⟨opened, before⟩ := of_decide_eq_true first
  obtain rfl := eq_ok_of_toOption opened
  obtain ⟨⟨⟩, w₂, began, later⟩ := ends_iff.1 later
  obtain ⟨answer, w₃, ran, last⟩ := ends_iff.1 later
  obtain ⟨answered, consumed, received, pushed⟩ := of_decide_eq_true last
  obtain rfl := eq_ok_of_toOption answered
  have suits : Codec.Suits Pickup.options (.frameDecoder ⟨4⟩) := rfl
  have usable : (Pickup.world.rings.get 0).ring.Valid ∧
      (Pickup.world.rings.get 0).ring.cleaned = false := ⟨Ring.valid_empty 2 .heap, rfl⟩
  have consumes : Pickup.owner.Consumes 7 0 (Pickup.world.rings.get 0).ring.capacity := by
    refine ⟨⟨_, 2, Nat.le_refl 2, rfl⟩, fun edge other => ?_⟩
    cases edge with
    | readable => exact (other rfl).elim
    | _ => exact discreetTo_pure _
  have granted : (Codec.growth * 8 + 1) * (8 + 2) ≤ Pickup.owner.passes := Nat.le_refl 410
  obtain ⟨w, again, stored⟩ := consumer_collects_all suits usable rfl (by decide) rfl consumes
    granted make (List.forall_mem_cons.2 ⟨Pickup.discreet_source _,
      List.forall_mem_singleton.2 (Pickup.discreet_source _)⟩)
  cases began.symm.trans again
  obtain ⟨answer, w, again, accepts, settled⟩ := stored _ (Pickup.discreet_source [5, 0])
  cases ran.symm.trans again
  obtain ⟨empty, _, _, split, _, collected⟩ := settled _ rfl
  rw [received] at accepts
  rw [received, consumed] at split
  rw [before, pushed] at collected
  refine ⟨w₁, w₂, w₃, make, began, ran, accepts ⟨[[1, 2, 3], [5], []], by decide, ⟨[0, 0, 0], rfl⟩⟩,
    empty, ?_, collected⟩
  exact (List.append_cancel_left split.symm)

end ByteFlow
