/-
# Rings as bounded queues

Whoever stores into a ring and writes out of it sees a list of at most `capacity` bytes. `Fifo` is
that list, with what else may be seen of a ring, and `Fifo.Step` says what each operation does to
it: bytes come in at the end and go out at the front, as many as there is room for or as the stream
lets through. A ring takes exactly these steps, whatever was done to it before, and gives exactly
these answers.

How many bytes a stream is asked for at once depends on where in its cells the ring has its content.
The list does not show that, so it leaves the requests open and fixes what comes of them.
-/

import ByteFlow.Proofs.Access
import Mathlib.Algebra.GroupWithZero.Nat

namespace ByteFlow

variable {σ : Type}

/-! ## What is asked of a ring -/

/-- An operation on a ring. The streams share the state `σ`. -/
inductive Act (σ : Type) where
  | store (data : Bytes)
  | storeFrom (source : Source (StateM σ))
  | writeTo (sink : Sink (StateM σ)) (max : Nat)
  | consume (count : Nat)
  | clear
  | defragment
  | clean

/-- The answer of a ring. -/
inductive Reply where
  | stored (result : Except Error Nat)
  | filled (result : Except Error Stored)
  | written (result : Except Error Nat)
  | consumed (result : Except Misuse Unit)
  | defragmented (result : Except Error Unit)
  | done

/-- The streams of the operation keep to what they are asked. -/
def Act.Honest : Act σ → Prop
  | .storeFrom source => source.Honest
  | .writeTo sink _ => sink.Honest
  | _ => True

namespace Ring

/-- Does what is asked. A ring that refuses stays as it is. -/
def perform (r : Ring) : Act σ → StateM σ (Ring × Reply)
  | .store data => pure ((r.store data).1, .stored (r.store data).2)
  | .storeFrom source => do
    let intake ← r.storeFrom source
    return (intake.ring, .filled intake.result)
  | .writeTo sink max => do
    let outflow ← r.writeTo sink max
    return (outflow.ring, .written outflow.result)
  | .consume count =>
    match r.consume count with
    | .ok after => pure (after, .consumed (.ok ()))
    | .error misuse => pure (r, .consumed (.error misuse))
  | .clear => pure (r.clear, .done)
  | .defragment =>
    match r.defragment with
    | .ok after => pure (after, .defragmented (.ok ()))
    | .error e => pure (r, .defragmented (.error e))
  | .clean => pure (r.clean, .done)

/-- Does what is asked, one after the other. -/
def performAll (r : Ring) : List (Act σ) → StateM σ (Ring × List Reply)
  | [] => pure (r, [])
  | act :: acts => do
    let (after, reply) ← r.perform act
    let (last, replies) ← after.performAll acts
    return (last, reply :: replies)

/-- Does what is asked, with every access checked. -/
def perform? (r : Ring) : Act σ → StateT σ Option (Ring × Reply)
  | .store data => do
    let (after, result) ← r.store? data
    return (after, .stored result)
  | .storeFrom source => do
    let intake ← r.storeFrom? source
    return (intake.ring, .filled intake.result)
  | .writeTo sink max => do
    let outflow ← r.writeTo? sink max
    return (outflow.ring, .written outflow.result)
  | .defragment => do
    match ← r.defragment? with
    | .ok after => pure (after, .defragmented (.ok ()))
    | .error e => pure (r, .defragmented (.error e))
  | act => surely (r.perform act)

/-- Does what is asked, one after the other, with every access checked. -/
def performAll? (r : Ring) : List (Act σ) → StateT σ Option (Ring × List Reply)
  | [] => pure (r, [])
  | act :: acts => do
    let (after, reply) ← r.perform? act
    let (last, replies) ← after.performAll? acts
    return (last, reply :: replies)

end Ring

/-! ## The queue -/

/-- A list of bytes of limited length, as a ring shows it. -/
structure Fifo where
  content : Bytes
  capacity : Nat
  region : Region
  /-- Whether it was given up; nothing goes in or out after that. -/
  cleaned : Bool
deriving DecidableEq, Repr

/-- The list that a ring holds. -/
def Ring.view (r : Ring) : Fifo :=
  { content := r.spans.1.toList ++ r.spans.2.toList, capacity := r.capacity, region := r.region,
    cleaned := r.cleaned }

/-- What comes of filling `room` bytes from a source: the bytes that it gave and how it was left.
It is asked until the room is full, and no more once it gave less than it was asked for. -/
inductive Filling (source : Source (StateM σ)) :
    Nat → σ → Bytes → Option Error → σ → Prop
  | full {s : σ} : Filling source 0 s [] none s
  | failed {room wanted : Nat} {s s' : σ} {e : Error} (asks : 0 < wanted) (le : wanted ≤ room)
      (read : source.read wanted s = (.error e, s')) : Filling source room s [] (some e) s'
  | short {room wanted : Nat} {s s' : σ} {data : Bytes} (le : wanted ≤ room)
      (read : source.read wanted s = (.ok data, s')) (less : data.length < wanted) :
      Filling source room s data none s'
  | whole {room wanted : Nat} {s s' s'' : σ} {data more : Bytes} {failure : Option Error}
      (asks : 0 < wanted) (le : wanted ≤ room) (read : source.read wanted s = (.ok data, s'))
      (exactly : data.length = wanted)
      (onward : Filling source (room - wanted) s' more failure s'') :
      Filling source room s (data ++ more) failure s''

/-- What comes of offering bytes to a sink: the bytes that it took and how it was left. It is
offered all of them in order, and no more once it took less than it was offered. -/
inductive Emptying (sink : Sink (StateM σ)) :
    Bytes → σ → Bytes → Option Error → σ → Prop
  | all {s : σ} : Emptying sink [] s [] none s
  | failed {offer rest : Bytes} {s s' : σ} {e : Error} (offers : offer ≠ [])
      (write : sink.write offer s = (.error e, s')) :
      Emptying sink (offer ++ rest) s [] (some e) s'
  | short {offer rest : Bytes} {s s' : σ} {count : Nat}
      (write : sink.write offer s = (.ok count, s')) (less : count < offer.length) :
      Emptying sink (offer ++ rest) s (offer.take count) none s'
  | whole {offer rest more : Bytes} {s s' s'' : σ} {failure : Option Error} (offers : offer ≠ [])
      (write : sink.write offer s = (.ok offer.length, s'))
      (onward : Emptying sink rest s' more failure s'') :
      Emptying sink (offer ++ rest) s (offer ++ more) failure s''

namespace Fifo

/-- How many more bytes fit. -/
def free (q : Fifo) : Nat := q.capacity - q.content.length

/-- The answer to storing from a source that gave these bytes. One that gave none may have ended,
and only then it is asked whether it has. -/
inductive Filled (source : Source (StateM σ)) :
    Bytes → Option Error → σ → Except Error Stored → σ → Prop
  | failed {given : Bytes} {e : Error} {s : σ} : Filled source given (some e) s (.error e) s
  | bytes {given : Bytes} {s : σ} (gave : given ≠ []) :
      Filled source given none s (.ok (.bytes given.length)) s
  | nothing {s s' : σ} {ended : Bool} (asked : source.isEnded s = (ended, s')) :
      Filled source [] none s (.ok (if ended then .eos else .bytes 0)) s'

/-- What an operation does to the list, the answer and what becomes of the streams. -/
inductive Step : Fifo → σ → Act σ → Reply → Fifo → σ → Prop
  | store {q : Fifo} {s : σ} {data : Bytes} (intact : q.cleaned = false) :
      Step q s (.store data) (.stored (.ok (min data.length q.free)))
        { q with content := q.content ++ data.take q.free } s
  | storeFrom {q : Fifo} {s s' s'' : σ} {source : Source (StateM σ)} {given : Bytes}
      {failure : Option Error} {result : Except Error Stored} (intact : q.cleaned = false)
      (room : q.free ≠ 0) (filling : Filling source q.free s given failure s')
      (filled : Filled source given failure s' result s'') :
      Step q s (.storeFrom source) (.filled result)
        { q with content := q.content ++ given } s''
  | storeFrom_full {q : Fifo} {s : σ} {source : Source (StateM σ)} (intact : q.cleaned = false)
      (full : q.free = 0) : Step q s (.storeFrom source) (.filled (.ok (.bytes 0))) q s
  | writeTo {q : Fifo} {s s' : σ} {sink : Sink (StateM σ)} {max : Nat} {taken rest : Bytes}
      {failure : Option Error} (intact : q.cleaned = false)
      (emptying : Emptying sink (q.content.take max) s taken failure s')
      (split : q.content = taken ++ rest) :
      Step q s (.writeTo sink max) (.written (failure.elim (.ok taken.length) .error))
        { q with content := rest } s'
  | consume {q : Fifo} {s : σ} {count : Nat} (le : count ≤ q.content.length) :
      Step q s (.consume count) (.consumed (.ok ()))
        { q with content := q.content.drop count } s
  | consume_overdrawn {q : Fifo} {s : σ} {count : Nat} (lt : q.content.length < count) :
      Step q s (.consume count) (.consumed (.error (.overdrawn count q.content.length))) q s
  | clear {q : Fifo} {s : σ} : Step q s .clear .done { q with content := [] } s
  | defragment {q : Fifo} {s : σ} (intact : q.cleaned = false) (moves : q.region = .heap) :
      Step q s .defragment (.defragmented (.ok ())) q s
  | defragment_unsupported {q : Fifo} {s : σ} (intact : q.cleaned = false)
      (stays : q.region = .fixed) :
      Step q s .defragment (.defragmented (.error (.unsupported .defragment))) q s
  | clean {q : Fifo} {s : σ} : Step q s .clean .done { q with content := [], cleaned := true } s
  | store_closed {q : Fifo} {s : σ} {data : Bytes} (closed : q.cleaned) :
      Step q s (.store data) (.stored (.error (.closed .store))) q s
  | storeFrom_closed {q : Fifo} {s : σ} {source : Source (StateM σ)} (closed : q.cleaned) :
      Step q s (.storeFrom source) (.filled (.error (.closed .store))) q s
  | writeTo_closed {q : Fifo} {s : σ} {sink : Sink (StateM σ)} {max : Nat} (closed : q.cleaned) :
      Step q s (.writeTo sink max) (.written (.error (.closed .write))) q s
  | defragment_closed {q : Fifo} {s : σ} (closed : q.cleaned) :
      Step q s .defragment (.defragmented (.error (.closed .defragment))) q s

/-- What several operations do, one after the other. -/
inductive Steps : Fifo → σ → List (Act σ) → List Reply → Fifo → σ → Prop
  | nil {q : Fifo} {s : σ} : Steps q s [] [] q s
  | cons {q q' q'' : Fifo} {s s' s'' : σ} {act : Act σ} {acts : List (Act σ)} {reply : Reply}
      {replies : List Reply} (step : Step q s act reply q' s')
      (steps : Steps q' s' acts replies q'' s'') :
      Steps q s (act :: acts) (reply :: replies) q'' s''

theorem Step.storeFrom_cases {q q' : Fifo} {s s' : σ} {source : Source (StateM σ)}
    {reply : Reply} (step : Step q s (.storeFrom source) reply q' s')
    (intact : q.cleaned = false) :
    (q.free = 0 ∧ reply = .filled (.ok (.bytes 0)) ∧ q' = q ∧ s' = s) ∨
      ∃ given failure middle result, q.free ≠ 0 ∧ Filling source q.free s given failure middle ∧
        Filled source given failure middle result s' ∧ reply = .filled result ∧
          q' = { q with content := q.content ++ given } := by
  cases step with
  | storeFrom _ room filling filled =>
      exact .inr ⟨_, _, _, _, room, filling, filled, rfl, rfl⟩
  | storeFrom_full _ full => exact .inl ⟨full, rfl, rfl, rfl⟩
  | storeFrom_closed closed => simp [intact] at closed

theorem Step.writeTo_cases {q q' : Fifo} {s s' : σ} {sink : Sink (StateM σ)}
    {max : Nat} {reply : Reply} (step : Step q s (.writeTo sink max) reply q' s')
    (intact : q.cleaned = false) :
    ∃ taken failure rest, Emptying sink (q.content.take max) s taken failure s' ∧
      q.content = taken ++ rest ∧ q' = { q with content := rest } ∧
        reply = .written (failure.elim (.ok taken.length) .error) := by
  cases step with
  | writeTo _ emptying split => exact ⟨_, _, _, emptying, split, rfl, rfl⟩
  | writeTo_closed closed => simp [intact] at closed

theorem Steps.capacity_eq {q q' : Fifo} {s s' : σ} {acts : List (Act σ)} {replies : List Reply}
    (steps : Steps q s acts replies q' s') : q'.capacity = q.capacity := by
  induction steps with
  | nil => rfl
  | cons step _ ih =>
      rw [ih]
      cases step <;> rfl

end Fifo

namespace Ring

/-! ## A ring takes the steps of the queue -/

theorem view_eq (r : Ring) :
    r.view = { content := r.toList, capacity := r.capacity, region := r.region,
               cleaned := r.cleaned } :=
  rfl

theorem Fills.view_eq {r after : Ring} {moved : Bytes} (h : r.Fills moved after) :
    after.view = { r.view with content := r.view.content ++ moved } := by
  simp only [Ring.view_eq, h.content, h.capacity, h.region, h.cleaned]

theorem Drains.view_eq {r after : Ring} {moved : Bytes} (h : r.Drains moved after) :
    after.view = { r.view with content := after.toList } := by
  simp only [Ring.view_eq, h.capacity, h.region, h.cleaned]

theorem free_view {r : Ring} (valid : r.Valid) : r.view.free = r.free := by
  simp only [view_eq, Fifo.free, free, valid.length_toList]

/-- The free spans are all the free space. -/
theorem sum_freeSpans {r : Ring} (valid : r.Valid) : r.freeSpans.sum = r.free := by
  have le := roomBehind_le_free valid
  have filtered (lengths : List Nat) : (lengths.filter (0 < ·)).sum = lengths.sum := by
    induction lengths with
    | nil => rfl
    | cons n lengths ih =>
        by_cases none : n = 0
        · simpa [none] using ih
        · simp [Nat.pos_of_ne_zero none, ih]
  rw [freeSpans_eq valid, filtered]
  simp
  omega

theorem filling_readSpans {source : Source (StateM σ)} (honest : source.Honest)
    {lengths : List Nat} {r : Ring} (valid : r.Valid) (intact : r.cleaned = false)
    (fits : Fits lengths r) (asks : ∀ n ∈ lengths, 0 < n) (all : lengths.sum = r.free) {s s' : σ}
    {after : Ring} {moved : Bytes} {failure : Option Error}
    (ran : readSpans source lengths r s = ((after, moved, failure), s')) :
    Filling source r.free s moved failure s' ∧ r.Fills moved after := by
  induction lengths generalizing r s moved with
  | nil =>
      cases ran
      rw [← all]
      exact ⟨.full, .refl valid⟩
  | cons wanted lengths ih =>
      obtain ⟨room, rest⟩ := fits
      have le := Nat.le_trans room (roomBehind_le_free valid)
      have some := asks wanted (List.mem_cons_self ..)
      unfold readSpans at ran
      rw [stateM_bind] at ran
      rcases read : source.read wanted s with ⟨answer, middle⟩
      rw [read] at ran
      cases answer with
      | error e =>
          cases ran
          exact ⟨.failed some le read, .refl valid⟩
      | ok data =>
          have short := honest wanted s data (congrArg Prod.fst read)
          have first := fills_fill valid intact (Nat.le_trans short room)
          dsimp only at ran
          rw [List.take_of_length_le short] at ran
          split at ran
          · rename_i less
            cases ran
            exact ⟨.short le read less, first⟩
          · rename_i whole
            have exactly : data.length = wanted := by omega
            have free : (r.fill data).free = r.free - wanted := by
              simp only [free, fill, exactly]
              omega
            rcases onward : readSpans source lengths (r.fill data) middle with
              ⟨⟨last, more, failure'⟩, s''⟩
            rw [stateM_bind, onward] at ran
            cases ran
            have left : lengths.sum = (r.fill data).free := by
              rw [free, ← all, List.sum_cons, Nat.add_sub_cancel_left]
            obtain ⟨filling, second⟩ := ih first.valid intact (rest data exactly)
              (fun n mem => asks n (List.mem_cons_of_mem _ mem)) left onward
            rw [free] at filling
            exact ⟨.whole some le read exactly filling, first.trans second⟩

theorem emptying_writeSpans {sink : Sink (StateM σ)} (honest : sink.Honest)
    {spans : List (Nat × Nat)} {r : Ring} (valid : r.Valid) (holds : Holds spans r) {max : Nat}
    {s s' : σ} {after : Ring} {moved : Bytes} {failure : Option Error}
    (ran : writeSpans sink spans max r s = ((after, moved, failure), s')) :
    Emptying sink (r.toList.take max) s moved failure s' ∧ r.Drains moved after := by
  induction spans generalizing r max s moved with
  | nil =>
      have none : r.toList = [] := by
        rw [toList_eq_nil_iff valid, isEmpty, beq_iff_eq]
        exact holds
      rw [none, List.take_nil]
      cases ran
      exact ⟨.all, .refl valid⟩
  | cons span spans ih =>
      obtain ⟨start, count⟩ := span
      obtain ⟨⟨le, held⟩, content, rest⟩ := holds
      have offer_length := length_take_min valid le max
      have split : r.toList.take max = r.toList.take (min count max) ++
          (r.toList.drop (min count max)).take (max - min count max) := by
        rw [← List.take_add]
        congr 1
        omega
      unfold writeSpans at ran
      rw [toList_slice_min content max] at ran
      dsimp only at ran
      split at ran
      · rename_i nothing
        rw [List.isEmpty_iff_length_eq_zero, offer_length] at nothing
        have none : r.toList.take max = [] := by
          rw [List.take_eq_nil_iff, ← List.length_eq_zero_iff, valid.length_toList]
          omega
        rw [none]
        cases ran
        exact ⟨.all, .refl valid⟩
      · rename_i some
        rw [List.isEmpty_iff] at some
        rw [stateM_bind] at ran
        rcases write : sink.write (r.toList.take (min count max)) s with ⟨answer, middle⟩
        rw [write] at ran
        rw [split]
        cases answer with
        | error e =>
            cases ran
            exact ⟨.failed some write, .refl valid⟩
        | ok n =>
            have short := honest _ s n (congrArg Prod.fst write)
            have front : (r.toList.take (min count max)).take n <+: r.toList :=
              (List.take_prefix _ _).trans (List.take_prefix _ _)
            have first := drains_discard valid front
            dsimp only at ran
            split at ran
            · rename_i less
              cases ran
              rw [List.length_take_of_le short] at less
              exact ⟨.short write less, first⟩
            · rename_i whole
              rw [List.length_take_of_le short] at whole
              have exactly : n = (r.toList.take (min count max)).length := by omega
              rw [exactly] at write
              rw [exactly, List.take_length] at ran first
              rw [offer_length] at ran first
              have dropped := toList_discard valid (Nat.le_trans (Nat.min_le_left count max) le)
              rcases onward : writeSpans sink spans (max - min count max)
                (r.discard (min count max)) middle with ⟨⟨last, more, failure'⟩, s''⟩
              rw [stateM_bind, onward] at ran
              cases ran
              obtain ⟨emptying, second⟩ : Emptying sink
                  ((r.discard (min count max)).toList.take (max - min count max)) middle more
                    failure' s'' ∧ (r.discard (min count max)).Drains more last := by
                by_cases whole : count ≤ max
                · rw [Nat.min_eq_left whole] at onward ⊢
                  exact ih (valid.discard le) rest onward
                · rw [Nat.min_eq_right (by omega), Nat.sub_self] at *
                  rw [List.take_zero]
                  rw [writeSpans_zero] at onward
                  cases onward
                  exact ⟨.all, .refl first.valid⟩
              rw [dropped] at emptying
              exact ⟨.whole some write emptying, first.trans second⟩

theorem step_storeFrom {source : Source (StateM σ)} (honest : source.Honest) {r : Ring}
    (valid : r.Valid) {s s' : σ} {intake : Intake} (ran : r.storeFrom source s = (intake, s')) :
    Fifo.Step r.view s (.storeFrom source) (.filled intake.result) intake.ring.view s' ∧
      intake.ring.Valid := by
  unfold storeFrom at ran
  split at ran
  · rename_i closed
    cases ran
    exact ⟨.storeFrom_closed closed, valid⟩
  · rename_i closed
    have intact : r.cleaned = false := Bool.eq_false_iff.2 closed
    have same := free_view valid
    split at ran
    · rename_i full
      rw [isFull, beq_iff_eq] at full
      cases ran
      refine ⟨.storeFrom_full intact ?_, valid⟩
      rw [same, free, full, Nat.sub_self]
    · rename_i notFull
      rw [isFull, beq_iff_eq] at notFull
      have fits := valid.used_le
      have room : r.view.free ≠ 0 := by
        rw [same, free]
        omega
      have asks : ∀ n ∈ r.freeSpans, 0 < n := by
        rw [freeSpans_eq valid]
        simp
      rcases read : readSpans source r.freeSpans r s with ⟨⟨after, moved, failure⟩, middle⟩
      rw [stateM_bind, read] at ran
      obtain ⟨filling, fills⟩ := filling_readSpans honest valid intact (fits_freeSpans valid) asks
        (sum_freeSpans valid) read
      rw [← same] at filling
      have step {reply : Except Error Stored} {last : σ}
          (filled : Fifo.Filled source moved failure middle reply last) :
          Fifo.Step r.view s (.storeFrom source) (.filled reply) after.view last ∧ after.Valid := by
        rw [fills.view_eq]
        exact ⟨.storeFrom intact room filling filled, fills.valid⟩
      cases failure with
      | some e =>
          cases ran
          exact step .failed
      | none =>
          dsimp only at ran
          split at ran
          · rename_i nothing
            rw [List.isEmpty_iff] at nothing
            subst nothing
            rcases asked : source.isEnded middle with ⟨ended, last⟩
            rw [stateM_bind, asked] at ran
            cases ended <;> cases ran <;> exact step (.nothing asked)
          · rename_i gave
            rw [List.isEmpty_iff] at gave
            cases ran
            exact step (.bytes gave)

theorem step_writeTo {sink : Sink (StateM σ)} (honest : sink.Honest) {r : Ring}
    (valid : r.Valid) {max : Nat} {s s' : σ} {outflow : Outflow}
    (ran : r.writeTo sink max s = (outflow, s')) :
    Fifo.Step r.view s (.writeTo sink max) (.written outflow.result) outflow.ring.view s' ∧
      outflow.ring.Valid := by
  unfold writeTo at ran
  split at ran
  · rename_i closed
    cases ran
    exact ⟨.writeTo_closed closed, valid⟩
  · rename_i closed
    have intact : r.cleaned = false := Bool.eq_false_iff.2 closed
    rcases wrote : writeSpans sink r.usedSpans max r s with ⟨⟨after, moved, failure⟩, middle⟩
    rw [stateM_bind, wrote] at ran
    obtain ⟨emptying, drains⟩ := emptying_writeSpans honest valid (holds_usedSpans valid) wrote
    have step := Fifo.Step.writeTo (q := r.view) intact emptying drains.content
    cases failure <;> cases ran <;> exact ⟨drains.view_eq ▸ step, drains.valid⟩

theorem defragment_eq_ok_iff {r moved : Ring} :
    r.defragment = .ok moved ↔ r.cleaned = false ∧ r.region = .heap ∧
      moved = { r with cells := r.cells.rotate r.head, head := 0 } := by
  cases closed : r.cleaned <;> cases moves : r.region <;>
    simp [defragment, closed, moves, Region.isRelocatable, eq_comm]

/-- Each operation takes the step of the queue that its answer names. -/
theorem step_perform {act : Act σ} (honest : act.Honest) {r : Ring} (valid : r.Valid) {s s' : σ}
    {after : Ring} {reply : Reply} (ran : r.perform act s = ((after, reply), s')) :
    Fifo.Step r.view s act reply after.view s' ∧ after.Valid := by
  have view : r.view.content = r.toList := rfl
  cases act with
  | store data =>
      by_cases closed : r.cleaned
      · rw [perform, store, if_pos closed] at ran
        cases ran
        exact ⟨.store_closed closed, valid⟩
      · have fills := fills_store valid data
        rw [store, if_neg closed] at fills
        rw [perform, store, if_neg closed] at ran
        cases ran
        have taken : data.take (min data.length r.free) = data.take r.free := by
          rw [List.take_eq_take_iff]
          omega
        have same := free_view valid
        have stored : Fifo.Step r.view s (.store data) _ _ s := .store (Bool.eq_false_iff.2 closed)
        rw [same, ← taken] at stored
        exact ⟨fills.view_eq ▸ stored, fills.valid⟩
  | storeFrom source =>
      rcases moved : r.storeFrom source s with ⟨intake, last⟩
      rw [perform, stateM_bind, moved] at ran
      cases ran
      exact step_storeFrom honest valid moved
  | writeTo sink max =>
      rcases moved : r.writeTo sink max s with ⟨outflow, last⟩
      rw [perform, stateM_bind, moved] at ran
      cases ran
      exact step_writeTo honest valid moved
  | consume count =>
      have length : r.view.content.length = r.used := valid.length_toList
      by_cases le : count ≤ r.used
      · rw [perform, consume, if_pos le] at ran
        cases ran
        have dropped : (r.discard count).view =
            { r.view with content := r.view.content.drop count } := by
          simp only [view_eq, toList_discard valid le]
          rfl
        exact ⟨dropped ▸ .consume (length ▸ le), valid.discard le⟩
      · rw [perform, consume, if_neg le] at ran
        cases ran
        have lt : r.view.content.length < count := by omega
        exact ⟨length ▸ .consume_overdrawn lt, valid⟩
  | clear =>
      cases ran
      have emptied : r.clear.view = { r.view with content := [] } := by
        simp only [view_eq, toList_clear]
        rfl
      exact ⟨emptied ▸ .clear, valid.clear⟩
  | defragment =>
      rcases moved : r.defragment with e | last <;> rw [perform, moved] at ran <;> cases ran
      · refine ⟨?_, valid⟩
        by_cases closed : r.cleaned
        · rw [defragment, if_pos closed] at moved
          cases moved
          exact .defragment_closed closed
        · rw [defragment, if_neg closed] at moved
          cases stays : r.region <;> rw [stays] at moved <;> cases moved
          exact .defragment_unsupported (Bool.eq_false_iff.2 closed) stays
      · have same := toList_defragment valid moved
        obtain ⟨intact, moves, eq⟩ := defragment_eq_ok_iff.1 moved
        have kept : after.view = r.view := by
          simp only [view_eq, same]
          rw [eq]
        refine ⟨?_, valid.defragment moved⟩
        rw [kept]
        exact .defragment intact moves
  | clean =>
      cases ran
      have emptied : r.clean.view = { r.view with content := [], cleaned := true } := by
        simp only [view_eq, toList_clean valid]
        unfold clean
        split
        · rename_i closed
          rw [closed]
        · rfl
      exact ⟨emptied ▸ .clean, valid.clean⟩

theorem steps_performAll {acts : List (Act σ)} (honest : ∀ act ∈ acts, act.Honest) {r : Ring}
    (valid : r.Valid) {s s' : σ} {after : Ring} {replies : List Reply}
    (ran : r.performAll acts s = ((after, replies), s')) :
    Fifo.Steps r.view s acts replies after.view s' ∧ after.Valid := by
  induction acts generalizing r s replies with
  | nil =>
      cases ran
      exact ⟨.nil, valid⟩
  | cons act acts ih =>
      rcases first : r.perform act s with ⟨⟨middle, reply⟩, s₁⟩
      rcases rest : middle.performAll acts s₁ with ⟨⟨last, others⟩, s₂⟩
      rw [performAll, stateM_bind, first] at ran
      dsimp only at ran
      rw [stateM_bind, rest] at ran
      cases ran
      obtain ⟨step, kept⟩ := step_perform (honest act (List.mem_cons_self ..)) valid first
      obtain ⟨steps, valid'⟩ :=
        ih (fun act mem => honest act (List.mem_cons_of_mem _ mem)) kept rest
      exact ⟨.cons step steps, valid'⟩

theorem perform?_eq {act : Act σ} (honest : act.Honest) {r : Ring} (valid : r.Valid) (s : σ) :
    r.perform? act s = some (r.perform act s) := by
  cases act with
  | store data =>
      change (do let (after, result) ← (liftM (r.store? data) : StateT σ Option _); _) s = _
      rw [store?_eq valid]
      rfl
  | storeFrom source =>
      change (r.storeFrom? source s >>= _) = _
      rw [storeFrom?_eq honest valid]
      rfl
  | writeTo sink max =>
      change (r.writeTo? sink max s >>= _) = _
      rw [writeTo?_eq honest valid]
      rfl
  | defragment =>
      rw [perform?, perform, defragment?_eq valid]
      cases r.defragment <;> rfl
  | consume count => rfl
  | clear => rfl
  | clean => rfl

theorem performAll?_eq {acts : List (Act σ)} (honest : ∀ act ∈ acts, act.Honest) {r : Ring}
    (valid : r.Valid) (s : σ) : r.performAll? acts s = some (r.performAll acts s) := by
  induction acts generalizing r s with
  | nil => rfl
  | cons act acts ih =>
      have first := perform?_eq (honest act (List.mem_cons_self ..)) valid s
      rcases ran : r.perform act s with ⟨⟨middle, reply⟩, s₁⟩
      obtain ⟨step, kept⟩ := step_perform (honest act (List.mem_cons_self ..)) valid ran
      have rest := ih (fun act mem => honest act (List.mem_cons_of_mem _ mem)) kept s₁
      rw [performAll, stateM_bind, ran]
      change (r.perform? act s >>= _) = _
      rw [first, ran]
      change (middle.performAll? acts s₁ >>= _) = _
      rw [rest]
      rfl

/-- A ring as it is built: empty, if a block can be that large, or full of a chunk. -/
inductive Built : Ring → Prop
  | create {capacity : Nat} {region : Region} {r : Ring} (made : create capacity region = .ok r) :
      Built r
  | wrap (chunk : Bytes) : Built (wrap chunk)

theorem Built.valid {r : Ring} (built : r.Built) : r.Valid := by
  cases built with
  | create made =>
      obtain ⟨_, rfl⟩ := create_eq_ok_iff.1 made
      exact valid_empty _ _
  | wrap chunk => exact valid_wrap chunk

/-- A ring to which operations have happened since it was built, whatever streams they met. -/
def Reachable (r : Ring) : Prop :=
  ∃ (σ : Type) (built : Ring) (acts : List (Act σ)) (s : σ), built.Built ∧
    (∀ act ∈ acts, act.Honest) ∧ (built.performAll acts s).1.1 = r

theorem Reachable.valid {r : Ring} (reachable : r.Reachable) : r.Valid := by
  obtain ⟨σ, built, acts, s, made, honest, rfl⟩ := reachable
  exact (steps_performAll honest made.valid rfl).2

/-- The numbers and pieces that a ring shows are those of its list. -/
structure Exact (r : Ring) : Prop where
  /-- Both pieces of the content lie in cells that were written. -/
  spans : r.spans? = some r.spans
  used_eq : r.used = r.view.content.length
  used_le : r.used ≤ r.capacity
  total : r.used + r.free = r.capacity
  /-- The pieces of free space are all of it. -/
  room : r.freeSpans.sum = r.free
  /-- To drop more than there is, and only that, is a misuse. -/
  consume : ∀ count, (∃ after, r.consume count = .ok after) ↔ count ≤ r.used
  /-- Where content may be moved, moving it makes one piece of it, and one of the free space. -/
  defragment : r.region = .heap → r.cleaned = false →
    ∃ moved, r.defragment = .ok moved ∧ moved.view = r.view ∧
      moved.readable.toList = r.view.content ∧
        moved.freeSpans = if r.free = 0 then [] else [r.free]

theorem Valid.exact {r : Ring} (valid : r.Valid) : r.Exact where
  spans := spans?_eq valid
  used_eq := valid.length_toList.symm
  used_le := valid.used_le
  total := Nat.add_sub_cancel' valid.used_le
  room := sum_freeSpans valid
  consume count := by
    unfold Ring.consume
    split <;> simp_all
  defragment moves intact := by
    have moved := defragment_eq_ok_iff.2 ⟨intact, moves, rfl⟩
    have after := valid.defragment moved
    have same := toList_defragment valid moved
    refine ⟨_, moved, ?_, ?_, ?_⟩
    · simp only [view_eq, same]
    · rw [toList_readable after rfl, same]
      rfl
    · rw [freeSpans_of_head_eq_zero after rfl]
      have fits := valid.used_le
      simp only [isFull, free, beq_iff_eq]
      grind

/-- Whatever is done to a ring, it behaves as a list of at most `capacity` bytes would: each
operation takes a step of the list and answers what the list answers. No access to the cells goes
astray on the way. -/
theorem refines_fifo {r : Ring} (built : r.Built) {acts : List (Act σ)}
    (honest : ∀ act ∈ acts, act.Honest) (s : σ) :
    ∃ after replies s',
      r.performAll acts s = ((after, replies), s') ∧
      r.performAll? acts s = some ((after, replies), s') ∧
      Fifo.Steps r.view s acts replies after.view s' ∧
      after.capacity = r.capacity ∧ after.Exact := by
  rcases ran : r.performAll acts s with ⟨⟨after, replies⟩, s'⟩
  obtain ⟨steps, valid⟩ := steps_performAll honest built.valid ran
  refine ⟨after, replies, s', rfl, ?_, steps, steps.capacity_eq, valid.exact⟩
  rw [performAll?_eq honest built.valid, ran]

namespace Turn

/-- Bytes go round the end of the circle, are read from a string and written to a string, and come
back into one piece; after that the ring is given up. -/
def acts : List (Act Bytes) :=
  [.store [1, 2, 3], .consume 2, .storeFrom .ofBytes, .writeTo .toBytes 2, .consume 3, .defragment,
    .clean, .store [1]]

def replies : List Reply :=
  [.stored (.ok 3), .consumed (.ok ()), .filled (.ok (.bytes 3)), .written (.ok 2),
    .consumed (.error (.overdrawn 3 2)), .defragmented (.ok ()), .done,
    .stored (.error (.closed .store))]

theorem honest_ofBytes : Source.ofBytes.Honest := by
  rintro wanted s _ ⟨⟩
  exact List.length_take_le _ _

theorem honest_toBytes : Sink.toBytes.Honest := by
  rintro offered s _ ⟨⟩
  exact Nat.le_refl _

theorem honest_acts : ∀ act ∈ acts, act.Honest := by
  simp [acts, Act.Honest, honest_ofBytes, honest_toBytes]

end Turn

theorem refines_fifo_turn :
    create 4 .heap = .ok (empty 4 .heap) ∧
      ∃ after, (empty 4 .heap).performAll? Turn.acts [4, 5, 6] =
          some ((after, Turn.replies), [3, 4]) ∧
        Fifo.Steps (empty 4 .heap).view [4, 5, 6] Turn.acts Turn.replies after.view [3, 4] ∧
        after.Exact := by
  have made : create 4 .heap = .ok (empty 4 .heap) := create_eq_ok_iff.2 ⟨by decide, rfl⟩
  obtain ⟨after, replies, s', ran, checked, steps, _, exact⟩ :=
    refines_fifo (.create made) Turn.honest_acts [4, 5, 6]
  have said : ((empty 4 .heap).performAll Turn.acts [4, 5, 6]).1.2 = Turn.replies := rfl
  have left : ((empty 4 .heap).performAll Turn.acts [4, 5, 6]).2 = [3, 4] := rfl
  rw [ran] at said left
  subst said left
  exact ⟨made, after, checked, steps, exact⟩

end Ring

end ByteFlow
