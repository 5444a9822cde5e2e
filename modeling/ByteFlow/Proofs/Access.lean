/-
# Access to the cells of a ring

The operations of a ring compute places in its circle, and lengths by subtraction. Each operation
stands here a second time, in a form that gives up as soon as a place lies outside the cells, a
subtraction would go below zero or a stream claims more than it was asked for. On a valid ring, and
with streams that keep to what they are asked, the two forms do the same: nothing is ever given up.
-/

import ByteFlow.Proofs.Transfers
import Mathlib.Data.Option.Basic

namespace ByteFlow

variable {σ : Type}

/-- The source never gives more than it is asked for. -/
def Source.Honest (source : Source (StateM σ)) : Prop :=
  ∀ wanted s data, (source.read wanted s).1 = .ok data → data.length ≤ wanted

/-- The sink never claims to have taken more than it was offered. -/
def Sink.Honest (sink : Sink (StateM σ)) : Prop :=
  ∀ offered s count, (sink.write offered s).1 = .ok count → count ≤ offered.length

namespace Ring

/-- How many cells there are to write to: none once they were given back. -/
def extent (r : Ring) : Nat := if r.cleaned then 0 else r.capacity

/-- Part of the cells, if all of them are there and were written. -/
def slice? (r : Ring) (start count : Nat) : Option Block :=
  if count = 0 ∨ start + count ≤ r.cells.size then some (r.cells.slice start count) else none

/-- The two pieces of the content. -/
def spans? (r : Ring) : Option (Block × Block) := do
  guard (r.head ≤ r.capacity)
  return (← r.slice? r.head r.usedToEnd, ← r.slice? 0 (r.used - r.usedToEnd))

/-- The lengths of the pieces of free space. -/
def freeSpans? (r : Ring) : Option (List Nat) :=
  if r.isFull then some []
  else do
    guard (r.used ≤ r.capacity ∧ r.tail ≤ r.extent ∧ r.head ≤ r.extent)
    return r.freeSpans

/-- Writes into free cells behind the content. -/
def fill? (r : Ring) (data : Bytes) : Option Ring := do
  guard (r.tail + data.length ≤ r.extent ∧ r.used + data.length ≤ r.capacity)
  return r.fill data

/-- Writes into free spans of the given lengths. -/
def fillSpans? (r : Ring) : List Nat → Bytes → Option Ring
  | [], _ => some r
  | n :: lengths, data => do (← r.fill? (data.take n)).fillSpans? lengths (data.drop n)

/-- Appends as much as fits. -/
def store? (r : Ring) (data : Bytes) : Option (Ring × Except Error Nat) :=
  if r.cleaned then some (r, .error (.closed .store))
  else do
    let after ← r.fillSpans? (← r.freeSpans?) data
    return (after, .ok (min data.length r.free))

/-- Moves the content to the first cells. -/
def defragment? (r : Ring) : Option (Except Error Ring) := do
  if !r.cleaned && r.region.isRelocatable then guard (r.head ≤ r.extent)
  return r.defragment

/-- What a stream does, without giving up. -/
def surely {α : Type} (act : StateM σ α) : StateT σ Option α := fun s => some (act s)

/-- Reads into free spans of the given lengths. -/
def readSpans? (source : Source (StateM σ)) :
    List Nat → Ring → StateT σ Option (Ring × Bytes × Option Error)
  | [], r => pure (r, [], none)
  | wanted :: lengths, r => do
    guard (r.tail + wanted ≤ r.extent)
    match ← surely (source.read wanted) with
    | .error e => pure (r, [], some e)
    | .ok data =>
      guard (data.length ≤ wanted)
      let r ← r.fill? data
      if data.length < wanted then pure (r, data, none)
      else
        let (r, more, failure) ← readSpans? source lengths r
        pure (r, data ++ more, failure)

/-- Stores as many bytes from a source as fit. -/
def storeFrom? (r : Ring) (source : Source (StateM σ)) : StateT σ Option Intake :=
  if r.cleaned then pure ⟨r, [], .error (.closed .store)⟩
  else if r.isFull then pure ⟨r, [], .ok (.bytes 0)⟩
  else do
    let (r, moved, failure) ← readSpans? source (← r.freeSpans?) r
    match failure with
    | some e => pure ⟨r, moved, .error e⟩
    | none =>
      if moved.isEmpty then
        if ← surely source.isEnded then pure ⟨r, moved, .ok .eos⟩
        else pure ⟨r, moved, .ok (.bytes 0)⟩
      else pure ⟨r, moved, .ok (.bytes moved.length)⟩

/-- Offers spans of content, given by first cell and length, at most `max` bytes in all. -/
def writeSpans? (sink : Sink (StateM σ)) :
    List (Nat × Nat) → Nat → Ring → StateT σ Option (Ring × Bytes × Option Error)
  | [], _, r => pure (r, [], none)
  | (start, count) :: rest, max, r => do
    let offer := (← r.slice? start (min count max)).toList
    if offer.isEmpty then pure (r, [], none)
    else
      match ← surely (sink.write offer) with
      | .error e => pure (r, [], some e)
      | .ok count =>
        guard (count ≤ offer.length ∧ count ≤ r.used ∧ count ≤ max)
        let r := r.discard count
        if count < offer.length then pure (r, offer.take count, none)
        else
          let (r, more, failure) ← writeSpans? sink rest (max - count) r
          pure (r, offer.take count ++ more, failure)

/-- Writes at most `max` bytes of content into a sink. -/
def writeTo? (r : Ring) (sink : Sink (StateM σ)) (max : Nat) : StateT σ Option Outflow :=
  if r.cleaned then pure ⟨r, [], .error (.closed .write)⟩
  else do
    guard (r.head ≤ r.capacity)
    let (r, moved, failure) ← writeSpans? sink r.usedSpans max r
    match failure with
    | some e => pure ⟨r, moved, .error e⟩
    | none => pure ⟨r, moved, .ok moved.length⟩

/-! ## Reading the cells -/

variable {r : Ring}

theorem Valid.head_le (valid : r.Valid) : r.head ≤ r.capacity := by
  have inside := valid.head_lt
  have start := valid.head_eq
  omega

theorem slice?_eq {start count : Nat} (within : count = 0 ∨ start + count ≤ r.cells.size) :
    r.slice? start count = some (r.cells.slice start count) :=
  if_pos within

theorem spans?_eq (valid : r.Valid) : r.spans? = some r.spans := by
  have head_le := valid.head_le
  have fits := valid.used_le
  have size := valid.size_le
  have first : r.slice? r.head r.usedToEnd = some r.readable := by
    apply slice?_eq
    unfold usedToEnd
    rcases valid.covered with covered | covered <;> omega
  have second : r.slice? 0 (r.used - r.usedToEnd) =
      some (r.cells.slice 0 (r.used - r.usedToEnd)) := by
    apply slice?_eq
    unfold usedToEnd
    rcases valid.covered with covered | covered <;> omega
  unfold spans?
  rw [first, second, guard, if_pos head_le]
  rfl

/-! ## Filling the cells -/

theorem extent_eq (intact : r.cleaned = false) : r.extent = r.capacity := by
  unfold extent
  rw [intact]
  rfl

/-- The first free span lies before the end of the circle. -/
theorem tail_add_roomBehind_le (valid : r.Valid) : r.tail + r.roomBehind ≤ r.capacity := by
  have fits := valid.used_le
  have start := valid.head_eq
  have inside := valid.head_lt
  unfold roomBehind free
  split
  · rename_i turns
    rw [tail_eq_of_lt turns]
    omega
  · rename_i turned
    by_cases full : r.used = r.capacity
    · rw [full, Nat.sub_self, Nat.add_zero]
      unfold tail
      by_cases none : r.capacity = 0
      · rw [none, Nat.mod_zero]
        omega
      · exact Nat.le_of_lt (Nat.mod_lt _ (Nat.pos_of_ne_zero none))
    · rw [tail_eq_of_le valid (by omega) (by omega) (by omega)]
      omega

theorem freeSpans?_eq (valid : r.Valid) (intact : r.cleaned = false) :
    r.freeSpans? = some r.freeSpans := by
  have behind := tail_add_roomBehind_le valid
  have head_le := valid.head_le
  unfold freeSpans? freeSpans
  split
  · rfl
  · rw [extent_eq intact, guard, if_pos ⟨valid.used_le, by omega, head_le⟩]
    rfl

theorem fill?_eq (valid : r.Valid) (intact : r.cleaned = false) {data : Bytes}
    (le : data.length ≤ r.roomBehind) : r.fill? data = some (r.fill data) := by
  have behind := tail_add_roomBehind_le valid
  have room := roomBehind_le_free valid
  have fits := valid.used_le
  unfold fill?
  unfold free at room
  rw [extent_eq intact, guard, if_pos ⟨by omega, by omega⟩]
  rfl

theorem fillSpans?_nil (valid : r.Valid) (intact : r.cleaned = false) (lengths : List Nat) :
    r.fillSpans? lengths [] = some (r.fillSpans lengths []) := by
  induction lengths with
  | nil => rfl
  | cons n lengths ih =>
      rw [fillSpans?, fillSpans, List.take_nil, List.drop_nil,
        fill?_eq valid intact (Nat.zero_le _), fill_nil]
      exact ih

theorem fillSpans?_eq {lengths : List Nat} (valid : r.Valid) (intact : r.cleaned = false)
    (fits : Fits lengths r) (data : Bytes) :
    r.fillSpans? lengths data = some (r.fillSpans lengths data) := by
  induction lengths generalizing r data with
  | nil => rfl
  | cons n lengths ih =>
      obtain ⟨room, rest⟩ := fits
      have short : (data.take n).length ≤ n := List.length_take_le _ _
      have filled := valid.fill intact (Nat.le_trans short room)
      rw [fillSpans?, fillSpans, fill?_eq valid intact (Nat.le_trans short room)]
      by_cases whole : n ≤ data.length
      · exact ih filled intact (rest _ (List.length_take_of_le whole)) _
      · rw [List.drop_eq_nil_of_le (by omega)]
        exact fillSpans?_nil filled intact lengths

theorem store?_eq (valid : r.Valid) (data : Bytes) : r.store? data = some (r.store data) := by
  by_cases closed : r.cleaned
  · simp only [store?, store, if_pos closed]
  · have intact := Bool.eq_false_iff.2 closed
    simp only [store?, store, if_neg closed, freeSpans?_eq valid intact, Option.bind_eq_bind,
      Option.bind_some, fillSpans?_eq valid intact (fits_freeSpans valid)]
    rfl

theorem defragment?_eq (valid : r.Valid) : r.defragment? = some r.defragment := by
  unfold defragment?
  by_cases moves : (!r.cleaned && r.region.isRelocatable) = true
  · have intact : r.cleaned = false := by
      rw [Bool.and_eq_true, Bool.not_eq_true'] at moves
      exact moves.1
    rw [if_pos moves, guard, if_pos (extent_eq intact ▸ valid.head_le)]
    rfl
  · rw [if_neg moves]
    rfl

/-! ## Transfers -/

theorem surely_bind {α β : Type} (act : StateM σ α) (next : α → StateT σ Option β) (s : σ) :
    (surely act >>= next) s = next (act s).1 (act s).2 :=
  rfl

theorem stateM_bind {α β : Type} (act : StateM σ α) (next : α → StateM σ β) (s : σ) :
    (act >>= next) s = next (act s).1 (act s).2 :=
  rfl

theorem guard_bind {β : Type} {p : Prop} [Decidable p] (holds : p)
    (next : Unit → StateT σ Option β) : (guard p >>= next) = next () := by
  rw [guard, if_pos holds]
  rfl

theorem readSpans?_eq {source : Source (StateM σ)} (honest : source.Honest) {lengths : List Nat}
    {r : Ring} (valid : r.Valid) (intact : r.cleaned = false) (fits : Fits lengths r) (s : σ) :
    readSpans? source lengths r s = some (readSpans source lengths r s) := by
  induction lengths generalizing r s with
  | nil => rfl
  | cons wanted lengths ih =>
      obtain ⟨room, rest⟩ := fits
      have behind := tail_add_roomBehind_le valid
      have there : r.tail + wanted ≤ r.extent := by
        rw [extent_eq intact]
        omega
      have asked := honest wanted s
      unfold readSpans? readSpans
      rw [guard_bind there, surely_bind, stateM_bind]
      generalize source.read wanted s = answered at asked ⊢
      obtain ⟨answer, s'⟩ := answered
      cases answer with
      | error e => rfl
      | ok data =>
          have short := asked data rfl
          have all : data.take wanted = data := List.take_of_length_le short
          have filled := valid.fill intact (Nat.le_trans short room)
          dsimp only
          rw [guard_bind short, fill?_eq valid intact (Nat.le_trans short room), all]
          change (if data.length < wanted then _ else _ : StateT σ Option _) s' = _
          split
          · rfl
          · have onward := ih filled intact (rest data (by omega)) s'
            change (readSpans? source lengths (r.fill data) s' >>= _) = _
            rw [onward]
            rfl

theorem storeFrom?_eq {source : Source (StateM σ)} (honest : source.Honest) (valid : r.Valid)
    (s : σ) : r.storeFrom? source s = some (r.storeFrom source s) := by
  unfold storeFrom? storeFrom
  split
  · rfl
  · rename_i closed
    have intact : r.cleaned = false := Bool.eq_false_iff.2 closed
    split
    · rfl
    · have read := readSpans?_eq honest valid intact (fits_freeSpans valid) s
      rw [freeSpans?_eq valid intact, stateM_bind]
      change (readSpans? source r.freeSpans r s >>= _) = _
      rw [read]
      generalize readSpans source r.freeSpans r s = out
      obtain ⟨⟨after, moved, failure⟩, s'⟩ := out
      cases failure with
      | some e => rfl
      | none =>
        dsimp only
        change (if moved.isEmpty then _ else _ : StateT σ Option _) s' = _
        split
        · rw [surely_bind, stateM_bind]
          cases (source.isEnded s').1 <;> rfl
        · rfl

theorem writeSpans?_zero (sink : Sink (StateM σ)) (spans : List (Nat × Nat)) (r : Ring) :
    writeSpans? sink spans 0 r = pure (r, [], none) := by
  cases spans with
  | nil => rfl
  | cons span spans =>
      obtain ⟨start, count⟩ := span
      have none : (r.cells.slice start (min count 0)).toList.isEmpty := by
        rw [Block.toList_slice, Nat.min_zero, List.take_zero]
        rfl
      unfold writeSpans?
      rw [slice?_eq (.inl (Nat.min_zero count))]
      exact if_pos none

theorem writeSpans?_eq {sink : Sink (StateM σ)} (honest : sink.Honest)
    {spans : List (Nat × Nat)} {r : Ring} (valid : r.Valid) (holds : Holds spans r) (max : Nat)
    (s : σ) : writeSpans? sink spans max r s = some (writeSpans sink spans max r s) := by
  induction spans generalizing r max s with
  | nil => rfl
  | cons span spans ih =>
      obtain ⟨start, count⟩ := span
      obtain ⟨⟨le, held⟩, content, rest⟩ := holds
      have offer_length := length_take_min valid le max
      have there : min count max = 0 ∨ start + min count max ≤ r.cells.size := by
        have length := congrArg List.length content
        rw [Block.length_toList, Block.size_slice, List.length_take, valid.length_toList] at length
        omega
      have offered := toList_slice_min content max
      unfold writeSpans? writeSpans
      rw [slice?_eq there]
      change (if (r.cells.slice start (min count max)).toList.isEmpty then _ else _ :
        StateT σ Option _) s = _
      dsimp only
      rw [offered]
      split
      · rfl
      · have asked := honest (r.toList.take (min count max)) s
        rw [surely_bind, stateM_bind]
        generalize sink.write (r.toList.take (min count max)) s = answered at asked ⊢
        obtain ⟨answer, s'⟩ := answered
        cases answer with
        | error e => rfl
        | ok n =>
            have short := asked n rfl
            have within : n ≤ (r.toList.take (min count max)).length ∧ n ≤ r.used ∧ n ≤ max := by
              omega
            have taken : ((r.toList.take (min count max)).take n).length = n :=
              List.length_take_of_le short
            dsimp only
            rw [guard_bind within, taken]
            change (if n < (r.toList.take (min count max)).length then _ else _ :
              StateT σ Option _) s' = _
            split
            · rfl
            · have onward : writeSpans? sink spans (max - n) (r.discard n) s' =
                  some (writeSpans sink spans (max - n) (r.discard n) s') := by
                by_cases more : count ≤ max
                · have all : n = count := by omega
                  rw [all]
                  exact ih (valid.discard le) rest (max - count) s'
                · have all : n = max := by omega
                  rw [all, Nat.sub_self, writeSpans_zero, writeSpans?_zero]
                  rfl
              change (writeSpans? sink spans (max - n) (r.discard n) s' >>= _) = _
              rw [onward]
              rfl

theorem writeTo?_eq {sink : Sink (StateM σ)} (honest : sink.Honest) (valid : r.Valid) (max : Nat)
    (s : σ) : r.writeTo? sink max s = some (r.writeTo sink max s) := by
  unfold writeTo? writeTo
  split
  · rfl
  · have wrote := writeSpans?_eq honest valid (holds_usedSpans valid) max s
    rw [guard_bind valid.head_le, stateM_bind]
    change (writeSpans? sink r.usedSpans max r s >>= _) = _
    rw [wrote]
    generalize writeSpans sink r.usedSpans max r s = out
    obtain ⟨⟨after, moved, failure⟩, s'⟩ := out
    cases failure <;> rfl

end Ring

end ByteFlow
