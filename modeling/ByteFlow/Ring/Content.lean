/-
# The content of a ring

A ring that was built by the operations of `ByteFlow.Ring` is `Ring.Valid`, and each of them acts on
the content alone as the operation on lists that its name promises: storing appends as much as
fits, discarding drops from the front, moving the content into one piece changes nothing.
-/

import ByteFlow.Ring

namespace ByteFlow.Ring

/-- The content lies in cells that were written, and begins at the first cell when there is none. -/
structure Valid (r : Ring) : Prop where
  size_le : r.cells.size ≤ r.capacity
  used_le : r.used ≤ r.capacity
  head_lt : r.used ≠ 0 → r.head < r.capacity
  head_eq : r.used = 0 → r.head = 0
  /-- Content that goes round the end of the circle has seen every cell written. -/
  covered : r.head + r.used ≤ r.cells.size ∨ r.cells.size = r.capacity
  used_eq : r.cleaned → r.used = 0

namespace Valid

variable {r : Ring}

/-- The content is the start of the cells, turned so that they begin at the head. -/
theorem toList_eq (h : r.Valid) :
    r.toList = (r.cells.toList.drop r.head ++ r.cells.toList.take r.head).take r.used := by
  have fits := h.used_le
  have inside := h.head_lt
  have start := h.head_eq
  have size := h.size_le
  simp only [toList, spans, readable, Block.toList_slice, List.drop_zero]
  rcases h.covered with covered | covered
  · have whole : r.usedToEnd = r.used := by
      unfold usedToEnd
      omega
    rw [whole, Nat.sub_self, List.take_zero, List.append_nil,
      List.take_append_of_le_length (by rw [List.length_drop, Block.length_toList]; omega)]
  · by_cases turns : r.used ≤ r.capacity - r.head
    · have whole : r.usedToEnd = r.used := Nat.min_eq_left turns
      rw [whole, Nat.sub_self, List.take_zero, List.append_nil,
        List.take_append_of_le_length (by rw [List.length_drop, Block.length_toList]; omega)]
    · have first : r.usedToEnd = r.capacity - r.head := Nat.min_eq_right (by omega)
      have behind : (r.cells.toList.drop r.head).length = r.capacity - r.head := by
        rw [List.length_drop, Block.length_toList]
        omega
      have all : (r.cells.toList.drop r.head).take r.used = r.cells.toList.drop r.head :=
        List.take_of_length_le (by omega)
      rw [first, List.take_append, all, ← behind, List.take_length, List.take_take, behind,
        Nat.min_eq_left (by omega)]

theorem length_toList (h : r.Valid) : r.toList.length = r.used := by
  have fits := h.used_le
  have inside := h.head_lt
  have covered := h.covered
  rw [h.toList_eq, List.length_take, List.length_append, List.length_drop, List.length_take,
    Block.length_toList]
  omega

end Valid

theorem toList_eq_nil_iff {r : Ring} (h : r.Valid) : r.toList = [] ↔ r.isEmpty := by
  rw [← List.length_eq_zero_iff, h.length_toList, isEmpty, beq_iff_eq]

theorem valid_empty (capacity : Nat) (region : Region) : (empty capacity region).Valid := by
  constructor <;> simp [empty]

@[simp]
theorem toList_empty (capacity : Nat) (region : Region) : (empty capacity region).toList = [] := by
  simp [toList, spans, readable, empty]

theorem create_eq_ok_iff {capacity : Nat} {region : Region} {r : Ring} :
    create capacity region = .ok r ↔ capacity ≤ Block.maxSize ∧ r = empty capacity region := by
  unfold create Block.request
  split
  · rename_i le
    exact ⟨fun made => ⟨le, (Except.ok.inj made).symm⟩, fun ⟨_, eq⟩ => eq ▸ rfl⟩
  · rename_i gt
    exact ⟨fun made => (nomatch made), fun ⟨le, _⟩ => absurd le gt⟩

theorem valid_wrap (chunk : Bytes) : (wrap chunk).Valid := by
  constructor <;> simp [wrap]
  exact List.length_pos_iff.2

@[simp]
theorem toList_wrap (chunk : Bytes) : (wrap chunk).toList = chunk := by
  rw [(valid_wrap chunk).toList_eq]
  simp [wrap]

theorem Valid.clear {r : Ring} (h : r.Valid) : r.clear.Valid := by
  constructor <;> simp [Ring.clear, h.size_le]

@[simp]
theorem toList_clear (r : Ring) : r.clear.toList = [] := by
  simp [toList, spans, readable, usedToEnd, clear]

theorem cleaned_clean (r : Ring) : r.clean.cleaned = true := by
  unfold Ring.clean
  split
  · assumption
  · rfl

theorem Valid.clean {r : Ring} (h : r.Valid) : r.clean.Valid := by
  unfold Ring.clean
  split
  · exact h
  · constructor <;> simp [Ring.clear]

theorem toList_clean {r : Ring} (h : r.Valid) : r.clean.toList = [] := by
  unfold clean
  split
  · rename_i cleaned
    exact (toList_eq_nil_iff h).2 (beq_iff_eq.2 (h.used_eq cleaned))
  · simp [toList, spans, readable, clear]

/-! ## Dropping from the front -/

/-- The head goes round the end of the circle at most once. -/
theorem head_add_mod {r : Ring} (h : r.Valid) {count : Nat} (lt : count < r.used) :
    (r.head + count) % r.capacity = r.head + count ∧ r.head + count < r.capacity ∨
      (r.head + count) % r.capacity = r.head + count - r.capacity ∧
        r.capacity ≤ r.head + count := by
  have fits := h.used_le
  have inside := h.head_lt (by omega)
  by_cases turns : r.head + count < r.capacity
  · exact .inl ⟨Nat.mod_eq_of_lt turns, turns⟩
  · right
    rw [Nat.mod_eq_sub_mod (by omega), Nat.mod_eq_of_lt (by omega)]
    omega

theorem Valid.discard {r : Ring} (h : r.Valid) {count : Nat} (le : count ≤ r.used) :
    (r.discard count).Valid := by
  have fits := h.used_le
  have covered := h.covered
  have size := h.size_le
  constructor <;> simp only [Ring.discard]
  · exact size
  · omega
  · intro _
    rw [if_neg (by omega)]
    exact Nat.mod_lt _ (by omega)
  · intro _
    rw [if_pos (by omega)]
  · split
    · omega
    · have moved := head_add_mod h (show count < r.used by omega)
      omega
  · intro cleaned
    have none := h.used_eq cleaned
    omega

theorem toList_discard {r : Ring} (h : r.Valid) {count : Nat} (le : count ≤ r.used) :
    (r.discard count).toList = r.toList.drop count := by
  rw [(h.discard le).toList_eq, h.toList_eq]
  have fits := h.used_le
  have covered := h.covered
  have size := h.size_le
  have length := Block.length_toList r.cells
  simp only [Ring.discard]
  split
  · rename_i drained
    rw [drained, List.take_zero, List.drop_eq_nil_of_le]
    rw [List.length_take]
    omega
  · have inside := h.head_lt (by omega)
    have moved := head_add_mod h (show count < r.used by omega)
    apply List.ext_getElem?
    intro i
    rcases moved with ⟨eq, _⟩ | ⟨eq, _⟩ <;> rw [eq] <;>
      simp only [List.getElem?_append, List.getElem?_take, List.getElem?_drop, List.length_drop] <;>
      grind

/-! ## Appending -/

theorem tail_eq_of_lt {r : Ring} (h : r.head + r.used < r.capacity) : r.tail = r.head + r.used :=
  Nat.mod_eq_of_lt h

theorem tail_eq_of_le {r : Ring} (h : r.Valid) (held : r.used ≠ 0)
    (le : r.capacity ≤ r.head + r.used) (free : r.used < r.capacity) :
    r.tail = r.head + r.used - r.capacity := by
  have inside := h.head_lt held
  unfold tail
  rw [Nat.mod_eq_sub_mod le, Nat.mod_eq_of_lt (by omega)]

/-- How many bytes fit into the first free span. -/
def roomBehind (r : Ring) : Nat :=
  if r.head + r.used < r.capacity then r.capacity - (r.head + r.used) else r.free

@[simp]
theorem fill_nil (r : Ring) : r.fill [] = r := by simp [fill]

theorem Valid.fill {r : Ring} (h : r.Valid) (intact : r.cleaned = false) {data : Bytes}
    (le : data.length ≤ r.roomBehind) : (r.fill data).Valid := by
  by_cases none : data = []
  · rw [none, fill_nil]
    exact h
  · have size := h.size_le
    have fits := h.used_le
    have covered := h.covered
    have some := List.length_pos_iff.2 none
    unfold roomBehind free at le
    split at le
    · rename_i turns
      constructor <;> simp only [Ring.fill, tail_eq_of_lt turns, intact, Block.size_write] <;>
        grind
    · rename_i turned
      have held : r.used ≠ 0 := fun none => by
        have := h.head_eq none
        omega
      have inside := h.head_lt held
      constructor <;> simp only [Ring.fill, tail_eq_of_le h held (by omega) (by omega), intact,
        Block.size_write] <;> grind

theorem toList_fill {r : Ring} (h : r.Valid) (intact : r.cleaned = false) {data : Bytes}
    (le : data.length ≤ r.roomBehind) : (r.fill data).toList = r.toList ++ data := by
  by_cases none : data = []
  · rw [none, fill_nil, List.append_nil]
  · rw [(h.fill intact le).toList_eq, h.toList_eq]
    have size := h.size_le
    have fits := h.used_le
    have covered := h.covered
    have length := Block.length_toList r.cells
    have some := List.length_pos_iff.2 none
    unfold roomBehind free at le
    split at le
    · rename_i turns
      simp only [Ring.fill, tail_eq_of_lt turns, Block.toList_write]
      apply List.ext_getElem?
      intro i
      simp only [List.getElem?_append, List.getElem?_take, List.getElem?_drop, List.length_append,
        List.length_take, List.length_drop]
      grind
    · rename_i turned
      have held : r.used ≠ 0 := fun none => by
        have := h.head_eq none
        omega
      have inside := h.head_lt held
      simp only [Ring.fill, tail_eq_of_le h held (by omega) (by omega), Block.toList_write]
      apply List.ext_getElem?
      intro i
      simp only [List.getElem?_append, List.getElem?_take, List.getElem?_drop, List.length_append,
        List.length_take, List.length_drop]
      grind

/-- The second free span is what the first one leaves over. -/
theorem freeSpans_eq {r : Ring} (h : r.Valid) :
    r.freeSpans = [r.roomBehind, r.free - r.roomBehind].filter (0 < ·) := by
  have fits := h.used_le
  unfold freeSpans isFull
  split
  · rename_i full
    rw [beq_iff_eq] at full
    simp [roomBehind, free]
    grind
  · rename_i notFull
    rw [beq_iff_eq] at notFull
    by_cases turns : r.head + r.used < r.capacity
    · rw [tail_eq_of_lt turns, if_pos (by omega)]
      simp only [roomBehind, free, if_pos turns]
      congr 3
      omega
    · have held : r.used ≠ 0 := fun none => by
        have := h.head_eq none
        omega
      have inside := h.head_lt held
      have left : r.head - (r.head + r.used - r.capacity) = r.capacity - r.used := by omega
      have some : 0 < r.capacity - r.used := by omega
      rw [tail_eq_of_le h held (by omega) (by omega), if_neg (by omega), left]
      simp [roomBehind, free, turns, some]

theorem fillSpans_filter (r : Ring) (lengths : List Nat) (data : Bytes) :
    r.fillSpans (lengths.filter (0 < ·)) data = r.fillSpans lengths data := by
  induction lengths generalizing r data with
  | nil => rfl
  | cons n lengths ih =>
    by_cases none : n = 0
    · simp [none, fillSpans, ih]
    · simp [Nat.pos_of_ne_zero none, fillSpans, ih]

theorem roomBehind_le_free {r : Ring} (h : r.Valid) : r.roomBehind ≤ r.free := by
  have fits := h.used_le
  unfold roomBehind free
  split <;> omega

/-- Once the first free span is filled, the second one is all the free space. -/
theorem roomBehind_fill {r : Ring} (h : r.Valid) {data : Bytes} (eq : data.length = r.roomBehind) :
    (r.fill data).roomBehind = r.free - r.roomBehind := by
  have fits := h.used_le
  rw [eq.symm]
  unfold roomBehind free at *
  simp only [fill]
  grind

/-- Filling the free spans appends as much as fits. -/
theorem fillSpans_freeSpans {r : Ring} (h : r.Valid) (intact : r.cleaned = false) (data : Bytes) :
    (r.fillSpans r.freeSpans data).Valid ∧
      (r.fillSpans r.freeSpans data).toList = r.toList ++ data.take r.free := by
  have le := roomBehind_le_free h
  have first : (data.take r.roomBehind).length ≤ r.roomBehind := List.length_take_le _ _
  have filled := h.fill intact first
  have second : ((data.drop r.roomBehind).take (r.free - r.roomBehind)).length ≤
      (r.fill (data.take r.roomBehind)).roomBehind := by
    by_cases long : r.roomBehind ≤ data.length
    · rw [roomBehind_fill h (by rw [List.length_take]; omega)]
      exact List.length_take_le _ _
    · rw [List.drop_eq_nil_of_le (by omega)]
      simp
  rw [freeSpans_eq h, fillSpans_filter]
  refine ⟨filled.fill intact second, ?_⟩
  change ((r.fill (data.take r.roomBehind)).fill
    ((data.drop r.roomBehind).take (r.free - r.roomBehind))).toList = _
  rw [toList_fill filled intact second, toList_fill h intact first, List.append_assoc,
    ← List.take_add]
  congr 2
  omega

theorem Valid.store {r : Ring} (h : r.Valid) (data : Bytes) : (r.store data).1.Valid := by
  unfold Ring.store
  split
  · exact h
  · rename_i intact
    exact (fillSpans_freeSpans h (Bool.eq_false_iff.2 intact) data).1

theorem toList_store {r : Ring} (h : r.Valid) {data : Bytes} {count : Nat}
    (stored : (r.store data).2 = .ok count) :
    (r.store data).1.toList = r.toList ++ data.take count := by
  unfold Ring.store at stored ⊢
  split
  · rename_i cleaned
    rw [if_pos cleaned] at stored
    cases stored
  · rename_i intact
    rw [if_neg intact] at stored
    cases stored
    rw [(fillSpans_freeSpans h (Bool.eq_false_iff.2 intact) data).2, List.append_cancel_left_eq,
      List.take_eq_take_iff]
    omega

/-! ## Moving the content -/

theorem Valid.defragment {r moved : Ring} (h : r.Valid) (eq : r.defragment = .ok moved) :
    moved.Valid := by
  unfold Ring.defragment at eq
  split at eq
  · cases eq
  · split at eq
    · cases eq
      have size := h.size_le
      have fits := h.used_le
      have covered := h.covered
      have inside := h.head_lt
      constructor <;> simp only [Block.size_rotate]
      · exact size
      · exact fits
      · omega
      · exact fun _ => trivial
      · omega
      · exact h.used_eq
    · cases eq

theorem toList_defragment {r moved : Ring} (h : r.Valid) (eq : r.defragment = .ok moved) :
    moved.toList = r.toList := by
  rw [(h.defragment eq).toList_eq, h.toList_eq]
  unfold Ring.defragment at eq
  split at eq
  · cases eq
  · split at eq
    · cases eq
      rw [Block.toList_rotate, List.drop_zero, List.take_zero, List.append_nil]
    · cases eq

/-- Content that begins at the first cell is in one piece. -/
theorem toList_readable {r : Ring} (h : r.Valid) (start : r.head = 0) :
    r.readable.toList = r.toList := by
  have fits := h.used_le
  have whole : r.usedToEnd = r.used := by
    unfold usedToEnd
    omega
  simp [toList, spans, whole]

/-- Free space behind content that begins at the first cell is in one piece. -/
theorem freeSpans_of_head_eq_zero {r : Ring} (h : r.Valid) (start : r.head = 0) :
    r.freeSpans = if r.isFull then [] else [r.free] := by
  have fits := h.used_le
  rw [freeSpans_eq h]
  by_cases full : r.used = r.capacity
  · simp [isFull, free, roomBehind, full]
  · have behind : r.roomBehind = r.capacity - r.used := by
      unfold roomBehind
      rw [start, Nat.zero_add, if_pos (by omega)]
    have some : 0 < r.capacity - r.used := by omega
    simp [isFull, free, behind, full, some]

end ByteFlow.Ring
