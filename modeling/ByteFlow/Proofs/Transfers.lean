/-
# What transfers do

A transfer between a ring and a stream moves a part of the bytes that were offered, in order, and
says which part. It may end early, by a stream that has no more to give or to take or by an error,
and what it moved until then stays moved.

The streams are arbitrary computations. All that is said of the world in between is that an
invariant which every call of the stream keeps is kept by the whole transfer.
-/

import ByteFlow.Proofs.Ensures
import ByteFlow.Ring.Content
import ByteFlow.Ring.Transfer

namespace ByteFlow.Ring

open Machine

variable {τ ω : Type} {inv : World τ ω → Prop}

/-! ## Storing -/

/-- The ring `after` is `r` with the bytes `moved` at its end. -/
structure Fills (r : Ring) (moved : Bytes) (after : Ring) : Prop where
  valid : after.Valid
  content : after.toList = r.toList ++ moved
  capacity : after.capacity = r.capacity
  region : after.region = r.region
  cleaned : after.cleaned = r.cleaned

theorem Fills.refl {r : Ring} (valid : r.Valid) : r.Fills [] r :=
  ⟨valid, (List.append_nil _).symm, rfl, rfl, rfl⟩

theorem Fills.trans {r middle after : Ring} {first second : Bytes} (h : r.Fills first middle)
    (h' : middle.Fills second after) : r.Fills (first ++ second) after where
  valid := h'.valid
  content := by rw [h'.content, h.content, List.append_assoc]
  capacity := h'.capacity.trans h.capacity
  region := h'.region.trans h.region
  cleaned := h'.cleaned.trans h.cleaned

/-- What came in took up free space. -/
theorem Fills.free_eq {r after : Ring} {moved : Bytes} (valid : r.Valid) (h : r.Fills moved after) :
    r.free = after.free + moved.length := by
  have grown : after.used = r.used + moved.length := by
    rw [← h.valid.length_toList, ← valid.length_toList, h.content, List.length_append]
  have inside := h.valid.used_le
  rw [h.capacity] at inside
  unfold free
  rw [h.capacity]
  omega

/-- A ring that is full stays full when something is stored. -/
theorem Fills.full {r after : Ring} {moved : Bytes} (valid : r.Valid) (h : r.Fills moved after)
    (full : r.free = 0) : after.free = 0 := by
  have lost := h.free_eq valid
  omega

theorem fills_fill {r : Ring} (valid : r.Valid) (intact : r.cleaned = false) {data : Bytes}
    (le : data.length ≤ r.roomBehind) : r.Fills data (r.fill data) :=
  ⟨valid.fill intact le, toList_fill valid intact le, rfl, rfl, rfl⟩

/-- Spans of the given lengths are free, each of them right behind the content once those before it
were filled. -/
def Fits : List Nat → Ring → Prop
  | [], _ => True
  | n :: lengths, r =>
    n ≤ r.roomBehind ∧ ∀ data : Bytes, data.length = n → Fits lengths (r.fill data)

theorem fits_filter {lengths : List Nat} {r : Ring} (h : Fits lengths r) :
    Fits (lengths.filter (0 < ·)) r := by
  induction lengths generalizing r with
  | nil => exact h
  | cons n lengths ih =>
      obtain ⟨room, rest⟩ := h
      by_cases some : 0 < n
      · rw [List.filter_cons_of_pos (by simpa using some)]
        exact ⟨room, fun data exactly => ih (rest data exactly)⟩
      · rw [List.filter_cons_of_neg (by simpa using some)]
        have same := rest [] (by rw [List.length_nil]; omega)
        rw [fill_nil] at same
        exact ih same

theorem fits_freeSpans {r : Ring} (valid : r.Valid) : Fits r.freeSpans r := by
  rw [freeSpans_eq valid]
  apply fits_filter
  refine ⟨Nat.le_refl _, fun data exactly => ⟨?_, fun _ _ => trivial⟩⟩
  exact Nat.le_of_eq (roomBehind_fill valid exactly).symm

theorem ensures_readSpans {source : Source (Machine τ ω)}
    (reads : ∀ wanted, Keeps inv (source.read wanted)) {lengths : List Nat} {r : Ring}
    (valid : r.Valid) (intact : r.cleaned = false) (fits : Fits lengths r) :
    Ensures inv (readSpans source lengths r) fun got w => inv w ∧ r.Fills got.2.1 got.1 := by
  induction lengths generalizing r with
  | nil => exact ensures_pure fun w holds => ⟨holds, .refl valid⟩
  | cons wanted lengths ih =>
      obtain ⟨room, rest⟩ := fits
      refine Ensures.bind (reads wanted) fun answer => ?_
      rcases answer with e | data
      · exact ensures_pure fun w holds => ⟨holds, .refl valid⟩
      · have short : (data.take wanted).length ≤ wanted := List.length_take_le _ _
        have first := fills_fill valid intact (Nat.le_trans short room)
        dsimp only
        split
        · exact ensures_pure fun w holds => ⟨holds, first⟩
        · rename_i whole
          have more := ih first.valid intact (rest (data.take wanted) (by omega))
          refine more.bind fun got => ?_
          exact ensures_pure fun w ⟨holds, second⟩ => ⟨holds, first.trans second⟩

/-- Storing puts the bytes that it reads at the end of the content. -/
theorem ensures_storeFrom {source : Source (Machine τ ω)}
    (reads : ∀ wanted, Keeps inv (source.read wanted)) (ends : Keeps inv source.isEnded) {r : Ring}
    (valid : r.Valid) :
    Ensures inv (r.storeFrom source) fun intake w => inv w ∧ r.Fills intake.moved intake.ring := by
  unfold storeFrom
  split
  · exact ensures_pure fun w holds => ⟨holds, .refl valid⟩
  · rename_i closed
    have intact : r.cleaned = false := Bool.eq_false_iff.2 closed
    split
    · exact ensures_pure fun w holds => ⟨holds, .refl valid⟩
    · refine (ensures_readSpans reads valid intact (fits_freeSpans valid)).bind fun got => ?_
      obtain ⟨after, moved, failure⟩ := got
      cases failure with
      | some e => exact ensures_pure fun w => id
      | none =>
          dsimp only
          split
          · have asked : Ensures (fun w => inv w ∧ r.Fills moved after) source.isEnded
                fun _ w => inv w ∧ r.Fills moved after :=
              fun w a w' ⟨holds, fills⟩ ran => ⟨ends holds ran, fills⟩
            refine asked.bind fun ended => ?_
            cases ended <;> exact ensures_pure fun w => id
          · exact ensures_pure fun w => id

/-- A ring that can be stored into reads what there is from a source that does not fail. -/
theorem ensures_storeFrom_of_willing {source : Source (Machine τ ω)}
    (willing : ∀ wanted, Ensures (fun _ => True) (source.read wanted) fun answer _ =>
      ∃ data, answer = .ok data) {r : Ring} (intact : r.cleaned = false) :
    Ensures (fun _ => True) (r.storeFrom source) fun intake _ =>
      ∃ stored, intake.result = .ok stored := by
  have spans (lengths : List Nat) (r : Ring) :
      Ensures (fun _ => True) (readSpans source lengths r) fun got _ => got.2.2 = none := by
    induction lengths generalizing r with
    | nil => exact ensures_pure fun _ _ => rfl
    | cons wanted lengths ih =>
        refine Ensures.bind (willing wanted) fun answer => ?_
        rcases answer with e | data
        · exact fun _ _ _ ⟨_, impossible⟩ => nomatch impossible
        · dsimp only
          split
          · exact ensures_pure fun _ _ => rfl
          · refine Ensures.bind ((ih _).pre_imp fun _ _ => trivial) fun got => ?_
            exact ensures_pure fun _ none => none
  unfold storeFrom
  rw [if_neg (Bool.eq_false_iff.1 intact)]
  split
  · exact ensures_pure fun _ _ => ⟨_, rfl⟩
  · refine Ensures.bind (spans _ r) fun ⟨after, moved, failure⟩ => ?_
    cases failure with
    | some e => exact fun _ _ _ impossible => nomatch impossible
    | none =>
        dsimp only
        split
        · have asked : Ensures (fun _ => True) source.isEnded fun _ _ => True :=
            fun _ _ _ _ _ => trivial
          refine Ensures.bind (asked.pre_imp fun _ _ => trivial) fun ended => ?_
          cases ended <;> exact ensures_pure fun _ _ => ⟨_, rfl⟩
        · exact ensures_pure fun _ _ => ⟨_, rfl⟩

/-- Free space is in one piece, unless there is room both before the content and behind it. -/
theorem freeSpans_cases {r : Ring} (valid : r.Valid) (room : r.isFull = false) :
    (∃ n, r.freeSpans = [n]) ∨ (r.head ≠ 0 ∧ r.head + r.used < r.capacity) ∧
      r.freeSpans = [r.capacity - (r.head + r.used), r.head] := by
  have fits := valid.used_le
  have some : r.used ≠ r.capacity := beq_eq_false_iff_ne.1 room
  rw [freeSpans_eq valid]
  unfold roomBehind free
  by_cases turns : r.head + r.used < r.capacity
  · rw [if_pos turns]
    have behind : 0 < r.capacity - (r.head + r.used) := by omega
    by_cases start : r.head = 0
    · have nothing : r.capacity - r.used - (r.capacity - (r.head + r.used)) = 0 := by omega
      rw [nothing]
      exact .inl ⟨r.capacity - (r.head + r.used), by simp [behind]⟩
    · have before : r.capacity - r.used - (r.capacity - (r.head + r.used)) = r.head := by omega
      refine .inr ⟨⟨start, turns⟩, ?_⟩
      rw [before]
      simp [behind, Nat.pos_of_ne_zero start]
  · rw [if_neg turns, Nat.sub_self]
    have somewhere : 0 < r.capacity - r.used := by omega
    exact .inl ⟨r.capacity - r.used, by simp [somewhere]⟩

/-- The ring `after` is `r` with more content that lies in one piece, and there is still room, all
of it before the content. -/
structure FillsEnd (r after : Ring) : Prop where
  begun : r.head ≠ 0
  piece : r.isContiguous
  grown : r.used < after.used
  whole : after.isContiguous
  room : after.isFull = false

/-- To fill all room behind content that does not begin at the first cell leaves the room before
it. -/
theorem fillsEnd_fill {r : Ring} (begun : r.head ≠ 0) (turns : r.head + r.used < r.capacity)
    {data : Bytes} (exactly : data.length = r.capacity - (r.head + r.used)) :
    r.FillsEnd (r.fill data) where
  begun := begun
  piece := decide_eq_true (Nat.le_of_lt turns)
  grown := by
    change r.used < r.used + data.length
    omega
  whole := by
    refine decide_eq_true ?_
    change r.head + (r.used + data.length) ≤ r.capacity
    omega
  room := by
    refine beq_eq_false_iff_ne.2 ?_
    change r.used + data.length ≠ r.capacity
    omega

/-- A source that fails has stored nothing, or has just filled the first of two pieces of free
space. -/
theorem ensures_storeFrom_of_error {source : Source (Machine τ ω)} {r : Ring} (valid : r.Valid) :
    Ensures (fun _ => True) (r.storeFrom source) fun intake _ =>
      ∀ e, intake.result = .error e →
        (intake.ring = r ∧ intake.moved = []) ∨ r.FillsEnd intake.ring := by
  have asked {after : World τ ω → Prop} : Ensures after source.isEnded fun _ _ => True :=
    fun _ _ _ _ _ => trivial
  have answered (n : Nat) : Ensures (fun _ : World τ ω => True) (source.read n) fun _ _ => True :=
    fun _ _ _ _ _ => trivial
  have one (n : Nat) (r : Ring) : Ensures (fun _ : World τ ω => True) (readSpans source [n] r)
      fun got _ => got.2.2 = none ∨ got.1 = r ∧ got.2.1 = [] := by
    refine Ensures.bind (answered n) fun answer => ?_
    rcases answer with e | data
    · exact ensures_pure fun _ _ => .inr ⟨rfl, rfl⟩
    · dsimp only
      split <;> exact ensures_pure fun _ _ => .inl rfl
  have two (n m : Nat) : Ensures (fun _ : World τ ω => True) (readSpans source [n, m] r)
      fun got _ => got.2.2 = none ∨ (got.1 = r ∧ got.2.1 = []) ∨
        ∃ data : Bytes, data.length = n ∧ got.1 = r.fill data := by
    refine Ensures.bind (answered n) fun answer => ?_
    rcases answer with e | data
    · exact ensures_pure fun _ _ => .inr (.inl ⟨rfl, rfl⟩)
    · dsimp only
      split
      · exact ensures_pure fun _ _ => .inl rfl
      · rename_i whole
        have exactly : (data.take n).length = n :=
          Nat.le_antisymm (List.length_take_le _ _) (Nat.not_lt.1 whole)
        refine Ensures.bind (one m (r.fill (data.take n))) fun got => ?_
        exact ensures_pure fun _ ends =>
          ends.imp_right fun ⟨same, _⟩ => .inr ⟨_, exactly, same⟩
  have spans (room : r.isFull = false) : Ensures (fun _ : World τ ω => True)
      (readSpans source r.freeSpans r) fun got _ => got.2.2 = none ∨
        (got.1 = r ∧ got.2.1 = []) ∨ r.FillsEnd got.1 := by
    rcases freeSpans_cases valid room with ⟨n, single⟩ | ⟨⟨begun, turns⟩, both⟩
    · rw [single]
      exact (one n r).post_imp fun _ _ ends => ends.imp_right .inl
    · rw [both]
      refine (two _ _).post_imp fun got _ ends => ends.imp_right (Or.imp_right ?_)
      rintro ⟨data, exactly, filled⟩
      exact filled ▸ fillsEnd_fill begun turns exactly
  unfold storeFrom
  split
  · exact ensures_pure fun _ _ _ _ => .inl ⟨rfl, rfl⟩
  · split
    · exact ensures_pure fun _ _ _ failed => nomatch failed
    · rename_i some
      refine Ensures.bind (spans (Bool.eq_false_iff.2 some)) fun ⟨after, moved, failure⟩ => ?_
      cases failure with
      | some e =>
          exact ensures_pure fun _ failed _ _ => failed.resolve_left (Option.some_ne_none e)
      | none =>
          dsimp only
          split
          · refine Ensures.bind asked fun ended => ?_
            cases ended <;> exact ensures_pure fun _ _ _ failed => nomatch failed
          · exact ensures_pure fun _ _ _ failed => nomatch failed

/-- A source that fails has stored nothing in a ring that was empty. -/
theorem ensures_storeFrom_of_used_eq_zero {source : Source (Machine τ ω)} {r : Ring}
    (valid : r.Valid) (empty : r.used = 0) :
    Ensures (fun _ => True) (r.storeFrom source) fun intake _ =>
      ∀ e, intake.result = .error e → intake.ring = r ∧ intake.moved = [] :=
  (ensures_storeFrom_of_error valid).post_imp fun _ _ stopped e failed =>
    (stopped e failed).resolve_right fun ends => ends.begun (valid.head_eq empty)

/-- The number of bytes that went over, by the answer of the one who takes them: none if it is an
error. -/
def countOf : Except Error Nat → Nat
  | .ok count => count
  | .error _ => 0

theorem fillSpans_same (r : Ring) (lengths : List Nat) (data : Bytes) :
    (r.fillSpans lengths data).capacity = r.capacity ∧
      (r.fillSpans lengths data).region = r.region ∧
        (r.fillSpans lengths data).cleaned = r.cleaned := by
  induction lengths generalizing r data with
  | nil => exact ⟨rfl, rfl, rfl⟩
  | cons n lengths ih => exact ih (r.fill (data.take n)) (data.drop n)

/-- Storing bytes from a list puts as many at the end of the content as it says. -/
theorem fills_store {r : Ring} (valid : r.Valid) (data : Bytes) :
    r.Fills (data.take (countOf (r.store data).2)) (r.store data).1 := by
  by_cases closed : r.cleaned
  · have refused : r.store data = (r, .error (.closed .store)) := if_pos closed
    rw [refused]
    exact .refl valid
  · have stored : r.store data =
        (r.fillSpans r.freeSpans data, .ok (min data.length r.free)) := if_neg closed
    have content := toList_store valid (congrArg Prod.snd stored)
    have same := fillSpans_same r r.freeSpans data
    have after := valid.store data
    rw [stored] at content after ⊢
    exact ⟨after, content, same.1, same.2.1, same.2.2⟩

/-! ## Writing out -/

/-- The ring `after` is `r` without the bytes `moved` at its front. -/
structure Drains (r : Ring) (moved : Bytes) (after : Ring) : Prop where
  valid : after.Valid
  content : r.toList = moved ++ after.toList
  capacity : after.capacity = r.capacity
  region : after.region = r.region
  cleaned : after.cleaned = r.cleaned

theorem Drains.refl {r : Ring} (valid : r.Valid) : r.Drains [] r :=
  ⟨valid, rfl, rfl, rfl, rfl⟩

theorem Drains.trans {r middle after : Ring} {first second : Bytes} (h : r.Drains first middle)
    (h' : middle.Drains second after) : r.Drains (first ++ second) after where
  valid := h'.valid
  content := by rw [h.content, h'.content, List.append_assoc]
  capacity := h'.capacity.trans h.capacity
  region := h'.region.trans h.region
  cleaned := h'.cleaned.trans h.cleaned

theorem Drains.length_add_used {r after : Ring} {moved : Bytes} (valid : r.Valid)
    (h : r.Drains moved after) : moved.length + after.used = r.used := by
  rw [← valid.length_toList, ← h.valid.length_toList, h.content, List.length_append]

/-- What moved out left room behind. -/
theorem Drains.free_eq {r after : Ring} {moved : Bytes} (valid : r.Valid)
    (h : r.Drains moved after) : after.free = r.free + moved.length := by
  have total := h.length_add_used valid
  have inside := valid.used_le
  unfold free
  rw [h.capacity]
  omega

/-- To drop a first part of the content is to move it out. -/
theorem drains_discard {r : Ring} (valid : r.Valid) {moved : Bytes} (front : moved <+: r.toList) :
    r.Drains moved (r.discard moved.length) := by
  obtain ⟨rest, content⟩ := front
  have le : moved.length ≤ r.used := by
    rw [← valid.length_toList, ← content, List.length_append]
    exact Nat.le_add_right _ _
  refine ⟨valid.discard le, ?_, rfl, rfl, rfl⟩
  rw [toList_discard valid le, ← content, List.drop_left]

/-- The ring `after` is `r` once the bytes `moved` have come in at its end and the bytes `gone` have
left it at its front. -/
structure Passes (r : Ring) (moved gone : Bytes) (after : Ring) : Prop where
  valid : after.Valid
  content : r.toList ++ moved = gone ++ after.toList
  capacity : after.capacity = r.capacity
  region : after.region = r.region
  cleaned : after.cleaned = r.cleaned

theorem Passes.refl {r : Ring} (valid : r.Valid) : r.Passes [] [] r :=
  ⟨valid, List.append_nil _, rfl, rfl, rfl⟩

theorem Passes.trans {r middle after : Ring} {moved gone moved' gone' : Bytes}
    (h : r.Passes moved gone middle) (h' : middle.Passes moved' gone' after) :
    r.Passes (moved ++ moved') (gone ++ gone') after where
  valid := h'.valid
  content := by
    rw [← List.append_assoc, h.content, List.append_assoc, h'.content, List.append_assoc]
  capacity := h'.capacity.trans h.capacity
  region := h'.region.trans h.region
  cleaned := h'.cleaned.trans h.cleaned

theorem Fills.passes {r middle after : Ring} {moved gone : Bytes} (h : r.Fills moved middle)
    (h' : middle.Drains gone after) : r.Passes moved gone after where
  valid := h'.valid
  content := by rw [← h.content, h'.content]
  capacity := h'.capacity.trans h.capacity
  region := h'.region.trans h.region
  cleaned := h'.cleaned.trans h.cleaned

/-- Spans of the given places hold all content: each of them holds the front of what is left once
those before it were dropped, and none is empty as long as something is left. -/
def Holds : List (Nat × Nat) → Ring → Prop
  | [], r => r.used = 0
  | (start, count) :: spans, r =>
    (count ≤ r.used ∧ (count = 0 → r.used = 0)) ∧
      (r.cells.slice start count).toList = r.toList.take count ∧ Holds spans (r.discard count)

/-- The readable part is the first part of the content, up to the end of the circle. -/
theorem length_readable {r : Ring} (valid : r.Valid) : r.readable.toList.length = r.usedToEnd := by
  have le : r.usedToEnd ≤ r.used := Nat.min_le_left _ _
  have content : r.toList =
      r.readable.toList ++ (r.cells.slice 0 (r.used - r.usedToEnd)).toList := rfl
  have first : r.readable.toList.length ≤ r.usedToEnd := by
    rw [readable, Block.toList_slice]
    exact List.length_take_le _ _
  have second : (r.cells.slice 0 (r.used - r.usedToEnd)).toList.length ≤ r.used - r.usedToEnd := by
    rw [Block.toList_slice]
    exact List.length_take_le _ _
  have length := valid.length_toList
  rw [content, List.length_append] at length
  omega

theorem readable_prefix (r : Ring) : r.readable.toList <+: r.toList := List.prefix_append _ _

/-- Where there is content, some of it is readable. -/
theorem used_eq_zero_of_usedToEnd {r : Ring} (valid : r.Valid) (none : r.usedToEnd = 0) :
    r.used = 0 := by
  have inside := valid.head_lt
  unfold usedToEnd at none
  omega

theorem holds_usedSpans {r : Ring} (valid : r.Valid) : Holds r.usedSpans r := by
  have le : r.usedToEnd ≤ r.used := Nat.min_le_left _ _
  have content : r.toList =
      r.readable.toList ++ (r.cells.slice 0 (r.used - r.usedToEnd)).toList := rfl
  have second : (r.cells.slice 0 (r.used - r.usedToEnd)).toList.length ≤ r.used - r.usedToEnd := by
    rw [Block.toList_slice]
    exact List.length_take_le _ _
  have whole := length_readable valid
  have nothing_left : r.used - r.usedToEnd - (r.used - r.usedToEnd) = 0 := Nat.sub_self _
  refine ⟨⟨le, used_eq_zero_of_usedToEnd valid⟩, ?_, ⟨Nat.le_refl _, id⟩, ?_, nothing_left⟩
  · rw [content, ← whole, List.take_left, whole]
    rfl
  · rw [toList_discard valid le, content, ← whole, List.drop_left, whole]
    exact (List.take_of_length_le second).symm

/-- Where a span holds the front of the content, its first bytes are the first of the content. -/
theorem toList_slice_min {r : Ring} {start count : Nat}
    (content : (r.cells.slice start count).toList = r.toList.take count) (max : Nat) :
    (r.cells.slice start (min count max)).toList = r.toList.take (min count max) := by
  rw [Block.toList_slice, Nat.min_comm, ← List.take_take, ← Block.toList_slice, content,
    List.take_take]

theorem length_take_min {r : Ring} (valid : r.Valid) {count : Nat} (le : count ≤ r.used)
    (max : Nat) :
    (r.toList.take (min count max)).length = min count max := by
  rw [List.length_take, valid.length_toList]
  omega

/-- An answer that leaves something of what was offered: an error, or a count of fewer bytes. -/
def Short (offered : Bytes) : Except Error Nat → Prop
  | .error _ => True
  | .ok count => count < offered.length

/-- How far writing at most `max` of `total` bytes has come with a sink that gives certain answers:
all the way, unless the sink fell short. -/
structure Reaches (answers : Bytes → Except Error Nat → Prop) (max total : Nat) (moved : Bytes)
    (failure : Option Error) : Prop where
  length_le : moved.length ≤ max
  failed : ∀ e, failure = some e → ∃ offered, answers offered (.error e)
  far : moved.length = min max total ∨
    ∃ offered answer, answers offered answer ∧ Short offered answer

/-- Where nothing may be written, or there is nothing to write, writing is all the way. -/
theorem Reaches.nothing {answers : Bytes → Except Error Nat → Prop} {max total : Nat}
    (none : min max total = 0) : Reaches answers max total [] Option.none :=
  ⟨Nat.zero_le _, nofun, .inl none.symm⟩

/-- A sink that takes less than it is offered is offered no more. -/
theorem Reaches.of_short {answers : Bytes → Except Error Nat → Prop} {max total : Nat}
    {offered moved : Bytes} {count : Nat} (answered : answers offered (.ok count))
    (short : count < offered.length) (length_le : moved.length ≤ max) :
    Reaches answers max total moved none :=
  ⟨length_le, nofun, .inr ⟨_, _, answered, short⟩⟩

/-- After a part that was taken whole, what remains is written as far as it goes. -/
theorem Reaches.onward {answers : Bytes → Except Error Nat → Prop} {max total left : Nat}
    {first moved : Bytes} {failure : Option Error} (le : first.length ≤ max)
    (split : first.length + left = total)
    (h : Reaches answers (max - first.length) left moved failure) :
    Reaches answers max total (first ++ moved) failure := by
  refine ⟨?_, h.failed, h.far.imp_left fun far => ?_⟩
  · have length_le := h.length_le
    rw [List.length_append]
    omega
  · rw [List.length_append, far]
    omega

theorem writeSpans_zero {m : Type → Type} [Monad m] (sink : Sink m) (spans : List (Nat × Nat))
    (r : Ring) : writeSpans sink spans 0 r = pure (r, [], none) := by
  cases spans with
  | nil => rfl
  | cons span spans =>
      obtain ⟨start, count⟩ := span
      have none : (r.cells.slice start (min count 0)).toList.isEmpty := by
        rw [Block.toList_slice, Nat.min_zero, List.take_zero]
        rfl
      unfold writeSpans
      exact if_pos none

/-- What is true of the world may depend on the bytes that the sink has taken so far. -/
theorem tracks_writeSpans {sink : Sink (Machine τ ω)} {answers : Bytes → Except Error Nat → Prop}
    {inv : Bytes → World τ ω → Prop} (writes : ∀ taken offered,
      Ensures (inv taken) (sink.write offered) fun answer w =>
        inv (taken ++ offered.take (countOf answer)) w ∧ answers offered answer)
    {spans : List (Nat × Nat)} {max : Nat} {r : Ring} (valid : r.Valid) (holds : Holds spans r)
    (taken : Bytes) :
    Ensures (inv taken) (writeSpans sink spans max r) fun out w =>
      inv (taken ++ out.2.1) w ∧ r.Drains out.2.1 out.1 ∧
        Reaches answers max r.used out.2.1 out.2.2 := by
  have stop {r : Ring} (valid : r.Valid) {max : Nat} (none : min max r.used = 0) (taken : Bytes) :
      Ensures (inv taken) (pure (r, [], Option.none)) fun (out : Ring × Bytes × Option Error) w =>
        inv (taken ++ out.2.1) w ∧ r.Drains out.2.1 out.1 ∧
          Reaches answers max r.used out.2.1 out.2.2 := by
    refine ensures_pure fun w kept => ⟨?_, .refl valid, .nothing none⟩
    rw [List.append_nil]
    exact kept
  induction spans generalizing r max taken with
  | nil =>
      have nothing : r.used = 0 := holds
      refine stop valid ?_ taken
      rw [nothing, Nat.min_zero]
  | cons span spans ih =>
      obtain ⟨start, count⟩ := span
      obtain ⟨⟨le, held⟩, content, rest⟩ := holds
      have offer_length := length_take_min valid le max
      unfold writeSpans
      rw [toList_slice_min content max]
      dsimp only
      split
      · rename_i nothing
        rw [List.isEmpty_iff_length_eq_zero, offer_length] at nothing
        refine stop valid ?_ taken
        omega
      · refine Ensures.bind (writes taken _) fun answer => ?_
        rcases answer with e | n
        · refine ensures_pure fun w ⟨kept, answered⟩ => ⟨kept, .refl valid, Nat.zero_le _, ?_, ?_⟩
          · rintro _ ⟨⟩
            exact ⟨_, answered⟩
          · exact .inr ⟨_, _, answered, trivial⟩
        · rw [countOf]
          have first : (r.toList.take (min count max)).take n <+: r.toList :=
            (List.take_prefix _ _).trans (List.take_prefix _ _)
          have drained := drains_discard valid first
          have length := List.length_take (i := n) (l := r.toList.take (min count max))
          rw [offer_length] at length
          dsimp only
          have split := drained.length_add_used valid
          split
          · refine ensures_pure fun w ⟨kept, answered⟩ => ⟨kept, drained, .of_short answered ?_ ?_⟩
            · omega
            · change ((r.toList.take (min count max)).take n).length ≤ max
              omega
          · have within : ((r.toList.take (min count max)).take n).length ≤ max := by omega
            generalize (r.toList.take (min count max)).take n = part at *
            have onward : Ensures (inv (taken ++ part)) (writeSpans sink spans (max - part.length)
                (r.discard part.length)) fun out w => inv (taken ++ part ++ out.2.1) w ∧
                  (r.discard part.length).Drains out.2.1 out.1 ∧
                  Reaches answers (max - part.length) (r.discard part.length).used out.2.1
                    out.2.2 := by
              by_cases more : count ≤ max
              · have all : part.length = count := by omega
                rw [all] at drained ⊢
                exact ih drained.valid rest _
              · have all : part.length = max := by omega
                rw [all, Nat.sub_self, writeSpans_zero]
                exact stop (all ▸ drained.valid) (Nat.zero_min _) _
            refine (onward.pre_imp fun _ => And.left).bind fun out => ?_
            refine ensures_pure fun w ⟨kept, drained', reaches⟩ => ?_
            refine ⟨?_, drained.trans drained', reaches.onward within split⟩
            rw [← List.append_assoc]
            exact kept

/-- Writing out takes a first part of the content away, as far as the sink lets it. -/
structure Pours (answers : Bytes → Except Error Nat → Prop) (r : Ring) (max : Nat)
    (outflow : Outflow) : Prop where
  drains : r.Drains outflow.moved outflow.ring
  length_le : outflow.moved.length ≤ max
  counted : ∀ n, outflow.result = .ok n → n = outflow.moved.length
  failed : ∀ e, outflow.result = .error e →
    r.cleaned ∨ ∃ offered, answers offered (.error e)
  far : r.cleaned = false → outflow.moved.length = min max r.used ∨
    ∃ offered answer, answers offered answer ∧ Short offered answer

theorem tracks_writeTo {sink : Sink (Machine τ ω)} {answers : Bytes → Except Error Nat → Prop}
    {inv : Bytes → World τ ω → Prop} (writes : ∀ taken offered,
      Ensures (inv taken) (sink.write offered) fun answer w =>
        inv (taken ++ offered.take (countOf answer)) w ∧ answers offered answer)
    {r : Ring} (valid : r.Valid) (max : Nat) :
    Ensures (inv []) (r.writeTo sink max) fun outflow w =>
      inv outflow.moved w ∧ r.Pours answers max outflow := by
  unfold writeTo
  split
  · rename_i closed
    refine ensures_pure fun w kept => ⟨kept, .refl valid, Nat.zero_le _, nofun, ?_, ?_⟩
    · exact fun _ _ => .inl closed
    · intro intact
      rw [closed] at intact
      cases intact
  · refine (tracks_writeSpans writes valid (holds_usedSpans valid) []).bind fun out => ?_
    obtain ⟨after, moved, failure⟩ := out
    cases failure with
    | some e =>
        refine ensures_pure fun w ⟨kept, drains, reaches⟩ => ?_
        refine ⟨kept, drains, reaches.length_le, nofun, ?_, fun _ => reaches.far⟩
        rintro _ ⟨⟩
        exact .inr (reaches.failed e rfl)
    | none =>
        refine ensures_pure fun w ⟨kept, drains, reaches⟩ => ?_
        refine ⟨kept, drains, reaches.length_le, ?_, nofun, fun _ => reaches.far⟩
        rintro _ ⟨⟩
        rfl

theorem ensures_writeTo {sink : Sink (Machine τ ω)} {answers : Bytes → Except Error Nat → Prop}
    (writes : ∀ offered,
      Ensures inv (sink.write offered) fun answer w => inv w ∧ answers offered answer)
    {r : Ring} (valid : r.Valid) (max : Nat) :
    Ensures inv (r.writeTo sink max) fun outflow w => inv w ∧ r.Pours answers max outflow :=
  tracks_writeTo (fun _ => writes) valid max

/-! ## Content in one piece -/

theorem isContiguous_wrap (chunk : Bytes) : (wrap chunk).isContiguous :=
  decide_eq_true (Nat.le_of_eq (Nat.zero_add _))

/-- Content in one piece stays in one piece while it is drained. -/
theorem isContiguous_discard {r : Ring} (piece : r.isContiguous) {count : Nat}
    (le : count ≤ r.used) : (r.discard count).isContiguous := by
  have inside : r.head + r.used ≤ r.capacity := of_decide_eq_true piece
  apply decide_eq_true
  simp only [discard]
  split
  · omega
  · rw [Nat.mod_eq_of_lt (by omega)]
    omega

/-- What is left of a ring, and what came of it, after a sink gave its answer to an offer of the
first bytes. -/
def afterOffer (r : Ring) (offered : Bytes) : Except Error Nat → Outflow
  | .error e => ⟨r, [], .error e⟩
  | .ok n =>
    let taken := offered.take n
    ⟨r.discard taken.length, taken, .ok taken.length⟩

/-- What the sink did not take of an offer is still in front of the rest. -/
theorem drains_afterOffer {r : Ring} (valid : r.Valid) {offered rest : Bytes}
    (content : r.toList = offered ++ rest) (answer : Except Error Nat) :
    r.Drains (offered.take (countOf answer)) (r.afterOffer offered answer).ring ∧
      (r.afterOffer offered answer).ring.toList = offered.drop (countOf answer) ++ rest := by
  have drains : r.Drains (offered.take (countOf answer)) (r.afterOffer offered answer).ring := by
    cases answer with
    | error e => exact .refl valid
    | ok n =>
        apply drains_discard valid
        rw [content]
        exact (List.take_prefix _ _).trans (List.prefix_append _ _)
  refine ⟨drains, ?_⟩
  have split := drains.content
  rw [content] at split
  refine List.append_cancel_left (split.symm.trans ?_)
  rw [← List.append_assoc, List.take_append_drop]

theorem isContiguous_afterOffer {r : Ring} (valid : r.Valid) (piece : r.isContiguous)
    {offered rest : Bytes} (content : r.toList = offered ++ rest) (answer : Except Error Nat) :
    (r.afterOffer offered answer).ring.isContiguous := by
  cases answer with
  | error e => exact piece
  | ok n =>
      apply isContiguous_discard piece
      rw [← valid.length_toList, content, List.length_append, List.length_take]
      omega

theorem usedSpans_of_isContiguous {r : Ring} (piece : r.isContiguous) :
    r.usedSpans = [(r.head, r.used), (0, 0)] := by
  have inside : r.head + r.used ≤ r.capacity := of_decide_eq_true piece
  have whole : r.usedToEnd = r.used := by
    unfold usedToEnd
    omega
  rw [usedSpans, whole, Nat.sub_self]

/-- Content in one piece is all in the first span. -/
theorem toList_slice_of_isContiguous {r : Ring} (piece : r.isContiguous) (max : Nat) :
    (r.cells.slice r.head (min r.used max)).toList = r.toList.take max := by
  have inside : r.head + r.used ≤ r.capacity := of_decide_eq_true piece
  have whole : r.usedToEnd = r.used := by
    unfold usedToEnd
    omega
  have content : r.toList = (r.cells.slice r.head r.used).toList := by
    rw [toList, Ring.spans, readable, whole, Nat.sub_self, Block.toList_slice _ 0,
      List.take_zero, List.append_nil]
  rw [content, Block.toList_slice, Block.toList_slice, List.take_take, Nat.min_comm]

/-- Something is offered of content that is there. -/
theorem isEmpty_take_toList {r : Ring} (valid : r.Valid) (held : r.used ≠ 0) {max : Nat}
    (some : 0 < max) : (r.toList.take max).isEmpty = false := by
  rw [List.isEmpty_eq_false_iff, Ne, List.take_eq_nil_iff, toList_eq_nil_iff valid]
  rintro (none | none)
  · omega
  · exact held (beq_iff_eq.1 none)

/-- A ring whose content is in one piece offers it to the sink once. -/
theorem writeTo_of_isContiguous {sink : Sink (Machine τ ω)} {max : Nat} {r : Ring}
    (valid : r.Valid) (intact : r.cleaned = false) (piece : r.isContiguous) (held : r.used ≠ 0)
    (some : 0 < max) :
    r.writeTo sink max =
      r.afterOffer (r.toList.take max) <$> sink.write (r.toList.take max) := by
  have behind (max : Nat) (r : Ring) :
      writeSpans sink [(0, 0)] max r = pure (r, [], none) := by
    have nothing : (r.cells.slice 0 (min 0 max)).toList.isEmpty := by
      rw [Nat.zero_min, Block.toList_slice, List.take_zero]
      rfl
    unfold writeSpans
    exact if_pos nothing
  unfold writeTo
  rw [usedSpans_of_isContiguous piece, intact, if_neg Bool.false_ne_true, writeSpans]
  simp only [toList_slice_of_isContiguous piece, isEmpty_take_toList valid held some, behind,
    Bool.false_eq_true, if_false, bind_assoc, pure_bind, map_eq_pure_bind]
  apply bind_congr
  intro answer
  rcases answer with e | n
  · rfl
  · dsimp only
    split <;> simp only [pure_bind, List.append_nil] <;> rfl

/-! ## Transfers of rings of which nothing is known -/

section Closed

variable {K : ∀ α : Type, Machine τ ω α → Prop}

/-- Storing is what reading is. -/
theorem closed_storeFrom (closed : Closed K) {source : Source (Machine τ ω)}
    (reads : ∀ wanted, K _ (source.read wanted)) (ends : K _ source.isEnded) (r : Ring) :
    K _ (r.storeFrom source) := by
  have spans (lengths : List Nat) (r : Ring) : K _ (readSpans source lengths r) := by
    induction lengths generalizing r with
    | nil => exact closed.gives _
    | cons wanted lengths ih =>
        apply closed.andThen (reads wanted)
        intro answer
        rcases answer with e | data
        · exact closed.gives _
        · dsimp only
          split
          · exact closed.gives _
          · exact closed.andThen (ih _) fun got => closed.gives _
  unfold storeFrom
  split
  · exact closed.gives _
  · split
    · exact closed.gives _
    · refine closed.andThen (spans _ _) fun ⟨after, moved, failure⟩ => ?_
      cases failure with
      | some e => exact closed.gives _
      | none =>
          dsimp only
          split
          · apply closed.andThen ends
            intro ended
            cases ended <;> exact closed.gives _
          · exact closed.gives _

/-- Writing out is what writing into the sink is. -/
theorem closed_writeTo (closed : Closed K) {sink : Sink (Machine τ ω)}
    (writes : ∀ offered, K _ (sink.write offered)) (r : Ring) (max : Nat) :
    K _ (r.writeTo sink max) := by
  have spans (places : List (Nat × Nat)) (max : Nat) (r : Ring) :
      K _ (writeSpans sink places max r) := by
    induction places generalizing max r with
    | nil => exact closed.gives _
    | cons place places ih =>
        unfold writeSpans
        dsimp only
        split
        · exact closed.gives _
        · apply closed.andThen (writes _)
          intro answer
          rcases answer with e | count
          · exact closed.gives _
          · dsimp only
            split
            · exact closed.gives _
            · exact closed.andThen (ih _ _) fun out => closed.gives _
  unfold writeTo
  split
  · exact closed.gives _
  · refine closed.andThen (spans _ _ _) fun ⟨after, moved, failure⟩ => ?_
    cases failure <;> exact closed.gives _

end Closed

theorem keeps_storeFrom {source : Source (Machine τ ω)}
    (reads : ∀ wanted, Keeps inv (source.read wanted)) (ends : Keeps inv source.isEnded)
    (r : Ring) : Keeps inv (r.storeFrom source) :=
  closed_storeFrom (closed_keeps inv) reads ends r

theorem keeps_writeTo {sink : Sink (Machine τ ω)}
    (writes : ∀ offered, Keeps inv (sink.write offered)) (r : Ring) (max : Nat) :
    Keeps inv (r.writeTo sink max) :=
  closed_writeTo (closed_keeps inv) writes r max

end ByteFlow.Ring
