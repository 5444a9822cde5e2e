/-
# The content of a queue

A queue that was built by the operations of `ByteFlow.Queue` is `Queue.Valid`: it counts its bytes
rightly and holds no empty segment. Its content is the content of its segments, and each operation
acts on it at one end. How the segments are divided between the two lists is not seen: all laws
speak of `Queue.segments` and `Queue.toList`.
-/

import ByteFlow.Queue
import ByteFlow.Ring.Content

namespace ByteFlow.Queue

/-- The count of bytes is right, and no segment is empty. -/
structure Valid (q : Queue) : Prop where
  segments : ∀ segment ∈ q.segments, segment.Valid ∧ segment.used ≠ 0
  bytes_eq : q.bytes = q.toList.length

@[simp]
theorem segments_empty : empty.segments = [] := rfl

@[simp]
theorem toList_empty : empty.toList = [] := rfl

theorem valid_empty : empty.Valid := by
  constructor <;> simp [empty, segments, toList]

theorem length_eq_length_segments (q : Queue) : q.length = q.segments.length := by
  simp [length, segments]

theorem isEmpty_iff_segments_eq_nil {q : Queue} : q.isEmpty ↔ q.segments = [] := by
  simp [isEmpty, segments]

/-- What a segment adds to the waiting ones on either side: itself, unless it is empty. -/
def kept (segment : Ring) : List Ring := if segment.isEmpty then [] else [segment]

theorem mem_kept_iff {segment other : Ring} :
    other ∈ kept segment ↔ other = segment ∧ segment.used ≠ 0 := by
  unfold kept
  split <;> simp_all [Ring.isEmpty]

theorem flatMap_toList_kept {segment : Ring} (valid : segment.Valid) :
    (kept segment).flatMap Ring.toList = segment.toList := by
  unfold kept
  split
  · rename_i none
    exact ((Ring.toList_eq_nil_iff valid).2 none).symm
  · exact List.flatMap_singleton _ _

theorem segments_pushBack (q : Queue) (segment : Ring) :
    (q.pushBack segment).segments = q.segments ++ kept segment := by
  unfold pushBack kept
  split <;> simp [segments]

theorem segments_pushFront (q : Queue) (segment : Ring) :
    (q.pushFront segment).segments = kept segment ++ q.segments := by
  unfold pushFront kept
  split <;> simp [segments]

/-- The head leaves, all others stay, and its bytes are no longer counted. -/
theorem popFront_eq_some {q rest : Queue} {segment : Ring}
    (popped : q.popFront = some (segment, rest)) :
    q.segments = segment :: rest.segments ∧ rest.bytes = q.bytes - segment.used := by
  unfold popFront at popped
  split at popped
  · rename_i front at_front
    cases popped
    simp [segments, at_front]
  · rename_i at_front
    split at popped
    · cases popped
    · rename_i front at_back
      cases popped
      simp [segments, at_front, at_back]

theorem popFront_eq_none_iff {q : Queue} : q.popFront = none ↔ q.segments = [] := by
  unfold popFront
  split
  · rename_i at_front
    simp [segments, at_front]
  · rename_i at_front
    split <;> rename_i at_back <;> simp_all [segments]

theorem isEmpty_iff_bytes_eq_zero {q : Queue} (h : q.Valid) : q.isEmpty ↔ q.bytes = 0 := by
  rw [isEmpty_iff_segments_eq_nil, h.bytes_eq]
  constructor
  · intro none
    rw [toList, none]
    rfl
  · intro zero
    cases waiting : q.segments with
    | nil => rfl
    | cons segment rest =>
      obtain ⟨valid, some⟩ := h.segments segment (waiting ▸ List.mem_cons_self)
      rw [toList, waiting, List.flatMap_cons, List.length_append, valid.length_toList] at zero
      omega

theorem bytes_pushBack (q : Queue) (segment : Ring) :
    (q.pushBack segment).bytes = q.bytes + segment.used := by
  unfold pushBack
  split
  · rename_i none
    rw [beq_iff_eq.1 none, Nat.add_zero]
  · rfl

theorem bytes_pushFront (q : Queue) (segment : Ring) :
    (q.pushFront segment).bytes = q.bytes + segment.used := by
  unfold pushFront
  split
  · rename_i none
    rw [beq_iff_eq.1 none, Nat.add_zero]
  · rfl

theorem toList_pushBack (q : Queue) {segment : Ring} (valid : segment.Valid) :
    (q.pushBack segment).toList = q.toList ++ segment.toList := by
  rw [toList, segments_pushBack, List.flatMap_append, flatMap_toList_kept valid, toList]

theorem Valid.pushBack {q : Queue} (h : q.Valid) {segment : Ring} (valid : segment.Valid) :
    (q.pushBack segment).Valid := by
  constructor
  · rw [segments_pushBack]
    intro other member
    rcases List.mem_append.1 member with old | new
    · exact h.segments other old
    · obtain ⟨rfl, some⟩ := mem_kept_iff.1 new
      exact ⟨valid, some⟩
  · rw [bytes_pushBack, toList_pushBack q valid, List.length_append, valid.length_toList,
      h.bytes_eq]

theorem toList_pushFront (q : Queue) {segment : Ring} (valid : segment.Valid) :
    (q.pushFront segment).toList = segment.toList ++ q.toList := by
  rw [toList, segments_pushFront, List.flatMap_append, flatMap_toList_kept valid, toList]

theorem Valid.pushFront {q : Queue} (h : q.Valid) {segment : Ring} (valid : segment.Valid) :
    (q.pushFront segment).Valid := by
  constructor
  · rw [segments_pushFront]
    intro other member
    rcases List.mem_append.1 member with new | old
    · obtain ⟨rfl, some⟩ := mem_kept_iff.1 new
      exact ⟨valid, some⟩
    · exact h.segments other old
  · rw [bytes_pushFront, toList_pushFront q valid, List.length_append, valid.length_toList,
      h.bytes_eq, Nat.add_comm]

theorem toList_popFront {q rest : Queue} {segment : Ring}
    (popped : q.popFront = some (segment, rest)) : q.toList = segment.toList ++ rest.toList := by
  rw [toList, (popFront_eq_some popped).1, List.flatMap_cons, toList]

theorem Valid.popFront {q rest : Queue} (h : q.Valid) {segment : Ring}
    (popped : q.popFront = some (segment, rest)) :
    segment.Valid ∧ segment.used ≠ 0 ∧ rest.Valid ∧
      q.bytes = segment.used + rest.bytes := by
  obtain ⟨waiting, uncounted⟩ := popFront_eq_some popped
  obtain ⟨⟨valid, some⟩, others⟩ := List.forall_mem_cons.1 (waiting ▸ h.segments)
  have counted := h.bytes_eq
  rw [toList_popFront popped, List.length_append, valid.length_toList] at counted
  exact ⟨valid, some, ⟨others, by omega⟩, by omega⟩

end ByteFlow.Queue
