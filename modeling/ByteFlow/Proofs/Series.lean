/-
# Calls in a row

An encoder is called again and again, each time on a first part of what it has left. In between its
queue may be drained, its ceiling may be another one, and the scratch buffer may hold anything. What
a single call takes is a row of pieces, and it pushes one chunk for each of them; so a series of
calls does the same, wherever the calls were cut.
-/

import ByteFlow.Proofs.Packing

namespace ByteFlow

/-- A chunk that was accepted joins those that were pushed before. -/
theorem Output.chunks_of_offer {o after : Output} {chunk : Bytes} (held : chunk ≠ [])
    (accepted : o.offer chunk = (after, .ok ())) :
    (o.offer chunk).2 = .ok () ∧ (o.offer chunk).1.chunks = o.chunks ++ [chunk] := by
  have some : ¬chunk.isEmpty := fun none => held (List.isEmpty_iff.1 none)
  unfold offer push at accepted ⊢
  rw [if_neg some] at accepted ⊢
  by_cases room : o.fits chunk.length
  · rw [if_pos room]
    exact ⟨rfl, List.reverse_cons⟩
  · rw [if_neg room] at accepted
    cases accepted

/-- If each piece for which there is room is put into one chunk, then a first part of the input is
cut into pieces and each piece is put into one chunk. -/
theorem packPieces_eq_done {room : Output → Nat}
    {put : Output → Bytes → Output × Except Error Unit} {max : Nat} {encode : Bytes → Bytes}
    (limited : ∀ o, room o ≤ max)
    (puts : ∀ {o : Output} {piece : Bytes}, piece ≠ [] → piece.length ≤ room o →
      (put o piece).2 = .ok () ∧ (put o piece).1.chunks = o.chunks ++ [encode piece])
    (consumed : Nat) (rest : Bytes) (o : Output) :
    ∃ pieces : List Bytes, pieces.flatten <+: rest ∧
      (∀ piece ∈ pieces, piece ≠ [] ∧ piece.length ≤ max) ∧
      (packPieces room put consumed rest o).1 = .done (consumed + pieces.flatten.length) ∧
      (packPieces room put consumed rest o).2.chunks = o.chunks ++ pieces.map encode := by
  fun_induction packPieces room put consumed rest o with
  | case1 consumed rest o piece none =>
      exact ⟨[], List.nil_prefix, List.forall_mem_nil _, rfl, (List.append_nil _).symm⟩
  | case2 consumed rest o piece some after e refused =>
      have accepted := (puts some (List.length_take_le _ _)).1
      rw [refused] at accepted
      cases accepted
  | case3 consumed rest o piece some after accepted ih =>
      obtain ⟨pieces, front, each, step, chunks⟩ := ih
      have inside : piece.length ≤ room o := List.length_take_le _ _
      have pushed := (puts some inside).2
      rw [accepted] at pushed
      have split := List.prefix_iff_eq_append.1 (List.take_prefix (room o) rest)
      refine ⟨piece :: pieces, ?_,
        List.forall_mem_cons.2 ⟨⟨some, Nat.le_trans inside (limited o)⟩, each⟩, ?_, ?_⟩
      · rw [List.flatten_cons, ← split]
        exact (List.prefix_append_right_inj piece).2 front
      · rw [step, List.flatten_cons, List.length_append, Nat.add_assoc]
      · rw [chunks, pushed, List.append_assoc, List.map_cons]
        rfl

/-- What a call in a series meets: how many of the bytes that are left it is given, and the output
that it is given. -/
structure Occasion where
  given : Nat
  queue : Queue
  scratch : Block
  ceiling : Nat

def Occasion.output (occasion : Occasion) : Output :=
  .new occasion.queue occasion.scratch occasion.ceiling

/-- What a series of calls comes to: the bytes that it consumed, the chunks that it pushed, the
bytes that are left, and why it ended early, if it did. -/
structure Series where
  consumed : Bytes
  chunks : List Bytes
  rest : Bytes
  failure : Option Cause
deriving DecidableEq, Repr

namespace Series

/-- What a series comes to if a call was made before. -/
def after (series : Series) (consumed : Bytes) (chunks : List Bytes) : Series :=
  { series with consumed := consumed ++ series.consumed, chunks := chunks ++ series.chunks }

/-- Makes one call after the other, one on each occasion, on a first part of what is left. An error
ends the series. -/
def run (call : Bytes → Output → Step × Output) (left : Bytes) : List Occasion → Series
  | [] => ⟨[], [], left, none⟩
  | occasion :: later =>
    match call (left.take occasion.given) occasion.output with
    | (.done consumed, o) | (.underflow consumed, o) =>
      (run call (left.drop consumed) later).after (left.take consumed) o.chunks
    | (.errored cause, o) => ⟨[], o.chunks, left, some cause⟩

variable {call : Bytes → Output → Step × Output} {max : Nat} {encode : Bytes → Bytes}

theorem run_of_done {data : Bytes} {occasion : Occasion} {later : List Occasion} {consumed : Nat}
    (done : (call (data.take occasion.given) occasion.output).1 = .done consumed) :
    run call data (occasion :: later) =
      (run call (data.drop consumed) later).after (data.take consumed)
        (call (data.take occasion.given) occasion.output).2.chunks := by
  rw [run]
  generalize call (data.take occasion.given) occasion.output = out at done
  obtain ⟨step, o⟩ := out
  cases done
  rfl

/-- A call takes pieces from the front of its input, none of them empty or longer than `max`, and
pushes the encoding of each as a chunk of its own. -/
def TakesPieces (max : Nat) (encode : Bytes → Bytes) (call : Bytes → Output → Step × Output) :
    Prop :=
  ∀ input o, ∃ pieces : List Bytes, pieces.flatten <+: input ∧
    (∀ piece ∈ pieces, piece ≠ [] ∧ piece.length ≤ max) ∧
    (call input o).1 = .done pieces.flatten.length ∧
    (call input o).2.chunks = o.chunks ++ pieces.map encode

/-- A series of such calls cuts what it consumes into pieces and pushes the encoding of each. -/
theorem run_eq_pieces (takes : TakesPieces max encode call) (data : Bytes)
    (occasions : List Occasion) :
    ∃ pieces : List Bytes, pieces.flatten ++ (run call data occasions).rest = data ∧
      (∀ piece ∈ pieces, piece ≠ [] ∧ piece.length ≤ max) ∧
      (run call data occasions).consumed = pieces.flatten ∧
      (run call data occasions).chunks = pieces.map encode ∧
      (run call data occasions).failure = none := by
  induction occasions generalizing data with
  | nil => exact ⟨[], rfl, List.forall_mem_nil _, rfl, rfl, rfl⟩
  | cons occasion later ih =>
      obtain ⟨pieces, front, each, step, chunks⟩ :=
        takes (data.take occasion.given) occasion.output
      have start : pieces.flatten <+: data := front.trans (List.take_prefix _ _)
      have split := List.prefix_iff_eq_append.1 start
      have taken := List.prefix_iff_eq_take.1 start
      obtain ⟨others, whole, every, consumed, pushed, failure⟩ :=
        ih (data.drop pieces.flatten.length)
      rw [run_of_done step, chunks]
      refine ⟨pieces ++ others, ?_, List.forall_mem_append.2 ⟨each, every⟩, ?_, ?_, failure⟩
      · rw [List.flatten_append, List.append_assoc]
        change pieces.flatten ++ (others.flatten ++ (run call _ later).rest) = data
        rw [whole, split]
      · change data.take _ ++ (run call _ later).consumed = _
        rw [List.flatten_append, ← consumed, ← taken]
      · rw [List.map_append, ← pushed]
        rfl

end Series

end ByteFlow
