/-
# Streams of whole units

A stream that was put together from units comes apart in just one way if no unit is a beginning of
another. So whoever takes units off its front, takes the very units that it was put together from,
and what is left is a stream of the others.

Not all units of a format have to occur in a stream. Those that do are its words. Every beginning of
a word is an incomplete unit, whatever else the format has that begins like it.
-/

import ByteFlow.Proofs.Units

namespace ByteFlow

namespace Translates

variable {unit : Bytes → Bytes → Prop} {input output : Bytes}

/-- A translation read the other way. -/
theorem swap (h : Translates unit input output) :
    Translates (fun used pushed => unit pushed used) output input := by
  induction h with
  | nil => exact .nil
  | cons first _ ih => exact .cons first ih

end Translates

namespace Format

/-- A unit that fits into so many bytes. -/
def Within (F : Format) (room : Nat) (used pushed : Bytes) : Prop :=
  F.unit used pushed ∧ used.length ≤ room

/-- A byte string begins with at most one unit, and it is never two of these: whole units at the
front, incomplete, malformed. -/
structure Clear (F : Format) : Prop where
  unique : ∀ {used pushed used' pushed' rest rest' : Bytes}, F.unit used pushed →
    F.unit used' pushed' → used ++ rest = used' ++ rest' → used = used' ∧ pushed = pushed'
  complete : ∀ {used pushed rest : Bytes}, F.unit used pushed → ¬F.incomplete (used ++ rest)
  accepted : ∀ {used pushed rest : Bytes} {cause : Cause}, F.unit used pushed →
    ¬F.rejected (used ++ rest) cause
  pending : ∀ {rest : Bytes} {cause : Cause}, F.incomplete rest → ¬F.rejected rest cause
  rejected_nil : ∀ {cause : Cause}, ¬F.rejected [] cause

/-- A format that has a reader is clear if its units are told apart. -/
theorem Reads.clear {F : Format} {read : Bytes → Fed} (reads : F.Reads read)
    (unique : ∀ {used pushed used' pushed' rest rest' : Bytes}, F.unit used pushed →
      F.unit used' pushed' → used ++ rest = used' ++ rest' → used = used' ∧ pushed = pushed') :
    F.Clear where
  unique := unique
  complete := by
    intro used pushed rest unit incomplete
    have tail := congrArg Fed.tail ((reads.unit unit rest).symm.trans (reads.incomplete incomplete))
    have short := (reads.unread rest).length_le
    change (read rest).tail = _ at tail
    rw [tail, List.length_append] at short
    have held := List.length_pos_iff.2 (F.ne_nil_of_unit unit)
    omega
  accepted := by
    intro used pushed rest cause unit rejected
    have tail := congrArg Fed.tail ((reads.unit unit rest).symm.trans (reads.rejected rejected))
    have short := (reads.unread rest).length_le
    change (read rest).tail = _ at tail
    rw [tail, List.length_append] at short
    have held := List.length_pos_iff.2 (F.ne_nil_of_unit unit)
    omega
  pending incomplete rejected := by
    have both := (reads.incomplete incomplete).symm.trans (reads.rejected rejected)
    cases congrArg Fed.failure both
  rejected_nil rejected := by
    have both := reads.nil.symm.trans (reads.rejected rejected)
    cases congrArg Fed.failure both

/-- Some units of a format, each of whose beginnings is incomplete. -/
structure Spells (F : Format) (word : Bytes → Bytes → Prop) : Prop where
  unit : ∀ {used pushed : Bytes}, word used pushed → F.unit used pushed
  begins : ∀ {front rest pushed : Bytes}, word (front ++ rest) pushed → front ≠ [] → rest ≠ [] →
    F.incomplete front

variable {F : Format} {word taken : Bytes → Bytes → Prop}

/-- To leave words out makes no difference to the others. -/
theorem Spells.of_imp (spells : F.Spells word)
    (imp : ∀ {used pushed}, taken used pushed → word used pushed) : F.Spells taken :=
  ⟨fun taken => spells.unit (imp taken), fun taken => spells.begins (imp taken)⟩

/-- Two streams of units with the same beginning have their units in common, up to where the shorter
one ends. -/
theorem Clear.overlap (clear : F.Clear) {input output input' output' rest rest' : Bytes}
    (units : ∀ {used pushed}, taken used pushed → F.unit used pushed)
    (units' : ∀ {used pushed}, word used pushed → F.unit used pushed)
    (h : Translates taken input output) (h' : Translates word input' output')
    (same : input ++ rest = input' ++ rest') :
    (∃ left more, input' = input ++ left ∧ output' = output ++ more ∧ Translates word left more) ∨
      ∃ left more, input = input' ++ left ∧ output = output' ++ more ∧
        Translates taken left more := by
  induction h generalizing input' output' with
  | nil => exact .inl ⟨input', output', rfl, rfl, h'⟩
  | cons first others ih =>
      cases h' with
      | nil => exact .inr ⟨_, _, rfl, rfl, others.cons first⟩
      | cons first' others' =>
          rw [List.append_assoc, List.append_assoc] at same
          obtain ⟨rfl, rfl⟩ := clear.unique (units first) (units' first') same
          rcases ih others' (List.append_cancel_left same) with
            ⟨left, more, rfl, rfl, translates⟩ | ⟨left, more, rfl, rfl, translates⟩
          · exact .inl ⟨left, more, (List.append_assoc _ _ _).symm, (List.append_assoc _ _ _).symm,
              translates⟩
          · exact .inr ⟨left, more, (List.append_assoc _ _ _).symm, (List.append_assoc _ _ _).symm,
              translates⟩

/-- Units are taken off the front of a stream only up to the first one that is not to be taken. -/
theorem Clear.before_untaken (clear : F.Clear)
    {input output input' output' rest used pushed rest' : Bytes}
    (units : ∀ {used pushed}, taken used pushed → F.unit used pushed)
    (units' : ∀ {used pushed}, word used pushed → F.unit used pushed)
    (h : Translates taken input output) (h' : Translates word input' output')
    (unit : F.unit used pushed) (untaken : ¬taken used pushed)
    (same : input ++ rest = input' ++ (used ++ rest')) :
    ∃ left more, input' = input ++ left ∧ output' = output ++ more ∧ Translates word left more := by
  rcases clear.overlap units units' h h' same with shorter | ⟨left, more, rfl, rfl, translates⟩
  · exact shorter
  · rw [List.append_assoc] at same
    have same := List.append_cancel_left same
    cases translates with
    | nil => exact ⟨[], [], by rw [List.append_nil, List.append_nil],
        by rw [List.append_nil, List.append_nil], .nil⟩
    | cons first _ =>
        rw [List.append_assoc] at same
        obtain ⟨rfl, rfl⟩ := clear.unique (units first) unit same
        exact (untaken first).elim

/-- Units that are taken off the front of a stream of words are words of it, and what is left is a
stream of the others. -/
theorem Clear.rest_of_words (clear : F.Clear) {input output rest data : Bytes}
    (units : ∀ {used pushed}, taken used pushed → F.unit used pushed) (spells : F.Spells word)
    (h : Translates taken input output) (whole : Translates word (input ++ rest) data) :
    ∃ more, data = output ++ more ∧ Translates word rest more := by
  have same : input ++ rest = input ++ rest ++ [] := (List.append_nil _).symm
  rcases clear.overlap units spells.unit h whole same with
    ⟨left, more, same, rfl, translates⟩ | ⟨left, more, same, rfl, translates⟩
  · obtain rfl := List.append_cancel_left same
    exact ⟨more, rfl, translates⟩
  · rw [List.append_assoc] at same
    obtain ⟨rfl, rfl⟩ := List.append_eq_nil_iff.1 (List.self_eq_append_right.1 same)
    have none := translates.eq_nil fun taken => F.ne_nil_of_unit (units taken)
    rw [none, List.append_nil]
    exact ⟨[], (List.append_nil _).symm, .nil⟩

/-- Words that are nothing or an incomplete unit stand for nothing. -/
theorem Clear.eq_nil_of_incomplete (clear : F.Clear) {content data : Bytes}
    (units : ∀ {used pushed}, word used pushed → F.unit used pushed)
    (h : Translates word content data) (left : content = [] ∨ F.incomplete content) :
    data = [] := by
  cases h with
  | nil => rfl
  | cons first others =>
      rcases left with none | incomplete
      · have held := F.ne_nil_of_unit (units first)
        exact (held (List.append_eq_nil_iff.1 none).1).elim
      · exact (clear.complete (units first) incomplete).elim

/-- What is at the front of a stream of words begins with a word, or is the beginning of one. -/
theorem Spells.front (spells : F.Spells word) {content more data : Bytes}
    (h : Translates word (content ++ more) data) (held : content ≠ []) :
    (∃ used pushed rest, word used pushed ∧ content = used ++ rest) ∨
      (F.incomplete content ∧
        ∃ used pushed rest, word used pushed ∧ used = content ++ rest ∧ rest ≠ []) := by
  generalize eq : content ++ more = stream at h
  cases h with
  | nil => exact (held (List.append_eq_nil_iff.1 eq).1).elim
  | @cons used pushed others _ first _ =>
      rcases List.append_eq_append_iff.1 eq with ⟨rest, split, _⟩ | ⟨rest, split, _⟩
      · by_cases none : rest = []
        · rw [none, List.append_nil] at split
          exact .inl ⟨used, pushed, [], first, by rw [split, List.append_nil]⟩
        · subst split
          exact .inr ⟨spells.begins first held none, _, pushed, rest, first, rfl, none⟩
      · exact .inl ⟨used, pushed, rest, first, split⟩

/-- Nothing is malformed at the front of a stream of words. -/
theorem Spells.not_rejected (spells : F.Spells word) (clear : F.Clear) {content more data : Bytes}
    (h : Translates word (content ++ more) data) (cause : Cause) : ¬F.rejected content cause := by
  intro rejected
  have held : content ≠ [] := fun none => clear.rejected_nil (none ▸ rejected)
  rcases spells.front h held with ⟨used, pushed, rest, word, rfl⟩ | ⟨incomplete, _⟩
  · exact clear.accepted (spells.unit word) rejected
  · exact clear.pending incomplete rejected

/-- What is incomplete at the front of a stream of words is shorter than one of the words. -/
theorem Spells.lt_of_incomplete (spells : F.Spells word) (clear : F.Clear)
    {content more data : Bytes} (h : Translates word (content ++ more) data) (held : content ≠ [])
    (incomplete : F.incomplete content) :
    ∃ used pushed rest, word used pushed ∧ used = content ++ rest ∧ rest ≠ [] := by
  rcases spells.front h held with ⟨used, pushed, rest, word, rfl⟩ | ⟨_, begins⟩
  · exact (clear.complete (spells.unit word) incomplete).elim
  · exact begins

end Format

end ByteFlow
