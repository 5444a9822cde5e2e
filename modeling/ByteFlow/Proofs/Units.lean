/-
# Unit by unit

A transform goes over its input unit by unit: each unit that fits its output is used, and what the
unit stands for is pushed. It stops at bytes that are no whole unit, at bytes that can be no unit at
all, or where its output is full.

`Format` says what units are, and a call that `Handles` a format does just this. Everything about
the codecs that is not about their own formats follows from here: a call uses a first part of its
input and pushes the translation of that part, and a decoder that handles a format follows every
reader of the format.
-/

import ByteFlow.Proofs.Feeding

namespace ByteFlow

/-- The second byte string is the translation of the first, unit by unit. -/
inductive Translates (unit : Bytes → Bytes → Prop) : Bytes → Bytes → Prop where
  | nil : Translates unit [] []
  | cons {used pushed rest more : Bytes} (first : unit used pushed)
      (others : Translates unit rest more) : Translates unit (used ++ rest) (pushed ++ more)

namespace Translates

variable {unit : Bytes → Bytes → Prop}

theorem append {input output more moreOutput : Bytes} (h : Translates unit input output)
    (h' : Translates unit more moreOutput) :
    Translates unit (input ++ more) (output ++ moreOutput) := by
  induction h with
  | nil => exact h'
  | cons first _ ih =>
      rw [List.append_assoc, List.append_assoc]
      exact ih.cons first

/-- Nothing is the translation of nothing only, if no unit is empty. -/
theorem eq_nil (held : ∀ {used pushed}, unit used pushed → used ≠ [])
    {output : Bytes}
    (h : Translates unit [] output) : output = [] := by
  generalize eq : ([] : Bytes) = input at h
  cases h with
  | nil => rfl
  | cons first _ =>
      have none := (List.append_eq_nil_iff.1 eq.symm).1
      exact (held first none).elim

/-- Units that stand for themselves come out as they came in. -/
theorem eq_of_copies {input output : Bytes} (h : Translates unit input output)
    (copies : ∀ {used pushed}, unit used pushed → pushed = used) : output = input := by
  induction h with
  | nil => rfl
  | cons first _ ih => rw [copies first, ih]

/-- If no unit grows by more than a factor, no stream does. -/
theorem length_le {growth : Nat} {input output : Bytes} (h : Translates unit input output)
    (grows : ∀ {used pushed}, unit used pushed → pushed.length ≤ growth * used.length) :
    output.length ≤ growth * input.length := by
  induction h with
  | nil => exact Nat.zero_le _
  | cons first _ ih =>
      rw [List.length_append, List.length_append, Nat.mul_add]
      exact Nat.add_le_add (grows first) ih

/-- Only the units that are in the input matter. -/
theorem imp {unit' : Bytes → Bytes → Prop} {input output : Bytes} (h : Translates unit input output)
    (imp : ∀ used pushed, used.length ≤ input.length → unit used pushed → unit' used pushed) :
    Translates unit' input output := by
  induction h with
  | nil => exact nil
  | cons first _ ih =>
      refine cons (imp _ _ ?_ first) (ih fun used pushed le => imp used pushed ?_)
      · rw [List.length_append]
        exact Nat.le_add_right _ _
      · rw [List.length_append]
        exact Nat.le_trans le (Nat.le_add_left _ _)

end Translates

/-- What a transform takes for a unit and what the unit stands for, what may still become a unit
when more bytes come, and what never will. -/
structure Format where
  unit : Bytes → Bytes → Prop
  incomplete : Bytes → Prop
  rejected : Bytes → Cause → Prop
  ne_nil_of_unit : ∀ {used pushed : Bytes}, unit used pushed → used ≠ []

namespace Format

variable (F : Format)

/-- What a call does with the rest of its input, of which `consumed` bytes were used before. -/
inductive Handles : (consumed : Nat) → (rest : Bytes) → Output → Step × Output → Prop where
  | unit {consumed : Nat} {used pushed rest : Bytes} {o after : Output} {out : Step × Output}
      (unit : F.unit used pushed)
      (flatten : after.chunks.flatten = o.chunks.flatten ++ pushed)
      (others : Handles (consumed + used.length) rest after out) :
      Handles consumed (used ++ rest) o out
  | nothing {consumed : Nat} {o : Output} : Handles consumed [] o (.done consumed, o)
  /-- Only a full output keeps a call from using a unit. -/
  | full {consumed : Nat} {rest : Bytes} {o : Output} (waiting : o.queue.isEmpty = false)
      (complete : ¬F.incomplete rest) : Handles consumed rest o (.done consumed, o)
  | incomplete {consumed : Nat} {rest : Bytes} {o : Output} (incomplete : F.incomplete rest) :
      Handles consumed rest o (.underflow consumed, o)
  | rejected {consumed : Nat} {rest : Bytes} {o : Output} {cause : Cause}
      (rejected : F.rejected rest cause) : Handles consumed rest o (.errored cause, o)

/-- Why a call stops behind the bytes that it used, with `rest` before it. The queue is the one that
the call was given. -/
def Stops (consumed : Nat) (used rest : Bytes) (queue : Queue) : Step → Prop
  | .done total =>
    total = consumed + used.length ∧
      (rest ≠ [] → ¬F.incomplete rest ∧ (used = [] → queue.isEmpty = false))
  | .underflow total => total = consumed + used.length ∧ F.incomplete rest
  | .errored cause => F.rejected rest cause

variable {F}

theorem Stops.cons {consumed : Nat} {unit used rest : Bytes} {queue queue' : Queue} {step : Step}
    (held : unit ≠ []) (h : F.Stops (consumed + unit.length) used rest queue step) :
    F.Stops consumed (unit ++ used) rest queue' step := by
  have some : unit ++ used ≠ [] := List.append_ne_nil_of_left_ne_nil held _
  cases step with
  | done total =>
      refine ⟨?_, fun more => ⟨(h.2 more).1, fun none => (some none).elim⟩⟩
      rw [h.1, List.length_append, Nat.add_assoc]
  | underflow total =>
      refine ⟨?_, h.2⟩
      rw [h.1, List.length_append, Nat.add_assoc]
  | errored cause => exact h

/-- A call uses a first part of its input and pushes the translation of it. -/
theorem Handles.split {consumed : Nat} {input : Bytes} {o after : Output} {step : Step}
    (h : F.Handles consumed input o (step, after)) :
    ∃ used rest pushed, input = used ++ rest ∧ Translates F.unit used pushed ∧
      after.chunks.flatten = o.chunks.flatten ++ pushed ∧
      F.Stops consumed used rest o.queue step := by
  have stopped (consumed : Nat) (input : Bytes) (o : Output) (step : Step)
      (stops : F.Stops consumed [] input o.queue step) :
      ∃ used rest pushed, input = used ++ rest ∧ Translates F.unit used pushed ∧
        o.chunks.flatten = o.chunks.flatten ++ pushed ∧ F.Stops consumed used rest o.queue step :=
    ⟨[], input, [], rfl, .nil, (List.append_nil _).symm, stops⟩
  generalize eq : (step, after) = out at h
  induction h with
  | unit unit flatten _ ih =>
      obtain ⟨used, rest, pushed, rfl, translates, more, stops⟩ := ih eq
      refine ⟨_ ++ used, rest, _ ++ pushed, (List.append_assoc _ _ _).symm, translates.cons unit,
        ?_, stops.cons (F.ne_nil_of_unit unit)⟩
      rw [more, flatten, List.append_assoc]
  | nothing =>
      cases eq
      exact stopped _ _ _ _ ⟨rfl, fun some => (some rfl).elim⟩
  | full waiting complete =>
      cases eq
      exact stopped _ _ _ _ ⟨rfl, fun _ => ⟨complete, fun _ => waiting⟩⟩
  | incomplete incomplete =>
      cases eq
      exact stopped _ _ _ _ ⟨rfl, incomplete⟩
  | rejected rejected =>
      cases eq
      exact stopped _ _ _ _ rejected

/-! ## Readers -/

/-- A reader of a format reads unit after unit, up to where there is none. -/
structure Reads (F : Format) (read : Bytes → Fed) : Prop where
  nil : read [] = ⟨[], [], none⟩
  unit : ∀ {used pushed : Bytes}, F.unit used pushed → ∀ rest,
    read (used ++ rest) = (read rest).after pushed
  incomplete : ∀ {rest : Bytes}, F.incomplete rest → read rest = ⟨[], rest, none⟩
  rejected : ∀ {rest : Bytes} {cause : Cause}, F.rejected rest cause →
    read rest = ⟨[], rest, some cause⟩
  unread : ∀ stream, (read stream).tail <:+ stream

theorem Reads.of_translates {read : Bytes → Fed} (reads : F.Reads read) {used pushed : Bytes}
    (h : Translates F.unit used pushed) (rest : Bytes) :
    read (used ++ rest) = (read rest).after pushed := by
  induction h with
  | nil => rfl
  | cons first _ ih => rw [List.append_assoc, reads.unit first, ih, Fed.after_after]

/-- A decoder that handles a format follows every reader of it. -/
theorem Reads.follows {read : Bytes → Fed} (reads : F.Reads read) {decoder : Decoder}
    {ceiling : Nat} (handles : ∀ buffer o, F.Handles 0 buffer o (decoder buffer o)) :
    decoder.Follows ceiling read where
  nil := reads.nil
  unread := reads.unread
  call buffer held := by
    have handled := handles buffer (.new .empty .empty ceiling)
    generalize decoder buffer (.new .empty .empty ceiling) = out at handled
    obtain ⟨step, after⟩ := out
    obtain ⟨used, rest, pushed, rfl, translates, flatten, stops⟩ := handled.split
    have flatten : after.chunks.flatten = pushed := flatten
    have whole := reads.of_translates translates rest
    have behind : (used ++ rest).drop used.length = rest := List.drop_left
    cases step with
    | errored cause =>
        dsimp only
        rw [whole, reads.rejected stops, flatten]
        exact ⟨List.append_nil _, rfl⟩
    | underflow total =>
        obtain ⟨rfl, incomplete⟩ := stops
        dsimp only
        rw [Nat.zero_add, whole, reads.incomplete incomplete, flatten, behind, Fed.after,
          List.append_nil]
    | done total =>
        obtain ⟨rfl, stops⟩ := stops
        dsimp only
        rw [Nat.zero_add, behind, flatten]
        refine ⟨fun none => ?_, whole⟩
        obtain rfl := List.length_eq_zero_iff.1 none
        cases (stops held).2 rfl

end Format

/-! ## Streams in pieces -/

/-- A reader that can be taken up again where it ended, and that takes no error back when more bytes
come. -/
structure Decoder.Settles (read : Bytes → Fed) : Prop where
  resumes : ∀ {stream : Bytes}, (read stream).failure = none → ∀ more,
    read (stream ++ more) = (read ((read stream).tail ++ more)).after (read stream).pushed
  errs : ∀ {stream : Bytes}, (read stream).failure ≠ none → ∀ more,
    read (stream ++ more) = (read stream).leaving more

namespace Decoder

variable {read : Bytes → Fed}

/-- What was left to be taken up again is left by itself, too. -/
theorem Settles.read_tail (settles : Settles read) {stream : Bytes}
    (waits : (read stream).failure = none) :
    read (read stream).tail = ⟨[], (read stream).tail, none⟩ := by
  have again := settles.resumes waits []
  rw [List.append_nil, List.append_nil] at again
  have pushed := congrArg Fed.pushed again
  have tail := congrArg Fed.tail again
  have failure := congrArg Fed.failure again
  change (read stream).tail = (read (read stream).tail).tail at tail
  change (read stream).failure = (read (read stream).tail).failure at failure
  have eta : read (read stream).tail = ⟨(read (read stream).tail).pushed,
    (read (read stream).tail).tail, (read (read stream).tail).failure⟩ := rfl
  rw [eta, ← tail, ← failure, waits, List.self_eq_append_right.1 pushed]

/-- However a stream is cut, feeding it comes to what a reader says of the whole stream, if the
reader takes nothing back. -/
theorem Follows.feedFrom_of_settles {decoder : Decoder} {ceiling : Nat}
    (follows : decoder.Follows ceiling read) (settles : Settles read) {buffer : Bytes}
    (unread : read buffer = ⟨[], buffer, none⟩) (pieces : List Bytes) :
    ∃ fed, decoder.feedFrom ceiling buffer pieces = some fed ∧
      fed.Comes (read (buffer ++ pieces.flatten)) := by
  induction pieces generalizing buffer with
  | nil =>
      refine ⟨⟨[], buffer, none⟩, rfl, ?_⟩
      rw [List.flatten_nil, List.append_nil, unread]
      exact .refl _
  | cons piece pieces ih =>
      rw [List.flatten_cons, ← List.append_assoc]
      by_cases waits : (read (buffer ++ piece)).failure = none
      · obtain ⟨fed, eq, comes⟩ := ih (settles.read_tail waits)
        refine ⟨fed.after (read (buffer ++ piece)).pushed, ?_, ?_⟩
        · rw [follows.feedFrom_of_waits waits, eq]
          rfl
        · rw [settles.resumes waits]
          exact comes.after _
      · rw [settles.errs waits]
        exact follows.feedFrom_of_failed waits pieces

end Decoder

end ByteFlow
