/-
# Reading lines of base64

A line decoder reads a stream line by line: each line that is short enough and decodes gives a
chunk, and reading ends with the first that does not, or with what no line feed ends. That is
`read`, which is given the whole stream. The decoder itself stops early when its output is full, and
starts again with what it has not consumed; it `follows` its reader all the same.

Reading can be taken up again: what a stream left unread, with more bytes behind it, is read as the
whole stream would have been read there.
-/

import ByteFlow.Proofs.Base64
import ByteFlow.Proofs.Units
import ByteFlow.Transform.Base64Lines

namespace ByteFlow

namespace Line

/-! ## The line at the start -/

theorem front_eq_none_iff {input : Bytes} : front input = .none ↔ input = [] := by
  unfold front
  split
  · rename_i none
    exact ⟨fun _ => none, fun _ => rfl⟩
  · rename_i some
    split
    · exact ⟨nofun, fun none => (some none).elim⟩
    · exact ⟨nofun, fun none => (some none).elim⟩

theorem ne_feed {line : Bytes} (unfed : feed ∉ line) :
    ∀ symbol ∈ line, (symbol != feed) = true :=
  fun _ member => bne_iff_ne.2 fun same => unfed (same ▸ member)

/-- A carriage return is no line feed. -/
theorem feed_not_mem_concat {line : Bytes} (unfed : feed ∉ line) :
    feed ∉ line ++ [carriageReturn] := by
  intro member
  rcases List.mem_append.1 member with inside | last
  · exact unfed inside
  · cases List.mem_singleton.1 last

theorem front_of_ended {line : Bytes} (unfed : feed ∉ line) (rest : Bytes) :
    front (line ++ feed :: rest) = .ended line rest := by
  have stops : (feed :: rest).dropWhile (· != feed) = feed :: rest := rfl
  have none : (feed :: rest).takeWhile (· != feed) = [] := rfl
  have some : line ++ feed :: rest ≠ [] :=
    List.append_ne_nil_of_right_ne_nil _ (List.cons_ne_nil _ _)
  unfold front
  rw [if_neg some, List.dropWhile_append_of_pos (ne_feed unfed),
    List.takeWhile_append_of_pos (ne_feed unfed), stops, none, List.append_nil]

theorem front_of_unended {input : Bytes} (some : input ≠ []) (unfed : feed ∉ input) :
    front input = .unended := by
  have all : input.dropWhile (· != feed) = [] := by
    rw [← List.append_nil input, List.dropWhile_append_of_pos (ne_feed unfed)]
    rfl
  unfold front
  rw [if_neg some, all]

/-- A byte string is empty, has no line feed, or begins with a line. -/
theorem eq_front (input : Bytes) :
    match front input with
    | .none => input = []
    | .unended => input ≠ [] ∧ feed ∉ input
    | .ended line rest => input = line ++ feed :: rest ∧ feed ∉ line := by
  by_cases none : input = []
  · rw [none]
    rfl
  · by_cases member : feed ∈ input
    · obtain ⟨line, rest, rfl, unfed⟩ := List.eq_append_cons_of_mem member
      rw [front_of_ended unfed]
      exact ⟨rfl, unfed⟩
    · rw [front_of_unended none member]
      exact ⟨none, member⟩

/-- What comes behind a line is no part of it. -/
theorem front_append {input line rest : Bytes} (ended : front input = .ended line rest)
    (more : Bytes) : front (input ++ more) = .ended line (rest ++ more) := by
  have eq := eq_front input
  rw [ended] at eq
  rw [eq.1, List.append_assoc]
  exact front_of_ended eq.2 (rest ++ more)

theorem trim_append_carriageReturn (line : Bytes) : trim (line ++ [carriageReturn]) = line := by
  unfold trim
  rw [List.getLast?_concat, if_pos rfl, List.dropLast_concat]

/-- To trim a line takes off a carriage return, or nothing. -/
theorem trim_eq_or (line : Bytes) : trim line = line ∨ line = trim line ++ [carriageReturn] := by
  unfold trim
  split
  · rename_i last
    obtain ⟨start, rfl⟩ := List.getLast?_eq_some_iff.1 last
    rw [List.dropLast_concat]
    exact .inr rfl
  · exact .inl rfl

theorem length_trim_le (line : Bytes) : (trim line).length ≤ line.length := by
  rcases trim_eq_or line with same | cut
  · exact Nat.le_of_eq (congrArg List.length same)
  · have length := (congrArg List.length cut).trans List.length_append
    exact length ▸ Nat.le_add_right _ _

end Line

namespace LineDecoder

/-! ## Reading -/

/-- What a line that was ended gives, without its line feed. -/
def judge (t : LineDecoder) (line : Bytes) : Except Cause Bytes :=
  if t.maxLine < (Line.trim line).length then .error (.lineTooLong t.maxLine)
  else
    match Base64.decode (Line.trim line) with
    | none => .error .invalidBase64
    | some chunk => .ok chunk

theorem length_le_of_judge {t : LineDecoder} {line chunk : Bytes}
    (judged : t.judge line = .ok chunk) :
    chunk.length ≤ line.length := by
  have trimmed := Line.length_trim_le line
  unfold judge at judged
  split at judged
  · cases judged
  · split at judged
    · cases judged
    · rename_i decoded
      cases judged
      have le := Base64.length_decode_le decoded
      omega

/-- Reads a stream. -/
def read (t : LineDecoder) (stream : Bytes) : Fed :=
  match _h : Line.front stream with
  | .none => ⟨[], [], none⟩
  | .unended =>
    if t.maxLine < stream.length then ⟨[], stream, some (.lineTooLong t.maxLine)⟩
    else ⟨[], stream, none⟩
  | .ended line rest =>
    match t.judge line with
    | .error cause => ⟨[], stream, some cause⟩
    | .ok chunk => (t.read rest).after chunk
termination_by stream.length
decreasing_by
  have shorter := Line.length_of_front_eq_ended _h
  omega

variable {t : LineDecoder}

theorem read_nil : t.read [] = ⟨[], [], none⟩ := by
  unfold read
  rfl

theorem read_of_unended {stream : Bytes} (some : stream ≠ []) (unfed : Line.feed ∉ stream) :
    t.read stream =
      if t.maxLine < stream.length then ⟨[], stream, Option.some (.lineTooLong t.maxLine)⟩
      else ⟨[], stream, none⟩ := by
  unfold read
  split
  · rename_i front
    rw [Line.front_of_unended some unfed] at front
    cases front
  · rfl
  · rename_i front
    rw [Line.front_of_unended some unfed] at front
    cases front

theorem read_of_ended {stream line rest : Bytes} (ended : Line.front stream = .ended line rest) :
    t.read stream =
      match t.judge line with
      | .error cause => ⟨[], stream, some cause⟩
      | .ok chunk => (t.read rest).after chunk := by
  rw [read]
  split
  · rename_i front
    rw [ended] at front
    cases front
  · rename_i front
    rw [ended] at front
    cases front
  · rename_i front
    rw [ended] at front
    cases front
    rfl

/-- Reading can be taken up again where it ended, with more bytes behind what was left. -/
theorem read_append (stream more : Bytes) :
    t.read (stream ++ more) =
      (t.read ((t.read stream).tail ++ more)).after (t.read stream).pushed := by
  fun_induction read t stream with
  | case1 stream none =>
      rw [Line.front_eq_none_iff.1 none]
      rfl
  | case2 => rfl
  | case3 => rfl
  | case4 => rfl
  | case5 stream line rest ended chunk judged ih =>
      rw [read_of_ended (Line.front_append ended more), judged]
      dsimp only
      rw [ih, Fed.after_after]
      rfl

/-- What was left unread is left unread again. -/
theorem read_tail (stream : Bytes) :
    t.read (t.read stream).tail = ⟨[], (t.read stream).tail, (t.read stream).failure⟩ := by
  fun_induction read t stream with
  | case1 => exact read_nil
  | case2 stream unended long =>
      have eq := Line.eq_front stream
      rw [unended] at eq
      exact (read_of_unended eq.1 eq.2).trans (if_pos long)
  | case3 stream unended short =>
      have eq := Line.eq_front stream
      rw [unended] at eq
      exact (read_of_unended eq.1 eq.2).trans (if_neg short)
  | case4 stream line rest ended cause judged =>
      change t.read stream = _
      rw [read_of_ended ended, judged]
  | case5 stream line rest ended chunk judged ih => exact ih

/-- What is left unread is the end of the stream. -/
theorem tail_suffix (t : LineDecoder) (stream : Bytes) : (t.read stream).tail <:+ stream := by
  fun_induction read t stream with
  | case1 => exact List.nil_suffix
  | case2 => exact List.suffix_rfl
  | case3 => exact List.suffix_rfl
  | case4 => exact List.suffix_rfl
  | case5 stream line rest ended chunk judged ih =>
      have eq := Line.eq_front stream
      rw [ended] at eq
      rw [eq.1]
      exact (ih.trans (List.suffix_cons _ _)).trans (List.suffix_append _ _)

/-! ## Calls -/

/-- Lines as the units of a decoder, each with its line feed. -/
def format (t : LineDecoder) : Format where
  unit used pushed :=
    ∃ line, used = line ++ [Line.feed] ∧ Line.feed ∉ line ∧ t.judge line = .ok pushed
  incomplete rest := (rest ≠ [] ∧ Line.feed ∉ rest) ∧ rest.length ≤ t.maxLine
  rejected rest cause :=
    match Line.front rest with
    | .none => False
    | .unended => t.maxLine < rest.length ∧ cause = .lineTooLong t.maxLine
    | .ended line _ => t.judge line = .error cause
  ne_nil_of_unit := by
    rintro _ _ ⟨line, rfl, _⟩
    exact List.concat_ne_nil _ _

theorem not_incomplete_of_ended {rest line next : Bytes}
    (ended : Line.front rest = .ended line next) : ¬t.format.incomplete rest := by
  intro ⟨⟨_, unfed⟩, _⟩
  have eq := Line.eq_front rest
  rw [ended] at eq
  rw [eq.1] at unfed
  exact unfed (List.mem_append_right _ List.mem_cons_self)

/-- A line that is in order is used up before what follows it. -/
theorem handles_of_ended {consumed : Nat} {rest line next chunk : Bytes} {o pushed : Output}
    {out : Step × Output} (ended : Line.front rest = .ended line next)
    (judged : t.judge line = .ok chunk)
    (flatten : pushed.chunks.flatten = o.chunks.flatten ++ chunk)
    (h : t.format.Handles (consumed + (line.length + 1)) next pushed out) :
    t.format.Handles consumed rest o out := by
  have eq := Line.eq_front rest
  rw [ended] at eq
  obtain ⟨rfl, unfed⟩ := eq
  rw [List.append_cons]
  refine .unit ⟨line, rfl, unfed, judged⟩ flatten ?_
  rw [List.length_append, List.length_singleton]
  exact h

theorem handles_unpack (t : LineDecoder) (consumed : Nat) (rest : Bytes) (o : Output) :
    t.format.Handles consumed rest o (t.unpack consumed rest o) := by
  fun_induction unpack t consumed rest o with
  | case1 consumed rest o none =>
      rw [Line.front_eq_none_iff.1 none]
      exact .nothing
  | case2 consumed rest o unended long =>
      refine .rejected ?_
      simp only [format, unended]
      exact ⟨long, trivial⟩
  | case3 consumed rest o unended short =>
      have eq := Line.eq_front rest
      rw [unended] at eq
      exact .incomplete ⟨eq, Nat.not_lt.1 short⟩
  | case4 consumed rest o line next ended trimmed long =>
      refine .rejected ?_
      simp only [format, ended]
      exact if_pos long
  | case5 consumed rest o line next ended trimmed short blank ih =>
      have judged : t.judge line = .ok [] := by
        unfold judge
        rw [if_neg short, show Line.trim line = [] from blank]
        rfl
      exact handles_of_ended ended judged (List.append_nil _).symm ih
  | case6 consumed rest o line next ended trimmed short some room undecoded =>
      refine .rejected ?_
      simp only [format, ended]
      unfold judge
      rw [if_neg short, undecoded]
  | case7 consumed rest o line next ended trimmed short some room chunk decoded e refused =>
      obtain ⟨_, accepted, _⟩ :=
        Output.push_of_fits (Output.fits_of_le room (Base64.length_decode_le decoded))
      rw [accepted] at refused
      cases refused
  | case8 consumed rest o line next ended trimmed short some room chunk decoded pushed accepted
      ih =>
      have judged : t.judge line = .ok chunk := by
        unfold judge
        rw [if_neg short, decoded]
      obtain ⟨_, again, flatten⟩ :=
        Output.push_of_fits (Output.fits_of_le room (Base64.length_decode_le decoded))
      rw [accepted] at again
      cases again
      exact handles_of_ended ended judged flatten ih
  | case9 consumed rest o line next ended trimmed short some full =>
      exact .full (Output.isEmpty_of_not_fits full) (not_incomplete_of_ended ended)

theorem reads_read (t : LineDecoder) : t.format.Reads t.read where
  nil := read_nil
  unit := by
    rintro _ pushed ⟨line, rfl, unfed, judged⟩ rest
    rw [List.append_assoc, List.singleton_append,
      read_of_ended (Line.front_of_ended unfed rest), judged]
  incomplete incomplete :=
    (read_of_unended incomplete.1.1 incomplete.1.2).trans (if_neg (Nat.not_lt.2 incomplete.2))
  rejected := by
    intro rest cause rejected
    have eq := Line.eq_front rest
    simp only [format] at rejected
    cases front : Line.front rest with
    | none =>
        rw [front] at rejected
        exact rejected.elim
    | unended =>
        rw [front] at rejected eq
        rw [read_of_unended eq.1 eq.2, if_pos rejected.1, rejected.2]
    | ended line next =>
        rw [front] at rejected
        have judged : t.judge line = .error cause := rejected
        rw [read_of_ended front, judged]
  unread := t.tail_suffix

/-- The decoder follows its reader, whatever the ceiling. -/
theorem follows_step (t : LineDecoder) (ceiling : Nat) :
    Decoder.Follows t.step ceiling t.read :=
  t.reads_read.follows (t.handles_unpack 0)

end LineDecoder

end ByteFlow
