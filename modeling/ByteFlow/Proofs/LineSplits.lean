/-
# How a stream of lines may be cut

What a line decoder makes of a stream should not depend on the pieces in which the stream arrives.
There is one way in which it does. A line may have `maxLine` symbols before its carriage return and
line feed, but bytes that no line feed ends yet are counted as they are: when such a line is cut
between its carriage return and its line feed, the carriage return counts as one symbol too many.

So a stream comes to the same in pieces as in one piece exactly if no cut severs a line of the
greatest length like that. (Where no line may have any symbol, both may err in the same way even
so.)
-/

import ByteFlow.Proofs.LineReading

namespace ByteFlow.LineDecoder

variable {t : LineDecoder}

/-- A cut severs a line of the greatest length from its line feed: what is left unread before the
cut is the line with its carriage return, and the line feed comes right after the cut. -/
def Severs (t : LineDecoder) (before after : Bytes) : Prop :=
  ∃ line, (t.read before).tail = line ++ [Line.carriageReturn] ∧ line.length = t.maxLine ∧
    Line.feed ∉ line ∧ after.head? = some Line.feed

/-- What has no line feed in it is left as it is, unless it is too long. -/
theorem failure_of_short {stream : Bytes} (unfed : Line.feed ∉ stream)
    (short : stream.length ≤ t.maxLine) : (t.read stream).failure = none := by
  by_cases none : stream = []
  · rw [none, read_nil]
  · rw [read_of_unended none unfed, if_neg (Nat.not_lt.2 short)]

/-- A cut that severs a line is taken for the end of a line that is too long. -/
theorem failure_of_severs {before after : Bytes} (severs : t.Severs before after) :
    t.read before =
      ⟨(t.read before).pushed, (t.read before).tail, some (.lineTooLong t.maxLine)⟩ := by
  obtain ⟨line, tail, length, unfed, _⟩ := severs
  have unread := t.read_tail before
  have unended := Line.feed_not_mem_concat unfed
  have long : t.maxLine < (line ++ [Line.carriageReturn]).length := by
    rw [List.length_append, length]
    exact Nat.lt_succ_self _
  rw [tail, read_of_unended (List.concat_ne_nil _ _) unended, if_pos long] at unread
  have failure : some (.lineTooLong t.maxLine) = (t.read before).failure :=
    congrArg Fed.failure unread
  rw [failure]

/-- A line that begins with too many bytes is too long, unless the last of them is a carriage return
and one too many. -/
theorem judge_append_of_long {stream more : Bytes} (long : t.maxLine < stream.length)
    (intact : more = [] → ∀ line, stream = line ++ [Line.carriageReturn] →
      line.length ≠ t.maxLine) :
    t.judge (stream ++ more) = .error (.lineTooLong t.maxLine) := by
  refine if_pos (Nat.not_le.1 fun short => ?_)
  rcases Line.trim_eq_or (stream ++ more) with untrimmed | trimmed
  · rw [untrimmed, List.length_append] at short
    omega
  · have length := congrArg List.length trimmed
    rw [List.length_append, List.length_append, List.length_singleton] at length
    have empty : more = [] := List.length_eq_zero_iff.1 (by omega)
    rw [empty, List.append_nil] at trimmed length short
    exact intact empty _ trimmed (by omega)

/-- Bytes that err at once still err at once with more behind them, unless they are a line of the
greatest length that only now has its line feed. -/
theorem read_append_of_errs {stream : Bytes} {cause : Cause} (after : Bytes)
    (errs : t.read stream = ⟨[], stream, some cause⟩)
    (intact : ∀ line, stream = line ++ [Line.carriageReturn] → line.length = t.maxLine →
      Line.feed ∉ line → after.head? ≠ some Line.feed) :
    t.read (stream ++ after) = ⟨[], stream ++ after, some cause⟩ := by
  have eq := Line.eq_front stream
  cases front : Line.front stream with
  | none =>
      rw [front] at eq
      rw [eq, read_nil] at errs
      cases errs
  | unended =>
      rw [front] at eq
      obtain ⟨some, unfed⟩ := eq
      rw [read_of_unended some unfed] at errs
      split at errs
      · rename_i long
        obtain rfl := Option.some.inj (congrArg Fed.failure errs)
        by_cases member : Line.feed ∈ after
        · obtain ⟨more, rest, rfl, unfed'⟩ := List.eq_append_cons_of_mem member
          have unfedBoth : Line.feed ∉ stream ++ more := fun h =>
            (List.mem_append.1 h).elim unfed unfed'
          have ended := Line.front_of_ended unfedBoth rest
          have judged : t.judge (stream ++ more) = .error (.lineTooLong t.maxLine) := by
            apply judge_append_of_long long
            intro empty line trimmed length
            refine intact line trimmed length (fun h => unfed ?_) ?_
            · rw [trimmed]
              exact List.mem_append_left _ h
            · rw [empty]
              rfl
          rw [← List.append_assoc, read_of_ended ended, judged]
        · rw [read_of_unended (List.append_ne_nil_of_left_ne_nil some _)
            (fun h => (List.mem_append.1 h).elim unfed member), if_pos]
          rw [List.length_append]
          exact Nat.lt_add_right _ long
      · cases errs
  | ended line rest =>
      rw [read_of_ended front] at errs
      rw [read_of_ended (Line.front_append front after)]
      cases judged : t.judge line with
      | error cause' =>
          rw [judged] at errs
          cases errs
          rfl
      | ok chunk =>
          rw [judged] at errs
          have tail : (t.read rest).tail = stream := congrArg Fed.tail errs
          have le := (t.tail_suffix rest).length_le
          rw [tail, Line.length_of_front_eq_ended front] at le
          omega

/-- A decoder that erred would have erred in the same way with more bytes at hand, unless the cut
severs a line. -/
theorem read_append_of_failed {before after : Bytes} {cause : Cause}
    (failed : (t.read before).failure = some cause) (intact : ¬t.Severs before after) :
    t.read (before ++ after) =
      ⟨(t.read before).pushed, (t.read before).tail ++ after, some cause⟩ := by
  have errs := t.read_tail before
  rw [failed] at errs
  rw [read_append, read_append_of_errs after errs]
  · unfold Fed.after
    rw [List.append_nil]
  · intro line tail length unfed head
    exact intact ⟨line, tail, length, unfed, head⟩

/-- Whether a cut severs a line is seen from what was left unread at an earlier cut. -/
theorem severs_append_iff (before middle after : Bytes) :
    t.Severs (before ++ middle) after ↔ t.Severs ((t.read before).tail ++ middle) after := by
  have tail : (t.read (before ++ middle)).tail =
      (t.read ((t.read before).tail ++ middle)).tail := by
    rw [read_append]
    rfl
  unfold Severs
  rw [tail]

/-- Behind bytes that are in error no line is severed any more. -/
theorem not_severs_append {before middle after : Bytes}
    (failed : (t.read before).failure ≠ none) (intact : ¬t.Severs before (middle ++ after)) :
    ¬t.Severs (before ++ middle) after := by
  by_cases empty : middle = []
  · rw [empty, List.append_nil]
    rw [empty, List.nil_append] at intact
    exact intact
  · intro ⟨line, tail, length, unfed, _⟩
    have intact' : ¬t.Severs before middle := by
      intro ⟨line, tail, length, unfed, head⟩
      refine intact ⟨line, tail, length, unfed, ?_⟩
      rw [List.head?_append, head]
      rfl
    obtain ⟨cause, failure⟩ := Option.ne_none_iff_exists'.1 failed
    rw [read_append_of_failed failure intact'] at tail
    -- What is left unread at the first cut is too short to have been in error.
    have count := congrArg List.length tail
    rw [List.length_append, List.length_append, List.length_singleton] at count
    have some := List.length_pos_iff.2 empty
    have unended : Line.feed ∉ (t.read before).tail := by
      intro member
      have member' := List.mem_append_left middle member
      rw [show (t.read before).tail ++ middle = _ from tail] at member'
      exact Line.feed_not_mem_concat unfed member'
    have short := t.failure_of_short unended (by omega)
    rw [read_tail] at short
    exact failed short

/-! ## A severed line -/

/-- Where no line may have any symbol, nothing is ever pushed. -/
theorem pushed_eq_nil (zero : t.maxLine = 0) (stream : Bytes) : (t.read stream).pushed = [] := by
  fun_induction read t stream with
  | case5 stream line rest ended chunk judged ih =>
      unfold judge at judged
      split at judged
      · cases judged
      · rename_i short
        rw [zero, Nat.not_lt, Nat.le_zero, List.length_eq_zero_iff] at short
        rw [short] at judged
        cases judged
        exact ih
  | _ => rfl

/-- A line that is severed is taken for too long. In one piece with its line feed it is not too
long, and so the stream comes to something else, unless it has a line that is too long anyway, and
there was nothing to push. -/
theorem same_of_severs_iff {before after : Bytes} (severs : t.Severs before after) :
    (t.read before).Same (t.read (before ++ after)) ↔
      t.maxLine = 0 ∧ (t.read (before ++ after)).failure = some (.lineTooLong 0) := by
  have failure : (t.read before).failure = some (.lineTooLong t.maxLine) :=
    congrArg Fed.failure (failure_of_severs severs)
  obtain ⟨line, tail, length, unfed, head⟩ := severs
  obtain ⟨rest, rfl⟩ := List.head?_eq_some_iff.1 head
  have unended := Line.feed_not_mem_concat unfed
  have whole := t.read_append before (Line.feed :: rest)
  rw [tail, read_of_ended (Line.front_of_ended unended rest)] at whole
  unfold judge at whole
  rw [Line.trim_append_carriageReturn, length, if_neg (Nat.lt_irrefl _)] at whole
  cases decoded : Base64.decode line with
  | none =>
      rw [decoded] at whole
      have invalid : (t.read (before ++ Line.feed :: rest)).failure = some .invalidBase64 :=
        congrArg Fed.failure whole
      constructor
      · intro same
        have both := same.failure
        rw [failure, invalid] at both
        cases both
      · intro ⟨_, long⟩
        rw [invalid] at long
        cases long
  | some chunk =>
      rw [decoded] at whole
      constructor
      · intro same
        have pushed : (t.read before).pushed =
            (t.read before).pushed ++ (chunk ++ (t.read rest).pushed) :=
          same.pushed.trans (congrArg Fed.pushed whole)
        have none := (List.append_eq_nil_iff.1 (List.self_eq_append_right.1 pushed)).1
        have zero : t.maxLine = 0 := by
          by_cases empty : line = []
          · rw [← length, empty]
            rfl
          · exact (Base64.decode_ne_nil decoded empty none).elim
        refine ⟨zero, ?_⟩
        rw [← same.failure, failure, zero]
      · intro ⟨zero, long⟩
        refine ⟨?_, ?_, ?_⟩
        · rw [pushed_eq_nil zero, pushed_eq_nil zero]
        · rw [failure, long, zero]
        · rw [failure]
          exact nofun

/-! ## Pieces -/

/-- One of the cuts between the pieces severs a line; the pieces come behind bytes in a buffer. -/
def Severed (t : LineDecoder) (buffer : Bytes) (pieces : List Bytes) : Prop :=
  ∃ before after, pieces = before ++ after ∧ t.Severs (buffer ++ before.flatten) after.flatten

/-- What pieces come to: what is to be read in the whole of them, or, if a line is severed, what is
to be read up to a cut that severs one. -/
def Outcome (t : LineDecoder) (buffer : Bytes) (pieces : List Bytes) (fed : Fed) : Prop :=
  fed.Comes (t.read (buffer ++ pieces.flatten)) ∧ ¬t.Severed buffer pieces ∨
    ∃ before after, pieces = before ++ after ∧
      t.Severs (buffer ++ before.flatten) after.flatten ∧
      fed.Same (t.read (buffer ++ before.flatten))

theorem not_severs_of_waits {buffer : Bytes} (waits : (t.read buffer).failure = none)
    (after : Bytes) : ¬t.Severs buffer after := by
  intro severs
  rw [failure_of_severs severs] at waits
  cases waits

theorem not_severed_of_failed {buffer : Bytes} {pieces : List Bytes}
    (failed : (t.read buffer).failure ≠ none) (intact : ¬t.Severs buffer pieces.flatten) :
    ¬t.Severed buffer pieces := by
  intro ⟨before, after, split, severs⟩
  refine not_severs_append failed ?_ severs
  rw [← List.flatten_append, ← split]
  exact intact

/-- A cut behind the first piece is a cut between the rest of them. -/
theorem severed_of_severed_cons {buffer piece : Bytes} {pieces : List Bytes}
    (waits : (t.read buffer).failure = none) (severed : t.Severed buffer (piece :: pieces)) :
    t.Severed (buffer ++ piece) pieces := by
  obtain ⟨before, after, split, severs⟩ := severed
  cases before with
  | nil =>
      rw [List.flatten_nil, List.append_nil] at severs
      exact (not_severs_of_waits waits _ severs).elim
  | cons first before =>
      rw [List.cons_append] at split
      obtain ⟨rfl, rfl⟩ := List.cons.inj split
      rw [List.flatten_cons, ← List.append_assoc] at severs
      exact ⟨before, after, rfl, severs⟩

theorem outcome_cons {buffer piece : Bytes} {pieces : List Bytes} {fed : Fed}
    (waits : (t.read buffer).failure = none) (outcome : t.Outcome (buffer ++ piece) pieces fed) :
    t.Outcome buffer (piece :: pieces) fed := by
  rcases outcome with ⟨comes, intact⟩ | ⟨before, after, rfl, severs, same⟩
  · refine .inl ⟨?_, fun severed => intact (severed_of_severed_cons waits severed)⟩
    rw [List.flatten_cons, ← List.append_assoc]
    exact comes
  · refine .inr ⟨piece :: before, after, rfl, ?_, ?_⟩
    · rw [List.flatten_cons, ← List.append_assoc]
      exact severs
    · rw [List.flatten_cons, ← List.append_assoc]
      exact same

/-- What was used up before does not matter to what comes behind it. -/
theorem outcome_of_tail {buffer : Bytes} {pieces : List Bytes} {fed : Fed}
    (outcome : t.Outcome (t.read buffer).tail pieces fed) :
    t.Outcome buffer pieces (fed.after (t.read buffer).pushed) := by
  rcases outcome with ⟨comes, intact⟩ | ⟨before, after, split, severs, same⟩
  · refine .inl ⟨?_, fun ⟨before, after, split, severs⟩ => intact ⟨before, after, split, ?_⟩⟩
    · rw [read_append]
      exact comes.after _
    · exact (severs_append_iff ..).1 severs
  · refine .inr ⟨before, after, split, (severs_append_iff ..).2 severs, ?_⟩
    rw [read_append]
    exact Fed.same_after_iff.2 same

/-- A decoder that errs comes to what is to be read in the whole, unless it errs at a cut that
severs a line. -/
theorem outcome_of_failed {buffer : Bytes} {pieces : List Bytes} {fed : Fed}
    (failed : (t.read buffer).failure ≠ none)
    (comes : fed.Comes ((t.read buffer).leaving pieces.flatten)) :
    t.Outcome buffer pieces fed := by
  by_cases severs : t.Severs buffer pieces.flatten
  · refine .inr ⟨[], pieces, rfl, ?_, ?_⟩
    · rw [List.flatten_nil, List.append_nil]
      exact severs
    · rw [List.flatten_nil, List.append_nil]
      refine ⟨comes.pushed, comes.failure, fun none => (failed ?_).elim⟩
      exact comes.failure.symm.trans none
  · obtain ⟨cause, failure⟩ := Option.ne_none_iff_exists'.1 failed
    refine .inl ⟨?_, not_severed_of_failed failed severs⟩
    rw [read_append_of_failed failure severs, ← failure]
    exact comes

/-- Pieces that are fed behind bytes that wait in the buffer. The induction is on the pieces: what
waits after one of them is what is left unread there. -/
theorem outcome_feedFrom (t : LineDecoder) (ceiling : Nat) (buffer : Bytes) (pieces : List Bytes)
    (waits : t.read buffer = ⟨[], buffer, none⟩) :
    ∃ fed, Decoder.feedFrom t.step ceiling buffer pieces = some fed ∧
      t.Outcome buffer pieces fed := by
  have unfailed : (t.read buffer).failure = none := congrArg Fed.failure waits
  induction pieces generalizing buffer with
  | nil =>
      refine ⟨_, rfl, .inl ⟨?_, fun ⟨before, after, split, severs⟩ => ?_⟩⟩
      · rw [List.flatten_nil, List.append_nil, waits]
        exact .refl _
      · rw [(List.append_eq_nil_iff.1 split.symm).1, List.flatten_nil, List.append_nil] at severs
        exact not_severs_of_waits unfailed _ severs
  | cons piece pieces ih =>
      by_cases failure : (t.read (buffer ++ piece)).failure = none
      · have waits' := t.read_tail (buffer ++ piece)
        rw [failure] at waits'
        obtain ⟨fed, eq, outcome⟩ := ih _ waits' (congrArg Fed.failure waits')
        refine ⟨fed.after (t.read (buffer ++ piece)).pushed, ?_, ?_⟩
        · rw [(t.follows_step ceiling).feedFrom_of_waits failure, eq]
          rfl
        · exact outcome_cons unfailed (outcome_of_tail outcome)
      · obtain ⟨fed, eq, comes⟩ := (t.follows_step ceiling).feedFrom_of_failed failure pieces
        exact ⟨fed, eq, outcome_cons unfailed (outcome_of_failed failure comes)⟩

/-- **The split law.** Feeding a stream in pieces always comes to an end, and so does feeding it in
one piece. In one piece it comes to what is to be read in it. In pieces it comes to that as well if
no cut severs a line of the greatest length. If a cut severs such a line, then the pieces are taken
to hold a line that is too long, and so come to something else than the one piece; except that it
may hold a line that is too long itself, where no line may have any symbol. -/
theorem feed_same_iff (t : LineDecoder) (ceiling : Nat) (pieces : List Bytes) :
    ∃ split whole, Decoder.feed t.step ceiling pieces = some split ∧
      Decoder.feed t.step ceiling [pieces.flatten] = some whole ∧
      whole.Comes (t.read pieces.flatten) ∧
      (¬t.Severed [] pieces → split.Comes (t.read pieces.flatten)) ∧
      (t.Severed [] pieces → split.failure = some (.lineTooLong t.maxLine)) ∧
      (split.Same whole ↔
        ¬t.Severed [] pieces ∨ t.maxLine = 0 ∧ whole.failure = some (.lineTooLong 0)) := by
  obtain ⟨split, fed, outcome⟩ := t.outcome_feedFrom ceiling [] pieces read_nil
  obtain ⟨whole, fed', comes'⟩ := (t.follows_step ceiling).feed_singleton pieces.flatten
  refine ⟨split, whole, fed, fed', comes', ?_⟩
  rcases outcome with ⟨comes, intact⟩ | ⟨before, after, rfl, severs, same⟩
  · refine ⟨fun _ => comes, fun severed => (intact severed).elim, ?_⟩
    exact iff_of_true (comes.toSame.trans comes'.toSame.symm) (.inl intact)
  · have failure := congrArg Fed.failure (failure_of_severs severs)
    have severed : t.Severed [] (before ++ after) := ⟨before, after, rfl, severs⟩
    have same' := comes'.toSame
    rw [List.flatten_append] at same'
    refine ⟨fun intact => (intact severed).elim, fun _ => same.failure.trans failure, ?_⟩
    calc
      split.Same whole ↔ (t.read before.flatten).Same (t.read (before.flatten ++ after.flatten)) :=
        ⟨fun h => same.symm.trans (h.trans same'), fun h => same.trans (h.trans same'.symm)⟩
      _ ↔ t.maxLine = 0 ∧ whole.failure = some (.lineTooLong 0) := by
        rw [same'.failure]
        exact same_of_severs_iff severs
      _ ↔ _ := ⟨.inr, fun h => h.resolve_left fun intact => intact severed⟩

/-- A line of four symbols, which is all it may have, cut before its line feed. -/
example :
    Decoder.feed (LineDecoder.mk 4).step 64 [[83, 71, 86, 115, 13], [10]] =
        some ⟨[], [83, 71, 86, 115, 13, 10], some (.lineTooLong 4)⟩ ∧
      Decoder.feed (LineDecoder.mk 4).step 64 [[83, 71, 86, 115, 13, 10]] =
        some ⟨[72, 101, 108], [], none⟩ := by
  decide +kernel

end ByteFlow.LineDecoder
