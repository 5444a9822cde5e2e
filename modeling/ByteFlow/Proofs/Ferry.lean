/-
# Between a reader and a writer

A ring that is filled from a reader and emptied into a writer is a ferry. Neither stream ever waits:
each may give or take less than it is asked for, put a call off, fail, or, at its end, give nothing.
Since the circle of cells is filled and emptied span by span, one call on the ring can lead to two
calls of a stream, and the second may end otherwise than the first.

`Banks.Gives` and `Banks.Takes` say what any number of calls of a stream have done to the two banks,
in terms of the calls: what the stream itself answers to them, one after the other.
They hold of one call and are closed under putting calls behind one another, so they hold of
whatever the ring asks for in one call of its own, and from there of every run of calls.
-/

import ByteFlow.Proofs.Fifo
import ByteFlow.Stream.Writer

namespace ByteFlow

/-! ## What a reader has to give -/

/-- The bytes that an item gives. -/
def ReadItem.bytes : ReadItem → Bytes
  | .fail _ => []
  | .data bytes => bytes

/-- All the bytes that a reader has still to give. -/
def Reader.toCome (r : Reader) : Bytes := r.unread ++ r.items.flatMap ReadItem.bytes

/-- The bytes in an answer. -/
def Reader.given : Except IoError Bytes → Bytes
  | .ok bytes => bytes
  | .error _ => []

/-- A reader hands out its bytes in order, each of them once. -/
theorem Reader.toCome_read (r : Reader) (wanted : Nat) :
    r.toCome = given (r.read wanted).1 ++ (r.read wanted).2.toCome := by
  obtain ⟨unread, items⟩ := r
  unfold Reader.read
  split
  · rename_i none
    rw [List.isEmpty_iff] at none
    subst none
    rcases items with _ | ⟨_ | bytes, items⟩
    · rfl
    · rfl
    · simp [toCome, given, ReadItem.bytes, ← List.append_assoc]
  · simp [toCome, given, ← List.append_assoc]

/-- No reader gives more than it is asked for. -/
theorem Reader.length_given_read_le (r : Reader) (wanted : Nat) :
    (given (r.read wanted).1).length ≤ wanted := by
  obtain ⟨unread, items⟩ := r
  unfold Reader.read
  split
  · rcases items with _ | ⟨_ | bytes, items⟩
    · exact Nat.zero_le _
    · exact Nat.zero_le _
    · exact List.length_take_le ..
  · exact List.length_take_le ..

/-- Asks a reader for so many bytes, one call after the other: what it answers, and what is left. -/
def Reader.readAll (r : Reader) : List Nat → List (Except IoError Bytes) × Reader
  | [] => ([], r)
  | wanted :: more =>
    let (answer, r) := r.read wanted
    let (answers, r) := r.readAll more
    (answer :: answers, r)

/-- How a call of a reader goes on record. -/
def Reader.recorded (wanted : Nat) (answer : Except IoError Bytes) : Event :=
  .readerCalled wanted (answer.toOption.map (·.length))

/-- How many bytes a writer says it took. -/
def Writer.took : Except IoError Nat → Nat
  | .ok count => count
  | .error _ => 0

/-- A writer keeps what it says it took, behind what it took before. -/
theorem Writer.accepted_write (w : Writer) (offered : Bytes) :
    took (w.write offered).1 ≤ offered.length ∧
      (w.write offered).2.accepted.toList =
        w.accepted.toList ++ offered.take (took (w.write offered).1) := by
  obtain ⟨accepted, items, flushes⟩ := w
  unfold Writer.write
  rcases items with _ | ⟨_ | count, items⟩
  · simp [took]
  · simp [took]
  · simp only [took, List.length_take, Block.toList_append]
    refine ⟨Nat.min_le_right .., congrArg (accepted.toList ++ ·) ?_⟩
    rw [List.take_eq_take_iff]
    omega

/-- Offers bytes to a writer, one call after the other: what it answers, and what it is then. -/
def Writer.writeAll (w : Writer) : List Bytes → List (Except IoError Nat) × Writer
  | [] => ([], w)
  | offered :: more =>
    let (answer, w) := w.write offered
    let (answers, w) := w.writeAll more
    (answer :: answers, w)

theorem Reader.readAll_append (r : Reader) (wants more : List Nat) :
    r.readAll (wants ++ more) =
      ((r.readAll wants).1 ++ ((r.readAll wants).2.readAll more).1,
        ((r.readAll wants).2.readAll more).2) := by
  induction wants generalizing r with
  | nil => rfl
  | cons wanted wants ih => simp only [List.cons_append, readAll, ih]

theorem Reader.length_readAll (r : Reader) (wants : List Nat) :
    (r.readAll wants).1.length = wants.length := by
  induction wants generalizing r with
  | nil => rfl
  | cons wanted wants ih => exact congrArg (· + 1) (ih _)

theorem Writer.writeAll_append (w : Writer) (offers more : List Bytes) :
    w.writeAll (offers ++ more) =
      ((w.writeAll offers).1 ++ ((w.writeAll offers).2.writeAll more).1,
        ((w.writeAll offers).2.writeAll more).2) := by
  induction offers generalizing w with
  | nil => rfl
  | cons offered offers ih => simp only [List.cons_append, writeAll, ih]

/-- The last of these answers is an error that does not just put the call off, and `e` reports it.
-/
def FailedLast {α : Type} (answers : List (Except IoError α)) (operation : Operation)
    (e : Error) : Prop :=
  ∃ failure, answers.getLast? = some (.error failure) ∧
    (failure.kind ≠ .wouldBlock ∧ failure.kind ≠ .interrupted) ∧
    e = (Error.ofIo failure).withOperation operation

theorem isTryAgain_eq_false_iff (kind : IoErrorKind) :
    kind.isTryAgain = false ↔ kind ≠ .wouldBlock ∧ kind ≠ .interrupted := by
  cases kind <;> decide

theorem failedLast_append_iff {α : Type} {answers more : List (Except IoError α)}
    {operation : Operation} {e : Error} (went : ¬ FailedLast answers operation e) :
    FailedLast (answers ++ more) operation e ↔ FailedLast more operation e := by
  unfold FailedLast at *
  rw [List.getLast?_append]
  cases last : more.getLast? with
  | none => simpa [List.getLast?_eq_none_iff.1 last] using went
  | some answer => simp

/-- The event is the call of a reader. -/
def Event.isReaderCall : Event → Bool
  | .readerCalled .. => true
  | _ => false

/-! ## The banks -/

/-- The streams on both sides of a ring and what they have recorded, the oldest event first. -/
structure Banks where
  source : ReaderSource
  sink : WriterSink
  events : List Event

namespace Banks

/-- Reading from the near bank. -/
def inlet : Source (StateM Banks) where
  read wanted := fun s =>
    let called := s.source.read wanted
    (called.result, { s with source := called.stream, events := s.events ++ called.events })
  isEnded := fun s => (s.source.ended, s)

/-- Writing to the far bank. -/
def outlet : Sink (StateM Banks) where
  write offered := fun s =>
    let called := s.sink.write offered
    (called.result, { s with sink := called.stream, events := s.events ++ called.events })

/-- The bytes that the reader has still to give. -/
def toCome (s : Banks) : Bytes := s.source.reader.elim [] Reader.toCome

/-- The bytes that the writer has taken. -/
def accepted (s : Banks) : Bytes := s.sink.writer.elim [] (·.accepted.toList)

/-- The calls of the reader. -/
def readerCalls (s : Banks) : List Event := s.events.filter Event.isReaderCall

/-- The reader was asked for bytes and reported the end of the file. -/
def ReportedEnd (s : Banks) : Prop :=
  ∃ wanted, 0 < wanted ∧ Event.readerCalled wanted (some 0) ∈ s.readerCalls

/-- Neither stream was closed, and the source knows whether the reader has reported its end. -/
structure Sound (s : Banks) : Prop where
  reader : s.source.reader.isSome
  writer : s.sink.writer.isSome
  ended : s.source.ended = true ↔ s.ReportedEnd

/-- What the reader answers to these calls. -/
def answers (s : Banks) (wants : List Nat) : List (Except IoError Bytes) :=
  s.source.reader.elim [] fun reader => (reader.readAll wants).1

/-- What the writer answers to these calls. -/
def replies (s : Banks) (offers : List Bytes) : List (Except IoError Nat) :=
  s.sink.writer.elim [] fun writer => (writer.writeAll offers).1

/-- From `s` to `s'` the reader was called for these numbers of bytes. They are all its calls, and
its answers decide what the source has given, and whether it has failed behind that. -/
structure Gives (s : Banks) (wants : List Nat) (given : Bytes) (failure : Option Error)
    (s' : Banks) : Prop where
  sound : s'.Sound
  reader : s'.source.reader = s.source.reader.map fun reader => (reader.readAll wants).2
  readerCalls :
    s'.readerCalls = s.readerCalls ++ List.zipWith Reader.recorded wants (s.answers wants)
  gave : given = (s.answers wants).flatMap Reader.given
  failed : ∀ e, failure = some e ↔ FailedLast (s.answers wants) .store e
  waits : failure.isSome → s'.source.ended = false
  toCome : s.toCome = given ++ s'.toCome
  sink : s'.sink = s.sink
  /-- At its end it is silent, and the reader is left alone. -/
  silent : s.source.ended → given = [] ∧ s' = s

/-- From `s` to `s'` the writer was offered these bytes, call by call. They are all its calls, and
its answers decide whether the sink has failed behind what it has taken. -/
structure Takes (s : Banks) (offers : List Bytes) (taken : Bytes) (failure : Option Error)
    (s' : Banks) : Prop where
  sound : s'.Sound
  writer : s'.sink.writer = s.sink.writer.map fun writer => (writer.writeAll offers).2
  failed : ∀ e, failure = some e ↔ FailedLast (s.replies offers) .write e
  accepted : s'.accepted = s.accepted ++ taken
  source : s'.source = s.source
  readerCalls : s'.readerCalls = s.readerCalls

variable {s s' s'' : Banks}

theorem Gives.answers_append {wants more : List Nat} {given : Bytes} {failure : Option Error}
    (h : s.Gives wants given failure s') :
    s.answers (wants ++ more) = s.answers wants ++ s'.answers more := by
  unfold Banks.answers
  rw [h.reader]
  cases s.source.reader with
  | none => rfl
  | some reader => exact congrArg Prod.fst (reader.readAll_append wants more)

theorem Takes.replies_append {offers more : List Bytes} {taken : Bytes} {failure : Option Error}
    (h : s.Takes offers taken failure s') :
    s.replies (offers ++ more) = s.replies offers ++ s'.replies more := by
  unfold Banks.replies
  rw [h.writer]
  cases s.sink.writer with
  | none => rfl
  | some writer => exact congrArg Prod.fst (writer.writeAll_append offers more)

theorem length_answers (sound : s.Sound) (wants : List Nat) :
    (s.answers wants).length = wants.length := by
  obtain ⟨reader, there⟩ := Option.isSome_iff_exists.1 sound.reader
  rw [Banks.answers, there]
  exact reader.length_readAll wants

theorem not_failedLast_nil {α : Type} {operation : Operation} {e : Error} :
    ¬ FailedLast ([] : List (Except IoError α)) operation e := nofun

theorem answers_nil : s.answers [] = [] := by
  unfold Banks.answers
  cases s.source.reader <;> rfl

theorem replies_nil : s.replies [] = [] := by
  unfold Banks.replies
  cases s.sink.writer <;> rfl

theorem Gives.refl (sound : s.Sound) : s.Gives [] [] none s where
  sound := sound
  reader := by cases s.source.reader <;> rfl
  readerCalls := (List.append_nil _).symm
  gave := by rw [answers_nil]; rfl
  failed e := by simp [answers_nil, not_failedLast_nil]
  waits := nofun
  toCome := rfl
  sink := rfl
  silent _ := ⟨rfl, rfl⟩

theorem Gives.trans (sound : s.Sound) {wants others : List Nat} {given more : Bytes}
    {failure : Option Error} (h : s.Gives wants given none s')
    (h' : s'.Gives others more failure s'') :
    s.Gives (wants ++ others) (given ++ more) failure s'' where
  sound := h'.sound
  reader := by
    rw [h'.reader, h.reader]
    cases s.source.reader with
    | none => rfl
    | some reader => simp only [Option.map_some, reader.readAll_append]
  readerCalls := by
    rw [h'.readerCalls, h.readerCalls, h.answers_append,
      List.zipWith_append (length_answers sound wants).symm, List.append_assoc]
  gave := by rw [h.answers_append, List.flatMap_append, ← h.gave, ← h'.gave]
  failed e := by
    have went : ¬ FailedLast (s.answers wants) .store e := fun last => nomatch (h.failed e).2 last
    rw [h.answers_append, failedLast_append_iff went]
    exact h'.failed e
  waits := h'.waits
  toCome := by rw [h.toCome, h'.toCome, List.append_assoc]
  sink := h'.sink.trans h.sink
  silent ended := by
    obtain ⟨rfl, rfl⟩ := h.silent ended
    exact h'.silent ended

theorem Takes.refl (sound : s.Sound) : s.Takes [] [] none s where
  sound := sound
  writer := by cases s.sink.writer <;> rfl
  failed e := by simp [replies_nil, not_failedLast_nil]
  accepted := (List.append_nil _).symm
  source := rfl
  readerCalls := rfl

theorem Takes.trans {offers others : List Bytes} {taken more : Bytes} {failure : Option Error}
    (h : s.Takes offers taken none s') (h' : s'.Takes others more failure s'') :
    s.Takes (offers ++ others) (taken ++ more) failure s'' where
  sound := h'.sound
  writer := by
    rw [h'.writer, h.writer]
    cases s.sink.writer with
    | none => rfl
    | some writer => simp only [Option.map_some, writer.writeAll_append]
  failed e := by
    have went : ¬ FailedLast (s.replies offers) .write e := fun last => nomatch (h.failed e).2 last
    rw [h.replies_append, failedLast_append_iff went]
    exact h'.failed e
  accepted := by rw [h'.accepted, h.accepted, List.append_assoc]
  source := h'.source.trans h.source
  readerCalls := h'.readerCalls.trans h.readerCalls

/-! ## One call of a stream -/

/-- What an answer of the source says that it has given. -/
def GivesAnswer (s : Banks) (s' : Banks) : Except Error Bytes → Prop
  | .ok data => ∃ wants, s.Gives wants data none s'
  | .error e => ∃ wants, s.Gives wants [] (some e) s'

/-- The reader is called with this outcome, which is put on record. -/
def asked (s : Banks) (wanted : Nat) (got : Option Nat) (source : ReaderSource)
    (more : List Event) : Banks :=
  { s with source, events := s.events ++ .readerCalled wanted got :: more }

theorem readerCalls_asked {wanted : Nat} {got : Option Nat} {source : ReaderSource}
    {more : List Event} (others : more.filter Event.isReaderCall = []) :
    (s.asked wanted got source more).readerCalls =
      s.readerCalls ++ [.readerCalled wanted got] := by
  rw [readerCalls, Banks.asked, List.filter_append,
    List.filter_cons_of_pos (l := more) (a := .readerCalled wanted got) rfl, others]
  rfl

theorem reportedEnd_asked {wanted : Nat} {got : Option Nat} {source : ReaderSource}
    {more : List Event} (others : more.filter Event.isReaderCall = []) (asks : 0 < wanted) :
    (s.asked wanted got source more).ReportedEnd ↔ s.ReportedEnd ∨ got = some 0 := by
  unfold ReportedEnd
  rw [readerCalls_asked others]
  constructor
  · rintro ⟨w, pos, mem⟩
    rcases List.mem_append.1 mem with old | new
    · exact .inl ⟨w, pos, old⟩
    · cases List.mem_singleton.1 new
      exact .inr rfl
  · rintro (⟨w, pos, mem⟩ | rfl)
    · exact ⟨w, pos, List.mem_append_left _ mem⟩
    · exact ⟨wanted, asks, List.mem_append_right _ (List.mem_cons_self ..)⟩

theorem Sound.asked (sound : s.Sound) (waits : s.source.ended = false) {wanted : Nat}
    {got : Option Nat} {after : Reader} {ended : Bool} {more : List Event}
    (others : more.filter Event.isReaderCall = []) (asks : 0 < wanted)
    (ends : ended = true ↔ got = some 0) : (s.asked wanted got ⟨some after, ended⟩ more).Sound where
  reader := rfl
  writer := sound.writer
  ended := by
    rw [reportedEnd_asked others asks, ← sound.ended, waits, ← ends]
    simp [Banks.asked]

/-- One call of the reader, which has not ended, by what it answers. -/
theorem gives_asked (sound : s.Sound) (waits : s.source.ended = false) {reader after : Reader}
    (there : s.source.reader = some reader) {wanted : Nat} (asks : 0 < wanted)
    {answer : Except IoError Bytes} (called : reader.read wanted = (answer, after)) {ended : Bool}
    {more : List Event} (others : more.filter Event.isReaderCall = []) {failure : Option Error}
    (ends : ended = true ↔ answer.toOption.map (·.length) = some 0)
    (failed : ∀ e, failure = some e ↔ FailedLast [answer] .store e) :
    s.Gives [wanted] (Reader.given answer) failure
      (s.asked wanted (answer.toOption.map (·.length)) ⟨some after, ended⟩ more) := by
  have all : reader.readAll [wanted] = ([answer], after) := by
    simp only [Reader.readAll, called]
  have answers : s.answers [wanted] = [answer] := by
    rw [Banks.answers, there]
    exact congrArg Prod.fst all
  exact
    { sound := sound.asked waits others asks ends
      reader := by rw [there]; exact congrArg (fun both => some (Prod.snd both)) all.symm
      readerCalls := by rw [answers, readerCalls_asked others]; rfl
      gave := by rw [answers]; exact (List.append_nil _).symm
      failed := by rwa [answers]
      waits := fun is => by
        obtain ⟨e, rfl⟩ := Option.isSome_iff_exists.1 is
        obtain ⟨io, last, _⟩ := (failed e).1 rfl
        cases last
        exact Bool.eq_false_iff.2 fun is => nomatch ends.1 is
      toCome := by
        have rest := reader.toCome_read wanted
        rw [called] at rest
        rw [Banks.toCome, there]
        exact rest
      sink := rfl
      silent := fun is => by simp [waits] at is }

theorem failedLast_single {α : Type} {failure : IoError} {operation : Operation}
    (again : ¬ failure.kind.isTryAgain = true) (e : Error) :
    some ((Error.ofIo failure).withOperation operation) = some e ↔
      FailedLast ([.error failure] : List (Except IoError α)) operation e := by
  constructor
  · rintro ⟨⟩
    exact ⟨failure, rfl, (isTryAgain_eq_false_iff _).1 (Bool.eq_false_iff.2 again), rfl⟩
  · rintro ⟨_, last, _, rfl⟩
    cases last
    rfl

theorem not_failedLast_again {α : Type} {failure : IoError} {operation : Operation}
    (again : failure.kind.isTryAgain = true) (e : Error) :
    none = some e ↔ FailedLast ([.error failure] : List (Except IoError α)) operation e := by
  refine ⟨nofun, ?_⟩
  rintro ⟨_, last, fails, _⟩
  cases last
  cases again.symm.trans ((isTryAgain_eq_false_iff _).2 fails)

theorem not_failedLast_ok {α : Type} {a : α} {operation : Operation} (e : Error) :
    none = some e ↔ FailedLast ([.ok a] : List (Except IoError α)) operation e := by
  refine ⟨nofun, ?_⟩
  rintro ⟨_, last, _⟩
  cases last

theorem gives_read (sound : s.Sound) {wanted : Nat} {answer : Except Error Bytes}
    (read : inlet.read wanted s = (answer, s')) : s.GivesAnswer s' answer := by
  -- A reader that has ended is not called again, nor one that is asked for nothing.
  by_cases quiet : (s.source.ended || wanted == 0) = true
  · simp only [inlet, ReaderSource.read, if_pos quiet, List.append_nil] at read
    cases read
    exact ⟨[], .refl sound⟩
  obtain ⟨waits, asks⟩ : s.source.ended = false ∧ 0 < wanted := by
    simp only [Bool.or_eq_true, beq_iff_eq, not_or, Bool.not_eq_true] at quiet
    exact ⟨quiet.1, Nat.pos_of_ne_zero quiet.2⟩
  obtain ⟨reader, there⟩ := Option.isSome_iff_exists.1 sound.reader
  simp only [inlet, ReaderSource.read, if_neg quiet, there] at read
  rcases called : reader.read wanted with ⟨failure | data, after⟩ <;> rw [called] at read
  · by_cases again : failure.kind.isTryAgain
    · simp only [if_pos again] at read
      cases read
      exact ⟨[wanted], gives_asked sound waits there asks called rfl
        (by simp [waits, Except.toOption]) (not_failedLast_again again)⟩
    · simp only [if_neg again] at read
      cases read
      exact ⟨[wanted], gives_asked sound waits there asks called rfl
        (by simp [waits, Except.toOption]) (failedLast_single again)⟩
  · rcases data with _ | ⟨byte, data⟩
    · cases read
      exact ⟨[wanted], gives_asked sound waits there asks called rfl (by simp [Except.toOption])
        not_failedLast_ok⟩
    · cases read
      exact ⟨[wanted], gives_asked sound waits there asks called rfl
        (by simp [waits, Except.toOption]) not_failedLast_ok⟩

/-- The writer is called with this outcome, which is put on record. -/
def offeredTo (s : Banks) (offered : Bytes) (took : Option Nat) (writer : Writer) : Banks :=
  { s with sink := ⟨some writer⟩, events := s.events ++ [.writerCalled offered.length took] }

theorem readerCalls_offeredTo {offered : Bytes} {took : Option Nat} {writer : Writer} :
    (s.offeredTo offered took writer).readerCalls = s.readerCalls := by
  rw [readerCalls, offeredTo, List.filter_append]
  exact List.append_nil _

theorem Sound.offeredTo (sound : s.Sound) {offered : Bytes} {took : Option Nat}
    {writer : Writer} : (s.offeredTo offered took writer).Sound where
  reader := sound.reader
  writer := rfl
  ended := by
    unfold ReportedEnd
    rw [readerCalls_offeredTo]
    exact sound.ended

/-- One call of the writer, by what it answers. -/
theorem takes_offeredTo (sound : s.Sound) {writer after : Writer}
    (there : s.sink.writer = some writer) {offered : Bytes} {answer : Except IoError Nat}
    (called : writer.write offered = (answer, after)) {took : Option Nat}
    {failure : Option Error} (failed : ∀ e, failure = some e ↔ FailedLast [answer] .write e) :
    s.Takes [offered] (offered.take (Writer.took answer)) failure
      (s.offeredTo offered took after) := by
  have all : writer.writeAll [offered] = ([answer], after) := by
    simp only [Writer.writeAll, called]
  have replies : s.replies [offered] = [answer] := by
    rw [Banks.replies, there]
    exact congrArg Prod.fst all
  exact
    { sound := sound.offeredTo
      writer := by rw [there]; exact congrArg (fun both => some (Prod.snd both)) all.symm
      failed := by rwa [replies]
      accepted := by
        have kept := (writer.accepted_write offered).2
        rw [called] at kept
        rw [Banks.accepted, Banks.accepted, there]
        exact kept
      source := rfl
      readerCalls := readerCalls_offeredTo }

/-- What an answer of the sink says that it has taken. -/
def TakesAnswer (s : Banks) (offered : Bytes) (s' : Banks) : Except Error Nat → Prop
  | .ok count => ∃ offers, s.Takes offers (offered.take count) none s'
  | .error e => ∃ offers, s.Takes offers [] (some e) s'

theorem takes_write (sound : s.Sound) {offered : Bytes} {answer : Except Error Nat}
    (write : outlet.write offered s = (answer, s')) : s.TakesAnswer offered s' answer := by
  obtain ⟨writer, there⟩ := Option.isSome_iff_exists.1 sound.writer
  simp only [outlet, WriterSink.write, there] at write
  rcases called : writer.write offered with ⟨failure | count, after⟩ <;> rw [called] at write
  · by_cases again : failure.kind.isTryAgain
    · simp only [if_pos again] at write
      cases write
      exact ⟨[offered], takes_offeredTo sound there called (not_failedLast_again again)⟩
    · simp only [if_neg again] at write
      cases write
      exact ⟨[offered], takes_offeredTo sound there called (failedLast_single again)⟩
  · cases write
    exact ⟨[offered], takes_offeredTo sound there called not_failedLast_ok⟩

/-! ## All the calls of a transfer -/

theorem honest_inlet : inlet.Honest := by
  rintro wanted ⟨⟨_ | reader, ended⟩, sink, events⟩ data read
  · simp only [inlet, ReaderSource.read] at read
    split at read <;> cases read
    exact Nat.zero_le _
  · have short := reader.length_given_read_le wanted
    simp only [inlet, ReaderSource.read] at read
    split at read
    · cases read
      exact Nat.zero_le _
    · rcases called : reader.read wanted with ⟨failure | _ | ⟨byte, more⟩, after⟩ <;>
        rw [called] at read short
      · simp only at read
        split at read <;> cases read
        exact Nat.zero_le _
      · cases read
        exact Nat.zero_le _
      · cases read
        exact short

theorem honest_outlet : outlet.Honest := by
  rintro offered ⟨source, ⟨_ | writer⟩, events⟩ count write
  · cases write
  · have le := (writer.accepted_write offered).1
    simp only [outlet, WriterSink.write] at write
    rcases called : writer.write offered with ⟨failure | took, after⟩ <;> rw [called] at write le
    · simp only at write
      split at write <;> cases write
      exact Nat.zero_le _
    · cases write
      exact le

/-- Whatever fills a ring from the reader is what the reader has given. -/
theorem gives_filling (sound : s.Sound) {room : Nat} {given : Bytes} {failure : Option Error}
    (filling : Filling inlet room s given failure s') :
    ∃ wants, s.Gives wants given failure s' := by
  induction filling with
  | full => exact ⟨[], .refl sound⟩
  | failed _ _ read => exact gives_read sound read
  | short _ read _ => exact gives_read sound read
  | whole _ _ read _ _ ih =>
      obtain ⟨wants, first⟩ := gives_read sound read
      obtain ⟨others, rest⟩ := ih first.sound
      exact ⟨wants ++ others, first.trans sound rest⟩

/-- Whatever empties a ring into the writer is what the writer has taken. -/
theorem takes_emptying (sound : s.Sound) {offer taken : Bytes} {failure : Option Error}
    (emptying : Emptying outlet offer s taken failure s') :
    (∃ offers, s.Takes offers taken failure s') ∧ taken.length ≤ offer.length := by
  induction emptying with
  | all => exact ⟨⟨[], .refl sound⟩, Nat.le_refl _⟩
  | failed _ write => exact ⟨takes_write sound write, Nat.zero_le _⟩
  | short write _ =>
      refine ⟨takes_write sound write, ?_⟩
      rw [List.length_take, List.length_append]
      omega
  | whole _ write _ ih =>
      obtain ⟨offers, first⟩ := takes_write sound write
      obtain ⟨⟨others, rest⟩, le⟩ := ih first.sound
      rw [List.take_length] at first
      exact ⟨⟨offers ++ others, first.trans rest⟩, by simpa using le⟩

/-- The answer of the ring says what its source has given. -/
theorem Gives.says {wants : List Nat} {given : Bytes} {failure : Option Error}
    {result : Except Error Stored} (gives : s.Gives wants given failure s')
    (filled : Fifo.Filled inlet given failure s' result s'') :
    s'' = s' ∧ (∀ stored, result = .ok stored → stored.count = given.length) ∧
      (∀ e, result = .error e ↔ FailedLast (s.answers wants) .store e) ∧
        (result = .ok .eos ↔ given = [] ∧ s'.ReportedEnd) := by
  rw [← gives.sound.ended]
  have failed := gives.failed
  cases filled with
  | failed =>
      have waits := gives.waits rfl
      exact ⟨rfl, nofun, fun e => by rw [← failed]; simp, by simp [waits]⟩
  | bytes gave =>
      refine ⟨rfl, ?_, fun e => by rw [← failed]; simp, by simp [gave]⟩
      rintro _ ⟨⟩
      rfl
  | nothing asked =>
      cases asked
      refine ⟨rfl, ?_, fun e => by rw [← failed]; cases s'.source.ended <;> simp, ?_⟩
      · cases ended : s'.source.ended <;> simp [Stored.count]
      · cases ended : s'.source.ended <;> simp

end Banks

/-! ## The ferry -/

/-- A ring between a reader and a writer. -/
structure Ferry where
  ring : Ring
  banks : Banks

/-- A call that moves bytes over one of the banks. -/
inductive Crossing where
  | store
  | write (max : Nat)

namespace Ferry

/-- A ring before anything was read or written. -/
def launch (ring : Ring) (reader : Reader) (writer : Writer) : Ferry :=
  ⟨ring, .ofReader reader, .ofWriter writer, []⟩

/-- Fills the ring from the reader. -/
def store (f : Ferry) : Except Error Stored × Ferry :=
  let (intake, banks) := f.ring.storeFrom Banks.inlet f.banks
  (intake.result, ⟨intake.ring, banks⟩)

/-- Empties the ring into the writer. -/
def write (f : Ferry) (max : Nat) : Except Error Nat × Ferry :=
  let (outflow, banks) := f.ring.writeTo Banks.outlet max f.banks
  (outflow.result, ⟨outflow.ring, banks⟩)

/-- What a call leaves, whatever it answers. -/
def cross (f : Ferry) : Crossing → Ferry
  | .store => f.store.2
  | .write max => (f.write max).2

/-- What the calls leave, one after the other. -/
def crossAll (f : Ferry) (crossings : List Crossing) : Ferry := crossings.foldl cross f

/-- Between calls: the ring is in order, and so are the banks. -/
structure Afloat (f : Ferry) : Prop where
  valid : f.ring.Valid
  intact : f.ring.cleaned = false
  banks : f.banks.Sound

/-- Filling the ring has called the reader for these numbers of bytes, has moved what it gave to the
end of the ring, and says what happened. -/
structure Stores (f : Ferry) (wants : List Nat) (given : Bytes) (result : Except Error Stored)
    (f' : Ferry) : Prop where
  reader : f'.banks.source.reader =
    f.banks.source.reader.map fun reader => (reader.readAll wants).2
  readerCalls : f'.banks.readerCalls =
    f.banks.readerCalls ++ List.zipWith Reader.recorded wants (f.banks.answers wants)
  gave : given = (f.banks.answers wants).flatMap Reader.given
  toCome : f.banks.toCome = given ++ f'.banks.toCome
  content : f'.ring.toList = f.ring.toList ++ given
  sink : f'.banks.sink = f.banks.sink
  count : ∀ stored, result = .ok stored → stored.count = given.length
  /-- It fails exactly if the last call of the reader has failed, other than by putting it off. -/
  failed : ∀ e, result = .error e ↔ FailedLast (f.banks.answers wants) .store e
  eos : result = .ok .eos ↔ f.ring.isFull = false ∧ given = [] ∧ f'.banks.ReportedEnd
  /-- A reader at its end is left alone. -/
  silent : f.banks.ReportedEnd → f'.banks = f.banks

/-- Emptying the ring has offered these bytes to the writer, call by call, has moved what it took
from the front of the ring, and says what happened. -/
structure Writes (f : Ferry) (max : Nat) (offers : List Bytes) (taken : Bytes)
    (result : Except Error Nat) (f' : Ferry) : Prop where
  writer : f'.banks.sink.writer =
    f.banks.sink.writer.map fun writer => (writer.writeAll offers).2
  content : f.ring.toList = taken ++ f'.ring.toList
  accepted : f'.banks.accepted = f.banks.accepted ++ taken
  le_max : taken.length ≤ max
  source : f'.banks.source = f.banks.source
  readerCalls : f'.banks.readerCalls = f.banks.readerCalls
  count : ∀ count, result = .ok count → count = taken.length
  /-- It fails exactly if the last call of the writer has failed, other than by putting it off. -/
  failed : ∀ e, result = .error e ↔ FailedLast (f.banks.replies offers) .write e

variable {f : Ferry}

theorem Afloat.store (afloat : f.Afloat) :
    (∃ wants given, f.Stores wants given f.store.1 f.store.2) ∧ f.store.2.Afloat := by
  obtain ⟨valid, intact, sound⟩ := afloat
  rcases ran : f.ring.storeFrom Banks.inlet f.banks with ⟨⟨ring, moved, result⟩, banks⟩
  obtain ⟨step, valid'⟩ := Ring.step_storeFrom Banks.honest_inlet valid ran
  have eq : f.store = (result, ⟨ring, banks⟩) := by rw [Ferry.store, ran]
  have full : f.ring.view.free = 0 ↔ f.ring.isFull := by
    rw [Ring.free_view valid, Ring.free, Ring.isFull, beq_iff_eq]
    have fits := valid.used_le
    omega
  rw [eq]
  -- Without room the reader is not asked; otherwise what it gave is in the ring, also on an error.
  rcases step.storeFrom_cases intact with
    ⟨noRoom, said, same, rfl⟩ | ⟨given, failure, middle, answer, room, filling, filled, said, left⟩
  · cases said
    have content : ring.toList = f.ring.toList := congrArg Fifo.content same
    have cleaned : ring.cleaned = f.ring.cleaned := congrArg Fifo.cleaned same
    have idle := Banks.Gives.refl sound
    refine ⟨⟨[], [], idle.reader, idle.readerCalls, idle.gave, rfl, ?_, rfl, ?_, fun e => ?_, ?_,
      fun _ => rfl⟩, valid', cleaned.trans intact, sound⟩
    · rw [content, List.append_nil]
    · rintro _ ⟨⟩
      rfl
    · rw [← idle.failed]
      simp
    · simp [full.1 noRoom]
  · cases said
    have content : ring.toList = f.ring.toList ++ given := congrArg Fifo.content left
    have cleaned : ring.cleaned = f.ring.cleaned := congrArg Fifo.cleaned left
    obtain ⟨wants, gives⟩ := Banks.gives_filling sound filling
    obtain ⟨rfl, count, failed, eos⟩ := gives.says filled
    have notFull : f.ring.isFull = false := Bool.eq_false_iff.2 fun is => room (full.2 is)
    have silent (reported : f.banks.ReportedEnd) : banks = f.banks :=
      (gives.silent (sound.ended.2 reported)).2
    exact ⟨⟨wants, given, gives.reader, gives.readerCalls, gives.gave, gives.toCome, content,
      gives.sink, count, failed, by simpa [notFull] using eos, silent⟩, valid',
      cleaned.trans intact, gives.sound⟩

theorem Afloat.write (afloat : f.Afloat) (max : Nat) :
    (∃ offers taken, f.Writes max offers taken (f.write max).1 (f.write max).2) ∧
      (f.write max).2.Afloat := by
  obtain ⟨valid, intact, sound⟩ := afloat
  rcases ran : f.ring.writeTo Banks.outlet max f.banks with ⟨⟨ring, moved, result⟩, banks⟩
  obtain ⟨step, valid'⟩ := Ring.step_writeTo Banks.honest_outlet valid ran
  have eq : f.write max = (result, ⟨ring, banks⟩) := by rw [Ferry.write, ran]
  rw [eq]
  obtain ⟨taken, failure, rest, emptying, split, left, said⟩ := step.writeTo_cases intact
  obtain ⟨⟨offers, takes⟩, le⟩ := Banks.takes_emptying sound emptying
  have content : ring.toList = rest := congrArg Fifo.content left
  have cleaned : ring.cleaned = f.ring.cleaned := congrArg Fifo.cleaned left
  refine ⟨⟨offers, taken, takes.writer, content ▸ split, takes.accepted,
    Nat.le_trans le (List.length_take_le ..), takes.source, takes.readerCalls, ?_, fun e => ?_⟩,
    valid', cleaned.trans intact, takes.sound⟩
  · rintro count rfl
    cases failure <;> cases said
    rfl
  · rw [← takes.failed]
    cases failure <;> cases said <;> simp

/-! ## All crossings -/

/-- What the writer has taken and the ring holds are the bytes that left the reader. -/
def Carries (reader : Reader) (writer : Writer) (f : Ferry) : Prop :=
  ∃ handed, reader.toCome = handed ++ f.banks.toCome ∧
    f.banks.accepted ++ f.ring.toList = writer.accepted.toList ++ handed

theorem Carries.cross {reader : Reader} {writer : Writer} (afloat : f.Afloat)
    (carries : f.Carries reader writer) (crossing : Crossing) :
    (f.cross crossing).Carries reader writer := by
  obtain ⟨handed, toCome, held⟩ := carries
  cases crossing with
  | store =>
      obtain ⟨wants, given, stores⟩ := afloat.store.1
      refine ⟨handed ++ given, ?_, ?_⟩
      · rw [toCome, stores.toCome, List.append_assoc]
        rfl
      · have same : f.store.2.banks.accepted = f.banks.accepted := by
          rw [Banks.accepted, stores.sink]
          rfl
        rw [Ferry.cross, same, stores.content, ← List.append_assoc, held, List.append_assoc]
  | write max =>
      obtain ⟨offers, taken, writes⟩ := (afloat.write max).1
      refine ⟨handed, ?_, ?_⟩
      · rw [toCome, Banks.toCome, Banks.toCome, Ferry.cross, writes.source]
      · rw [Ferry.cross, writes.accepted, List.append_assoc, ← writes.content, held]

theorem Afloat.cross (afloat : f.Afloat) (crossing : Crossing) : (f.cross crossing).Afloat := by
  cases crossing with
  | store => exact afloat.store.2
  | write max => exact (afloat.write max).2

/-- Once the reader has reported its end, no crossing calls it. -/
theorem readerCalls_cross (afloat : f.Afloat) (reported : f.banks.ReportedEnd)
    (crossing : Crossing) : (f.cross crossing).banks.readerCalls = f.banks.readerCalls := by
  cases crossing with
  | store =>
      obtain ⟨wants, given, stores⟩ := afloat.store.1
      exact congrArg Banks.readerCalls (stores.silent reported)
  | write max =>
      obtain ⟨offers, taken, writes⟩ := (afloat.write max).1
      exact writes.readerCalls

theorem readerCalls_crossAll (afloat : f.Afloat) (reported : f.banks.ReportedEnd)
    (crossings : List Crossing) :
    (f.crossAll crossings).banks.readerCalls = f.banks.readerCalls := by
  induction crossings generalizing f with
  | nil => rfl
  | cons crossing crossings ih =>
      have same := readerCalls_cross afloat reported crossing
      have still : (f.cross crossing).banks.ReportedEnd := by
        unfold Banks.ReportedEnd
        rwa [same]
      exact (ih (afloat.cross crossing) still).trans same

theorem afloat_crossAll {reader : Reader} {writer : Writer} (afloat : f.Afloat)
    (carries : f.Carries reader writer) (crossings : List Crossing) :
    (f.crossAll crossings).Afloat ∧ (f.crossAll crossings).Carries reader writer := by
  induction crossings generalizing f with
  | nil => exact ⟨afloat, carries⟩
  | cons crossing crossings ih =>
      exact ih (afloat.cross crossing) (carries.cross afloat crossing)

theorem afloat_launch {capacity : Nat} {region : Region} {ring : Ring}
    (made : Ring.create capacity region = .ok ring) (reader : Reader) (writer : Writer) :
    (launch ring reader writer).Afloat ∧ (launch ring reader writer).Carries reader writer := by
  obtain ⟨_, rfl⟩ := Ring.create_eq_ok_iff.1 made
  refine ⟨⟨Ring.valid_empty .., rfl, rfl, rfl, ?_⟩, [], rfl, ?_⟩
  · simp [launch, ReaderSource.ofReader, Banks.ReportedEnd, Banks.readerCalls]
  · rw [launch, Ring.toList_empty]
    rfl

/-- Whatever the two streams do and however filling and emptying take turns, no byte is lost and
none is repeated: what the writer has taken and the ring holds is, byte for byte, what the reader
has handed out. Each call counts the bytes it has moved, fails exactly if its last call of the
stream has failed other than by putting it off, and reports the end exactly when it had room, found
no byte and the reader has reported its end; from then on the reader is left alone. -/
theorem carries_every_byte {capacity : Nat} {region : Region} {ring : Ring}
    (made : Ring.create capacity region = .ok ring) (reader : Reader) (writer : Writer)
    (crossings : List Crossing) :
    let ferry := (launch ring reader writer).crossAll crossings
    ferry.Carries reader writer ∧
      (∃ wants given, ferry.Stores wants given ferry.store.1 ferry.store.2) ∧
      (∀ max, ∃ offers taken,
        ferry.Writes max offers taken (ferry.write max).1 (ferry.write max).2) ∧
      (ferry.banks.ReportedEnd → ∀ more,
        (ferry.crossAll more).banks.readerCalls = ferry.banks.readerCalls) := by
  obtain ⟨start, empty⟩ := afloat_launch made reader writer
  obtain ⟨afloat, carries⟩ := afloat_crossAll start empty crossings
  exact ⟨carries, afloat.store.1, fun max => (afloat.write max).1,
    fun reported => readerCalls_crossAll afloat reported⟩

namespace Shoal

/-- Gives three bytes, puts a call off, gives two more and ends in the middle of a call. -/
def reader : Reader :=
  ⟨[], [.data [1, 2, 3], .fail ⟨.wouldBlock, "later"⟩, .data [4, 5], .data [], .data [6]]⟩

/-- Takes two bytes, is interrupted, fails, and takes everything after that. -/
def writer : Writer :=
  ⟨.empty, [.accept 2, .fail ⟨.interrupted, "again"⟩, .fail ⟨.brokenPipe, "gone"⟩], []⟩

def crossings : List Crossing :=
  [.store, .write 3, .store, .store, .write 4, .write 4, .write 1, .store]

def ferry : Ferry := (launch (Ring.empty 4 .heap) reader writer).crossAll crossings

end Shoal

theorem carries_every_byte_shoal :
    Ring.create 4 .heap = .ok (Ring.empty 4 .heap) ∧ Shoal.ferry.Carries Shoal.reader Shoal.writer ∧
      Shoal.ferry.ring.toList = [4, 5] ∧ Shoal.ferry.banks.accepted = [1, 2, 3] ∧
      Shoal.ferry.store.1.toOption = some .eos ∧
      ∀ more, (Shoal.ferry.crossAll more).banks.readerCalls = Shoal.ferry.banks.readerCalls := by
  have made : Ring.create 4 .heap = .ok (Ring.empty 4 .heap) :=
    Ring.create_eq_ok_iff.2 ⟨by decide, rfl⟩
  have ⟨carries, _, _, quiet⟩ := carries_every_byte made Shoal.reader Shoal.writer Shoal.crossings
  obtain ⟨start, empty⟩ := afloat_launch made Shoal.reader Shoal.writer
  have reported : Shoal.ferry.banks.ReportedEnd :=
    (afloat_crossAll start empty Shoal.crossings).1.banks.ended.1 (by decide +kernel)
  exact ⟨made, carries, by decide +kernel, by decide +kernel, by decide +kernel, quiet reported⟩

end Ferry

end ByteFlow
