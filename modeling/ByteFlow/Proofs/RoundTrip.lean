/-
# Packing and unpacking

A decoder undoes an encoder if what the encoder makes of pieces are words of the decoder that stand
for these pieces, and fit into its source. Then a pipe that unpacks what another one has packed
never fails, whatever cuts there are on the way: the encoder's, those of the bytes in between, and
those of the source that the decoder reads from. What it has delivered is always a beginning of what
was packed, and once nothing is left on the way, it is all of it.
-/

import ByteFlow.Proofs.Packing
import ByteFlow.Proofs.Unframing

namespace ByteFlow

open Machine

/-! ## Lines -/

theorem Base64.symbol_ne_break : ∀ value < 64,
    symbol value ≠ Line.feed ∧ symbol value ≠ Line.carriageReturn := by decide

/-- Encoded bytes contain no byte that ends a line. -/
theorem Base64.unbroken_encode (bytes : Bytes) :
    Line.feed ∉ encode bytes ∧ Line.carriageReturn ∉ encode bytes := by
  constructor
  all_goals
    intro member
    rcases mem_encode member with impossible | ⟨value, lt, eq⟩
    · cases impossible
  · exact (symbol_ne_break value lt).1 eq.symm
  · exact (symbol_ne_break value lt).2 eq.symm

namespace LineDecoder

variable {t : LineDecoder}

theorem codes (t : LineDecoder) : t.format.Codes (Codec.lineDecoder t) where
  same _ _ := rfl
  handles input o _ _ := ⟨_, rfl, t.handles_unpack 0 input o⟩

/-- A stream begins with at most one line. -/
theorem clear (t : LineDecoder) : t.format.Clear := by
  refine t.reads_read.clear ?_
  rintro _ pushed _ pushed' rest rest' ⟨line, rfl, unfed, judged⟩ ⟨line', rfl, unfed', judged'⟩ same
  have same : line ++ Line.feed :: rest = line' ++ Line.feed :: rest' :=
    (List.append_cons _ _ _).trans (same.trans (List.append_cons _ _ _).symm)
  have front := Line.front_of_ended unfed rest
  rw [same, Line.front_of_ended unfed'] at front
  cases front
  cases judged.symm.trans judged'
  exact ⟨rfl, rfl⟩

/-- A line that was encoded stands for what it was made of. -/
theorem judge_encode {chunk : Bytes} (short : Base64.encodedLength chunk.length ≤ t.maxLine) :
    t.judge (Base64.encode chunk) = .ok chunk := by
  have trimmed : Line.trim (Base64.encode chunk) = Base64.encode chunk := by
    rcases Line.trim_eq_or (Base64.encode chunk) with same | cut
    · exact same
    · refine ((Base64.unbroken_encode chunk).2 ?_).elim
      rw [cut]
      exact List.mem_append_right _ (List.mem_singleton.2 rfl)
  rw [← Base64.length_encode] at short
  rw [judge, trimmed, if_neg (Nat.not_lt.2 short), Base64.decode_encode]

end LineDecoder

/-! ## Undoing -/

/-- The words of one format that stand for the units of another, which it undoes, fit into so many
bytes. The other one takes whatever it is given. -/
structure Format.Undoes (D E : Format) (room : Nat) : Prop where
  clear : D.Clear
  spells : D.Spells fun packed piece => E.unit piece packed
  fits : ∀ {piece packed : Bytes}, E.unit piece packed → packed.length ≤ room
  complete : ∀ rest, ¬E.incomplete rest
  accepted : ∀ rest cause, ¬E.rejected rest cause

theorem FrameDecoder.undoes {t : FrameDecoder} {encoder : FrameEncoder} {room : Nat}
    (le : encoder.maxFrame ≤ t.maxFrame) (enough : Frame.headerLength + encoder.maxFrame ≤ room) :
    t.format.Undoes encoder.format room where
  clear := t.clear
  spells := by
    refine t.spells.of_imp ?_
    rintro _ piece ⟨⟨_, short⟩, rfl⟩
    exact ⟨rfl, Nat.le_trans short le, Nat.lt_of_le_of_lt short encoder.maxFrame_lt⟩
  fits := by
    rintro piece _ ⟨⟨_, short⟩, rfl⟩
    rw [Frame.length_encode]
    omega
  complete _ := id
  accepted _ _ := id

theorem LineDecoder.undoes {t : LineDecoder} {encoder : LineEncoder} {room : Nat}
    (le : Base64.encodedLength encoder.lineInput ≤ t.maxLine)
    (enough : Line.encodedLength encoder.lineInput ≤ room) :
    t.format.Undoes encoder.format room where
  clear := t.clear
  spells := by
    have short {piece : Bytes} (within : piece.length ≤ encoder.lineInput) :
        Base64.encodedLength piece.length ≤ t.maxLine := by
      unfold Base64.encodedLength at le ⊢
      omega
    constructor
    · rintro _ piece ⟨⟨_, within⟩, rfl⟩
      exact ⟨_, rfl, (Base64.unbroken_encode piece).1, judge_encode (short within)⟩
    · rintro front rest piece ⟨⟨_, within⟩, split⟩ held lacks
      have inside : front <+: Base64.encode piece := by
        refine List.prefix_of_prefix_length_le ⟨rest, split⟩ ⟨[Line.feed], rfl⟩ ?_
        have count := congrArg List.length split
        have missed := List.length_pos_iff.2 lacks
        rw [Line.encode, List.length_append, List.length_append, List.length_singleton] at count
        omega
      refine ⟨⟨held, fun member => (Base64.unbroken_encode piece).1 (inside.subset member)⟩, ?_⟩
      have le := inside.length_le
      rw [Base64.length_encode] at le
      exact Nat.le_trans le (short within)
  fits := by
    rintro piece _ ⟨⟨_, within⟩, rfl⟩
    rw [Line.length_encode]
    unfold Line.encodedLength Base64.encodedLength at enough ⊢
    omega
  complete _ := id
  accepted _ _ := id

/-! ## Two pipes -/

namespace Course

section Undoing

variable {τ : Type} {c c' : Course τ} {got gave got' gave' : Bytes} {pipe pipe' : Pipe τ}
  {ring ring' : Ring} {ledger ledger' : Ledger}
  (undoes : c'.format.Undoes c.format c'.room) (h : c.Holds got gave pipe ring ledger)

include undoes h

/-- A pipe that packs never fails. -/
theorem Holds.intact_of_packing :
    pipe.failure = none ∧ Translates c.format.unit ledger.consumed ledger.pushed :=
  h.standing.intact_of_total undoes.complete undoes.accepted

variable (fresh : c.held = []) (h' : c'.Holds got' gave' pipe' ring' ledger')
  (wire : got' <+: gave)

include fresh h' wire

/-- What comes into the pipe that unpacks is a beginning of a stream of words, which stand for what
the other one has consumed. -/
theorem Holds.exists_words : ∃ more,
    Translates (fun packed piece => c.format.unit piece packed)
      (ledger'.consumed ++ pipe'.source.toList ++ more) ledger.consumed := by
  obtain ⟨transit, rfl⟩ := wire
  have words := (h.intact_of_packing undoes).2.swap
  have outbound := h.outbound
  rw [fresh, List.nil_append, List.append_assoc, List.append_assoc] at outbound
  rw [← outbound] at words
  refine ⟨transit ++ (ring.toList ++ pipe.queue.toList), ?_⟩
  rw [h'.inbound]
  exact words

/-- A pipe that unpacks what another one has packed never fails. -/
theorem Holds.intact_of_unpacking (room : 0 < c'.room) : pipe'.failure = none := by
  obtain ⟨_, words⟩ := h.exists_words undoes fresh h' wire
  exact h'.standing.intact_of_words undoes.clear undoes.spells undoes.fits room words

/-- What it has pushed stands for a beginning of what was packed, and the rest is on the way. -/
theorem Holds.rest_of_unpacking (room : 0 < c'.room) :
    ∃ more data, ledger.consumed = ledger'.pushed ++ data ∧
      Translates (fun packed piece => c.format.unit piece packed)
        (pipe'.source.toList ++ more) data := by
  obtain ⟨more, words⟩ := h.exists_words undoes fresh h' wire
  have standing := h'.standing
  rw [h.intact_of_unpacking undoes fresh h' wire room] at standing
  rw [List.append_assoc] at words
  obtain ⟨data, whole, others⟩ :=
    undoes.clear.rest_of_words (fun within => within.1) undoes.spells standing words
  exact ⟨more, data, whole, others⟩

end Undoing

section Drained

variable {τ : Type} {c c' : Course τ} {got gave got' gave' : Bytes} {pipe pipe' : Pipe τ}
  {ring ring' : Ring} {ledger ledger' : Ledger}
  (undoes : c'.format.Undoes c.format c'.room) (fresh : c.held = []) (fresh' : c'.held = [])
  (room : 0 < c'.room)

include undoes fresh fresh' room

/-- What was delivered is a beginning of what was to be packed. -/
theorem Holds.prefix_of_unpacking (h : c.Holds got gave pipe ring ledger)
    (h' : c'.Holds got' gave' pipe' ring' ledger') (wire : got' <+: gave) : gave' <+: got := by
  obtain ⟨_, data, whole, _⟩ := h.rest_of_unpacking undoes fresh h' wire room
  have outbound := h'.outbound
  rw [fresh', List.nil_append, List.append_assoc] at outbound
  rw [← h.inbound, whole, ← outbound, List.append_assoc, List.append_assoc]
  exact List.prefix_append _ _

/-- Once both destinations are empty, the pipe that unpacks has room for more, and if nothing is on
the way to it, then all that was to be packed is delivered. -/
theorem Company.Rests.all_of_unpacking (h : c.Rests got gave pipe ring ledger)
    (h' : c'.Rests got' gave' pipe' ring' ledger') (wire : got' <+: gave) (sized : 0 < c.size)
    (sized' : 0 < c'.size) (ceiling : 0 < c.ceiling) (ceiling' : 0 < c'.ceiling)
    (own : 0 < c.room) (drained : ring.used = 0) (drained' : ring'.used = 0) :
    pipe'.source.free ≠ 0 ∧ (got' = gave → gave' = got) := by
  obtain ⟨intact, packed⟩ := h.toHolds.intact_of_packing undoes
  have intact' := h.toHolds.intact_of_unpacking undoes fresh h'.toHolds wire room
  obtain ⟨_, sent, _, left⟩ := h.delivered rfl intact sized own ceiling drained
  obtain ⟨_, delivered, space, left'⟩ := h'.delivered rfl intact' sized' room ceiling' drained'
  refine ⟨space, fun arrived => ?_⟩
  have all : ledger.consumed = got := by
    have inbound := h.inbound
    rw [left.resolve_right (undoes.complete _), List.append_nil] at inbound
    exact inbound
  have standing := h'.standing
  rw [intact'] at standing
  have words := packed.swap
  rw [fresh, List.nil_append] at sent
  rw [← sent, ← arrived, ← h'.inbound] at words
  obtain ⟨data, whole, others⟩ :=
    undoes.clear.rest_of_words (fun within => within.1) undoes.spells standing words
  have none := undoes.clear.eq_nil_of_incomplete undoes.spells.unit others left'
  rw [delivered, fresh', List.nil_append, ← all, whole, none, List.append_nil]

end Drained

end Course

/-- An encoder and a decoder that belong together, if the source of the decoder holds so many
bytes. -/
inductive Codec.Pairs (room : Nat) : Codec → Codec → Prop where
  | frames {encoder : FrameEncoder} {decoder : FrameDecoder}
      (le : encoder.maxFrame ≤ decoder.maxFrame)
      (enough : Frame.headerLength + encoder.maxFrame ≤ room) :
      Pairs room (.frameEncoder encoder) (.frameDecoder decoder)
  | lines {encoder : LineEncoder} {decoder : LineDecoder}
      (le : Base64.encodedLength encoder.lineInput ≤ decoder.maxLine)
      (enough : Base64.encodedLength encoder.lineInput + 1 ≤ room) :
      Pairs room (.lineEncoder encoder) (.lineDecoder decoder)

theorem Codec.Pairs.exists_formats {room : Nat} {encoder decoder : Codec}
    (pairs : Pairs room encoder decoder) :
    ∃ E D : Format, D.Undoes E room ∧ E.Codes encoder ∧ D.Codes decoder := by
  cases pairs with
  | @frames encoder decoder le enough =>
      exact ⟨_, _, FrameDecoder.undoes le enough, encoder.codes, decoder.codes⟩
  | @lines encoder decoder le enough =>
      exact ⟨_, _, LineDecoder.undoes le enough, encoder.codes, decoder.codes⟩

/-- Two pipes, one of which unpacks what the other one has packed, never fail. However their calls
are mixed, and however the bytes between them are moved, what was delivered is a beginning of what
was stored; and once both destinations are empty and all that came out of the one has gone into the
other, for which there is room then, it is what was stored. -/
theorem unpacked_of_packed {ω : Type} {o : Owner Codec ω} (passive : o.Passive)
    {encoder decoder : Codec} {d e : RingId} {direction direction' : Direction}
    {options options' : PipeOptions} {w₀ w₁ w₂ : World Codec ω} {p q : PipeId}
    (pairs : Codec.Pairs (options'.sourceCapacity.getD (w₀.rings.get e).ring.capacity)
      encoder decoder)
    (usable : ∀ r, r = d ∨ r = e →
      (w₀.rings.get r).ring.Valid ∧ (w₀.rings.get r).ring.cleaned = false)
    (fresh : ∀ r, r = d ∨ r = e →
      (w₀.rings.get r).ring.used = 0 ∧ 0 < (w₀.rings.get r).ring.capacity ∧
        ∀ s, .listener s ∉ (w₀.rings.get r).observers)
    (apart : d ≠ e) (heap : options'.sourceRegion = .heap)
    (granted : options.sourceCapacity.getD (w₀.rings.get d).ring.capacity +
      (w₀.rings.get d).ring.capacity + 2 ≤ o.passes)
    (granted' : options'.sourceCapacity.getD (w₀.rings.get e).ring.capacity +
      (w₀.rings.get e).ring.capacity + 2 ≤ o.passes)
    (made : Pipe.create direction d encoder options w₀ = .ok (.ok p) w₁)
    (made' : Pipe.create direction' e decoder options' w₁ = .ok (.ok q) w₂)
    {calls : List ((α : Type) × Call Codec ω α)}
    (tame : ∀ call ∈ calls, call.2.Tame p ∨ call.2.Tame q) :
    ∃ w₃, Call.performAll o calls w₂ = .ok () w₃ ∧
      let data := (Ledger.of p w₃.journal).received
      let sent := (Ledger.of p w₃.journal).accepted
      let arrived := (Ledger.of q w₃.journal).received
      let delivered := (Ledger.of q w₃.journal).accepted
      (w₃.pipes.get p).failure = none ∧
        (arrived <+: sent →
          (w₃.pipes.get q).failure = none ∧ delivered <+: data ∧
            ((w₃.rings.get d).ring.used = 0 → (w₃.rings.get e).ring.used = 0 →
              (w₃.pipes.get q).source.free ≠ 0 ∧ (arrived = sent → delivered = data))) := by
  obtain ⟨E, D, undoes, codes, codes'⟩ := pairs.exists_formats
  obtain ⟨drained, sized, free⟩ := fresh d (.inl rfl)
  obtain ⟨drained', sized', free'⟩ := fresh e (.inr rfl)
  let c := Course.new E encoder d options (w₀.rings.get d).ring
  let c' := Course.new D decoder e options' (w₀.rings.get e).ring
  have opens : c.Opens p w₀ w₁ :=
    Course.ensures_create E (usable d (.inl rfl)) free direction encoder
      (fun incomplete => (undoes.complete _ incomplete).elim) rfl made p rfl
  have ring : w₁.rings.get e = w₀.rings.get e := opens.otherRing e apart
  have opens' : c'.Opens q w₁ w₂ := by
    have usable' := usable e (.inr rfl)
    rw [← ring] at usable' free'
    have begins := Course.ensures_create D usable' free' direction' decoder (fun _ => heap) rfl
      made' q rfl
    rw [ring] at begins
    exact begins
  have undoes : c'.format.Undoes c.format c'.room := undoes
  have differ : p ≠ q := by
    rw [opens'.fresh]
    exact Nat.ne_of_lt opens.inUse
  have before : c.At p [] [] w₂ := opens'.elsewhere opens.start opens.inUse apart.symm
  have both : c.format.Codes c.transform ∧ c.Roomy o := ⟨codes, granted⟩
  have both' : c'.format.Codes c'.transform ∧ c'.Roomy o := ⟨codes', granted'⟩
  obtain ⟨w₃, ran, ⟨got, gave, rests⟩, got', gave', rests'⟩ :=
    before.performAll_both passive both both' opens'.start differ apart tame
  have holds := rests.rests
  have holds' := rests'.rests
  have nothing : c.held = [] :=
    (Ring.toList_eq_nil_iff (usable d (.inl rfl)).1).2 (beq_iff_eq.2 drained)
  have nothing' : c'.held = [] :=
    (Ring.toList_eq_nil_iff (usable e (.inr rfl)).1).2 (beq_iff_eq.2 drained')
  refine ⟨w₃, ran, ?_⟩
  dsimp only
  rw [holds.received, holds.accepted, holds'.received, holds'.accepted]
  refine ⟨(holds.toHolds.intact_of_packing undoes).1, fun wire => ⟨?_, ?_, ?_⟩⟩
  · exact holds.toHolds.intact_of_unpacking undoes nothing holds'.toHolds wire opens'.room
  · exact holds.toHolds.prefix_of_unpacking undoes nothing nothing' opens'.room holds'.toHolds wire
  · exact holds.all_of_unpacking undoes nothing nothing' opens'.room holds' wire sized sized'
      opens.ceiling opens'.ceiling opens.room

namespace Wire

/-- Puts bytes on a wire that the owner keeps. -/
def put (bytes : Bytes) : Machine Codec Bytes (Except Error Nat) :=
  modifyGet fun w => (.ok bytes.length, { w with owner := w.owner ++ bytes })

/-- Takes as many bytes from the wire as are wanted, or all. -/
def take (wanted : Nat) : Machine Codec Bytes (Except Error Bytes) :=
  modifyGet fun w => (.ok (w.owner.take wanted), { w with owner := w.owner.drop wanted })

theorem discreet_put (bytes : Bytes) : Discreet (put bytes) :=
  fun _ _ same => ⟨same.pipes, same.rings, same.ledgers⟩

theorem discreet_take (wanted : Nat) : Discreet (take wanted) :=
  fun _ _ same => ⟨same.pipes, same.rings, same.ledgers⟩

/-- An owner whose handlers make no calls. -/
def owner : Owner Codec Bytes := ⟨fun _ _ => pure (), 16⟩

/-- A world with a ring of four bytes and one of three, and nothing on the wire. -/
def world : World Codec Bytes :=
  ⟨⟨[⟨.empty 4 .heap, []⟩, ⟨.empty 3 .heap, []⟩]⟩, .empty, [], []⟩

/-- The source of the encoder may not be moved. -/
def options : PipeOptions := ⟨6, some 3, .fixed⟩

/-- The source of the decoder holds the longest frame, and no more. -/
def options' : PipeOptions := ⟨1, some 6, .heap⟩

/-- Makes a pipe that packs payloads of two bytes. -/
def make : Machine Codec Bytes (Except Error PipeId) :=
  Pipe.create .wrap 0 (.frameEncoder ⟨2, Nat.two_pos, by decide⟩) options

/-- Makes a pipe that unpacks them. -/
def make' : Machine Codec Bytes (Except Error PipeId) :=
  Pipe.create .unwrap 1 (.frameDecoder ⟨2⟩) options'

/-- Stores three bytes into the encoder. -/
def feed : Call Codec Bytes (Except Error Stored) :=
  .feed 0 ⟨fun wanted => pure (.ok ([1, 2, 3].take wanted)), pure false⟩

/-- Moves up to three bytes from the encoder to the wire. -/
def send : Call Codec Bytes (Except Error Nat) := .empty 0 ⟨put⟩ 3

/-- Moves what there is room for from the wire to the decoder. -/
def receive : Call Codec Bytes (Except Error Stored) := .feed 1 ⟨take, pure false⟩

/-- Takes what comes out of the decoder. -/
def collect : Call Codec Bytes (Except Error Nat) := .empty 1 .void 3

def round : List ((α : Type) × Call Codec Bytes α) := [⟨_, send⟩, ⟨_, receive⟩, ⟨_, collect⟩]

/-- Stores, then moves bytes on until none is left on the way. -/
def calls : List ((α : Type) × Call Codec Bytes α) := ⟨_, feed⟩ :: (List.replicate 5 round).flatten

theorem tame_feed : feed.Tame 0 :=
  ⟨rfl, fun _ => discreet_pure _, discreet_pure _, fun _ => ensures_pure fun _ _ => ⟨_, rfl⟩⟩

theorem tame_send : send.Tame 0 := by
  refine ⟨rfl, discreet_put, ?_⟩
  rintro _ _ _ _ _ ⟨⟩
  exact ⟨_, rfl⟩

theorem tame_receive : receive.Tame 1 := by
  refine ⟨rfl, discreet_take, discreet_pure _, ?_⟩
  rintro _ _ _ _ _ ⟨⟩
  exact ⟨_, rfl⟩

theorem tame_collect : collect.Tame 1 :=
  ⟨rfl, fun _ => discreet_pure _, fun _ => ensures_pure fun _ _ => ⟨_, rfl⟩⟩

theorem tame_calls : ∀ call ∈ calls, call.2.Tame 0 ∨ call.2.Tame 1 := by
  refine List.forall_mem_cons.2 ⟨.inl tame_feed, fun call member => ?_⟩
  obtain ⟨_, repeated, member⟩ := List.mem_flatten.1 member
  rw [List.eq_of_mem_replicate repeated] at member
  rcases List.mem_cons.1 member with rfl | member
  · exact .inl tame_send
  rcases List.mem_cons.1 member with rfl | member
  · exact .inr tame_receive
  obtain rfl := List.mem_singleton.1 member
  exact .inr tame_collect

end Wire

/-- Three bytes get through in two frames, cut at every third byte on the way. -/
theorem unpacked_of_packed_wire :
    ∃ w₁ w₂ w₃, Wire.make Wire.world = .ok (.ok 0) w₁ ∧ Wire.make' w₁ = .ok (.ok 1) w₂ ∧
      Call.performAll Wire.owner Wire.calls w₂ = .ok () w₃ ∧
      (Ledger.of 0 w₃.journal).accepted = [0, 0, 0, 2, 1, 2, 0, 0, 0, 1, 3] ∧
      (w₃.pipes.get 0).failure = none ∧ (w₃.pipes.get 1).failure = none ∧
      (Ledger.of 1 w₃.journal).accepted = [1, 2, 3] := by
  have reached : Wire.make.ends Wire.world fun made w₁ => made.toOption = some 0 &&
      Wire.make'.ends w₁ fun made' w₂ => made'.toOption = some 1 &&
        (Call.performAll Wire.owner Wire.calls).ends w₂ fun _ w₃ =>
          (Ledger.of 0 w₃.journal).received = [1, 2, 3] ∧
            (Ledger.of 0 w₃.journal).accepted = [0, 0, 0, 2, 1, 2, 0, 0, 0, 1, 3] ∧
            (Ledger.of 1 w₃.journal).received = [0, 0, 0, 2, 1, 2, 0, 0, 0, 1, 3] ∧
            (w₃.rings.get 0).ring.used = 0 ∧ (w₃.rings.get 1).ring.used = 0 := by decide +kernel
  obtain ⟨made, w₁, make, reached⟩ := ends_iff.1 reached
  obtain ⟨first, opened⟩ := Bool.and_eq_true_iff.1 reached
  obtain rfl := eq_ok_of_toOption (of_decide_eq_true first)
  obtain ⟨made', w₂, make', opened⟩ := ends_iff.1 opened
  obtain ⟨second, moved⟩ := Bool.and_eq_true_iff.1 opened
  obtain rfl := eq_ok_of_toOption (of_decide_eq_true second)
  obtain ⟨⟨⟩, w₃, ran, moved⟩ := ends_iff.1 moved
  obtain ⟨data, sent, arrived, drained, drained'⟩ := of_decide_eq_true moved
  have passive : Wire.owner.Passive := fun _ _ => discreet_pure _
  have pairs : Codec.Pairs
      (Wire.options'.sourceCapacity.getD (Wire.world.rings.get 1).ring.capacity)
      (.frameEncoder ⟨2, by decide, by decide⟩) (.frameDecoder ⟨2⟩) :=
    .frames (Nat.le_refl 2) (Nat.le_refl 6)
  have usable : ∀ r, r = 0 ∨ r = 1 →
      (Wire.world.rings.get r).ring.Valid ∧ (Wire.world.rings.get r).ring.cleaned = false := by
    rintro r (rfl | rfl)
    · exact ⟨Ring.valid_empty 4 .heap, rfl⟩
    · exact ⟨Ring.valid_empty 3 .heap, rfl⟩
  have fresh : ∀ r, r = 0 ∨ r = 1 → (Wire.world.rings.get r).ring.used = 0 ∧
      0 < (Wire.world.rings.get r).ring.capacity ∧
        ∀ s, .listener s ∉ (Wire.world.rings.get r).observers := by
    rintro r (rfl | rfl)
    · exact ⟨rfl, by decide, fun s => List.not_mem_nil⟩
    · exact ⟨rfl, by decide, fun s => List.not_mem_nil⟩
  obtain ⟨w, again, intact, gets⟩ := unpacked_of_packed passive pairs usable fresh Nat.zero_ne_one
    rfl (by decide) (by decide) make make' Wire.tame_calls
  cases ran.symm.trans again
  have moved := arrived.trans sent.symm
  obtain ⟨intact', _, rest⟩ := gets (moved ▸ List.prefix_rfl)
  obtain ⟨_, all⟩ := rest drained drained'
  exact ⟨w₁, w₂, w₃, make, make', ran, sent, intact, intact',
    (all moved).trans data⟩

end ByteFlow
