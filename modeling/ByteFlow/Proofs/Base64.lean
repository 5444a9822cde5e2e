/-
# Decoding base64

Every group of four symbols stands for at least one byte and for at most three. So decoding gives
something unless there is nothing to decode, and never more than three bytes for each four symbols.

What was encoded is decoded again, group by group.
-/

import ByteFlow.Base64

namespace ByteFlow.Base64

theorem length_decodeGroup {a b c d : UInt8} {group : Bytes}
    (decoded : decodeGroup a b c d = some group) : group.length = 3 := by
  unfold decodeGroup at decoded
  simp only [Option.bind_eq_bind, Option.bind_eq_some_iff, Option.pure_def, Option.some.injEq]
    at decoded
  obtain ⟨_, _, _, _, _, _, _, _, rfl⟩ := decoded
  rfl

theorem length_decodeLast {a b c d : UInt8} {group : Bytes}
    (decoded : decodeLast a b c d = some group) : 0 < group.length ∧ group.length ≤ 3 := by
  unfold decodeLast at decoded
  split at decoded
  · simp only [Option.bind_eq_bind, Option.bind_eq_some_iff] at decoded
    obtain ⟨_, _, _, _, decoded⟩ := decoded
    split at decoded
    · split at decoded
      · cases decoded
        exact ⟨Nat.one_pos, Nat.le_add_left 1 2⟩
      · cases decoded
    · simp only [Option.bind_eq_some_iff] at decoded
      obtain ⟨_, _, decoded⟩ := decoded
      split at decoded
      · cases decoded
        exact ⟨Nat.two_pos, Nat.le_succ 2⟩
      · cases decoded
  · rw [length_decodeGroup decoded]
    exact ⟨by decide, Nat.le_refl 3⟩

theorem length_decodeOnto {done symbols bytes : Bytes}
    (decoded : decodeOnto done symbols = some bytes) :
    bytes.length ≤ done.length + symbols.length / 4 * 3 ∧
      (symbols ≠ [] → done.length < bytes.length) := by
  fun_induction decodeOnto done symbols with
  | case1 done =>
      cases decoded
      exact ⟨Nat.le_refl _, fun some => (some rfl).elim⟩
  | case2 done a b c d =>
      obtain ⟨group, last, rfl⟩ := Option.map_eq_some_iff.1 decoded
      have length := length_decodeLast last
      rw [List.length_append]
      simp only [List.length_cons, List.length_nil]
      omega
  | case3 done a b c d rest _ group whole ih =>
      have length := length_decodeGroup whole
      obtain ⟨le, _⟩ := ih decoded
      have more : (group ++ done).length ≤ bytes.length := by
        by_cases last : rest = []
        · rw [last] at decoded
          cases decoded
          exact Nat.le_refl _
        · exact Nat.le_of_lt ((ih decoded).2 last)
      rw [List.length_append] at le more
      simp only [List.length_cons]
      omega
  | case4 => cases decoded
  | case5 => cases decoded

/-- Decoding gives no more than three bytes for each four symbols. -/
theorem length_decode_le {symbols bytes : Bytes} (decoded : decode symbols = some bytes) :
    bytes.length ≤ symbols.length / 4 * 3 := by
  obtain ⟨reversed, onto, rfl⟩ := Option.map_eq_some_iff.1 decoded
  have le := (length_decodeOnto onto).1
  rw [List.length_reverse]
  rw [List.length_nil, Nat.zero_add] at le
  exact le

/-- Decoding gives something, unless there is nothing to decode. -/
theorem decode_ne_nil {symbols bytes : Bytes} (decoded : decode symbols = some bytes)
    (some : symbols ≠ []) : bytes ≠ [] := by
  obtain ⟨reversed, onto, rfl⟩ := Option.map_eq_some_iff.1 decoded
  have lt := (length_decodeOnto onto).2 some
  intro none
  rw [List.reverse_eq_nil_iff.1 none] at lt
  exact Nat.lt_irrefl 0 lt

/-! ## Encoding and decoding -/

/-- Every byte string is made of groups of three bytes, and one of fewer at the end. -/
@[elab_as_elim]
theorem induction_groups {P : Bytes → Prop} (nil : P []) (one : ∀ a, P [a])
    (two : ∀ a b, P [a, b]) (group : ∀ a b c rest, P rest → P (a :: b :: c :: rest)) :
    ∀ bytes, P bytes
  | [] => nil
  | [a] => one a
  | [a, b] => two a b
  | a :: b :: c :: rest => group a b c rest (induction_groups nil one two group rest)

theorem value?_symbol : ∀ value < 64, value? (symbol value) = some value := by decide

theorem symbol_ne_padding : ∀ value < 64, symbol value ≠ padding := by decide

theorem reverse_encodeOnto (done bytes : Bytes) :
    (encodeOnto done bytes).reverse = done.reverse ++ encode bytes := by
  induction bytes using induction_groups generalizing done with
  | nil => exact (List.append_nil _).symm
  | one a => simp [encode, encodeOnto]
  | two a b => simp [encode, encodeOnto]
  | group a b c rest ih =>
      change _ = done.reverse ++ (encodeOnto [] (a :: b :: c :: rest)).reverse
      rw [encodeOnto, encodeOnto, ih, ih]
      simp only [List.reverse_cons, List.reverse_nil, List.nil_append, List.append_assoc]

theorem encode_one (a : UInt8) :
    encode [a] = [symbol (a.toNat * 16 / 64), symbol (a.toNat * 16 % 64), padding, padding] := by
  simp only [encode, encodeOnto, List.reverse_cons, List.reverse_nil, List.nil_append,
    List.cons_append]

theorem encode_two (a b : UInt8) :
    let n := (a.toNat * 256 + b.toNat) * 4
    encode [a, b] =
      [symbol (n / (64 * 64)), symbol (n / 64 % 64), symbol (n % 64), padding] := by
  simp only [encode, encodeOnto, List.reverse_cons, List.reverse_nil, List.nil_append,
    List.cons_append]

/-- A group is encoded by itself. -/
theorem encode_group (a b c : UInt8) (rest : Bytes) :
    let n := (a.toNat * 256 + b.toNat) * 256 + c.toNat
    encode (a :: b :: c :: rest) =
      symbol (n / (64 * 64 * 64)) :: symbol (n / (64 * 64) % 64) :: symbol (n / 64 % 64) ::
        symbol (n % 64) :: encode rest := by
  rw [encode, encodeOnto, reverse_encodeOnto]
  rfl

theorem length_encode (bytes : Bytes) : (encode bytes).length = encodedLength bytes.length := by
  induction bytes using induction_groups with
  | nil => rfl
  | one a => simp only [encode_one, encodedLength, List.length_cons, List.length_nil]
  | two a b => simp only [encode_two, encodedLength, List.length_cons, List.length_nil]
  | group a b c rest ih =>
      rw [encode_group]
      simp only [List.length_cons, ih]
      unfold encodedLength
      omega

/-- The encoding of a byte string consists of symbols and padding. -/
theorem mem_encode {bytes : Bytes} {s : UInt8} (member : s ∈ encode bytes) :
    s = padding ∨ ∃ value < 64, s = symbol value := by
  induction bytes using induction_groups with
  | nil => cases member
  | one a =>
      have lt := a.toNat_lt
      rw [encode_one] at member
      simp only [List.mem_cons, List.not_mem_nil, or_false] at member
      rcases member with rfl | rfl | rfl | rfl
      · exact .inr ⟨_, by omega, rfl⟩
      · exact .inr ⟨_, by omega, rfl⟩
      · exact .inl rfl
      · exact .inl rfl
  | two a b =>
      have lt := a.toNat_lt
      have lt' := b.toNat_lt
      rw [encode_two] at member
      simp only [List.mem_cons, List.not_mem_nil, or_false] at member
      rcases member with rfl | rfl | rfl | rfl
      · exact .inr ⟨_, by omega, rfl⟩
      · exact .inr ⟨_, by omega, rfl⟩
      · exact .inr ⟨_, by omega, rfl⟩
      · exact .inl rfl
  | group a b c rest ih =>
      have lt := a.toNat_lt
      have lt' := b.toNat_lt
      have lt'' := c.toNat_lt
      rw [encode_group] at member
      simp only [List.mem_cons] at member
      rcases member with rfl | rfl | rfl | rfl | later
      · exact .inr ⟨_, by omega, rfl⟩
      · exact .inr ⟨_, by omega, rfl⟩
      · exact .inr ⟨_, by omega, rfl⟩
      · exact .inr ⟨_, by omega, rfl⟩
      · exact ih later

theorem decodeGroup_symbols (a b c : UInt8) :
    let n := (a.toNat * 256 + b.toNat) * 256 + c.toNat
    decodeGroup (symbol (n / (64 * 64 * 64))) (symbol (n / (64 * 64) % 64))
      (symbol (n / 64 % 64)) (symbol (n % 64)) = some [c, b, a] := by
  have lt := a.toNat_lt
  have lt' := b.toNat_lt
  have lt'' := c.toNat_lt
  intro n
  have whole : ((n / (64 * 64 * 64) * 64 + n / (64 * 64) % 64) * 64 + n / 64 % 64) * 64 + n % 64 =
      n := by omega
  have third : n % 256 = c.toNat := by omega
  have second : n / 256 % 256 = b.toNat := by omega
  have first : n / (256 * 256) = a.toNat := by omega
  unfold decodeGroup
  rw [value?_symbol _ (by omega), value?_symbol _ (by omega), value?_symbol _ (by omega),
    value?_symbol _ (by omega)]
  simp only [Option.bind_eq_bind, Option.bind_some, Option.pure_def]
  rw [whole, third, second, first, UInt8.ofNat_toNat, UInt8.ofNat_toNat, UInt8.ofNat_toNat]

/-- A group that is not padded is decoded by itself, wherever it stands. -/
theorem decodeOnto_group {a b c d : UInt8} {group : Bytes}
    (whole : decodeGroup a b c d = some group) (unpadded : d ≠ padding) (done rest : Bytes) :
    decodeOnto done (a :: b :: c :: d :: rest) = decodeOnto (group ++ done) rest := by
  cases rest with
  | nil =>
      change (decodeLast a b c d).map (· ++ done) = some (group ++ done)
      rw [show decodeLast a b c d = some group from (if_neg unpadded).trans whole]
      rfl
  | cons e rest =>
      rw [decodeOnto, whole]
      exact fun none => by cases none

theorem decodeLast_one (a : UInt8) :
    decodeLast (symbol (a.toNat * 16 / 64)) (symbol (a.toNat * 16 % 64)) padding padding =
      some [a] := by
  have lt := a.toNat_lt
  have whole : (a.toNat * 16 / 64 * 64 + a.toNat * 16 % 64) / 16 = a.toNat := by omega
  have zero : a.toNat * 16 % 64 % 16 = 0 := by omega
  unfold decodeLast
  rw [if_pos rfl, value?_symbol _ (by omega), value?_symbol _ (by omega)]
  simp only [Option.bind_eq_bind, Option.bind_some, Option.pure_def, if_true]
  rw [if_pos zero, whole, UInt8.ofNat_toNat]

theorem decodeLast_two (a b : UInt8) :
    let n := (a.toNat * 256 + b.toNat) * 4
    decodeLast (symbol (n / (64 * 64))) (symbol (n / 64 % 64)) (symbol (n % 64)) padding =
      some [b, a] := by
  have lt := a.toNat_lt
  have lt' := b.toNat_lt
  intro n
  have whole : ((n / (64 * 64) * 64 + n / 64 % 64) * 64 + n % 64) / 4 = n / 4 := by omega
  have second : n / 4 % 256 = b.toNat := by omega
  have first : n / 4 / 256 = a.toNat := by omega
  have zero : n % 64 % 4 = 0 := by omega
  unfold decodeLast
  rw [if_pos rfl, value?_symbol _ (by omega), value?_symbol _ (by omega),
    value?_symbol _ (by omega)]
  simp only [Option.bind_eq_bind, Option.bind_some, Option.pure_def]
  rw [if_neg (symbol_ne_padding _ (by omega)), if_pos zero, whole, second, first,
    UInt8.ofNat_toNat, UInt8.ofNat_toNat]

theorem decodeOnto_encode (done bytes : Bytes) :
    decodeOnto done (encode bytes) = some (bytes.reverse ++ done) := by
  induction bytes using induction_groups generalizing done with
  | nil => rfl
  | one a =>
      rw [encode_one, decodeOnto, decodeLast_one]
      rfl
  | two a b =>
      rw [encode_two, decodeOnto, decodeLast_two]
      rfl
  | group a b c rest ih =>
      rw [encode_group, decodeOnto_group (decodeGroup_symbols a b c)
        (symbol_ne_padding _ (Nat.mod_lt _ (by decide))), ih]
      simp only [List.reverse_cons, List.append_assoc, List.cons_append, List.nil_append]

/-- What was encoded is decoded again. -/
theorem decode_encode (bytes : Bytes) : decode (encode bytes) = some bytes := by
  rw [decode, decodeOnto_encode, List.append_nil, Option.map_some, List.reverse_reverse]

end ByteFlow.Base64
