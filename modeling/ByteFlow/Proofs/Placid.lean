/-
# Calls in which nothing is used

The transforms of the library keep nothing to themselves: a call in which nothing is used leaves the
transform and its output as they were, so that another call ends in the same way. And where it ends
because there is no room for what comes first, more bytes behind that make no difference.
-/

import ByteFlow.Proofs.FrameReading
import ByteFlow.Proofs.LineReading
import ByteFlow.Transform.Codec

namespace ByteFlow

/-- The step ends where `consumed` bytes are used, and not with an error. -/
def Step.EndsAt (consumed : Nat) (step : Step) : Prop :=
  step = .done consumed ∨ step = .underflow consumed

/-- Transforms that leave themselves and their output alone in a call in which they use nothing. -/
class Transform.Placid (τ : Type) [Transform τ] : Prop where
  placid : ∀ (t : τ) (input : Bytes) (o : Output) (step : Step), step.EndsAt 0 →
    (Transform.call t input o).result = .ok step → Transform.call t input o = ⟨t, o, .ok step⟩

/-- The step ends where at least `consumed` bytes are used, if it does not end with an error. -/
def Step.Reaches (consumed : Nat) : Step → Prop
  | .done total | .underflow total => consumed ≤ total
  | .errored _ => True

theorem Step.Reaches.of_le {consumed more : Nat} {step : Step} (h : step.Reaches more)
    (le : consumed ≤ more) : step.Reaches consumed := by
  cases step with
  | done total => exact Nat.le_trans le h
  | underflow total => exact Nat.le_trans le h
  | errored cause => trivial

theorem Step.Reaches.not_endsAt {consumed more : Nat} {step : Step} (h : step.Reaches more)
    (lt : consumed < more) : ¬step.EndsAt consumed := by
  rintro (rfl | rfl)
  · exact Nat.not_lt.2 h lt
  · exact Nat.not_lt.2 h lt

theorem reaches_packPieces (room : Output → Nat)
    (put : Output → Bytes → Output × Except Error Unit) (consumed : Nat) (rest : Bytes)
    (o : Output) : (packPieces room put consumed rest o).1.Reaches consumed := by
  fun_induction packPieces room put consumed rest o with
  | case1 consumed => exact Nat.le_refl consumed
  | case2 => trivial
  | case3 _ _ _ _ _ _ _ ih => exact ih.of_le (Nat.le_add_right _ _)

/-- No piece is packed only if there is no room for one, or nothing to pack. -/
theorem packPieces_of_endsAt {room : Output → Nat}
    {put : Output → Bytes → Output × Except Error Unit} {consumed : Nat} {rest : Bytes} {o : Output}
    (ends : (packPieces room put consumed rest o).1.EndsAt consumed) :
    rest.take (room o) = [] ∧ packPieces room put consumed rest o = (.done consumed, o) := by
  revert ends
  fun_cases packPieces room put consumed rest o with
  | case1 piece none => exact fun _ => ⟨none, rfl⟩
  | case2 => rintro (impossible | impossible) <;> cases impossible
  | case3 piece some after accepted =>
      have used : consumed < consumed + piece.length :=
        Nat.lt_add_of_pos_right (List.length_pos_iff.2 some)
      exact fun ends => ((reaches_packPieces _ _ _ _ _).not_endsAt used ends).elim

namespace FrameDecoder

variable (t : FrameDecoder)

theorem reaches_unpack (consumed : Nat) (rest : Bytes) (o : Output) :
    (t.unpack consumed rest o).1.Reaches consumed := by
  fun_induction unpack t consumed rest o with
  | case1 consumed => exact Nat.le_refl consumed
  | case2 consumed => exact Nat.le_refl consumed
  | case3 => trivial
  | case4 => trivial
  | case5 _ _ _ _ _ _ _ _ _ ih => exact ih.of_le (Nat.le_add_right _ _)
  | case6 consumed => exact Nat.le_refl consumed

/-- Nothing of a byte string is used that begins with a frame for which there is no room, or that
ends in its first frame. -/
theorem unpack_of_endsAt {consumed : Nat} {rest : Bytes} {o : Output}
    (ends : (t.unpack consumed rest o).1.EndsAt consumed) :
    (t.unpack consumed rest o).2 = o ∧ (rest ≠ [] → (t.unpack consumed rest o).1 = .done consumed →
      ∃ payload next, Frame.front t.maxFrame rest = .whole payload next ∧
        o.fits payload.length = false) := by
  revert ends
  fun_cases unpack t consumed rest o with
  | case1 none =>
      have nothing := Frame.eq_front t.maxFrame rest
      rw [none] at nothing
      exact fun _ => ⟨rfl, fun held => (held nothing).elim⟩
  | case2 => exact fun _ => ⟨rfl, nofun⟩
  | case3 => rintro (impossible | impossible) <;> cases impossible
  | case4 => rintro (impossible | impossible) <;> cases impossible
  | case5 payload next front room pushed accepted =>
      have used : consumed < consumed + (Frame.headerLength + payload.length) :=
        Nat.lt_add_of_pos_right (Nat.add_pos_left (by decide) _)
      exact fun ends => ((t.reaches_unpack _ _ _).not_endsAt used ends).elim
  | case6 payload next front full =>
      exact fun _ => ⟨rfl, fun _ _ => ⟨payload, next, front, Bool.eq_false_iff.2 full⟩⟩

theorem unpack_of_full {consumed : Nat} {rest payload next : Bytes} {o : Output}
    (front : Frame.front t.maxFrame rest = .whole payload next)
    (full : o.fits payload.length = false) : t.unpack consumed rest o = (.done consumed, o) := by
  unfold unpack
  split <;> rename_i other <;> cases front.symm.trans other
  exact if_neg (Bool.eq_false_iff.1 full)

/-- More bytes behind a frame for which there is no room make no difference. -/
theorem unpack_append {consumed : Nat} {rest : Bytes} {o : Output} (held : rest ≠ [])
    (ended : t.unpack consumed rest o = (.done consumed, o)) (more : Bytes) :
    t.unpack consumed (rest ++ more) o = (.done consumed, o) := by
  have done : (t.unpack consumed rest o).1 = .done consumed := congrArg Prod.fst ended
  obtain ⟨payload, next, front, full⟩ := (t.unpack_of_endsAt (.inl done)).2 held done
  have whole := Frame.eq_front t.maxFrame rest
  rw [front] at whole
  have same : Frame.front t.maxFrame (rest ++ more) = .whole payload (next ++ more) := by
    rw [whole.1, List.append_assoc]
    exact Frame.front_encode whole.2 _
  exact t.unpack_of_full same full

end FrameDecoder

namespace LineDecoder

variable (t : LineDecoder)

theorem reaches_unpack (consumed : Nat) (rest : Bytes) (o : Output) :
    (t.unpack consumed rest o).1.Reaches consumed := by
  fun_induction unpack t consumed rest o with
  | case1 consumed => exact Nat.le_refl consumed
  | case2 => trivial
  | case3 consumed => exact Nat.le_refl consumed
  | case4 => trivial
  | case5 _ _ _ _ _ _ _ _ _ ih => exact ih.of_le (Nat.le_add_right _ _)
  | case6 => trivial
  | case7 => trivial
  | case8 _ _ _ _ _ _ _ _ _ _ _ _ _ _ ih => exact ih.of_le (Nat.le_add_right _ _)
  | case9 consumed => exact Nat.le_refl consumed

/-- Nothing of a byte string is used that begins with a line for which there is no room, or that
does not end its line. -/
theorem unpack_of_endsAt {consumed : Nat} {rest : Bytes} {o : Output}
    (ends : (t.unpack consumed rest o).1.EndsAt consumed) :
    (t.unpack consumed rest o).2 = o ∧ (rest ≠ [] → (t.unpack consumed rest o).1 = .done consumed →
      ∃ line next, Line.front rest = .ended line next ∧ (Line.trim line).length ≤ t.maxLine ∧
        Line.trim line ≠ [] ∧ o.fits ((Line.trim line).length / 4 * 3) = false) := by
  revert ends
  fun_cases unpack t consumed rest o with
  | case1 none => exact fun _ => ⟨rfl, fun held => (held (Line.front_eq_none_iff.1 none)).elim⟩
  | case2 => rintro (impossible | impossible) <;> cases impossible
  | case3 => exact fun _ => ⟨rfl, nofun⟩
  | case4 => rintro (impossible | impossible) <;> cases impossible
  | case5 line next ended trimmed short blank =>
      exact fun ends => ((t.reaches_unpack _ _ _).not_endsAt (by omega) ends).elim
  | case6 => rintro (impossible | impossible) <;> cases impossible
  | case7 => rintro (impossible | impossible) <;> cases impossible
  | case8 =>
      exact fun ends => ((t.reaches_unpack _ _ _).not_endsAt (by omega) ends).elim
  | case9 line next ended trimmed short some full =>
      exact fun _ => ⟨rfl, fun _ _ => ⟨line, next, ended, Nat.not_lt.1 short, some,
        Bool.eq_false_iff.2 full⟩⟩

theorem unpack_of_full {consumed : Nat} {rest line next : Bytes} {o : Output}
    (ended : Line.front rest = .ended line next) (short : (Line.trim line).length ≤ t.maxLine)
    (some : Line.trim line ≠ []) (full : o.fits ((Line.trim line).length / 4 * 3) = false) :
    t.unpack consumed rest o = (.done consumed, o) := by
  unfold unpack
  split <;> rename_i other <;> cases ended.symm.trans other
  dsimp only
  rw [if_neg (Nat.not_lt.2 short), if_neg some, if_neg (Bool.eq_false_iff.1 full)]

/-- More bytes behind a line for which there is no room make no difference. -/
theorem unpack_append {consumed : Nat} {rest : Bytes} {o : Output} (held : rest ≠ [])
    (ended : t.unpack consumed rest o = (.done consumed, o)) (more : Bytes) :
    t.unpack consumed (rest ++ more) o = (.done consumed, o) := by
  have done : (t.unpack consumed rest o).1 = .done consumed := congrArg Prod.fst ended
  obtain ⟨line, next, front, short, some, full⟩ :=
    (t.unpack_of_endsAt (.inl done)).2 held done
  exact t.unpack_of_full (Line.front_append front more) short some full

end LineDecoder

namespace Codec

/-- A step that uses nothing leaves the output alone. -/
theorem step_of_endsAt (t : Codec) {input : Bytes} {o : Output}
    (ends : (t.step input o).1.EndsAt 0) : (t.step input o).2 = o := by
  cases t with
  | identity t => exact congrArg Prod.snd (packPieces_of_endsAt ends).2
  | frameDecoder t => exact (t.unpack_of_endsAt ends).1
  | frameEncoder t => exact congrArg Prod.snd (packPieces_of_endsAt ends).2
  | lineDecoder t => exact (t.unpack_of_endsAt ends).1
  | lineEncoder t => exact congrArg Prod.snd (packPieces_of_endsAt ends).2

/-- Where there is no room for what comes first, more bytes behind it make no difference. -/
theorem step_append (t : Codec) {input : Bytes} {o : Output} (held : input ≠ [])
    (ended : t.step input o = (.done 0, o)) (more : Bytes) :
    t.step (input ++ more) o = (.done 0, o) := by
  have packs {room : Output → Nat} {put : Output → Bytes → Output × Except Error Unit}
      (ended : packPieces room put 0 input o = (.done 0, o)) :
      packPieces room put 0 (input ++ more) o = (.done 0, o) := by
    have none := (packPieces_of_endsAt (.inl (congrArg Prod.fst ended))).1
    have full : room o = 0 := (List.take_eq_nil_iff.1 none).resolve_right held
    unfold packPieces
    rw [full]
    rfl
  cases t with
  | identity t => exact packs ended
  | frameDecoder t => exact t.unpack_append held ended more
  | frameEncoder t => exact packs ended
  | lineDecoder t => exact t.unpack_append held ended more
  | lineEncoder t => exact packs ended

end Codec

/-- The transforms of the library are placid. -/
instance : Transform.Placid Codec where
  placid t input o step ends result := by
    obtain rfl : (t.step input o).1 = step := Except.ok.inj result
    have same := t.step_of_endsAt ends
    change (⟨t, (t.step input o).2, .ok (t.step input o).1⟩ : Transformed Codec) = _
    rw [same]

end ByteFlow
