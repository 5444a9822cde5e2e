/-
# How transforms use their output

A transform may push chunks, change the scratch buffer and put notes on record, in any order.
`Output.Uses` is the closure of these uses, and a transform is `Proper` if a call does nothing else
to the output it is given. That is the whole interface, so a proper transform cannot touch segments
that wait already, and what it pushes is what joins them.

A proper transform may put on record anything that is not in the ledger of a pipe. A `Candid` one
puts there only reports, which concern no pipe: it does not tell of edges, which are not its own.

All transforms of the library are candid.
-/

import ByteFlow.Proofs.Ledger
import ByteFlow.Proofs.Transfers
import ByteFlow.Queue.Content
import ByteFlow.Transform.Codec

namespace ByteFlow

/-! ## Segments in one piece -/

/-- The segments of the queue were never cleaned and do not wrap, as chunks are when they are pushed
and remain while they are drained. -/
structure Queue.Sound (q : Queue) : Prop extends q.Valid where
  piece : ∀ segment ∈ q.segments, segment.isContiguous ∧ segment.cleaned = false

namespace Queue

theorem sound_empty : empty.Sound := ⟨valid_empty, nofun⟩

theorem Sound.pushBack {q : Queue} (h : q.Sound) {segment : Ring} (valid : segment.Valid)
    (piece : segment.isContiguous ∧ segment.cleaned = false) : (q.pushBack segment).Sound := by
  refine ⟨h.toValid.pushBack valid, ?_⟩
  rw [segments_pushBack]
  intro other member
  rcases List.mem_append.1 member with old | new
  · exact h.piece other old
  · obtain ⟨rfl, _⟩ := mem_kept_iff.1 new
    exact piece

theorem Sound.pushFront {q : Queue} (h : q.Sound) {segment : Ring} (valid : segment.Valid)
    (piece : segment.isContiguous ∧ segment.cleaned = false) : (q.pushFront segment).Sound := by
  refine ⟨h.toValid.pushFront valid, ?_⟩
  rw [segments_pushFront]
  intro other member
  rcases List.mem_append.1 member with new | old
  · obtain ⟨rfl, _⟩ := mem_kept_iff.1 new
    exact piece
  · exact h.piece other old

/-- What leaves a sound queue at the front is a segment in one piece, and what stays is sound. -/
theorem Sound.popFront {q rest : Queue} (h : q.Sound) {segment : Ring}
    (popped : q.popFront = some (segment, rest)) :
    (segment.Valid ∧ segment.used ≠ 0) ∧ (segment.isContiguous ∧ segment.cleaned = false) ∧
      rest.Sound := by
  obtain ⟨valid, held, rest_valid, _⟩ := h.toValid.popFront popped
  have waiting := (popFront_eq_some popped).1
  obtain ⟨piece, others⟩ := List.forall_mem_cons.1 (waiting ▸ h.piece)
  exact ⟨⟨valid, held⟩, piece, rest_valid, others⟩

end Queue

/-! ## Uses of an output -/

namespace Output

/-- What can become of an output by being used. -/
inductive Uses (o : Output) : Output → Prop where
  | refl : Uses o o
  | push {used pushed : Output} (h : Uses o used) {chunk : Bytes}
      (accepted : used.push chunk = .ok pushed) : Uses o pushed
  | scratch {used : Output} (h : Uses o used) (scratch : Block) : Uses o { used with scratch }
  | note {used : Output} (h : Uses o used) {event : Event} (note : event.IsNote) :
      Uses o (used.record event)

theorem Uses.trans {o used more : Output} (h : o.Uses used) (h' : used.Uses more) :
    o.Uses more := by
  induction h' with
  | refl => exact h
  | push _ accepted ih => exact ih.push accepted
  | scratch _ scratch ih => exact ih.scratch scratch
  | note _ note ih => exact ih.note note

/-- An accepted chunk joins the queue, unless it is empty. -/
theorem push_eq_ok {o pushed : Output} {chunk : Bytes} (accepted : o.push chunk = .ok pushed) :
    (chunk = [] ∧ pushed = o) ∨
      (chunk ≠ [] ∧
        pushed =
          { o with queue := o.queue.pushBack (.wrap chunk), pushed := chunk :: o.pushed }) := by
  unfold push at accepted
  split at accepted
  · rename_i none
    cases accepted
    exact .inl ⟨List.isEmpty_iff.1 none, rfl⟩
  · rename_i some
    split at accepted
    · cases accepted
      exact .inr ⟨fun none => some (List.isEmpty_iff.2 none), rfl⟩
    · cases accepted

theorem Uses.sound {o used : Output} (h : o.Uses used) (sound : o.queue.Sound) :
    used.queue.Sound := by
  induction h with
  | refl => exact sound
  | push _ accepted ih =>
      rcases push_eq_ok accepted with ⟨_, rfl⟩ | ⟨_, rfl⟩
      · exact ih
      · exact ih.pushBack (Ring.valid_wrap _) ⟨Ring.isContiguous_wrap _, rfl⟩
  | scratch _ _ ih => exact ih
  | note _ _ ih => exact ih

/-- What was pushed is what joined the queue. -/
theorem Uses.toList_queue {queue : Queue} {scratch : Block} {ceiling : Nat} {used : Output}
    (h : (Output.new queue scratch ceiling).Uses used) :
    used.queue.toList = queue.toList ++ used.chunks.flatten := by
  induction h with
  | refl => exact (List.append_nil _).symm
  | push _ accepted ih =>
      rcases push_eq_ok accepted with ⟨_, rfl⟩ | ⟨_, rfl⟩
      · exact ih
      · change (Queue.pushBack _ _).toList = _ ++ (_ :: _).reverse.flatten
        rw [Queue.toList_pushBack _ (Ring.valid_wrap _), Ring.toList_wrap, ih, List.reverse_cons,
          List.flatten_append, List.append_assoc, List.flatten_singleton]
        rfl
  | scratch _ _ ih => exact ih
  | note _ _ ih => exact ih

/-- Either bytes were emitted, or nothing joined the queue. -/
theorem Uses.emitted_pos {queue : Queue} {scratch : Block} {ceiling : Nat} {used : Output}
    (h : (Output.new queue scratch ceiling).Uses used) : 0 < used.emitted ∨ used.queue = queue := by
  induction h with
  | refl => exact .inr rfl
  | push _ accepted ih =>
      rcases push_eq_ok accepted with ⟨_, rfl⟩ | ⟨some, rfl⟩
      · exact ih
      · left
        exact Nat.add_pos_left (List.length_pos_iff.2 some) _
  | scratch _ _ ih => exact ih
  | note _ _ ih => exact ih

theorem Uses.notes {o used : Output} (h : o.Uses used)
    (notes : ∀ event ∈ o.events, event.IsNote) : ∀ event ∈ used.events, event.IsNote := by
  induction h with
  | refl => exact notes
  | push _ accepted ih =>
      rcases push_eq_ok accepted with ⟨_, rfl⟩ | ⟨_, rfl⟩ <;> exact ih
  | scratch _ _ ih => exact ih
  | note _ note ih => exact List.forall_mem_cons.2 ⟨note, ih⟩

theorem uses_offer (o : Output) (chunk : Bytes) : o.Uses (o.offer chunk).1 := by
  unfold offer
  split
  · rename_i accepted
    exact Uses.refl.push accepted
  · exact .refl

/-! ## Candid uses -/

/-- What can become of an output by being used without putting on record anything but reports. -/
inductive CandidUses (o : Output) : Output → Prop where
  | refl : CandidUses o o
  | push {used pushed : Output} (h : CandidUses o used) {chunk : Bytes}
      (accepted : used.push chunk = .ok pushed) : CandidUses o pushed
  | scratch {used : Output} (h : CandidUses o used) (scratch : Block) :
      CandidUses o { used with scratch }
  | report {used : Output} (h : CandidUses o used) {event : Event} (report : event.IsReport) :
      CandidUses o (used.record event)

theorem CandidUses.trans {o used more : Output} (h : o.CandidUses used)
    (h' : used.CandidUses more) : o.CandidUses more := by
  induction h' with
  | refl => exact h
  | push _ accepted ih => exact ih.push accepted
  | scratch _ scratch ih => exact ih.scratch scratch
  | report _ report ih => exact ih.report report

theorem CandidUses.uses {o used : Output} (h : o.CandidUses used) : o.Uses used := by
  induction h with
  | refl => exact .refl
  | push _ accepted ih => exact ih.push accepted
  | scratch _ scratch ih => exact ih.scratch scratch
  | report _ report ih => exact ih.note report.isNote

theorem CandidUses.reports {o used : Output} (h : o.CandidUses used)
    (reports : ∀ event ∈ o.events, event.IsReport) : ∀ event ∈ used.events, event.IsReport := by
  induction h with
  | refl => exact reports
  | push _ accepted ih =>
      rcases push_eq_ok accepted with ⟨_, rfl⟩ | ⟨_, rfl⟩ <;> exact ih
  | scratch _ _ ih => exact ih
  | report _ report ih => exact List.forall_mem_cons.2 ⟨report, ih⟩

theorem candidUses_offer (o : Output) (chunk : Bytes) : o.CandidUses (o.offer chunk).1 := by
  unfold offer
  split
  · rename_i accepted
    exact CandidUses.refl.push accepted
  · exact .refl

theorem candidUses_reserve (o : Output) (length : Nat) : o.CandidUses (o.reserve length) := by
  unfold reserve
  split
  · have grown := CandidUses.scratch (CandidUses.refl (o := o))
      (o.scratch.append (List.replicate (length - o.scratch.size) 0))
    have report : (Event.logged (.scratchGrown o.scratch.size length)).IsReport := trivial
    exact grown.report report
  · exact .refl

theorem candidUses_overwrite (o : Output) (data : Bytes) : o.CandidUses (o.overwrite data) :=
  CandidUses.refl.scratch _

theorem candidUses_pushScratch (o : Output) (length : Nat) :
    o.CandidUses (o.pushScratch length).1 :=
  (candidUses_reserve o length).trans (candidUses_offer _ _)

end Output

/-! ## Proper transforms -/

/-- Transforms that only use the output they are given. -/
class Transform.Proper (τ : Type) [Transform τ] : Prop where
  uses : ∀ (t : τ) (input : Bytes) (o : Output), o.Uses (Transform.call t input o).output

/-- Proper transforms that put nothing on record but reports. -/
class Transform.Candid (τ : Type) [Transform τ] : Prop where
  uses : ∀ (t : τ) (input : Bytes) (o : Output), o.CandidUses (Transform.call t input o).output

instance {τ : Type} [Transform τ] [Transform.Candid τ] : Transform.Proper τ where
  uses t input o := (Transform.Candid.uses t input o).uses

theorem candidUses_packPieces {room : Output → Nat}
    {put : Output → Bytes → Output × Except Error Unit}
    (uses : ∀ (o : Output) (piece : Bytes), o.CandidUses (put o piece).1) (consumed : Nat)
    (rest : Bytes) (o : Output) : o.CandidUses (packPieces room put consumed rest o).2 := by
  fun_induction packPieces room put consumed rest o with
  | case1 => exact .refl
  | case2 _ rest o piece _ after e failed =>
      have h := uses o piece
      rw [failed] at h
      exact h
  | case3 _ rest o piece _ after done ih =>
      have h := uses o piece
      rw [done] at h
      exact h.trans ih

theorem Identity.candidUses_step (t : Identity) (input : Bytes) (o : Output) :
    o.CandidUses (t.step input o).2 :=
  candidUses_packPieces Output.candidUses_offer 0 input o

theorem FrameEncoder.candidUses_step (t : FrameEncoder) (input : Bytes) (o : Output) :
    o.CandidUses (t.step input o).2 := by
  unfold step
  refine candidUses_packPieces (fun o payload => ?_) 0 input o
  unfold put
  have reserved := Output.candidUses_reserve o (Frame.encode payload).length
  exact (reserved.trans (Output.candidUses_overwrite _ _)).trans
    (Output.candidUses_pushScratch _ _)

theorem LineEncoder.candidUses_step (t : LineEncoder) (input : Bytes) (o : Output) :
    o.CandidUses (t.step input o).2 :=
  candidUses_packPieces (fun o chunk => Output.candidUses_offer o (Line.encode chunk)) 0 input o

theorem FrameDecoder.candidUses_unpack (t : FrameDecoder) (consumed : Nat) (rest : Bytes)
    (o : Output) : o.CandidUses (t.unpack consumed rest o).2 := by
  fun_induction unpack t consumed rest o with
  | case5 _ _ _ _ _ _ _ used accepted ih => exact (Output.CandidUses.refl.push accepted).trans ih
  | _ => exact .refl

theorem LineDecoder.candidUses_unpack (t : LineDecoder) (consumed : Nat) (rest : Bytes)
    (o : Output) : o.CandidUses (t.unpack consumed rest o).2 := by
  fun_induction unpack t consumed rest o with
  | case5 _ _ _ _ _ _ _ _ _ ih => exact ih
  | case8 _ _ _ _ _ _ _ _ _ _ _ _ used accepted ih =>
      exact (Output.CandidUses.refl.push accepted).trans ih
  | _ => exact .refl

/-- The transforms of the library only use their output. -/
instance : Transform.Candid Codec where
  uses t input o := by
    cases t with
    | identity t => exact t.candidUses_step input o
    | frameDecoder t => exact t.candidUses_unpack 0 input o
    | frameEncoder t => exact t.candidUses_step input o
    | lineDecoder t => exact t.candidUses_unpack 0 input o
    | lineEncoder t => exact t.candidUses_step input o

end ByteFlow
