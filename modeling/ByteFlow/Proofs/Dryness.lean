/-
# What was kept for a pipe stays dry

From a pipe that was cleaned no byte comes any more, also not out of the segment that was half
drained at that moment, and also not into a ring that only later becomes the destination. This can
be seen at rings that were kept for the pipe: nobody else stores into such a ring, and other pipes
lead to it only if they hold nothing and never will. Once the pipe was cleaned, whatever is done
leaves in such a ring the rest of what was in it, and nothing more.
-/

import ByteFlow.Proofs.Cleaning

namespace ByteFlow

open Machine

variable {τ ω α : Type}

/-- The pipe holds nothing, and has no room for anything to come in. -/
structure Pipe.Barren (pipe : Pipe τ) : Prop where
  source : pipe.source.Valid
  room : pipe.source.capacity = 0
  queue : pipe.queue.popFront = none

namespace Pipe.Barren

variable {pipe after : Pipe τ}

theorem of_same (h : pipe.Barren) (source : after.source = pipe.source)
    (queue : after.queue = pipe.queue) : after.Barren :=
  ⟨source ▸ h.source, source ▸ h.room, queue ▸ h.queue⟩

theorem isReady (h : pipe.Barren) : pipe.isReady = false := by
  have empty : pipe.source.used = 0 := Nat.le_zero.1 (h.room ▸ h.source.used_le)
  rw [Pipe.isReady, Ring.isEmpty, empty]
  rfl

theorem not_popFront (h : pipe.Barren) {out : Ring × Queue} :
    pipe.queue.popFront ≠ some out := by
  rw [h.queue]
  exact nofun

theorem intake (h : pipe.Barren) {moved : Bytes} {ring : Ring}
    (fills : pipe.source.Valid → pipe.source.Fills moved ring) :
    { pipe with source := ring }.Barren :=
  ⟨(fills h.source).valid, (fills h.source).capacity.trans h.room, h.queue⟩

theorem clean (h : pipe.Barren) :
    { pipe with
      queue := pipe.queue.clear
      scratch := .empty
      source := pipe.source.clean : Pipe τ }.Barren := by
  have same : pipe.source.clean.capacity = pipe.source.capacity := by
    unfold Ring.clean
    split <;> rfl
  exact ⟨h.source.clean, same.trans h.room, rfl⟩

end Pipe.Barren

/-- What is kept for a pipe. -/
structure Reserve where
  /-- The rings into which only this pipe may bring bytes. -/
  rings : RingId → Prop
  /-- The other pipes that may come to hold bytes. -/
  others : PipeId → Prop

/-- A call of others leaves alone what is kept for pipe `p`. -/
def Call.Spares (p : PipeId) (reserve : Reserve) : Call τ ω α → Prop
  | .store r _ | .fill r _ => ¬ reserve.rings r
  | .switch q candidate => q ≠ p → reserve.others q → ¬ reserve.rings candidate
  | _ => True

variable [Inhabited τ]

/-- No other pipe brings bytes into what is kept for pipe `p`. -/
structure Reserve.Kept (reserve : Reserve) (p : PipeId) (w : World τ ω) : Prop where
  elsewhere : ∀ q, q ≠ p → reserve.others q → ¬ reserve.rings (w.pipes.get q).destination
  barren : ∀ q, q ≠ p → ¬ reserve.others q → (w.pipes.get q).Barren
  valid : ∀ r, reserve.rings r → (w.content r).Valid

/-- Of what is noted to have been in a ring that is kept for the pipe, once the pipe had been
cleaned, some last bytes are in it, and nothing else is. -/
structure Dry (p : PipeId) (notes : Notes ω) (reserve : Reserve) (held : ω → RingId → Bytes → Prop)
    (w : World τ ω) : Prop where
  closing : Closing p notes none w
  kept : reserve.Kept p w
  rest : ∀ r bytes, reserve.rings r → held w.owner r bytes →
    (w.pipes.get p).source.cleaned = true ∧ (w.content r).toList <:+ bytes

namespace Dry

variable {p : PipeId} {notes : Notes ω} {reserve : Reserve} {held : ω → RingId → Bytes → Prop}
  {w : World τ ω} {o : Owner τ ω}

theorem set_journal (h : Dry p notes reserve held w) (journal : List Event) :
    Dry p notes reserve held { w with journal } :=
  ⟨⟨h.closing.inUse, h.closing.order, h.closing.shut, h.closing.noted, nofun⟩,
    ⟨h.kept.elsewhere, h.kept.barren, h.kept.valid⟩, h.rest⟩

theorem record (event : Event) : Preserves (Dry (τ := τ) p notes reserve held) (record event) :=
  fun _ h => h.set_journal _

/-- The pipe itself may be changed, if it does not come back. -/
theorem set_own (h : Dry p notes reserve held w) (pipe : Pipe τ)
    (closing : Closing p notes none { w with pipes := w.pipes.set p pipe })
    (lasts : (w.pipes.get p).source.cleaned = true → pipe.source.cleaned = true) :
    Dry p notes reserve held { w with pipes := w.pipes.set p pipe } := by
  have same {q : PipeId} (other : q ≠ p) : (w.pipes.set p pipe).get q = w.pipes.get q := by
    rw [Table.get_set, if_neg other.symm]
  refine ⟨closing, ⟨fun q other busy => ?_, fun q other idle => ?_, h.kept.valid⟩,
    fun r bytes kept noted => ?_⟩
  · rw [same other]
    exact h.kept.elsewhere q other busy
  · rw [same other]
    exact h.kept.barren q other idle
  · obtain ⟨cleaned, rest⟩ := h.rest r bytes kept noted
    rw [Table.get_set, if_pos rfl]
    exact ⟨lasts cleaned, rest⟩

/-- Other pipes may be changed, if they do not come to hold bytes and lead here. -/
theorem set_other (h : Dry p notes reserve held w) {q : PipeId} (other : q ≠ p) (pipe : Pipe τ)
    (leads : reserve.others q → ¬ reserve.rings pipe.destination)
    (barren : ¬ reserve.others q → pipe.Barren) :
    Dry p notes reserve held { w with pipes := w.pipes.set q pipe } := by
  have own : (w.pipes.set q pipe).get p = w.pipes.get p := by rw [Table.get_set, if_neg other]
  refine ⟨h.closing.set_pipe fun same => (other same).elim, ⟨?_, ?_, h.kept.valid⟩, ?_⟩
  · intro s apart busy
    rw [Table.get_set]
    split
    · rename_i same
      exact leads (same ▸ busy)
    · exact h.kept.elsewhere s apart busy
  · intro s apart idle
    rw [Table.get_set]
    split
    · rename_i same
      exact barren (same ▸ idle)
    · exact h.kept.barren s apart idle
  · rw [own]
    exact h.rest

/-- Any pipe may be changed, if its buffers and its destination are as they were. -/
theorem set_alike (h : Dry p notes reserve held w) {q : PipeId} {pipe : Pipe τ}
    (same : pipe.source = (w.pipes.get q).source ∧ pipe.queue = (w.pipes.get q).queue ∧
      pipe.scratch = (w.pipes.get q).scratch)
    (there : pipe.destination = (w.pipes.get q).destination) :
    Dry p notes reserve held { w with pipes := w.pipes.set q pipe } := by
  by_cases own : q = p
  · subst own
    refine h.set_own _ (h.closing.set_pipe fun _ => .of_same same) fun cleaned => ?_
    rw [same.1]
    exact cleaned
  · refine h.set_other own _ (fun busy => ?_) fun idle => ?_
    · rw [there]
      exact h.kept.elsewhere q own busy
    · exact (h.kept.barren q own idle).of_same same.1 same.2.1

theorem modifyPipe (q : PipeId) {f : Pipe τ → Pipe τ}
    (same : ∀ pipe, (f pipe).source = pipe.source ∧ (f pipe).queue = pipe.queue ∧
      (f pipe).scratch = pipe.scratch)
    (there : ∀ pipe, (f pipe).destination = pipe.destination) :
    Preserves (Dry p notes reserve held) (modifyPipe q f) :=
  upholds_modifyPipe fun _ h => h.set_alike (same _) (there _)

/-- A ring may be changed. If it is kept for the pipe, nothing may come into it once the pipe was
cleaned. -/
theorem set_ring (h : Dry p notes reserve held w) {r : RingId} {shared : SharedRing}
    (valid : reserve.rings r → shared.ring.Valid)
    (rest : reserve.rings r → (w.pipes.get p).source.cleaned = true →
      shared.ring.toList <:+ (w.content r).toList) :
    Dry p notes reserve held { w with rings := w.rings.set r shared } := by
  have get (s : RingId) : World.content s { w with rings := w.rings.set r shared } =
      if r = s then shared.ring else w.content s := by
    unfold World.content
    rw [Table.get_set]
    split <;> rfl
  refine ⟨h.closing.set_rings _, ⟨h.kept.elsewhere, h.kept.barren, fun s kept => ?_⟩,
    fun s bytes kept noted => ?_⟩
  · rw [get]
    split
    · rename_i same
      exact valid (same ▸ kept)
    · exact h.kept.valid s kept
  · obtain ⟨cleaned, before⟩ := h.rest s bytes kept noted
    rw [get]
    refine ⟨cleaned, ?_⟩
    split
    · rename_i same
      subst same
      exact (rest kept cleaned).trans before
    · exact before

/-- Who observes a ring does not matter. -/
theorem observe (r : RingId) (f : List Observer → List Observer) :
    Preserves (Dry (τ := τ) p notes reserve held) (modifyShared r fun shared =>
      { shared with observers := f shared.observers }) :=
  upholds_modify fun _ h => h.set_ring (h.kept.valid r) fun _ _ => List.suffix_rfl

/-- Bytes may come into rings that are not kept for the pipe. -/
theorem tolerates :
    Tolerates (fun r => ¬ reserve.rings r) (Dry (τ := τ) p notes reserve held) where
  log _ := record _
  announce _ _ _ := record _
  count q _ := modifyPipe q (fun _ => ⟨rfl, rfl, rfl⟩) fun _ => rfl
  detach r _ := observe r _
  filled opened h _ _ := h.set_ring (fun kept => (opened kept).elim) fun kept => (opened kept).elim
  drained h _ _ drains := by
    refine h.set_ring (fun kept => (drains (h.kept.valid _ kept)).valid) fun kept _ => ?_
    exact ⟨_, (drains (h.kept.valid _ kept)).content.symm⟩
  cleared r h := by
    refine h.set_ring (fun kept => (h.kept.valid r kept).clear) fun _ _ => ?_
    rw [Ring.toList_clear]
    exact List.nil_suffix
  cleaned r h := by
    refine h.set_ring (fun kept => (h.kept.valid r kept).clean) fun kept _ => ?_
    rw [Ring.toList_clean (h.kept.valid r kept)]
    exact List.nil_suffix
  delivered _ _ := record _

section Reacting

variable (reacts : ∀ handler edge, Preserves (Dry p notes reserve held) (o.react handler edge))

include reacts

/-- As long as the pipe was not cleaned, bytes may come into any ring. -/
theorem store_intact (h : Dry p notes reserve held w)
    (intact : (w.pipes.get p).source.cleaned = false) (r : RingId) (data : Bytes) :
    Upholds (Dry p notes reserve held) (· = w) (SharedRing.store o r data)
      fun _ => Dry p notes reserve held := by
  have enters := (tolerates : Tolerates _ (Dry (τ := τ) p notes reserve held)).enters
  have stores : Upholds (Dry p notes reserve held) (· = w) (updateRing r fun ring =>
      (((ring.store data).2, ring.isEmpty && !(ring.store data).1.isEmpty),
        (ring.store data).1)) fun _ => Dry p notes reserve held := by
    refine upholds_updateRing ?_
    rintro _ rfl
    refine h.set_ring (fun kept => (h.kept.valid r kept).store data) fun _ cleaned => ?_
    cases intact.symm.trans cleaned
  refine stores.bind fun ⟨answer, turned⟩ => ?_
  cases answer with
  | error e => exact preserves_pure _
  | ok count => exact enters.perhaps (enters.fireReadable reacts r) _ _

variable [Transform τ] [Transform.Candid τ]

/-- Whatever a run takes out of the queue, it writes before anybody can clean the pipe. -/
theorem weathers_own :
    Weathers o p (Dry p notes reserve held) (Dry p notes reserve held) where
  halts _ := id
  log _ := record _
  pours w segment rest h popped room := by
    have something : ¬ (w.pipes.get p).Shut := Pipe.not_shut_of_popFront popped
    have intact : (w.pipes.get p).source.cleaned = false :=
      Bool.eq_false_iff.2 fun cleaned => something (h.closing.shut cleaned)
    obtain ⟨⟨valid, held⟩, ⟨piece, whole⟩, sound⟩ := h.closing.order.queue.popFront popped
    have taken := h.set_own { w.pipes.get p with queue := rest }
      (h.closing.set_pipe fun _ => .of_open rfl something fun order => ⟨order.source, sound⟩) id
    refine (upholds_writeTo_piece valid held piece whole room fun offered => ?_).of_imp
      (fun _ => id) fun outflow w' ⟨h, _, valid, piece⟩ => ⟨fun _ => h, fun intact => ?_⟩
    · refine store_intact reacts taken ?_ _ offered
      rw [Table.get_set, if_pos rfl]
      exact intact
    · exact h.set_own _ (h.closing.set_pipe fun _ => .of_open rfl (Pipe.not_shut intact)
        fun order => ⟨order.source, order.queue.pushFront valid piece⟩) id
  mark w h := h.set_alike ⟨rfl, rfl, rfl⟩ rfl
  advance w h ready := by
    obtain ⟨source, _, _, _, _, same, cleaned⟩ := (w.pipes.get p).advance_same p
    have closing := h.closing.advance ready
    have advanced := h.set_own ((w.pipes.get p).advance p).pipe
      ⟨closing.inUse, closing.order, closing.shut, closing.noted, nofun⟩ fun before => by
        rw [same]
        exact cleaned.trans before
    exact advanced.set_journal _

omit [Transform.Candid τ] in
/-- What another pipe takes out of its queue, it writes elsewhere. -/
theorem weathers_elsewhere {q : PipeId} (other : q ≠ p) :
    Weathers o q (Dry p notes reserve held) (Dry p notes reserve held) where
  halts _ := id
  log _ := record _
  pours w segment rest h popped room := by
    have busy : reserve.others q :=
      Classical.byContradiction fun idle => (h.kept.barren q other idle).not_popFront popped
    have leads := h.kept.elsewhere q other busy
    have taken := h.set_other other { w.pipes.get q with queue := rest }
      (fun _ => leads) fun idle => (idle busy).elim
    have tolerates : Tolerates _ (Dry (τ := τ) p notes reserve held) := tolerates
    have stores (data : Bytes) : Upholds (Dry p notes reserve held) (Dry p notes reserve held)
        ((SharedRing.sink o (w.pipes.get q).destination).write data)
        fun _ => Dry p notes reserve held := tolerates.store reacts leads data
    refine (Upholds.here taken ((Segments.any _).pours trivial room stores)).of_imp
      (fun _ => id) fun outflow w' ⟨h, _⟩ => ⟨fun _ => h, fun _ => ?_⟩
    exact h.set_other other _ (h.kept.elsewhere q other) fun idle => (idle busy).elim
  mark w h := h.set_alike ⟨rfl, rfl, rfl⟩ rfl
  advance w h ready := by
    obtain ⟨source, _, _, _, _, same, _⟩ := (w.pipes.get q).advance_same q
    have advanced := h.set_other other ((w.pipes.get q).advance q).pipe
      (fun busy => by rw [same]; exact h.kept.elsewhere q other busy) fun idle => by
        rw [(h.kept.barren q other idle).isReady] at ready
        cases ready
    exact advanced.set_journal _

theorem run (q : PipeId) : Preserves (Dry p notes reserve held) (Pipe.run o q) := by
  have enters := (tolerates : Tolerates _ (Dry (τ := τ) p notes reserve held)).enters
  have runs (weathers : Weathers o q (Dry p notes reserve held) (Dry p notes reserve held)) :
      Preserves (Dry p notes reserve held) (Pipe.run o q) := by
    refine weathers.run enters (fun w _ _ h => h.set_alike ⟨rfl, rfl, rfl⟩ rfl) (fun e => ?_)
      (fun _ _ => record _) reacts
    exact enters.fail (fun _ => modifyPipe q (fun _ => ⟨rfl, rfl, rfl⟩) fun _ => rfl)
      (fun _ _ _ => record _) reacts e
  by_cases own : q = p
  · subst own
    exact runs (weathers_own reacts)
  · exact runs (weathers_elsewhere reacts own)

theorem feed (q : PipeId) {source : Source (Machine τ ω)}
    (reads : ∀ wanted, Preserves (Dry p notes reserve held) (source.read wanted))
    (ends : Preserves (Dry p notes reserve held) source.isEnded)
    (leaves : q = p → (∀ wanted, Leaves (World.inlet p) (source.read wanted)) ∧
      Leaves (World.inlet p) source.isEnded) :
    Preserves (Dry p notes reserve held) (Pipe.storeFrom o q source) := by
  have enters := (tolerates : Tolerates _ (Dry (τ := τ) p notes reserve held)).enters
  refine enters.called ?_ q
  apply (enters.failureCheck q).bind
  intro failed
  cases failed with
  | error e => exact preserves_pure _
  | ok =>
      refine .pointwise fun w h => .at_getPipe ?_
      -- Only the stream of the pipe itself is known to leave the source alone.
      let untouched (w' : World τ ω) : Prop := q = p → w'.inlet p = w.inlet p
      have kept := upholds_storeFrom reads ends (w.pipes.get q).source
      have reads_apart (wanted : Nat) : Keeps untouched (source.read wanted) :=
        fun _ _ _ same ran own => ((leaves own).1 wanted).keeps _ (same own) ran
      have ends_apart : Keeps untouched source.isEnded :=
        fun _ _ _ same ran own => (leaves own).2.keeps _ (same own) ran
      have spends := Ring.ensures_storeFrom_cleaned reads_apart ends_apart (w.pipes.get q).source
      refine (Upholds.here ⟨h, fun _ => rfl⟩ (kept.and_ensures spends)).bind fun intake => ?_
      refine .pointwise fun w' ⟨⟨h', fills⟩, same, cleaned, stays⟩ => .at_modifyPipe ?_
      have filled : Dry p notes reserve held { w' with
          pipes := w'.pipes.set q { w'.pipes.get q with source := intake.ring } } := by
        by_cases own : q = p
        · subst own
          have before : (w'.pipes.get q).source = (w.pipes.get q).source :=
            congrArg Prod.fst (same rfl)
          rw [← before] at fills cleaned stays
          exact h'.set_own _ (h'.closing.set_pipe fun _ => .of_intake fills cleaned stays)
            cleaned.trans
        · refine h'.set_other own _ (h'.kept.elsewhere q own) fun idle => ?_
          have empty := (h.kept.barren q own idle).intake fills
          exact ⟨empty.source, empty.room, (h'.kept.barren q own idle).queue⟩
      exact .here filled ((record _).bind fun _ => enters.onIntake (run reacts q) intake.result)

omit reacts [Transform.Candid τ] [Transform τ] in
theorem clean (q : PipeId) : Preserves (Dry (τ := τ) p notes reserve held) (Pipe.clean q) := by
  have tolerates : Tolerates _ (Dry (τ := τ) p notes reserve held) := tolerates
  refine tolerates.enters.giveBack tolerates.clean (upholds_modifyPipe fun w h => ?_)
  by_cases own : q = p
  · subst own
    exact h.set_own _ h.closing.emptied fun _ => Ring.cleaned_clean _
  · exact h.set_other own _ (h.kept.elsewhere q own) fun idle => (h.kept.barren q own idle).clean

/-- No call brings bytes into what is kept for the pipe, once the pipe was cleaned. -/
theorem perform {c : Call τ ω α} (alone : c.LeavesAlone p) (spares : c.Spares p reserve)
    (reads : ∀ source, c.source? = some source →
      ∀ wanted, Preserves (Dry p notes reserve held) (source.read wanted))
    (ended : ∀ source, c.source? = some source →
      Preserves (Dry p notes reserve held) source.isEnded)
    (writes : ∀ sink, c.sink? = some sink →
      ∀ offered, Preserves (Dry p notes reserve held) (sink.write offered)) :
    Preserves (Dry p notes reserve held) (c.perform o) := by
  have tolerates : Tolerates _ (Dry (τ := τ) p notes reserve held) := tolerates
  cases c with
  | feed q source => exact feed reacts q (reads source rfl) (ended source rfl) alone
  | run q => exact run reacts q
  | empty q sink max => exact tolerates.empty reacts (run reacts) q (writes sink rfl) alone
  | switch q candidate =>
      have moves : Preserves (Dry (τ := τ) p notes reserve held)
          (Machine.modifyPipe q fun pipe => { pipe with destination := candidate }) := by
        refine upholds_modifyPipe fun w h => ?_
        by_cases own : q = p
        · subst own
          exact h.set_own _ (h.closing.set_pipe fun _ => .of_same ⟨rfl, rfl, rfl⟩) id
        · exact h.set_other own _ (spares own) fun idle =>
            (h.kept.barren q own idle).of_same rfl rfl
      exact tolerates.enters.switch
        (fun r => observe r fun members => enlist members (.listener q)) (fun r => observe r _)
        moves (fun _ _ => record _) (run reacts q)
  | clear q => exact tolerates.clear q
  | clean q => exact clean q
  | store r data => exact tolerates.store reacts spares data
  | fill r source => exact tolerates.fill reacts spares (reads source rfl) (ended source rfl) alone
  | pour r sink max => exact tolerates.pour_alone reacts (run reacts) r (writes sink rfl) alone

end Reacting

end Dry

end ByteFlow
