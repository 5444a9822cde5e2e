/-
# Failure is final

Terminal errors are absorbing. A pipe that fails is told of once, to the handlers that are
registered then, and from that moment on it is a wreck that only giving back its memory can change.

`Rules.sparing` describes the programs of which this holds: they may make any calls, of this pipe
and of others, from inside every edge and from inside the edge that tells of the error too. What
they do besides must not reach inside the pipe. They may look at the pipe at every moment and take
down what they have seen, and what they took down agrees with what becomes of the pipe later.
-/

import ByteFlow.Proofs.Conduct
import ByteFlow.Proofs.Entering
import ByteFlow.Proofs.Failing
import ByteFlow.Proofs.Survival

namespace ByteFlow

open Machine

variable {τ ω α : Type} [Inhabited τ]

/-! ## Storing into a pipe that has failed -/

namespace Pipe

variable {p : PipeId} {w : World τ ω}

theorem failureCheck_eq (p : PipeId) (w : World τ ω) :
    failureCheck p w =
      .ok (match (w.pipes.get p).failure with
        | some kind => .error ⟨.store, kind, none⟩
        | none => .ok ()) w := by
  change (match (w.pipes.get p).failure with
    | some kind => return .error ⟨.store, kind, none⟩
    | none => return .ok () : Machine τ ω (Except Error Unit)) w = _
  cases (w.pipes.get p).failure <;> rfl

/-- A pipe that has failed refuses to store, and does not read the source. -/
theorem storeFrom_of_failed [Transform τ] {kind : ErrorKind}
    (failed : (w.pipes.get p).failure = some kind) (o : Owner τ ω)
    (source : Source (Machine τ ω)) :
    storeFrom o p source w = during p (pure (.error ⟨.store, kind, none⟩)) w := by
  refine during_congr ((bind_of_ok (failureCheck_eq p _)).trans ?_)
  rw [get_entered, failed]

end Pipe

/-- What nobody changes while bytes are read into a pipe: its source, and whether it has failed. -/
def World.inlet (p : PipeId) (w : World τ ω) : Ring × Option ErrorKind :=
  ((w.pipes.get p).source, (w.pipes.get p).failure)

/-- A store ends with the failure of the pipe, if it has failed by then. -/
def Answers (p : PipeId) (answer : Except Error Stored) (w : World τ ω) : Prop :=
  ∀ kind, (w.pipes.get p).failure = some kind → answer = .error ⟨.store, kind, none⟩

theorem Answers.of_failed {p : PipeId} {w : World τ ω} {kind : ErrorKind}
    (failed : (w.pipes.get p).failure = some kind) :
    Answers p (.error ⟨.store, kind, none⟩) w := by
  intro kind' same
  rw [failed] at same
  cases same
  rfl

theorem Answers.of_live {p : PipeId} {w : World τ ω} (live : (w.pipes.get p).failure = none)
    (answer : Except Error Stored) : Answers p answer w := by
  intro kind same
  cases live.symm.trans same

theorem steady_answers {p : PipeId} {answer : Except Error Stored} :
    Steady (Answers (τ := τ) (ω := ω) p answer) where
  log _ := ensures_record fun _ => id
  announce _ _ _ := ensures_record fun _ => id
  count q f := by
    refine ensures_modifyPipe fun w h kind failed => h kind ?_
    by_cases own : q = p
    · rw [own, Table.get_set, if_pos rfl] at failed
      exact failed
    · rw [Table.get_set, if_neg own] at failed
      exact failed
  retire q := (closed_keeps _).retire fun _ => ensures_modifyShared fun _ => id

namespace Observed

variable {cleans : Prop} {p : PipeId} {seen : Option (Wreck τ) → ω → Prop}
  {moment : Moment τ cleans} {w : World τ ω} {o : Owner τ ω}

/-- Bytes that come in are in the history, but not in the books of a run. -/
theorem receive (h : Observed p seen moment w) (live : (w.pipes.get p).failure = none)
    {moved : Bytes} {source : Ring} (fills : (w.pipes.get p).source.Fills moved source) :
    Observed p seen moment
      { w with
        pipes := w.pipes.set p { w.pipes.get p with source }
        journal := .received p moved :: w.journal } := by
  have told : history p (.received p moved :: w.journal) = _ := history_of_received moved
  refine set_pipe (w := { w with journal := .received p moved :: w.journal })
    (h.2.go_on live ⟨rfl, rfl⟩ ?_ fills.valid h.2.orderly.queue ?_)
  · intro event member
    rw [told] at member
    rcases List.mem_cons.1 member with rfl | before
    · rfl
    · exact h.2.unfailed live event before
  · have known := h.2.moment
    cases moment with
    | any => trivial
    | busy books =>
        obtain ⟨operating, _, kept⟩ := known
        refine ⟨operating, live, fun intact => ?_⟩
        rw [told, pushedIn_cons]
        change books _ (_ ++ [])
        rw [List.append_nil]
        exact kept (fills.cleaned.symm.trans intact)
    | failed kind history => cases live.symm.trans known.1
    | wrecked wreck uncleaned =>
        have known : (w.pipes.get p).wreck? = some wreck := known
        rw [Pipe.wreck?_of_none live] at known
        cases known

/-- To give back the memory of a pipe changes the wreck that it may be, and voids its books. -/
theorem clean_pipe (permitted : cleans)
    (stable : ∀ wreck owner, seen (some wreck) owner → seen (some wreck.cleaned) owner)
    (h : Observed p seen moment w) :
    Observed p seen moment { w with
      pipes := w.pipes.set p { w.pipes.get p with
        queue := (w.pipes.get p).queue.clear
        scratch := .empty
        source := (w.pipes.get p).source.clean } } := by
  refine set_pipe ⟨⟨h.2.orderly.reported, h.2.orderly.handlers, h.2.orderly.source.clean,
    Queue.sound_empty⟩, ?_, ?_⟩
  · have ok := h.2.seen
    unfold Pipe.wreck? at ok ⊢
    cases failed : (w.pipes.get p).failure with
    | none =>
        rw [failed] at ok
        exact ok
    | some kind =>
        rw [failed] at ok
        exact stable _ _ ok
  · have known := h.2.moment
    cases moment with
    | any => trivial
    | busy books =>
        obtain ⟨operating, live, _⟩ := known
        refine ⟨operating, live, fun intact => ?_⟩
        rw [Ring.cleaned_clean] at intact
        cases intact
    | failed kind history => exact known
    | wrecked wreck uncleaned => exact (uncleaned permitted).elim

section Reacting

variable (late : ∀ wreck owner, seen none owner → seen (some wreck) owner)
  (reacts : ∀ (moment : Moment τ cleans) handler edge,
    Keeps (Observed p seen moment) (o.react handler edge)) [Transform τ] [Transform.Candid τ]

include late reacts

/-- What a feed answers once its pipe has run. -/
theorem ensures_run_stored (stored : Stored) :
    Ensures (Observed p seen moment) (do
      Pipe.run o p
      match ← Pipe.failureCheck p with
      | .error e => return .error e
      | .ok () => return .ok stored : Machine τ ω (Except Error Stored))
      fun answer w => Observed p seen moment w ∧ Answers p answer w := by
  refine Ensures.bind (keeps_run late reacts p) fun _ => ?_
  refine .pointwise fun u h => .at_ok (Pipe.failureCheck_eq p u) ?_
  cases failed : (u.pipes.get p).failure with
  | some kind =>
      refine ensures_pure ?_
      rintro _ rfl
      exact ⟨h, .of_failed failed⟩
  | none =>
      refine ensures_pure ?_
      rintro _ rfl
      exact ⟨h, .of_live failed _⟩

theorem ensures_storeFrom {source : Source (Machine τ ω)}
    (reads : ∀ wanted, Keeps (Observed p seen moment) (source.read wanted))
    (ends : Keeps (Observed p seen moment) source.isEnded)
    (leaves : (∀ wanted, Leaves (World.inlet p) (source.read wanted)) ∧
      Leaves (World.inlet p) source.isEnded) :
    Ensures (Observed p seen moment) (Pipe.storeFrom o p source) fun answer w =>
      Observed p seen moment w ∧ Answers p answer w := by
  refine steady.ensures_during (fun answer => steady.and steady_answers)
    (.pointwise fun w h => .at_ok (Pipe.failureCheck_eq p w) ?_) p
  cases failed : (w.pipes.get p).failure with
  | some kind =>
      refine ensures_pure ?_
      rintro _ rfl
      exact ⟨h, .of_failed failed⟩
  | none =>
      have read := Ring.ensures_storeFrom
        (fun wanted => (leaves.1 wanted).keeps_and (reads wanted) (w.inlet p))
        (leaves.2.keeps_and ends (w.inlet p)) h.2.orderly.source
      refine .at_getPipe (Ensures.bind (.here ⟨h, rfl⟩ read) fun intake => ?_)
      refine .pointwise fun w' ⟨⟨h', same⟩, fills⟩ => .at_modifyPipe (.at_record ?_)
      have live : (w'.pipes.get p).failure = none := (congrArg Prod.snd same).trans failed
      have source_same : (w'.pipes.get p).source = (w.pipes.get p).source := congrArg Prod.fst same
      rw [← source_same] at fills
      have received := h'.receive live fills
      cases intake.result with
      | error e =>
          refine ensures_pure ?_
          rintro _ rfl
          refine ⟨received, .of_live ?_ _⟩
          rw [Table.get_set, if_pos rfl]
          exact live
      | ok stored =>
          dsimp only
          split
          · refine .at_getPipe ?_
            exact Ensures.bind (.here received (steady.log _)) fun _ =>
              ensures_run_stored late reacts stored
          · exact .here received (ensures_run_stored late reacts stored)

theorem keeps_feed (q : PipeId) {source : Source (Machine τ ω)}
    (reads : ∀ wanted, Keeps (Observed p seen moment) (source.read wanted))
    (ends : Keeps (Observed p seen moment) source.isEnded)
    (leaves : q = p → (∀ wanted, Leaves (World.inlet p) (source.read wanted)) ∧
      Leaves (World.inlet p) source.isEnded) :
    Keeps (Observed p seen moment) (Pipe.storeFrom o q source) := by
  by_cases own : q = p
  · rw [own]
    exact (ensures_storeFrom late reacts reads ends (leaves own)).post_imp fun _ _ h => h.1
  · exact (blind (reacts moment) own).keeps_storeFrom reads ends

theorem keeps_switchTo (q : PipeId) (candidate : RingId) :
    Keeps (Observed p seen moment) (Pipe.switchTo o q candidate) := by
  refine steady.keeps_during ?_ q
  apply Keeps.bind (keeps_getPipe q)
  intro pipe
  apply Keeps.bind (keeps_getRing candidate)
  intro ring
  apply Keeps.bind (keeps_getRing pipe.destination)
  intro current
  split
  · exact keeps_pure _
  · apply Keeps.bind (keeps_modifyShared _ _)
    intro _
    apply Keeps.bind (keeps_modifyPipe q fun pipe => ⟨_, _, _, _, rfl⟩)
    intro _
    apply Keeps.bind (keeps_record ⟨rfl, rfl⟩)
    intro _
    apply Keeps.bind (keeps_modifyShared _ _)
    intro _
    apply Keeps.bind (steady.log _)
    intro _
    exact Keeps.bind (keeps_run late reacts q) fun _ => keeps_pure _

omit late reacts [Transform τ] [Transform.Candid τ] in
theorem keeps_clean
    (stable : cleans → ∀ wreck owner, seen (some wreck) owner → seen (some wreck.cleaned) owner)
    (q : PipeId) (permitted : q = p → cleans) :
    Keeps (Observed (τ := τ) p seen moment) (Pipe.clean q) := by
  have emptied : Keeps (Observed (τ := τ) p seen moment) (modifyPipe q fun pipe =>
      { pipe with queue := pipe.queue.clear, scratch := .empty, source := pipe.source.clean }) := by
    apply ensures_modifyPipe
    intro w h
    by_cases own : q = p
    · rw [own]
      exact h.clean_pipe (permitted own) (stable (permitted own))
    · exact h.set_other_pipe own _
  apply Keeps.bind emptied
  intro _
  apply Keeps.bind (keeps_getPipe q)
  intro pipe
  apply Keeps.bind (admits.clean _)
  intro _
  apply Keeps.bind (keeps_getPipe q)
  intro pipe
  exact steady.log _

end Reacting

/-- A new pipe has no history. -/
theorem opened (w : World τ ω) (direction : Direction) (d : RingId) (transform : τ)
    (options : PipeOptions) (capacity : Nat) (entry : LogRecord) (ok : seen none w.owner) :
    Observed w.pipes.next seen (.any : Moment τ cleans)
      { w.opened direction d transform options capacity with
        journal := .logged entry ::
          (w.opened direction d transform options capacity).journal } := by
  have none : history w.pipes.next (.logged entry ::
      (w.opened direction d transform options capacity).journal) = [] := by
    rw [history_of_elsewhere ⟨rfl, rfl⟩]
    exact history_of_opened _ _
  have orderly : (Pipe.new direction options (.empty capacity options.sourceRegion) transform
      d).Orderly w.pipes.next [] :=
    ⟨List.forall_mem_nil _, List.nodup_nil, Ring.valid_empty _ _, Queue.sound_empty⟩
  have new : (Pipe.new direction options (.empty capacity options.sourceRegion) transform
      d).Observed w.pipes.next seen (.any : Moment τ cleans) [] w.owner := ⟨orderly, ok, trivial⟩
  rw [← none] at new
  exact set_pipe (w := { w.opened direction d transform options capacity with
    pipes := w.pipes
    journal := .logged entry :: (w.opened direction d transform options capacity).journal }) new

end Observed

/-! ## Programs -/

/-- Nothing inside a pipe changed between two worlds, and nothing was added to its history. Handlers
may have come and gone, and the owner may have let the pipe go. -/
structure Spared (p : PipeId) (w w' : World τ ω) : Prop where
  inUse : p < w'.pipes.next
  pipe : ∃ handlers held, handlers.Nodup ∧ w'.pipes.get p = { w.pipes.get p with handlers, held }
  history : history p w'.journal = history p w.journal

/-- The rules for programs that may do anything with pipes and rings, pipe `p` among them. A source
that is being read into the pipe does not reach inside it, and the memory of the pipe is given back
only if that is agreed upon. Between calls, the program spares the pipe, and what its owner has seen
of wrecks stays as it should be. -/
def Rules.sparing (p : PipeId) (cleans : Prop) (seen : Option (Wreck τ) → ω → Prop) :
    Rules τ ω where
  permits c :=
    match c with
    | .feed q source => q = p → (∀ wanted, Leaves (World.inlet p) (source.read wanted)) ∧
        Leaves (World.inlet p) source.isEnded
    | .clean q => q = p → cleans
    | _ => True
  ignores m := ∀ ⦃w a w'⦄, w.Orderly p → seen (w.wreck? p) w.owner → m w = .ok a w' →
    Spared p w w' ∧ seen (w'.wreck? p) w'.owner

/-- Handlers may be registered at any time. -/
theorem sparing_addHandler {p : PipeId} {cleans : Prop} {seen : Option (Wreck τ) → ω → Prop}
    (q : PipeId) (handler : HandlerId) :
    (Rules.sparing p cleans seen).ignores (Pipe.addHandler q handler) := by
  rintro w _ _ orderly ok ⟨⟩
  obtain ⟨handlers, same, _, nodup⟩ := left_addHandler q handler w p
  refine ⟨⟨Table.lt_next_set_of_lt orderly.1 _ _, ⟨handlers, _, ?_, same⟩, rfl⟩, ?_⟩
  · exact nodup orderly.2.handlers
  · change seen (((Pipe.addHandler q handler).left w).pipes.get p).wreck? _
    rw [same]
    exact ok

section Programs

variable [Transform τ] [Transform.Candid τ] {cleans : Prop} {p : PipeId}
  {seen : Option (Wreck τ) → ω → Prop} {w : World τ ω} {o : Owner τ ω} {m : Machine τ ω α}

/-- What is known of a pipe at any moment stays known through every program that keeps to the
rules. -/
theorem Observed.keeps_conduct (late : ∀ wreck owner, seen none owner → seen (some wreck) owner)
    (stable : cleans → ∀ wreck owner, seen (some wreck) owner → seen (some wreck.cleaned) owner)
    (conduct : Conduct (Rules.sparing p cleans seen) m) :
    ∀ moment : Moment τ cleans, Keeps (Observed p seen moment) m := by
  refine conduct.keeps ?_ ?_
  · intro β m ignores moment w a w' h ran
    obtain ⟨⟨inUse, ⟨handlers, held, nodup, same⟩, told⟩, ok⟩ := ignores h.orderly h.2.seen ran
    unfold World.wreck? at ok
    refine ⟨inUse, ?_⟩
    rw [same] at ok ⊢
    rw [told]
    refine ⟨⟨h.2.orderly.reported, nodup, h.2.orderly.source, h.2.orderly.queue⟩, ok, ?_⟩
    have known := h.2.moment
    cases moment <;> exact known
  · intro β o c permitted reads ended writes reacts moment
    have runs (q : PipeId) : Keeps (Observed p seen moment) (Pipe.run o q) :=
      keeps_run late reacts q
    cases c with
    | feed q source =>
        exact keeps_feed late reacts q (fun wanted => reads source rfl wanted moment)
          (ended source rfl moment) permitted
    | run q => exact runs q
    | empty q sink max =>
        exact admits.empty (reacts moment) runs q
          (fun offered => writes sink rfl offered moment) max
    | switch q candidate => exact keeps_switchTo late reacts q candidate
    | clear q => exact admits.clear q
    | clean q => exact keeps_clean stable q permitted
    | store r data => exact admits.store (reacts moment) r data
    | fill r source =>
        exact admits.fill (reacts moment) r (fun wanted => reads source rfl wanted moment)
          (ended source rfl moment)
    | pour r sink max =>
        exact admits.pour (reacts moment) runs r (fun offered => writes sink rfl offered moment) max

end Programs

namespace Breakdown

/-- A source that has the start of a frame ready, and announces more than the decoder accepts. -/
def source : Source (Machine Codec (Option ErrorKind)) where
  read wanted := pure (.ok ([0, 0, 0, 7, 1].take wanted))
  isEnded := pure false

/-- Takes down whether the pipe has failed. -/
def look : Machine Codec (Option ErrorKind) Unit :=
  modify fun w => { w with owner := (w.pipes.get 0).failure }

/-- A handler that looks at the pipe when it is told of an error, and tries to go on at once. -/
def react (o : Owner Codec (Option ErrorKind)) (_ : HandlerId) :
    Edge → Machine Codec (Option ErrorKind) Unit
  | .error _ => do
    look
    let _ ← Pipe.storeFrom o 0 source
    Pipe.run o 0
  | _ => pure ()

def owner : Owner Codec (Option ErrorKind) := .nest 8 react 2

/-- A world with one ring. -/
def world : World Codec (Option ErrorKind) := ⟨⟨[⟨.empty 8 .heap, []⟩]⟩, .empty, [], none⟩

/-- Makes a pipe that takes frames apart. -/
def make : Machine Codec (Option ErrorKind) (Except Error PipeId) :=
  Pipe.create .unwrap 0 (.frameDecoder ⟨4⟩) { PipeOptions.standard with sourceCapacity := some 8 }

/-- Registers the handler, and stores into the pipe. -/
def feed : Machine Codec (Option ErrorKind) (Except Error Stored) := do
  Pipe.addHandler 0 3
  Pipe.storeFrom owner 0 source

/-- Tries once more. -/
def retry : Machine Codec (Option ErrorKind) Unit := do
  let _ ← Pipe.storeFrom owner 0 source
  Pipe.run owner 0

/-- What was taken down of a wreck is its kind. -/
def Seen (wreck : Option (Wreck Codec)) (noted : Option ErrorKind) : Prop :=
  noted = none ∨ noted = wreck.map Wreck.kind

/-- How often handlers were told of an error. -/
def told (journal : List Event) : Nat :=
  journal.countP fun
    | .notified _ _ (.error _) => true
    | _ => false

theorem conduct_look : Conduct (Rules.sparing 0 False Seen) look := by
  apply Conduct.aside
  rintro w _ _ orderly _ ⟨⟩
  refine ⟨⟨orderly.1, ⟨_, _, orderly.2.handlers, rfl⟩, rfl⟩, .inr ?_⟩
  change (w.pipes.get 0).failure = ((w.pipes.get 0).failure.map _).map Wreck.kind
  cases (w.pipes.get 0).failure <;> rfl

theorem conduct_source {o : Owner Codec (Option ErrorKind)}
    (reacts : ∀ handler edge, Conduct (Rules.sparing 0 False Seen) (o.react handler edge)) :
    Conduct (Rules.sparing 0 False Seen) (Pipe.storeFrom o 0 source) :=
  .feed 0 reacts (fun _ => ⟨fun _ => leaves_pure _ _, leaves_pure _ _⟩) (fun _ => .gives _)
    (.gives _)

theorem conduct_retry {o : Owner Codec (Option ErrorKind)}
    (reacts : ∀ handler edge, Conduct (Rules.sparing 0 False Seen) (o.react handler edge)) :
    Conduct (Rules.sparing 0 False Seen) (do
      let _ ← Pipe.storeFrom o 0 source
      Pipe.run o 0) :=
  .andThen (conduct_source reacts) fun _ => .call (c := .run 0) trivial nofun nofun nofun reacts

theorem conduct_react (handler : HandlerId) (edge : Edge) :
    Conduct (Rules.sparing 0 False Seen) (owner.react handler edge) := by
  refine conduct_nest (fun o reacts handler edge => ?_) 2 handler edge
  cases edge with
  | error e => exact .andThen conduct_look fun _ => conduct_retry reacts
  | readable => exact .gives _
  | writable => exact .gives _

theorem conduct_feed : Conduct (Rules.sparing 0 False Seen) feed :=
  .andThen (.aside (sparing_addHandler 0 3)) fun _ => conduct_source conduct_react

end Breakdown

end ByteFlow
