/-
# Trials of a transform

A trial calls a transform, or uses its output directly, step by step over one output whose queue
was empty at the start and is never drained.
-/

import ByteFlow.Session.Stage

namespace ByteFlow.Session

/-- One step of a trial. -/
inductive TrialStep where
  /-- Calls the transform of the trial. -/
  | input (bytes : Bytes)
  | output (call : OutputCall)
  /-- Calls another transform, made for this step. -/
  | transform (recipe : Recipe) (input : Bytes)
deriving Inhabited

/-- What a step of a trial led to. -/
structure TrialReport where
  answer : Answer
  /-- All bytes pushed so far. -/
  emitted : Nat
  /-- The room below the ceiling that is left. -/
  headroom : Nat

/-- Does one step. -/
def TrialStep.perform (stage : Stage) (o : Output) : TrialStep → Stage × Output × Answer
  | .input bytes =>
    let called := stage.call bytes o
    (called.next, called.output, Answer.ofStep called.result)
  | .output call =>
    match call.perform o with
    | (o, .error misuse) => (stage, o, .stopped misuse none)
    | (o, .ok answer) => (stage, o, answer)
  | .transform recipe bytes =>
    let (o, result) := recipe.call bytes o
    (stage, o, .ofStep result)

/-- Does steps in turn, and gives the reports and the output at the end. -/
def trialSteps (stage : Stage) (o : Output) : List TrialStep → List TrialReport × Output
  | [] => ([], o)
  | step :: rest =>
    let (stage, o, answer) := step.perform stage o
    let (reports, last) := trialSteps stage o rest
    (⟨answer, o.emitted, o.headroom⟩ :: reports, last)

/-- Tries a transform. The second part of the result is the content of the queue's segments. -/
def trial (recipe : Recipe) (ceiling : Nat) (steps : List TrialStep) :
    Except Misuse (List TrialReport × List Bytes) := do
  let stage ← recipe.make
  let (reports, o) := trialSteps stage (.new .empty .empty ceiling) steps
  return (reports, o.queue.segments.map Ring.toList)

end ByteFlow.Session
