/-
# The life of a pipe

A pipe lives as long as its owner holds it or one of its calls is in progress. While it lives, its
listener is among the observers of its destination; at the end of its life the listener is taken
away, and after that nothing reaches the pipe any more.
-/

import ByteFlow.World

namespace ByteFlow.Pipe

open Machine

variable {τ ω : Type} [Inhabited τ]

/-- Takes the listener of a pipe away if the pipe's life has ended. -/
def retire (p : PipeId) : Machine τ ω Unit := do
  let pipe ← getPipe p
  if !pipe.isAlive then detach pipe.destination (.listener p)

/-- Runs a call of a pipe, which lives at least until the call ends. -/
def during {α : Type} (p : PipeId) (body : Machine τ ω α) : Machine τ ω α := do
  modifyPipe p fun pipe => { pipe with calls := pipe.calls + 1 }
  ensuring body do
    modifyPipe p fun pipe => { pipe with calls := pipe.calls - 1 }
    retire p

/-- The owner lets a pipe go. -/
def drop (p : PipeId) : Machine τ ω Unit := do
  modifyPipe p fun pipe => { pipe with held := false }
  retire p

/-- Fires an edge of a pipe: those of its handlers that are registered now are told, in order. -/
def emit (o : Owner τ ω) (p : PipeId) (edge : Edge) : Machine τ ω Unit := do
  record (.fired (.pipe p) edge)
  (← getPipe p).handlers.forM (tell o (.pipe p) edge)

/-- The listener of a pipe is told that the destination turned readable, and tells the pipe's own
handlers. -/
def listenReadable (o : Owner τ ω) (p : PipeId) : Machine τ ω Unit := do
  if (← getPipe p).isAlive then during p (emit o p .readable)

end ByteFlow.Pipe
