/-
# What edges keep

A call of a pipe enters and leaves the pipe's life, writes to the log, and tells handlers of edges.
A property of computations `Hosts` calls when all that bookkeeping has it. Then an edge has it as
soon as the handlers have it, whatever else the handlers do: this is the only thing that is ever
assumed of them. An invariant is `Steady` when the bookkeeping does not touch it, so that keeping it
hosts calls.

Two edges are left out here. The one that makes a ring writable resumes pipes, so what it keeps
depends on what a run keeps. The one that tells of an error says that a stream has ended, which is
more than bookkeeping.
-/

import ByteFlow.Proofs.Ensures
import ByteFlow.SharedRing.Store

namespace ByteFlow

/-- An edge that does not tell of an error. -/
def Edge.IsOrdinary : Edge → Prop
  | .error _ => False
  | _ => True

/-- The emitter tells of such an edge outside of runs: it is not of an error, and no pipe has made
room. -/
def Emitter.Passes : Emitter → Edge → Prop
  | _, .error _ => False
  | .pipe _, .writable => False
  | _, _ => True

theorem Emitter.Passes.isOrdinary {emitter : Emitter} {edge : Edge} (passes : emitter.Passes edge) :
    edge.IsOrdinary := by
  cases edge with
  | readable => trivial
  | writable => trivial
  | error e => cases emitter <;> exact passes.elim

/-- The event says that the edge fires, or that a handler is told of it. -/
inductive Event.Announces (emitter : Emitter) (edge : Edge) : Event → Prop where
  | fired : Announces emitter edge (.fired emitter edge)
  | notified (handler : HandlerId) : Announces emitter edge (.notified emitter handler edge)

namespace Machine

variable {τ ω α : Type} [Inhabited τ]

/-- The bookkeeping around calls has the property, and a call of a pipe that lives has it if its
body does. -/
structure Hosts (K : ∀ α : Type, Machine τ ω α → Prop) : Prop extends Closed K where
  log : ∀ entry, K _ (log entry)
  announce : ∀ {emitter edge}, emitter.Passes edge → ∀ {event}, event.Announces emitter edge →
    K _ (record event)
  listen : ∀ p {body : Machine τ ω Unit}, K _ body →
    K _ (do if (← getPipe p).isAlive then Pipe.during p body)

namespace Hosts

variable {K : ∀ α : Type, Machine τ ω α → Prop} {o : Owner τ ω}

theorem tell (hosts : Hosts K) (reacts : ∀ handler edge, K _ (o.react handler edge))
    {emitter : Emitter} {edge : Edge} {handler : HandlerId}
    (notifies : K _ (record (.notified emitter handler edge))) :
    K _ (tell o emitter edge handler) :=
  hosts.andThen notifies fun _ => reacts handler edge

theorem emit (hosts : Hosts K) (reacts : ∀ handler edge, K _ (o.react handler edge)) {p : PipeId}
    {edge : Edge} (announces : ∀ event, event.Announces (.pipe p) edge → K _ (record event)) :
    K _ (Pipe.emit o p edge) := by
  apply hosts.andThen (announces _ .fired)
  intro _
  apply hosts.andThen (hosts.getPipe p)
  intro pipe
  exact hosts.forM fun handler _ => hosts.tell reacts (announces _ (.notified handler))

theorem listenReadable (hosts : Hosts K) (reacts : ∀ handler edge, K _ (o.react handler edge))
    (p : PipeId) : K _ (Pipe.listenReadable o p) :=
  have passes : (Emitter.pipe p).Passes .readable := trivial
  hosts.listen p (hosts.emit reacts fun _ => hosts.announce passes)

/-- The edge that makes a ring readable does what the handlers do. -/
theorem fireReadable (hosts : Hosts K) (reacts : ∀ handler edge, K _ (o.react handler edge))
    (r : RingId) : K _ (SharedRing.fireReadable o r) := by
  have passes : (Emitter.ring r).Passes .readable := trivial
  apply hosts.andThen (hosts.announce passes .fired)
  intro _
  apply hosts.andThen (hosts.getShared r)
  intro shared
  apply hosts.forM
  intro observer _
  cases observer with
  | listener p => exact hosts.listenReadable reacts p
  | handler h => exact hosts.tell reacts (hosts.announce passes (.notified h))

end Hosts

/-- To retire a pipe takes its listener away, or does nothing. -/
theorem Closed.retire {K : ∀ α : Type, Machine τ ω α → Prop} (closed : Closed K) {p : PipeId}
    (detaches : ∀ r, K _ (detach r (.listener p))) : K _ (Pipe.retire p) := by
  apply closed.andThen (closed.getPipe p)
  intro pipe
  split
  · exact detaches _
  · exact closed.gives _

/-- The bookkeeping around calls leaves the invariant alone. -/
structure Steady (inv : World τ ω → Prop) : Prop where
  log : ∀ entry, Keeps inv (log entry)
  announce : ∀ {emitter edge}, edge.IsOrdinary → ∀ {event}, event.Announces emitter edge →
    Keeps inv (record event)
  /-- A call of a pipe begins or ends. -/
  count : ∀ p (f : Nat → Nat),
    Keeps inv (modifyPipe p fun pipe => { pipe with calls := f pipe.calls })
  retire : ∀ p, Keeps inv (Pipe.retire p)

variable {inv : World τ ω → Prop} {o : Owner τ ω}

/-- A call of a pipe ensures what its body ensures. -/
theorem Steady.ensures_during {post : α → World τ ω → Prop} {body : Machine τ ω α}
    (before : Steady inv) (after : ∀ a, Steady (post a)) (h : Ensures inv body post) (p : PipeId) :
    Ensures inv (Pipe.during p body) post := by
  refine Ensures.bind (before.count p (· + 1)) fun _ => ?_
  refine Ensures.ensuring h fun a => ?_
  exact ((after a).count p (· - 1)).bind fun _ => (after a).retire p

theorem Steady.keeps_during {body : Machine τ ω α} (steady : Steady inv) (h : Keeps inv body)
    (p : PipeId) : Keeps inv (Pipe.during p body) :=
  steady.ensures_during (fun _ => steady) h p

theorem Steady.and {inv' : World τ ω → Prop} (steady : Steady inv) (steady' : Steady inv') :
    Steady fun w => inv w ∧ inv' w where
  log entry := Ensures.and (steady.log entry) (steady'.log entry)
  announce ordinary _ announces :=
    Ensures.and (steady.announce ordinary announces) (steady'.announce ordinary announces)
  count p f := Ensures.and (steady.count p f) (steady'.count p f)
  retire p := Ensures.and (steady.retire p) (steady'.retire p)

theorem Steady.hosts (steady : Steady inv) : Hosts fun _ (m : Machine τ ω _) => Keeps inv m where
  toClosed := closed_keeps inv
  log := steady.log
  announce passes := steady.announce passes.isOrdinary
  listen p _ h := by
    apply Keeps.bind (keeps_getPipe p)
    intro pipe
    split
    · exact steady.keeps_during h p
    · exact keeps_pure _

/-- What storing into a ring ensures, if telling the observers of it keeps that. -/
theorem ensures_store {pre : World τ ω → Prop} {post : Except Error Nat → World τ ω → Prop}
    {r : RingId} {data : Bytes}
    (stores : ∀ w, pre w → post ((w.rings.get r).ring.store data).2
      { w with
        rings := w.rings.set r { w.rings.get r with
          ring := ((w.rings.get r).ring.store data).1 } })
    (tells : ∀ answer, Keeps (post answer) (SharedRing.fireReadable o r)) :
    Ensures pre (SharedRing.store o r data) post := by
  have stored : Ensures pre
      (updateRing r fun ring =>
        (((ring.store data).2, ring.isEmpty && !(ring.store data).1.isEmpty),
          (ring.store data).1))
      fun got => post got.1 := ensures_updateRing stores
  refine stored.bind fun ⟨answer, turned⟩ => ?_
  cases answer with
  | error e => exact ensures_pure fun _ => id
  | ok count =>
      dsimp only
      split
      · exact Ensures.bind (tells _) fun _ => ensures_pure fun _ => id
      · exact ensures_pure fun _ => id

end Machine

end ByteFlow
