/-
# The world of rings and pipes

Rings can be shared, and handlers may call back while an edge is being told, so everything that
calls can reach lives in one `World`, by number: shared rings with their observers, pipes, the
journal, and a state `ω` of the owner that the world itself never looks at.

A `Machine` is a computation on the world. It can halt, because a promise was broken or because it
ran out of the passes it was granted; what it did before stays done.

An `Owner` says how handlers react. All computations take the owner as a parameter and call it only
through `tell`, so that what handlers do from inside an edge is anything a `Machine` can do.
-/

import ByteFlow.Journal
import ByteFlow.Options
import ByteFlow.Queue

namespace ByteFlow

/-- Values by number. Every number has a value: the default one until it is set. -/
structure Table (α : Type) where
  entries : List α

namespace Table

variable {α : Type} [Inhabited α]

def empty : Table α := ⟨[]⟩

instance : Inhabited (Table α) := ⟨empty⟩

/-- The value of a number. -/
def get (t : Table α) (i : Nat) : α := t.entries.getD i default

/-- Sets one entry of a list, which is made longer if it has to be. -/
def setEntry : List α → Nat → α → List α
  | [], 0, a => [a]
  | [], i + 1, a => default :: setEntry [] i a
  | _ :: rest, 0, a => a :: rest
  | b :: rest, i + 1, a => b :: setEntry rest i a

/-- Sets the value of a number. -/
def set (t : Table α) (i : Nat) (a : α) : Table α := ⟨setEntry t.entries i a⟩

/-- Changes one entry of a list by a function that also gives a result. The list is made longer if
it has to be. -/
def updateEntry {β : Type} (f : α → β × α) : List α → Nat → β × List α
  | [], 0 =>
    let (b, a) := f default
    (b, [a])
  | [], i + 1 =>
    let (b, rest) := updateEntry f [] i
    (b, default :: rest)
  | a :: rest, 0 =>
    let (b, a) := f a
    (b, a :: rest)
  | a :: rest, i + 1 =>
    let (b, rest) := updateEntry f rest i
    (b, a :: rest)

/-- Changes the value of a number by a function that also gives a result. -/
def update {β : Type} (t : Table α) (i : Nat) (f : α → β × α) : β × Table α :=
  let (b, entries) := updateEntry f t.entries i
  (b, ⟨entries⟩)

/-- The first number that is not in use. -/
def next (t : Table α) : Nat := t.entries.length

theorem getD_setEntry (entries : List α) (i j : Nat) (a : α) :
    (setEntry entries i a).getD j default = if i = j then a else entries.getD j default := by
  induction entries, i, a using setEntry.induct generalizing j with
  | case1 a => cases j <;> simp [setEntry]
  | case2 i a ih => cases j <;> simp_all [setEntry]
  | case3 b rest a => cases j <;> simp [setEntry]
  | case4 b rest i a ih => cases j <;> simp_all [setEntry]

@[simp]
theorem get_set (t : Table α) (i j : Nat) (a : α) :
    (t.set i a).get j = if i = j then a else t.get j :=
  getD_setEntry t.entries i j a

theorem length_setEntry (entries : List α) (i : Nat) (a : α) :
    (setEntry entries i a).length = max entries.length (i + 1) := by
  induction entries, i, a using setEntry.induct with
  | case1 a => rfl
  | case2 i a ih => rw [setEntry, List.length_cons, ih, List.length_nil]; omega
  | case3 b rest a => rw [setEntry, List.length_cons, List.length_cons]; omega
  | case4 b rest i a ih => rw [setEntry, List.length_cons, ih, List.length_cons]; omega

/-- A number is in use from when its value is set. -/
theorem next_set (t : Table α) (i : Nat) (a : α) : (t.set i a).next = max t.next (i + 1) :=
  length_setEntry t.entries i a

/-- What was never set is the default. -/
theorem get_of_next_le {t : Table α} {i : Nat} (unused : t.next ≤ i) : t.get i = default := by
  unfold get
  rw [List.getD_eq_getElem?_getD, List.getElem?_eq_none unused]
  rfl

theorem lt_next_set (t : Table α) (i : Nat) (a : α) : i < (t.set i a).next := by
  rw [next_set]
  exact Nat.le_max_right _ _

theorem lt_next_set_of_lt {t : Table α} {j : Nat} (inUse : j < t.next) (i : Nat) (a : α) :
    j < (t.set i a).next := by
  rw [next_set]
  exact Nat.lt_of_lt_of_le inUse (Nat.le_max_left _ _)

/-- Of two values that are set the last one counts. -/
theorem set_set (t : Table α) (i : Nat) (a b : α) : (t.set i a).set i b = t.set i b := by
  have last (entries : List α) : setEntry (setEntry entries i a) i b = setEntry entries i b := by
    induction entries, i, a using setEntry.induct with
    | case1 a => rfl
    | case2 i a ih => simp [setEntry, ih]
    | case3 other rest a => rfl
    | case4 other rest i a ih => simp [setEntry, ih]
  exact congrArg Table.mk (last t.entries)

/-- To set the value that a number in use has already changes nothing. -/
theorem set_get {t : Table α} {i : Nat} (inUse : i < t.next) : t.set i (t.get i) = t := by
  have same {entries : List α} {i : Nat} (inUse : i < entries.length) :
      setEntry entries i (entries.getD i default) = entries := by
    induction entries generalizing i with
    | nil => cases inUse
    | cons a rest ih =>
        cases i with
        | zero => rfl
        | succ i =>
            have onward : setEntry rest i (rest.getD i default) = rest :=
              ih (Nat.lt_of_succ_lt_succ inUse)
            simpa [setEntry] using onward
  exact congrArg Table.mk (same inUse)

/-- What is wanted of a value is what is wanted once it is set. -/
theorem set_self {P : α → Prop} {t : Table α} {i : Nat} {a : α} (own : P a) :
    i < (t.set i a).next ∧ P ((t.set i a).get i) := by
  refine ⟨lt_next_set t i a, ?_⟩
  rw [get_set, if_pos rfl]
  exact own

/-- What holds of a value holds after another one was set. -/
theorem set_other {P : α → Prop} {t : Table α} {i j : Nat} (h : j < t.next ∧ P (t.get j))
    (other : i ≠ j) (a : α) : j < (t.set i a).next ∧ P ((t.set i a).get j) := by
  refine ⟨lt_next_set_of_lt h.1 i a, ?_⟩
  rw [get_set, if_neg other]
  exact h.2

theorem updateEntry_eq {β : Type} (f : α → β × α) (entries : List α) (i : Nat) :
    updateEntry f entries i =
      ((f (entries.getD i default)).1, setEntry entries i (f (entries.getD i default)).2) := by
  induction i generalizing entries with
  | zero => cases entries <;> rfl
  | succ i ih => cases entries <;> simp [updateEntry, setEntry, ih]

/-- To change a value is to set it to what the function makes of it. -/
theorem update_eq {β : Type} (t : Table α) (i : Nat) (f : α → β × α) :
    t.update i f = ((f (t.get i)).1, t.set i (f (t.get i)).2) := by
  simp [update, updateEntry_eq, get, set]

end Table

/-- What goes on record when the content of a ring is moved into one piece: nothing if it begins at
the first cell already. -/
def Event.ofDefragment (ring : Ring) : List Event :=
  if 0 < ring.head then [.logged (.ringDefragmented ring.head ring.used)] else []

/-- Who is told of the edges of a ring. -/
inductive Observer where
  /-- The listener of a pipe, which drains into the ring. -/
  | listener (pipe : PipeId)
  | handler (id : HandlerId)
deriving DecidableEq, Repr, Inhabited

/-- A ring that several parties hold, and those who are told of its edges. -/
structure SharedRing where
  ring : Ring
  /-- In the order in which they are told, none twice. -/
  observers : List Observer
deriving Inhabited

/-- Who observes a ring says nothing about the content of any. -/
theorem ring_set_observers (rings : Table SharedRing) (r : RingId) (observers : List Observer)
    (s : RingId) :
    ((rings.set r { rings.get r with observers }).get s).ring = (rings.get s).ring := by
  rw [Table.get_set]
  split
  · rename_i eq
    rw [eq]
  · rfl

/-- Adds someone to a list of those who are told, unless they are in it. -/
def enlist {α : Type} [DecidableEq α] (members : List α) (member : α) : List α :=
  if member ∈ members then members else members ++ [member]

theorem mem_enlist {α : Type} [DecidableEq α] {members : List α} {member other : α} :
    other ∈ enlist members member ↔ other ∈ members ∨ other = member := by
  unfold enlist
  split
  · rename_i old
    exact ⟨.inl, fun h => h.elim id fun eq => eq ▸ old⟩
  · rw [List.mem_append, List.mem_singleton]

theorem nodup_enlist {α : Type} [DecidableEq α] {members : List α} (nodup : members.Nodup)
    (member : α) : (enlist members member).Nodup := by
  unfold enlist
  split
  · exact nodup
  · rename_i new
    have single : [member].Nodup := List.nodup_cons.2 ⟨List.not_mem_nil, List.nodup_nil⟩
    refine List.nodup_append.2 ⟨nodup, single, fun other old last here => ?_⟩
    rw [List.mem_singleton.1 here]
    rintro rfl
    exact new old

/-- A pipe: its own source, a transform, the queue of output, and a shared destination. -/
structure Pipe (τ : Type) where
  direction : Direction
  options : PipeOptions
  source : Ring
  queue : Queue
  scratch : Block
  transform : τ
  destination : RingId
  /-- Those who are told of the edges of the pipe. -/
  handlers : List HandlerId
  /-- Whether a run is in progress. -/
  operating : Bool
  /-- Whether the run in progress has made room. -/
  pendingWritable : Bool
  /-- The kind of the terminal error, once there was one. -/
  failure : Option ErrorKind
  /-- Whether the owner still holds the pipe. -/
  held : Bool
  /-- How many calls of the pipe are in progress. -/
  calls : Nat

namespace Pipe

variable {τ : Type}

/-- A pipe to which nothing has happened yet. -/
def new (direction : Direction) (options : PipeOptions) (source : Ring) (transform : τ)
    (destination : RingId) : Pipe τ :=
  { direction, options, source, transform, destination
    queue := .empty
    scratch := .empty
    handlers := []
    operating := false
    pendingWritable := false
    failure := none
    held := true
    calls := 0 }

instance [Inhabited τ] : Inhabited (Pipe τ) := ⟨new .unwrap .standard default default 0⟩

/-- A pipe lives as long as its owner holds it or a call of it is in progress. -/
def isAlive (pipe : Pipe τ) : Bool := pipe.held || 0 < pipe.calls

end Pipe

/-- Everything that calls can reach. -/
structure World (τ ω : Type) where
  rings : Table SharedRing
  pipes : Table (Pipe τ)
  /-- What happened so far, newest first. -/
  journal : List Event
  /-- Whatever the owner of the rings and pipes keeps. -/
  owner : ω

/-- Why a computation stopped before its end. -/
inductive Halt where
  | misuse (misuse : Misuse)
  /-- A loop took more passes than it was granted. -/
  | exhausted
deriving DecidableEq, Repr, Inhabited

/-- A computation on the world. -/
abbrev Machine (τ ω : Type) := EStateM Halt (World τ ω)

/-- The owner of rings and pipes. -/
structure Owner (τ ω : Type) where
  /-- What a handler does when it is told of an edge. -/
  react : HandlerId → Edge → Machine τ ω Unit
  /-- How many passes each loop is granted. -/
  passes : Nat

namespace World

variable {τ ω : Type} [Inhabited τ]

/-- A world without rings and pipes. -/
def empty (owner : ω) : World τ ω := ⟨.empty, .empty, [], owner⟩

end World

namespace Machine

variable {τ ω : Type} [Inhabited τ]

/-- Puts an event on record. -/
def record (event : Event) : Machine τ ω Unit :=
  modify fun w => { w with journal := event :: w.journal }

/-- Puts events on record; the newest comes first. -/
def recordAll (events : List Event) : Machine τ ω Unit :=
  modify fun w => { w with journal := events ++ w.journal }

/-- Writes to the log. -/
def log (entry : LogRecord) : Machine τ ω Unit := record (.logged entry)

def getShared (id : RingId) : Machine τ ω SharedRing := return (← get).rings.get id

def getRing (id : RingId) : Machine τ ω Ring := return ((← get).rings.get id).ring

def modifyShared (id : RingId) (f : SharedRing → SharedRing) : Machine τ ω Unit :=
  modify fun w => { w with rings := w.rings.set id (f (w.rings.get id)) }

def setRing (id : RingId) (ring : Ring) : Machine τ ω Unit :=
  modifyShared id fun shared => { shared with ring }

/-- Changes a ring in its place, by a function that also gives a result. -/
def updateRing {α : Type} (id : RingId) (f : Ring → α × Ring) : Machine τ ω α :=
  modifyGet fun w =>
    let (a, rings) := w.rings.update id fun shared =>
      let (a, ring) := f shared.ring
      (a, { shared with ring })
    (a, { w with rings })

/-- Adds an observer to a ring. -/
def attach (id : RingId) (observer : Observer) : Machine τ ω Unit :=
  modifyShared id fun shared =>
    { shared with observers := enlist shared.observers observer }

/-- Takes an observer from a ring. -/
def detach (id : RingId) (observer : Observer) : Machine τ ω Unit :=
  modifyShared id fun shared =>
    { shared with observers := shared.observers.filter (· ≠ observer) }

def getPipe (id : PipeId) : Machine τ ω (Pipe τ) := return (← get).pipes.get id

def modifyPipe (id : PipeId) (f : Pipe τ → Pipe τ) : Machine τ ω Unit :=
  modify fun w => { w with pipes := w.pipes.set id (f (w.pipes.get id)) }

/-- Goes on with a result, or halts for the promise that was broken in place of it. -/
def insist {α : Type} : Except Misuse α → Machine τ ω α
  | .ok a => return a
  | .error misuse => throw (.misuse misuse)

/-- Runs `cleanup` after `body`, also if `body` halts. -/
def ensuring {α : Type} (body : Machine τ ω α) (cleanup : Machine τ ω Unit) :
    Machine τ ω α := do
  let a ← tryCatch body fun halt => do
    cleanup
    throw halt
  cleanup
  return a

/-- Tells a handler of an edge. -/
def tell (o : Owner τ ω) (emitter : Emitter) (edge : Edge) (handler : HandlerId) :
    Machine τ ω Unit := do
  record (.notified emitter handler edge)
  o.react handler edge

/-- Moves the content of a ring into one piece, and says so in the log if it had to be moved. -/
def defragment (ring : Ring) : Machine τ ω (Except Error Ring) := do
  match ring.defragment with
  | .error e => return .error e
  | .ok moved =>
    recordAll (Event.ofDefragment ring)
    return .ok moved

end Machine

end ByteFlow
