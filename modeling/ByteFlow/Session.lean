/-
# Sessions

A session performs commands one after another and reports, for each, its answer, what happened
meanwhile, and the state of all things afterwards. Reports speak of things by name.
-/

import ByteFlow.Session.Perform

namespace ByteFlow.Session

/-- An event of the journal as it is reported. -/
inductive Note where
  | log (level : LogLevel) (message : String) (fields : List (String × LogValue))
  | edge (handler : String) (edge : Edge)
  | transform (pipe : String) (input : Block) (headroom : Nat) (step : Step) (emitted left : Nat)
  | output (action : String) (answer : Answer)
  | read (wanted : Nat) (got : Option Nat)
  | write (offered : Nat) (took : Option Nat)
  | flush
  | act (handler action : String) (answer : Answer)

/-- How an event is reported, if it is. Log records below the wanted level are left out, and so are
edges that a handler does not see. -/
def noteOf? (bench : Bench) (level : Option LogLevel) : Event → Option Note
  | .logged record =>
    match level with
    | none => none
    | some level =>
      if level.weight ≤ record.level.weight then
        some (.log record.level record.message record.fields)
      else none
  | .fired .. | .started .. | .ended .. | .opened .. | .redirected .. | .received .. |
    .delivered .. | .stopped .. => none
  | .notified _ id edge =>
    let handler := bench.handlers.get id
    match edge with
    | .error _ => if handler.seesErrors then some (.edge handler.name edge) else none
    | _ => some (.edge handler.name edge)
  | .transformed p input headroom step chunks left =>
    some (.transform (bench.pipeNames.get p) input headroom step (Bytes.count chunks) left)
  | .output action answer => some (.output action answer)
  | .readerCalled wanted got => some (.read wanted got)
  | .writerCalled offered took => some (.write offered took)
  | .writerFlushed => some .flush
  | .acted id action answer => some (.act (bench.handlers.get id).name action answer)

/-- The state of a thing, for the types of things that have one to show. -/
inductive View where
  | byteRing (ring : Ring)
  | basicRing (ring : Ring)
  | sharedRing (ring : SharedRing)
  | queue (queue : Queue)
  | handlers (count : Nat)
  | pipe (pipe : Pipe Stage) (destination : Ring) (destinationName : Option String)

/-- The state of the thing behind a number. -/
def viewOf (id : Nat) : Work (Option View) := do
  match ← Work.getThing id with
  | .byteRing ring => return some (.byteRing ring)
  | .basicRing ring => return some (.basicRing ring)
  | .sharedRing ring => return some (.sharedRing (← Machine.getShared ring))
  | .queue queue => return some (.queue queue)
  | .handlers members => return some (.handlers members.length)
  | .pipe p =>
    let pipe ← Machine.getPipe p
    return some (.pipe pipe (← Machine.getRing pipe.destination)
      (← Work.nameOfRing pipe.destination))
  | .handler _ | .source _ | .sink _ => return none

/-- What a command led to. -/
structure Report where
  answer : Answer
  /-- What happened since the report before, oldest first. -/
  notes : List Note
  /-- The state of all things that show one, by name. -/
  views : List (String × View)

/-- Performs a command and reports on it. The journal starts anew. -/
def report (o : Owner Stage Bench) (level : Option LogLevel) (command : Command) :
    Work Report := do
  let answer ← tryCatch (attempt o command) fun _ => return .exhausted
  let world ← get
  let notes := world.journal.reverse.filterMap (noteOf? world.owner level)
  set { world with journal := [] }
  let views ← world.owner.names.filterMapM fun (name, id) => do
    return (← viewOf id).map fun view => (name, view)
  return { answer, notes, views }

/-- How deep handlers may be nested, and how many passes a loop may take: far more than can happen
in any session that ends. -/
def depth : Nat := 0x10000000000

/-- Performs commands in an empty world, one after another. -/
def run (level : Option LogLevel) (commands : List Command) : List Report :=
  match (commands.mapM (report (owner depth) level)).run (World.empty Bench.empty) with
  | .ok reports _ => reports
  | .error _ _ => []

end ByteFlow.Session
