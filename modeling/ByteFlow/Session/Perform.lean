/-
# Performing commands

Each type of thing answers the requests it knows; a request that it does not know, like one that
names a thing that is not there, is answered by `missing`. Handlers perform commands in the same
way, from inside the edge they are told of, and a broken promise stops only the command it happens
in.
-/

import ByteFlow.Describe
import ByteFlow.Session.Bench

namespace ByteFlow.Session

open Machine Work

/-- Runs `body`; if a broken promise stops it, `stopped` says what to make of that. -/
def intercept {α : Type} (body : Work α) (stopped : Misuse → α) : Work α :=
  tryCatch body fun
    | .misuse misuse => return stopped misuse
    | .exhausted => throw .exhausted

/-- Uses the source behind a name. -/
def withSource (name : String) (body : Source Work → Work (Except Error Stored)) :
    Work Answer := do
  match ← find name with
  | some (id, .source _) => return Answer.ofStored (← occupying [id] (body (source id)))
  | _ => return .missing

/-- Uses the sink behind a name, which may be a shared ring. A sink that keeps what it takes shows
what came to it meanwhile, however the writing ends. -/
def withSink (o : Owner Stage Bench) (name : String)
    (body : Sink Work → Work (Except Error Nat)) : Work Answer := do
  match ← find name with
  | some (_, .sharedRing ring) => return .written (← body (SharedRing.sink o ring)) none
  | some (id, .sink before) =>
    let answer ← occupying [id] (intercept (Answer.written <$> body (sink id)) Answer.stopped)
    match ← getThing id with
    | .sink after =>
      let out := after.accepted.slice before.accepted.size after.accepted.size
      return answer (some out.toList)
    | _ => return answer none
  | _ => return .missing

/-- Writes a ring that belongs to the session alone into a sink, and puts what is left of it back
as the thing it was. -/
def writeOwn (o : Owner Stage Bench) (id : Nat) (thing : Ring → Thing) (ring : Ring)
    (sink : String) (max : Nat) : Work Answer :=
  occupying [id] do
    withSink o sink fun target => do
      let outflow ← ring.writeTo target max
      putThing id (thing outflow.ring)
      return outflow.result

/-- Stores from a source into a ring that belongs to the session alone. -/
def storeOwn (id : Nat) (thing : Ring → Thing) (ring : Ring) (source : String) : Work Answer :=
  occupying [id] do
    withSource source fun origin => do
      let intake ← ring.storeFrom origin
      putThing id (thing intake.ring)
      return intake.result

/-- What a byte ring answers. -/
def askByteRing (o : Owner Stage Bench) (id : Nat) (ring : Ring) : Request → Work Answer
  | .storeFrom source => storeOwn id .byteRing ring source
  | .writeTo sink max => writeOwn o id .byteRing ring sink max
  | .storeSlice data => do
    let (ring, result) := ring.store data
    putThing id (.byteRing ring)
    match result with
    | .error e => return .failed e
    | .ok count => return .accepted count
  | .consume count => do
    match ring.consume count with
    | .error misuse => return .stopped misuse none
    | .ok ring =>
      putThing id (.byteRing ring)
      return .ok
  | .clear => do
    putThing id (.byteRing ring.clear)
    return .ok
  | .clean => do
    putThing id (.byteRing ring.clean)
    return .ok
  | .defragment => do
    match ← defragment ring with
    | .error e => return .failed e
    | .ok ring =>
      putThing id (.byteRing ring)
      return .ok
  | .describe => return .text ring.describe
  | _ => return .missing

/-- What a basic ring answers: it cannot be defragmented, whatever its region. -/
def askBasicRing (o : Owner Stage Bench) (id : Nat) (ring : Ring) : Request → Work Answer
  | .storeFrom source => storeOwn id .basicRing ring source
  | .writeTo sink max => writeOwn o id .basicRing ring sink max
  | .clear => do
    putThing id (.basicRing ring.clear)
    return .ok
  | .clean => do
    putThing id (.basicRing ring.clean)
    return .ok
  | .defragment => return .failed (.unsupported .defragment)
  | _ => return .missing

/-- Uses the handler behind a name. -/
def withHandler (name : String) (body : HandlerId → Work Answer) : Work Answer := do
  match ← findHandler name with
  | some handler => body handler
  | none => return .missing

/-- What a shared ring answers. -/
def askSharedRing (o : Owner Stage Bench) (ring : RingId) : Request → Work Answer
  | .storeFrom source => withSource source (SharedRing.storeFrom o ring)
  | .writeTo sink max => withSink o sink fun target =>
    SharedRing.writeTo o ring (lending ring target) max
  | .storeSlice data => do
    match ← SharedRing.store o ring data with
    | .error e => return .failed e
    | .ok count => return .accepted count
  | .clear => do
    SharedRing.clear ring
    return .ok
  | .clean => do
    SharedRing.clean ring
    return .ok
  | .defragment => return Answer.ofUnit (← SharedRing.defragment ring)
  | .describe => return .text ((← getShared ring).describe (← isLent ring))
  | .addHandler name => withHandler name fun handler => do
    attach ring (.handler handler)
    return .ok
  | .removeHandler name => withHandler name fun handler => do
    let before := (← getShared ring).observers
    detach ring (.handler handler)
    return .flag (.handler handler ∈ before)
  | .same other => do
    match ← find other with
    | some (_, .sharedRing id) => return .flag (id == ring)
    | _ => return .missing
  | .write data => return .written (← SharedRing.store o ring data) none
  | .flush | .close => return .ok
  | .isClosed => return .flag false
  | _ => return .missing

/-- Puts a segment into a queue. A ring moves, and its name is let go. -/
def pushSegment (id : Nat) (push : Ring → Queue) : Segment → Work Answer
  | .data bytes => do
    putThing id (.queue (push (.wrap bytes)))
    return .ok
  | .ring name => do
    match ← find name with
    | some (_, .byteRing ring) =>
      forget name
      putThing id (.queue (push ring))
      return .ok
    | _ => return .missing

/-- What a queue answers. -/
def askQueue (id : Nat) (queue : Queue) : Request → Work Answer
  | .pushBack segment => pushSegment id queue.pushBack segment
  | .pushFront segment => pushSegment id queue.pushFront segment
  | .popFront name => do
    match queue.popFront with
    | none => return .flag false
    | some (segment, rest) =>
      putThing id (.queue rest)
      christen name (.byteRing segment)
      return .flag true
  | .clear => do
    putThing id (.queue queue.clear)
    return .ok
  | .describe => return .text queue.describe
  | _ => return .missing

/-- What a set of handlers answers. Those who are told are the members of this moment. -/
def askHandlers (o : Owner Stage Bench) (id : Nat) (members : List HandlerId) :
    Request → Work Answer
  | .add name => withHandler name fun handler => do
    putThing id (.handlers (enlist members handler))
    return .ok
  | .remove name => withHandler name fun handler => do
    putThing id (.handlers (members.filter (· ≠ handler)))
    return .flag (handler ∈ members)
  | .tellReadable => do
    members.forM (tell o .members .readable)
    return .ok
  | .tellWritable => do
    members.forM (tell o .members .writable)
    return .ok
  | .tellError e => do
    members.forM (tell o .members (.error e))
    return .ok
  | .describe => return .text (describeHandlers members.length)
  | _ => return .missing

/-- What a source answers. -/
def askSource (name : String) (id : Nat) (feed : Feed) : Request → Work Answer
  | .read wanted => do
    insist (Block.request wanted)
    match ← (source id).read wanted with
    | .error e => return .failed e
    | .ok bytes =>
      return .read bytes.length (bytes ++ List.replicate (wanted - bytes.length) 0)
  | .isEos => return .flag feed.isEnded
  | .isClosed => return .flag feed.isClosed
  | .close => do
    putThing id (.source feed.close)
    return .ok
  | .refill sink => do
    match feed, ← find sink with
    | .slice rest, some (sinkId, .sink (.bytes content)) =>
      putThing id (.source (.slice (rest ++ content.toList)))
      putThing sinkId (.sink (.bytes .empty))
      return .left (rest.length + content.size)
    | _, _ => return .missing
  | .intoInner => do
    match feed with
    | .reader source =>
      forget name
      match source.reader with
      | none => return .nothing
      | some reader => return .reader reader.unread reader.items.length
    | _ => return .missing
  | _ => return .missing

/-- What a sink answers. -/
def askSink (name : String) (id : Nat) (outlet : Outlet) : Request → Work Answer
  | .write data => return .written (← (sink id).write data) none
  | .flush => do
    let called := outlet.flush
    putThing id (.sink called.stream)
    recordAll called.events.reverse
    return Answer.ofUnit called.result
  | .close => do
    let called := outlet.close
    putThing id (.sink called.stream)
    recordAll called.events.reverse
    return Answer.ofUnit called.result
  | .isClosed => return .flag outlet.isClosed
  | .accepted => return .bytes outlet.accepted.toList
  | .intoInner => do
    match outlet with
    | .writer sink =>
      forget name
      match sink.writer with
      | none => return .nothing
      | some writer => return .writer writer.accepted.toList
    | _ => return .missing
  | _ => return .missing

/-- What a pipe answers. -/
def askPipe (o : Owner Stage Bench) (p : PipeId) : Request → Work Answer
  | .run => do
    Pipe.run o p
    return .ok
  | .storeFrom source => withSource source (Pipe.storeFrom o p)
  | .store data => do
    let id ← addThing (.source (.slice data))
    return Answer.ofStored (← Pipe.storeFrom o p (source id))
  | .writeTo sink max => withSink o sink fun target => do
    let destination := (← getPipe p).destination
    Pipe.writeTo o p (lending destination target) max
  | .switch name => do
    match ← find name with
    | some (_, .sharedRing ring) =>
      match ← Pipe.switchTo o p ring with
      | .error e => return .failed e
      | .ok before => return .previous (← nameOfRing before)
    | _ => return .missing
  | .addHandler name => withHandler name fun handler => do
    Pipe.addHandler p handler
    return .ok
  | .removeHandler name => withHandler name fun handler => do
    let before := (← getPipe p).handlers
    Pipe.removeHandler p handler
    return .flag (handler ∈ before)
  | .clear => do
    Pipe.clear p
    return .ok
  | .clean => do
    Pipe.clean p
    return .ok
  | .isOperating => return .flag (← getPipe p).operating
  | .info => do
    let pipe ← getPipe p
    let destination ← getRing pipe.destination
    return .info pipe.direction.text destination.capacity pipe.options.ceiling
      pipe.options.sourceCapacity pipe.options.sourceRegion.text
  | .describe => do
    let pipe ← getPipe p
    let destination ← getShared pipe.destination
    return .text (pipe.describe destination (← isLent pipe.destination))
  | _ => return .missing

/-- Makes a thing. If that fails, what had the name before keeps it. -/
def make (name : String) : Blueprint → Work Answer
  | .byteRing plan => do
    christen name (.byteRing (← insist plan.make))
    return .ok
  | .basicRing plan => do
    christen name (.basicRing (← insist plan.make))
    return .ok
  | .sharedRing plan => do
    christen name (.sharedRing (← SharedRing.create (← insist plan.make)))
    return .ok
  | .queue => do
    christen name (.queue .empty)
    return .ok
  | .handlers => do
    christen name (.handlers [])
    return .ok
  | .handler seesErrors readable writable error runs => do
    let id := (← bench).handlers.next
    modifyBench fun b =>
      let handler := ⟨name, seesErrors, readable, writable, error, runs⟩
      { b with handlers := b.handlers.set id handler }
    christen name (.handler id)
    return .ok
  | .source feed => do
    christen name (.source feed)
    return .ok
  | .sink outlet => do
    christen name (.sink outlet)
    return .ok
  | .pipe destination recipe direction options => do
    match ← find destination with
    | some (_, .sharedRing ring) =>
      let stage ← insist recipe.make
      match ← Pipe.create direction ring stage options with
      | .error e => return .failed e
      | .ok p =>
        modifyBench fun b => { b with pipeNames := b.pipeNames.set p name }
        christen name (.pipe p)
        return .ok
    | _ => return .missing

/-- Performs a command for an owner. -/
def perform (o : Owner Stage Bench) : Command → Work Answer
  | .create name blueprint => make name blueprint
  | .drop name => do
    let known := ((← bench).names.lookup name).isSome
    forget name
    return .flag known
  | .ask name request => do
    match ← find name with
    | none => return .missing
    | some (id, thing) =>
      match thing with
      | .byteRing ring => askByteRing o id ring request
      | .basicRing ring => askBasicRing o id ring request
      | .sharedRing ring => askSharedRing o ring request
      | .queue queue => askQueue id queue request
      | .handlers members => askHandlers o id members request
      | .handler _ => return .missing
      | .source feed => askSource name id feed request
      | .sink outlet => askSink name id outlet request
      | .pipe p => askPipe o p request

/-- Performs a command; a broken promise is its answer. -/
def attempt (o : Owner Stage Bench) (command : Command) : Work Answer :=
  intercept (perform o command) (.stopped · none)

/-- What the handlers of a session do when they are told of an edge: they run the commands they
have for it, if they have runs left. Handlers may be nested `depth` deep. -/
def react : (depth : Nat) → HandlerId → Edge → Work Unit
  | 0, _, _ => throw .exhausted
  | depth + 1, id, edge => do
    let handler := (← bench).handlers.get id
    match handler.commands edge with
    | none => pure ()
    | some commands =>
      if handler.runs ≠ some 0 then
        modifyBench fun b =>
          { b with
            handlers := b.handlers.set id { handler with runs := handler.runs.map (· - 1) } }
        commands.forM fun command => do
          let answer ← attempt ⟨react depth, depth⟩ command
          record (.acted id command.label answer)

/-- The owner of all rings and pipes of a session. -/
def owner (depth : Nat) : Owner Stage Bench := ⟨react depth, depth⟩

end ByteFlow.Session
