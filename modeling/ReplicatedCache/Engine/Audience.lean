import ReplicatedCache.Engine.Basic
import ReplicatedCache.EventFeed

/-! # Listeners and feeds

The audience of a running engine: removal listeners and a feed of key events.
A listener answers a removal with a reaction, which may write into the
listener's log, call the engine again, let listeners come and go, and fail. A
failing listener does not disturb the others. What a listener calls may cause
further removals, which all listeners hear before the call returns.

Reactions are finite, but a listener whose reaction causes a removal of the same
kind could go on without end. `Audience.hear` therefore takes a bound on how
deeply calls may nest; beyond it listeners are not told.
-/

namespace ReplicatedCache

/-- What a listener writes into its log. -/
inductive Remark
  | removed (key : String) (cause : RemovalCause)
  /-- A removal, and whether the key is live and how many entries there are at
  the moment at which it is heard. -/
  | observed (key : String) (cause : RemovalCause) (live : Bool) (size : Nat)
deriving DecidableEq, Inhabited, Repr

/-- What a listener does about a removal, step by step. -/
inductive Reaction
  | finish
  | fail
  | write (remark : Remark) (next : Reaction)
  | set (key : String) (value : Value) (ttl : Span) (next : Bool → Reaction)
  | get (key : String) (next : Option Value → Reaction)
  | contains (key : String) (next : Bool → Reaction)
  | size (next : Nat → Reaction)
  /-- Adds a listener and learns its number. -/
  | subscribe (react : List Remark → String → RemovalCause → Reaction) (next : Nat → Reaction)
  /-- Stops telling a listener. -/
  | unsubscribe (id : Nat) (next : Reaction)

/-- A listener with its log, oldest remark first. What it does may depend on
the log. -/
structure Listener where
  react : List Remark → String → RemovalCause → Reaction
  log : List Remark := []
  active : Bool := true

namespace Listener

def recording : Listener where
  react _ key cause := .write (.removed key cause) .finish

/-- Writes down every removal and what the engine looks like at that moment. -/
def probing : Listener where
  react _ key cause :=
    .contains key fun live => .size fun size => .write (.observed key cause live size) .finish

def failing : Listener where
  react _ key cause := .write (.removed key cause) .fail

/-- Writes down every removal and stores a successor for the key, unless the
key was evicted or is a successor itself. -/
def reviving : Listener where
  react _ key cause := .write (.removed key cause) <|
    if cause = .evicted ∨ key.endsWith "~" then .finish
    else .set (key ++ "~") "r".toUTF8 .zero fun _ => .finish

end Listener

/-- Listeners, numbered in the order in which they came, and the event feed. -/
structure Audience where
  listeners : Array Listener := #[]
  feed : EventFeed := {}

namespace Audience

instance : Inhabited Audience := ⟨{}⟩

/-- Adds a listener and tells its number. -/
def subscribe (audience : Audience) (listener : Listener) : Audience × Nat :=
  ({ audience with listeners := audience.listeners.push listener }, audience.listeners.size)

def unsubscribe (audience : Audience) (id : Nat) : Audience :=
  { audience with listeners := audience.listeners.modify id fun l => { l with active := false } }

def takeLog (audience : Audience) (id : Nat) : Audience × List Remark :=
  match audience.listeners[id]? with
  | none => (audience, [])
  | some listener =>
    ({ audience with listeners := audience.listeners.modify id fun l => { l with log := [] } },
      listener.log)

def write (audience : Audience) (id : Nat) (remark : Remark) : Audience :=
  { audience with
    listeners := audience.listeners.modify id fun l => { l with log := l.log ++ [remark] } }

/-- The numbers of the listeners that are told. -/
def active (audience : Audience) : List Nat :=
  (List.range audience.listeners.size).filter fun id =>
    match audience.listeners[id]? with
    | some listener => listener.active
    | none => false

end Audience

namespace Reaction

/-- Carries out the reaction of one listener. Removals that its calls cause are
heard through `hear`. -/
def run (hear : Hearing Audience) (now : Instant) (id : Nat) :
    Reaction → Engine Audience → Engine Audience
  | finish, engine => engine
  | fail, engine => engine
  | write remark next, engine =>
    run hear now id next { engine with audience := engine.audience.write id remark }
  | set key value ttl next, engine =>
    let (engine, stored) := engine.set hear now key value ttl
    run hear now id (next stored) engine
  | get key next, engine =>
    let (engine, found) := engine.get hear now key
    run hear now id (next found) engine
  | contains key next, engine => run hear now id (next (engine.contains now key)) engine
  | size next, engine => run hear now id (next engine.size) engine
  | subscribe react next, engine =>
    let (audience, number) := engine.audience.subscribe { react }
    run hear now id (next number) { engine with audience }
  | unsubscribe other next, engine =>
    run hear now id next { engine with audience := engine.audience.unsubscribe other }

end Reaction

namespace Audience

def publish (engine : Engine Audience) (event : KeyEvent) : Engine Audience :=
  match engine with
  | ⟨shards, expiries, compactAbove, nextToken, stats, ⟨listeners, feed⟩⟩ =>
    ⟨shards, expiries, compactAbove, nextToken, stats, ⟨listeners, feed.publish event⟩⟩

def tell (hear : Hearing Audience) (now : Instant) (key : String) (cause : RemovalCause)
    (engine : Engine Audience) (id : Nat) : Engine Audience :=
  match engine.audience.listeners[id]? with
  | none => engine
  | some listener => (listener.react listener.log key cause).run hear now id engine

/-- How an audience hears a signal: events go to the feed, removals to every
listener that is active when the removal happens, one after another. Calls of
the listeners nest at most `depth` deep. -/
def hear (now : Instant) : (depth : Nat) → Hearing Audience
  | _, engine, .event event => publish engine event
  | 0, engine, .removal _ _ => engine
  | depth + 1, engine, .removal key cause =>
    -- who is told is settled before the first listener reacts
    engine.audience.active.foldl (tell (hear now depth) now key cause) engine

def nesting : Nat := 64

end Audience

/-- An engine with listeners and a feed. -/
abbrev LiveEngine := Engine Audience

namespace LiveEngine

def create (config : EngineConfig) : LiveEngine := Engine.create config {}

def onAudience {α : Type} (engine : LiveEngine) (change : Audience → Audience × α) :
    LiveEngine × α :=
  let (audience, answer) := change engine.audience
  ({ engine with audience }, answer)

def listen (engine : LiveEngine) (listener : Listener) : LiveEngine × Nat :=
  engine.onAudience (·.subscribe listener)

def ignore (engine : LiveEngine) (id : Nat) : LiveEngine :=
  { engine with audience := engine.audience.unsubscribe id }

def takeLog (engine : LiveEngine) (id : Nat) : LiveEngine × List Remark :=
  engine.onAudience (·.takeLog id)

def follow (engine : LiveEngine) : LiveEngine × Nat :=
  engine.onAudience fun audience =>
    let (feed, id) := audience.feed.subscribe
    ({ audience with feed }, id)

def readEvents (engine : LiveEngine) (id : Nat) : LiveEngine × EventFeed.Reading :=
  engine.onAudience fun audience =>
    let (feed, reading) := audience.feed.read id
    ({ audience with feed }, reading)

end LiveEngine

end ReplicatedCache
