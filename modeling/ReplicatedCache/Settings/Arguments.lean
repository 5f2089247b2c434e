import ReplicatedCache.Settings.File

/-! # Arguments

How settings are read from the arguments of a program. The first `--config`
names a file to start from; the other flags are then applied from left to
right, each with the argument that follows it. What is no flag is skipped.
-/

namespace ReplicatedCache.Settings

inductive Refusal
  | missingValue (flag : String)
  | badNumber (error : NumberError)
  | badAddress
  | peerShape (text : String)
  | peerWithoutId (text : String)
  | peerAddress (address : String)
  | unknownEviction (name : String)
  | unreadableFile (path : String)
  | malformedFile (path : String)
  | unusable (reason : Unusable)
deriving DecidableEq, Repr

def Refusal.message : Refusal → String
  | missingValue flag => flag ++ " requires a value"
  | badNumber error => error.message
  | badAddress => "invalid socket address syntax"
  | peerShape text => "Peer must look like id=host:port, got " ++ text
  | peerWithoutId text => "Peer id must not be empty: " ++ text
  | peerAddress address => "Invalid peer address " ++ address ++ ": invalid socket address syntax"
  | unknownEviction name => "Unknown eviction policy: " ++ name
  | unreadableFile path => "Failed to read config file " ++ path
  | malformedFile path => "Failed to parse config file " ++ path
  | unusable reason => reason.message

def parseAddress (text : String) : Except Refusal SocketAddress :=
  match SocketAddress.parse? text with
  | some address => .ok address
  | none => .error .badAddress

def parseNumber (text : String) : Except Refusal Nat := (number text).mapError .badNumber

def parseEviction (text : String) : Except Refusal EvictionKind :=
  match EvictionKind.ofName? text with
  | some kind => .ok kind
  | none => .error (.unknownEviction (EvictionKind.normalize text))

def splitAtEquals (text : String) : Option (String × String) :=
  let front := text.toList.takeWhile (· ≠ '=')
  match text.toList.dropWhile (· ≠ '=') with
  | [] => none
  | _ :: back => some (String.ofList front, String.ofList back)

/-- Reads a peer in the form `id=address`. -/
def Peer.parse (text : String) : Except Refusal Peer :=
  match splitAtEquals text with
  | none => .error (.peerShape text)
  | some (id, address) =>
    if id.isEmpty then .error (.peerWithoutId text)
    else match SocketAddress.parse? address with
      | some address => .ok ⟨id, address⟩
      | none => .error (.peerAddress address)

inductive Flag
  | config
  | bind
  | nodeId
  | peer
  | replicationFactor
  | capacity
  | segments
  | eviction
deriving DecidableEq, Repr

namespace Flag

def all : List Flag :=
  [config, bind, nodeId, peer, replicationFactor, capacity, segments, eviction]

def text : Flag → String
  | config => "--config"
  | bind => "--bind"
  | nodeId => "--node-id"
  | peer => "--peer"
  | replicationFactor => "--rf"
  | capacity => "--capacity"
  | segments => "--segments"
  | eviction => "--eviction"

def ofText? (argument : String) : Option Flag := all.find? fun flag => flag.text == argument

/-- Applies a flag with its value. The file was read before. -/
def apply (flag : Flag) (value : String) (settings : Settings) : Except Refusal Settings :=
  match flag with
  | config => .ok settings
  | bind => do pure { settings with bind := ← parseAddress value }
  | nodeId => .ok { settings with nodeId := some value }
  | peer => do pure { settings with peers := settings.peers ++ [← Peer.parse value] }
  | replicationFactor => do pure { settings with replicationFactor := ← parseNumber value }
  | capacity => do
    pure { settings with store := { settings.store with capacity := ← parseNumber value } }
  | segments => do
    pure { settings with store := { settings.store with segments := ← parseNumber value } }
  | eviction => do
    pure { settings with store := { settings.store with eviction := ← parseEviction value } }

end Flag

def applyFlags (settings : Settings) : List String → Except Refusal Settings
  | [] => .ok settings
  | [argument] =>
    match Flag.ofText? argument with
    | none => .ok settings
    -- that the last argument names no file was found out before
    | some .config => .ok settings
    | some flag => .error (.missingValue flag.text)
  | argument :: value :: rest =>
    match Flag.ofText? argument with
    | none => applyFlags settings (value :: rest)
    | some flag => do
      let settings ← flag.apply value settings
      applyFlags settings rest

/-- The argument after the first `--config`. -/
def configPath? (arguments : List String) : Except Refusal (Option String) :=
  match arguments.dropWhile (· ≠ Flag.config.text) with
  | [] => .ok none
  | [_] => .error (.missingValue Flag.config.text)
  | _ :: path :: _ => .ok (some path)

def ofFile (files : String → Option ByteArray) (path : String) : Except Refusal Settings :=
  match (files path).bind String.fromUTF8? with
  | none => .error (.unreadableFile path)
  | some content =>
    match ofText? content with
    | some settings => .ok settings
    | none => .error (.malformedFile path)

/-- The settings with an id for the node: the drawn one, unless they have one. -/
def named (settings : Settings) (drawn : Option String) : Settings :=
  { settings with nodeId := settings.nodeId.or drawn }

/-- Reads settings from arguments, of which the first is the name of the
program, given the contents of files and an id that was drawn for the node. -/
def ofArguments (files : String → Option ByteArray) (arguments : List String)
    (drawn : Option String := none) : Except Refusal Settings := do
  let start : Settings ← match ← configPath? arguments with
    | none => pure {}
    | some path => ofFile files path
  let settings ← applyFlags (start.named drawn) (arguments.drop 1)
  settings.validate.mapError .unusable

end ReplicatedCache.Settings
