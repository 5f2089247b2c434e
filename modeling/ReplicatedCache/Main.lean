import ReplicatedCache.Settings.Arguments
import ReplicatedCache.Settings.NodeId
import ReplicatedCache.Transport.Remote

/-! # The program

Starts a node with the settings that its arguments give and serves the one
connection that consists of its standard input and output. The peers are out of
reach of the program, so that writes to them are kept as hints.
-/

namespace ReplicatedCache.Program

def usage (program : String) : String :=
  "Usage: " ++ program ++ " [--config <file.json>] [--bind <addr:port>] [--node-id <id>] " ++
    "[--peer <id=addr:port>]... [--rf <n>] [--capacity <n>] [--segments <n>] " ++
    "[--eviction lru|lfu]\nExample: " ++ program ++
    " --bind 127.0.0.1:11311 --node-id a --peer b=127.0.0.1:11312"

/-- Peers to which there is no connection. -/
abbrev Unreached := Host (Served (Engine Unit))

def unreached : Unreached where
  network := .unreachable
  peer := ⟨.create ⟨1, 1, .lru⟩ ()⟩

def remoteNode (settings : Settings) (peer : Settings.Peer) : RemoteNode Unreached where
  id := peer.id
  address := peer.address.text
  connectTimeout := settings.connectTimeout
  requestTimeout := settings.requestTimeout
  peer := unreached

def node (settings : Settings) (id : String) :
    Except SetupError (Coordinator (Member Audience Unreached)) :=
  Coordinator.create? id (LiveEngine.create settings.store.engine)
    (.ofVirtualNodes settings.virtualNodes) settings.replicationFactor
    (settings.peers.map (remoteNode settings))

/-- Reads until there are `count` bytes or the input ends. -/
partial def readUpTo (input : IO.FS.Stream) (count : Nat) (found : ByteArray) : IO ByteArray := do
  if count ≤ found.size then return found
  let more ← input.read (USize.ofNat (count - found.size))
  if more.isEmpty then return found
  readUpTo input count (found ++ more)

def readFrame (input : IO.FS.Stream) : IO ByteArray := do
  let header ← readUpTo input 4 .empty
  if header.size < 4 || Frame.limit < Frame.announced header then return header
  readUpTo input (4 + Frame.announced header) header

/-- Answers one frame after another. -/
partial def serve {S : Type} [Service S] (state : S) (input output : IO.FS.Stream) : IO Unit := do
  let frame ← readFrame input
  let now := Int64.ofNat (← IO.monoMsNow)
  let conversation := Service.converse state now frame
  output.write conversation.sent
  output.flush
  match conversation.fault with
  | some error => throw (.userError error.message)
  | none => unless frame.size < 4 do serve conversation.state input output

/-- The contents of the file that the arguments name, if it can be read. -/
def readSettingsFile (arguments : List String) : IO (Option ByteArray) := do
  match Settings.configPath? arguments with
  | .ok (some path) =>
    try
      return some (← IO.FS.readBinFile path)
    catch _ => return none
  | _ => return none

def randomWord : IO UInt64 := do
  return UInt64.ofNat (← IO.rand 0 (UInt64.size - 1))

end ReplicatedCache.Program

open ReplicatedCache ReplicatedCache.Program in
def main (arguments : List String) : IO UInt32 := do
  let program := (← IO.appPath).toString
  if arguments.contains "--help" || arguments.contains "-h" then
    IO.eprintln (usage program)
    return 1
  let arguments := program :: arguments
  let content ← readSettingsFile arguments
  let drawn := Settings.drawnId (← randomWord) (← randomWord)
  match Settings.ofArguments (fun _ => content) arguments (some drawn) with
  | .error refusal =>
    IO.eprintln ("Error: " ++ refusal.message)
    return 1
  | .ok settings =>
    match node settings (settings.nodeId.getD drawn) with
    | .error error =>
      IO.eprintln ("Error: " ++ error.message)
      return 1
    | .ok node =>
      serve node (← IO.getStdin) (← IO.getStdout)
      return 0
