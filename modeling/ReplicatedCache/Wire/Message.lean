import ReplicatedCache.Cluster.Node

/-! # Messages

What nodes and applications send to each other. A request asks a node to work
on its own engine, to answer at all, or to carry an operation out on behalf of
an application on all replicas of the key. Every request is answered by one
response: the reply to the operation, or an error with a message.
-/

namespace ReplicatedCache

/-- A call as it travels: times to live are whole milliseconds, of which zero
means "no limit". -/
inductive Operation
  | set (key : String) (value : Value) (ttl : UInt64)
  | get (key : String)
  | getWithToken (key : String)
  | delete (key : String)
  | compareAndSwap (key : String) (value : Value) (expected : Token) (ttl : UInt64)
  | clear
deriving DecidableEq

namespace Operation

instance : Inhabited Operation := ⟨clear⟩

def ofCall {α : Type} : Call α → Operation
  | .set key value ttl => set key value ttl.toWire
  | .get key => get key
  | .getWithToken key => getWithToken key
  | .delete key => delete key
  | .compareAndSwap key value expected ttl => compareAndSwap key value expected ttl.toWire
  | .clear => clear

def withCall {β : Type} (operation : Operation) (use : {α : Type} → Call α → β) : β :=
  match operation with
  | set key value ttl => use (.set key value (.ofWire ttl))
  | get key => use (.get key)
  | getWithToken key => use (.getWithToken key)
  | delete key => use (.delete key)
  | compareAndSwap key value expected ttl =>
    use (.compareAndSwap key value expected (.ofWire ttl))
  | clear => use .clear

end Operation

inductive Request
  /-- An operation on the engine of the node itself. -/
  | plain (operation : Operation)
  | ping
  /-- An operation on all replicas of the key. -/
  | client (operation : Operation)
deriving DecidableEq

instance : Inhabited Request := ⟨.ping⟩

/-- The answer to a request that could be processed. -/
inductive Reply
  | stored (ok : Bool)
  | value (found : Option Value)
  | valueWithToken (found : Option (Value × Token))
  | deleted (ok : Bool)
  | swapped (ok : Bool)
  | cleared
  | pong
deriving DecidableEq

instance : Inhabited Reply := ⟨.pong⟩

inductive Response
  | reply (reply : Reply)
  | error (message : String)
deriving DecidableEq

instance : Inhabited Response := ⟨.reply .pong⟩

namespace Reply

def ofAnswer {α : Type} : Call α → α → Reply
  | .set _ _ _, ok => stored ok
  | .get _, found => value found
  | .getWithToken _, found => valueWithToken found
  | .delete _, ok => deleted ok
  | .compareAndSwap _ _ _ _, ok => swapped ok
  | .clear, () => cleared

/-- The answer to a call that a reply carries, if it is a reply to such a call. -/
def answer? {α : Type} : Call α → Reply → Option α
  | .set _ _ _, stored ok => some ok
  | .get _, value found => some found
  | .getWithToken _, valueWithToken found => some found
  | .delete _, deleted ok => some ok
  | .compareAndSwap _ _ _ _, swapped ok => some ok
  | .clear, cleared => some ()
  | _, _ => none

@[simp] theorem answer?_ofAnswer {α : Type} (call : Call α) (answer : α) :
    (ofAnswer call answer).answer? call = some answer := by
  cases call <;> rfl

/-- A byte of a value as text: itself if it is a printable ASCII character,
else an escape. -/
def byteText (b : UInt8) : List Char :=
  if b = 0 then ['\\', '0']
  else if b = 9 then ['\\', 't']
  else if b = 10 then ['\\', 'n']
  else if b = 13 then ['\\', 'r']
  else if b = 34 then ['\\', '"']
  else if b = 92 then ['\\', '\\']
  else if 32 ≤ b ∧ b < 127 then [Char.ofNat b.toNat]
  else ['\\', 'x', Nat.digitChar (b.toNat / 16), Nat.digitChar (b.toNat % 16)]

def valueText (v : Value) : String :=
  "b\"" ++ String.ofList (v.data.toList.flatMap byteText) ++ "\""

def optionText {α : Type} (text : α → String) : Option α → String
  | none => "None"
  | some a => "Some(" ++ text a ++ ")"

def boolText (ok : Bool) : String := if ok then "true" else "false"

def text : Reply → String
  | stored ok => "Stored(" ++ boolText ok ++ ")"
  | value found => "Value(" ++ optionText valueText found ++ ")"
  | valueWithToken found => "ValueWithToken(" ++
      optionText (fun (v, token) => "(" ++ valueText v ++ ", " ++ toString token ++ ")") found ++
      ")"
  | deleted ok => "Deleted(" ++ boolText ok ++ ")"
  | swapped ok => "Swapped(" ++ boolText ok ++ ")"
  | cleared => "Cleared"
  | pong => "Pong"

end Reply

end ReplicatedCache
