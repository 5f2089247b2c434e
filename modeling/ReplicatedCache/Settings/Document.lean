/-! # Settings documents

The JSON notation in which a settings file is written. A document keeps only
what settings can be made of: of a number, whether it is written as a natural
number, and which; of a text, what it says, unless it says something that is
not text, namely half of a surrogate pair.
-/

namespace ReplicatedCache.Settings

inductive Document
  | null
  | bool (value : Bool)
  | number (natural : Option Nat)
  | text (content : Option String)
  | list (items : List Document)
  | record (fields : List (Option String × Document))
deriving Inhabited

namespace Document

def isBlank (c : Char) : Bool := c = ' ' || c = '\n' || c = '\t' || c = '\r'

def skipBlank (input : List Char) : List Char := input.dropWhile isBlank

/-! ## Texts -/

/-- A piece of a text: a character, or a UTF-16 unit written as an escape. -/
inductive Piece
  | char (c : Char)
  | unit (n : Nat)

def hexDigit? (c : Char) : Option Nat :=
  if c.isDigit then some (c.toNat - '0'.toNat)
  else if 'a' ≤ c ∧ c ≤ 'f' then some (c.toNat - 'a'.toNat + 10)
  else if 'A' ≤ c ∧ c ≤ 'F' then some (c.toNat - 'A'.toNat + 10)
  else none

def hexNumber? (digits : List Char) : Option Nat :=
  digits.foldlM (fun n c => (hexDigit? c).map (16 * n + ·)) 0

/-- The character that a one-letter escape stands for. -/
def escape? : Char → Option Char
  | '"' => some '"'
  | '\\' => some '\\'
  | '/' => some '/'
  | 'b' => some '\x08'
  | 'f' => some '\x0c'
  | 'n' => some '\n'
  | 'r' => some '\r'
  | 't' => some '\t'
  | _ => none

/-- Reads the rest of a text, up to the closing quote. -/
def pieces : List Char → Option (List Piece × List Char)
  | [] => none
  | '"' :: rest => some ([], rest)
  | '\\' :: 'u' :: a :: b :: c :: d :: rest => do
    let n ← hexNumber? [a, b, c, d]
    let (others, rest) ← pieces rest
    pure (.unit n :: others, rest)
  | '\\' :: letter :: rest => do
    let c ← escape? letter
    let (others, rest) ← pieces rest
    pure (.char c :: others, rest)
  | c :: rest => do
    -- control characters must be escaped
    guard (32 ≤ c.toNat)
    let (others, rest) ← pieces rest
    pure (.char c :: others, rest)

def isHigh (n : Nat) : Bool := decide (0xD800 ≤ n) && decide (n < 0xDC00)

def isLow (n : Nat) : Bool := decide (0xDC00 ≤ n) && decide (n < 0xE000)

/-- The characters that some pieces spell, if they spell characters. -/
def spell : List Piece → Option (List Char)
  | [] => some []
  | .char c :: rest => (spell rest).map (c :: ·)
  | .unit high :: .unit low :: rest =>
    if isHigh high then
      if isLow low then
        (spell rest).map (Char.ofNat (0x10000 + (high - 0xD800) * 1024 + (low - 0xDC00)) :: ·)
      else none
    else if isLow high then none
    else (spell (.unit low :: rest)).map (Char.ofNat high :: ·)
  | .unit n :: rest =>
    if isHigh n || isLow n then none else (spell rest).map (Char.ofNat n :: ·)

def textRest (input : List Char) : Option (Option String × List Char) := do
  let (found, rest) ← pieces input
  pure ((spell found).map String.ofList, rest)

/-! ## Numbers -/

/-- Splits the digits off the front; there must be some. -/
def digits? (input : List Char) : Option (List Char × List Char) :=
  let digits := input.takeWhile Char.isDigit
  if digits.isEmpty then none else some (digits, input.dropWhile Char.isDigit)

def skipFraction : List Char → Option (Bool × List Char)
  | '.' :: rest => do
    let (_, rest) ← digits? rest
    pure (true, rest)
  | input => some (false, input)

def skipSign : List Char → List Char
  | '+' :: rest => rest
  | '-' :: rest => rest
  | input => input

def skipExponent : List Char → Option (Bool × List Char)
  | 'e' :: rest => do
    let (_, rest) ← digits? (skipSign rest)
    pure (true, rest)
  | 'E' :: rest => do
    let (_, rest) ← digits? (skipSign rest)
    pure (true, rest)
  | input => some (false, input)

/-- Reads a number and which natural number it is, if it is written as one. -/
def numeral (input : List Char) : Option (Option Nat × List Char) := do
  let negative := input.head? = some '-'
  let (digits, rest) ← digits? (if negative then input.drop 1 else input)
  -- no leading zeros
  guard (digits.length = 1 ∨ digits.head? ≠ some '0')
  let (hasFraction, rest) ← skipFraction rest
  let (hasExponent, rest) ← skipExponent rest
  let natural := !negative && !hasFraction && !hasExponent
  let n := digits.foldl (fun n c => 10 * n + (c.toNat - '0'.toNat)) 0
  pure (if natural then some n else none, rest)

/-! ## Documents -/

mutual

/-- Reads a document off the front, nested at most `fuel` deep. -/
def read : (fuel : Nat) → List Char → Option (Document × List Char)
  | 0, _ => none
  | fuel + 1, input =>
    match skipBlank input with
    | 'n' :: 'u' :: 'l' :: 'l' :: rest => some (null, rest)
    | 't' :: 'r' :: 'u' :: 'e' :: rest => some (bool true, rest)
    | 'f' :: 'a' :: 'l' :: 's' :: 'e' :: rest => some (bool false, rest)
    | '"' :: rest => (textRest rest).map fun (content, rest) => (text content, rest)
    | '[' :: rest =>
      match skipBlank rest with
      | ']' :: rest => some (list [], rest)
      | _ => (readItems fuel rest).map fun (items, rest) => (list items, rest)
    | '\x7b' :: rest =>
      match skipBlank rest with
      | '\x7d' :: rest => some (record [], rest)
      | _ => (readFields fuel rest).map fun (fields, rest) => (record fields, rest)
    | rest => (numeral rest).map fun (natural, rest) => (number natural, rest)

def readItems : (fuel : Nat) → List Char → Option (List Document × List Char)
  | 0, _ => none
  | fuel + 1, input => do
    let (item, rest) ← read fuel input
    match skipBlank rest with
    | ']' :: rest => pure ([item], rest)
    | ',' :: rest => do
      let (items, rest) ← readItems fuel rest
      pure (item :: items, rest)
    | _ => none

def readFields : (fuel : Nat) → List Char → Option (List (Option String × Document) × List Char)
  | 0, _ => none
  | fuel + 1, input => do
    match skipBlank input with
    | '"' :: rest =>
      let (name, rest) ← textRest rest
      match skipBlank rest with
      | ':' :: rest =>
        let (item, rest) ← read fuel rest
        match skipBlank rest with
        | '\x7d' :: rest => pure ([(name, item)], rest)
        | ',' :: rest => do
          let (fields, rest) ← readFields fuel rest
          pure ((name, item) :: fields, rest)
        | _ => none
      | _ => none
    | _ => none

end

/-- Reads a whole text as a document. Every level of nesting takes a character,
so that nesting is never too deep. -/
def parse? (content : String) : Option Document :=
  let input := content.toList
  match read (2 * input.length + 2) input with
  | some (document, rest) => if (skipBlank rest).isEmpty then some document else none
  | none => none

end Document

end ReplicatedCache.Settings
