import GraphCodec.Options

/-!
# Options — reading JSON

Options are read from a JSON object, whose unknown keys are passed over, or from a JSON array that
gives them in order and may stop early. A known key may occur once, its value is `true` or
`false`, and nothing but blanks may follow the text. Values of unknown keys only have to be JSON.
-/

namespace GraphCodec.Json

def isBlank (c : Char) : Bool := c = ' ' || c = '\n' || c = '\t' || c = '\r'

def skipBlanks (cs : List Char) : List Char := cs.dropWhile isBlank

/-- One part of a string: a character, or a code unit given by its number. -/
inductive Piece
  | char (c : Char)
  | unit (n : Nat)

def hexDigit? (c : Char) : Option Nat :=
  if '0' ≤ c ∧ c ≤ '9' then some (c.toNat - '0'.toNat)
  else if 'a' ≤ c ∧ c ≤ 'f' then some (c.toNat - 'a'.toNat + 10)
  else if 'A' ≤ c ∧ c ≤ 'F' then some (c.toNat - 'A'.toNat + 10)
  else none

/-- The number that four digits in base sixteen stand for. -/
def hex4? (a b c d : Char) : Option Nat := do
  return [← hexDigit? a, ← hexDigit? b, ← hexDigit? c, ← hexDigit? d].foldl (· * 16 + ·) 0

/-- The character that a backslash makes of this letter. -/
def escape? : Char → Option Char
  | '"' => some '"'
  | '\\' => some '\\'
  | '/' => some '/'
  | 'b' => some '\x08'
  | 'f' => some '\x0c'
  | 'n' => some '\n'
  | 'r' => some '\r'
  | 't' => some '\t'
  | _ => none

/-- The parts of a string whose opening quote was taken, and what follows its closing quote. -/
def stringPieces : List Char → Option (List Piece × List Char)
  | [] => none
  | '"' :: rest => some ([], rest)
  | '\\' :: 'u' :: a :: b :: c :: d :: rest => do
    let n ← hex4? a b c d
    let (pieces, after) ← stringPieces rest
    return (.unit n :: pieces, after)
  | '\\' :: e :: rest => do
    let c ← escape? e
    let (pieces, after) ← stringPieces rest
    return (.char c :: pieces, after)
  | c :: rest =>
    if c < ' ' then none
    else do
      let (pieces, after) ← stringPieces rest
      return (.char c :: pieces, after)

/-- The characters of a string; a code unit for half a character needs its other half next. -/
def assemble : List Piece → Option (List Char)
  | [] => some []
  | .char c :: rest => (assemble rest).map (c :: ·)
  | .unit hi :: .unit lo :: rest =>
    if 0xd800 ≤ hi ∧ hi < 0xdc00 then
      if 0xdc00 ≤ lo ∧ lo < 0xe000 then
        (assemble rest).map (Char.ofNat (0x10000 + (hi - 0xd800) * 0x400 + (lo - 0xdc00)) :: ·)
      else none
    else if 0xdc00 ≤ hi ∧ hi < 0xe000 then none
    else (assemble (.unit lo :: rest)).map (Char.ofNat hi :: ·)
  | .unit n :: rest =>
    if 0xd800 ≤ n ∧ n < 0xe000 then none else (assemble rest).map (Char.ofNat n :: ·)

/-- Takes the exact text `word` off the front. -/
def word? : (word cs : List Char) → Option (List Char)
  | [], cs => some cs
  | w :: ws, c :: cs => if w = c then word? ws cs else none
  | _ :: _, [] => none

/-- Takes one digit or more off the front. -/
def digits? (cs : List Char) : Option (List Char) :=
  match cs with
  | c :: rest => if c.isDigit then some (rest.dropWhile Char.isDigit) else none
  | [] => none

/-- Takes an exponent off the front, if there is one. -/
def skipExponent (cs : List Char) : Option (List Char) :=
  match cs with
  | c :: rest =>
    if c = 'e' ∨ c = 'E' then
      match rest with
      | s :: rest' => if s = '+' ∨ s = '-' then digits? rest' else digits? rest
      | [] => none
    else some cs
  | [] => some cs

/-- Takes a number without its sign off the front. -/
def skipNumber (cs : List Char) : Option (List Char) := do
  let afterWhole ←
    match cs with
    | '0' :: rest =>
      match rest with
      | c :: _ => if c.isDigit then none else some rest
      | [] => some rest
    | _ => digits? cs
  match afterWhole with
  | '.' :: rest => skipExponent (← digits? rest)
  | _ => skipExponent afterWhole

mutual

/-- Takes one value off the front. -/
def skipValue : Nat → List Char → Option (List Char)
  | 0, _ => none
  | n + 1, cs =>
    match skipBlanks cs with
    | 'n' :: rest => word? ['u', 'l', 'l'] rest
    | 't' :: rest => word? ['r', 'u', 'e'] rest
    | 'f' :: rest => word? ['a', 'l', 's', 'e'] rest
    | '"' :: rest => (stringPieces rest).map Prod.snd
    | '[' :: rest =>
      match skipBlanks rest with
      | ']' :: after => some after
      | inside => skipElements n inside
    | '\x7b' :: rest =>
      match skipBlanks rest with
      | '\x7d' :: after => some after
      | inside => skipMembers n inside
    | '-' :: rest => skipNumber rest
    | other => skipNumber other

/-- Takes the elements of an array and its closing bracket off the front. -/
def skipElements : Nat → List Char → Option (List Char)
  | 0, _ => none
  | n + 1, cs =>
    match (skipValue n cs).map skipBlanks with
    | some (',' :: rest) => skipElements n rest
    | some (']' :: rest) => some rest
    | _ => none

/-- Takes the members of an object and its closing brace off the front. -/
def skipMembers : Nat → List Char → Option (List Char)
  | 0, _ => none
  | n + 1, cs =>
    match skipBlanks cs with
    | '"' :: rest =>
      match (stringPieces rest).map (fun p => skipBlanks p.2) with
      | some (':' :: value) =>
        match (skipValue n value).map skipBlanks with
        | some (',' :: more) => skipMembers n more
        | some ('\x7d' :: after) => some after
        | _ => none
      | _ => none
    | _ => none

end

/-- Takes a truth value off the front. -/
def bool? (cs : List Char) : Option (Bool × List Char) :=
  match skipBlanks cs with
  | 't' :: rest => (word? ['r', 'u', 'e'] rest).map (true, ·)
  | 'f' :: rest => (word? ['a', 'l', 's', 'e'] rest).map (false, ·)
  | _ => none

end GraphCodec.Json

namespace GraphCodec.FieldOptions

open Json

/-- Reads the elements of an array from place `place` on. -/
def ofElements :
    Nat → (place : Nat) → FieldOptions → List Char → Option (FieldOptions × List Char)
  | 0, _, _, _ => none
  | n + 1, place, o, cs => do
    if standard.entries.length ≤ place then none
    let (value, rest) ← bool? cs
    match skipBlanks rest with
    | ',' :: more => ofElements n (place + 1) (o.set place value) more
    | ']' :: after => return (o.set place value, after)
    | _ => none

/-- Reads the members of an object; `seen` holds the places of the known keys met so far. -/
def ofMembers : Nat → (seen : List Nat) → FieldOptions → List Char →
    Option (FieldOptions × List Char)
  | 0, _, _, _ => none
  | n + 1, seen, o, cs =>
    match skipBlanks cs with
    | '"' :: rest => do
      let (pieces, afterKey) ← stringPieces rest
      let key := String.ofList (← assemble pieces)
      let place := standard.entries.findIdx? fun e => e.1 = key
      if place.any seen.contains then none
      match skipBlanks afterKey with
      | ':' :: value => do
        let (o, afterValue) ←
          match place with
          | some i => (bool? value).map fun p => (o.set i p.1, p.2)
          | none => (skipValue (2 * value.length + 2) value).map fun after => (o, after)
        match skipBlanks afterValue with
        | ',' :: more => ofMembers n (place.toList ++ seen) o more
        | '\x7d' :: after => return (o, after)
        | _ => none
      | _ => none
    | _ => none

/-- The options that a JSON text gives; what it leaves out is as in the standard ones. -/
def ofJson? (text : String) : Option FieldOptions := do
  let cs := skipBlanks text.toList
  let (o, after) ←
    match cs with
    | '[' :: rest =>
      match skipBlanks rest with
      | ']' :: after => some (standard, after)
      | inside => ofElements (cs.length + 1) 0 standard inside
    | '\x7b' :: rest =>
      match skipBlanks rest with
      | '\x7d' :: after => some (standard, after)
      | inside => ofMembers (cs.length + 1) [] standard inside
    | _ => none
  if (skipBlanks after).isEmpty then some o else none

end GraphCodec.FieldOptions
