import GraphCodec.Text.Printable

/-!
# Text — what is shown for inspection

`quoted s` writes `s` between double quotes for a reader to inspect. The quote, the backslash and
the usual blanks have two-character escapes; every other character that is not printable is
written as its code point in hexadecimal between braces.

Other values are shown as `Name { field: value, .. }`, `Name(value, ..)`, `[a, b]` and `None` or
`Some(x)`. These four shapes are the only ones used.
-/

namespace GraphCodec.Text

/-! ## Quoted strings -/

/-- The digits of `n` in base sixteen, in lower case and without leading zeros. -/
def hex (n : Nat) : String := String.ofList (Nat.toDigits 16 n)

/-- How one character stands inside a quoted string. -/
def escaped (c : Char) : String :=
  if c = '"' then "\\\""
  else if c = '\\' then "\\\\"
  else if c = '\n' then "\\n"
  else if c = '\t' then "\\t"
  else if c = '\r' then "\\r"
  else if c.toNat = 0 then "\\0"
  else if isPrintable c then String.singleton c
  else "\\u\x7b" ++ hex c.toNat ++ "\x7d"

/-- A string between double quotes, every character of it escaped as it needs. -/
def quoted (s : String) : String :=
  "\"" ++ String.join (s.toList.map escaped) ++ "\""

/-! ## Records, tuples and lists -/

/-- Fields shown one after the other, separated by commas. -/
def commaSeparated (parts : List String) : String := ", ".intercalate parts

/-- A named record; one without fields is just its name. -/
def record (name : String) (fields : List (String × String)) : String :=
  if fields.isEmpty then name
  else name ++ " \x7b " ++ commaSeparated (fields.map fun f => f.1 ++ ": " ++ f.2) ++ " \x7d"

/-- A named record that shows only some of its fields. -/
def abridgedRecord (name : String) (fields : List (String × String)) : String :=
  name ++ " \x7b " ++ commaSeparated (fields.map (fun f => f.1 ++ ": " ++ f.2) ++ [".."]) ++ " \x7d"

/-- A named value with positional parts. -/
def tuple (name : String) (parts : List String) : String :=
  name ++ "(" ++ commaSeparated parts ++ ")"

def list (parts : List String) : String := "[" ++ commaSeparated parts ++ "]"

def option (value : Option String) : String :=
  match value with
  | none => "None"
  | some text => tuple "Some" [text]

def bool (b : Bool) : String := if b then "true" else "false"

end GraphCodec.Text
