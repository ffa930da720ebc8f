import BlockExports.Text.Decimal

/-!
JSON values, and the indented form in which they are printed.
-/

namespace BlockExports

open Text

/-- A JSON value. A number written with a fraction or an exponent is kept apart from an integer, and
the fields of an object keep their order. -/
inductive Json where
  | null
  | boolean (b : Bool)
  | integer (i : Int)
  | decimal (d : Decimal)
  | string (s : String)
  | array (items : List Json)
  | object (fields : List (String × Json))
  deriving Repr

namespace Json

def field? (fields : List (String × Json)) (name : String) : Option Json :=
  (fields.reverse.find? (·.1 = name)).map (·.2)

/-- A character inside of a JSON string. Control characters have short names or are written by their
number; everything else stands for itself. -/
def escape (c : Char) : List Char :=
  if c = '\x22' then ['\\', '\x22']
  else if c = '\\' then ['\\', '\\']
  else if c = '\n' then ['\\', 'n']
  else if c = '\r' then ['\\', 'r']
  else if c = '\t' then ['\\', 't']
  else if c.toNat = 8 then ['\\', 'b']
  else if c.toNat = 12 then ['\\', 'f']
  else if c.toNat < 32 then
    ['\\', 'u', '0', '0', Nat.digitChar (c.toNat / 16), Nat.digitChar (c.toNat % 16)]
  else [c]

def quoted (s : String) : String :=
  String.ofList ('\x22' :: s.toList.flatMap escape ++ ['\x22'])

def newline (depth : Nat) : String := "\n" ++ String.ofList (List.replicate (2 * depth) ' ')

mutual

/-- The indented form of a value that stands at a depth. -/
def prettyAt (depth : Nat) : Json → String
  | null => "null"
  | boolean b => if b then "true" else "false"
  | integer i => toString i
  | decimal d => (d.floatText?).getD "null"
  | string s => quoted s
  | array [] => "[]"
  | array (item :: items) =>
    "[" ++ newline (depth + 1) ++ prettyAt (depth + 1) item ++ prettyItems (depth + 1) items
      ++ newline depth ++ "]"
  | object [] => "\x7b\x7d"
  | object ((name, value) :: fields) =>
    "\x7b" ++ newline (depth + 1) ++ quoted name ++ ": " ++ prettyAt (depth + 1) value
      ++ prettyFields (depth + 1) fields ++ newline depth ++ "\x7d"

def prettyItems (depth : Nat) : List Json → String
  | [] => ""
  | item :: items => "," ++ newline depth ++ prettyAt depth item ++ prettyItems depth items

def prettyFields (depth : Nat) : List (String × Json) → String
  | [] => ""
  | (name, value) :: fields =>
    "," ++ newline depth ++ quoted name ++ ": " ++ prettyAt depth value
      ++ prettyFields depth fields

end

def pretty (value : Json) : String := value.prettyAt 0

end Json

end BlockExports
