import BlockExports.Proofs.Exports.Listing

/-!
A small language of export scripts.

A script assigns literals to variables, names variables and exports them, one statement a line. The
lines are given as data that no malformed text can be made of, with their text (`Line.print`) and,
apart from any reading of that text, what they declare and export (`listing`).
-/

namespace BlockExports.Script

open Php Quote Text

/-- A letter or an underscore of ASCII, with such characters and digits behind it. -/
structure Identifier where
  letters : List Char
  starts : letters.head?.any startsPlainName = true
  continues : letters.all (fun c => startsPlainName c || c.isDigit) = true

/-- Text that may stand between single quotes as it is. -/
structure StringBody where
  chars : List Char
  quote : '\x27' ∉ chars
  backslash : '\\' ∉ chars

/-- A decimal number, without zeros in front. -/
structure Decimal where
  digits : List Char
  nonempty : digits ≠ []
  decimal : digits.all Char.isDigit = true
  leading : digits.head? = some '0' → digits.length = 1

inductive Value where
  | string (body : StringBody)
  | number (n : Decimal)
  | boolean (b : Bool)
  | null
  | emptyArray

inductive Line where
  | assignment (name : Identifier) (value : Value)
  | bare (name : Identifier)
  | exports (names : List Identifier)

/-! ### Text -/

/-- A variable with its dollar sign. -/
def Identifier.print (n : Identifier) : List Char := '$' :: n.letters

def Value.print : Value → List Char
  | string body => '\x27' :: body.chars ++ ['\x27']
  | number n => n.digits
  | boolean true => "true".toList
  | boolean false => "false".toList
  | null => "null".toList
  | emptyArray => "[]".toList

def Line.print : Line → List Char
  | assignment name value => name.print ++ [' ', '=', ' '] ++ value.print ++ [';', '\n']
  | bare name => name.print ++ [';', '\n']
  | exports names =>
    "export(".toList ++ [',', ' '].intercalate (names.map Identifier.print) ++ [')', ';', '\n']

theorem Line.print_assignment (name : Identifier) (value : Value) :
    (assignment name value).print = name.print ++ [' ', '=', ' '] ++ value.print ++ [';', '\n'] :=
  rfl

theorem Line.print_bare (name : Identifier) : (bare name).print = name.print ++ [';', '\n'] := rfl

theorem Line.print_exports (names : List Identifier) :
    (exports names).print =
      "export(".toList ++ [',', ' '].intercalate (names.map Identifier.print) ++
        [')', ';', '\n'] := rfl

/-- The text of a script. -/
def print (lines : List Line) : String := String.ofList (lines.flatMap Line.print)

/-! ### Meaning -/

def Identifier.name (n : Identifier) : String := String.ofList n.letters

def Value.type : Value → String
  | string _ => "string"
  | number _ => "number"
  | boolean _ => "boolean"
  | null => "null"
  | emptyArray => "unknown[]"

/-- What a line that starts at a byte offset binds. The variable comes first on its line. -/
def Line.declared? (offset : Nat) : Line → Option BindingEvent
  | assignment name value => some ⟨name.name, offset, value.type⟩
  | bare name => some ⟨name.name, offset, "unknown"⟩
  | exports _ => none

def Line.exported : Line → List String
  | exports names => names.map Identifier.name
  | _ => []

/-- What the lines bind, from a byte offset on. -/
def declared (offset : Nat) : List Line → List BindingEvent
  | [] => []
  | line :: lines =>
    (line.declared? offset).toList ++ declared (offset + byteLength line.print) lines

/-- What the lines export. -/
def exported (lines : List Line) : List String := lines.flatMap Line.exported

/-- The first binding of each name that is exported anywhere: the name, the byte offset of the name
behind its dollar sign, and the type. -/
def listing (lines : List Line) : List (String × Nat × String) :=
  ((BindingEvent.firsts (declared 0 lines)).filter (·.name ∈ exported lines)).map
    fun e => (e.name, e.start + 1, e.type)

/-! ### Characters -/

theorem Identifier.continuesName_of_mem (n : Identifier) :
    ∀ c ∈ n.letters, continuesName c = true := by
  intro c hc
  have hplain : (startsPlainName c || c.isDigit) = true := List.all_eq_true.mp n.continues c hc
  rw [startsPlainName, Bool.or_eq_true] at hplain
  rw [continuesName, startsName, Bool.or_eq_true]
  rcases hplain with hplain | hdigit
  · exact Or.inl (by rw [hplain, Bool.true_or])
  · exact Or.inr hdigit

theorem Identifier.exists_startsName (n : Identifier) :
    ∃ c letters, n.letters = c :: letters ∧ startsName c = true := by
  have hstarts := n.starts
  cases hletters : n.letters with
  | nil => simp [hletters] at hstarts
  | cons c letters =>
      rw [hletters, List.head?_cons, Option.any_some, startsPlainName] at hstarts
      exact ⟨c, letters, rfl, by simp [startsName, hstarts]⟩

theorem Identifier.name_ne_empty (n : Identifier) : n.name ≠ "" := by
  obtain ⟨c, letters, hletters, -⟩ := n.exists_startsName
  rw [name, hletters]
  simp

end BlockExports.Script
