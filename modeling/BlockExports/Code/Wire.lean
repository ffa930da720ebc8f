import BlockExports.Code
import BlockExports.Json
import BlockExports.Text.Shown

/-!
The JSON form of generated code.

Plain text is a JSON string. A mapped piece is an array of its text, its source, its offset and its
features. Features are written as an object; an array of one flag is read as well.
-/

namespace BlockExports

/-- Why a JSON value is no list of code. -/
inductive WireFault where
  /-- the value is not an array but something of this description -/
  | notSequence (found : String)
  /-- an element is neither text nor a mapped piece -/
  | noVariant
  deriving DecidableEq, Repr

namespace WireFault

def message : WireFault → String
  | notSequence found => "invalid type: " ++ found ++ ", expected a sequence"
  | noVariant => "data did not match any variant of untagged enum Code"

end WireFault

namespace Code

/-- What a value is, in the words of a message. -/
def describe : Json → String
  | .null => "null"
  | .boolean b => "boolean `" ++ (if b then "true" else "false") ++ "`"
  | .integer i => "integer `" ++ toString i ++ "`"
  | .decimal d => "floating point `" ++ (d.floatText?).getD "inf" ++ "`"
  | .string s => "string " ++ Text.shown s
  | .array _ => "sequence"
  | .object _ => "map"

def features? : Json → Option Features
  | .object fields =>
    match Json.field? fields "navigation" with
    | some (.boolean b) => some ⟨b⟩
    | _ => none
  | .array [.boolean b] => some ⟨b⟩
  | _ => none

/-- Reads an offset: an integer that fits into 32 bits. -/
def offset? : Json → Option UInt32
  | .integer i => if 0 ≤ i ∧ i < 4294967296 then some (UInt32.ofNat i.toNat) else none
  | _ => none

def ofJson? : Json → Option Code
  | .string s => some (.text s)
  | .array [.string t, .string source, offset, features] => do
    pure (.mapped t source (← offset? offset) (← features? features))
  | _ => none

/-- Reads a list of pieces; one bad element spoils all. -/
def decode : Json → Except WireFault (List Code)
  | .array items =>
    match items.mapM ofJson? with
    | some codes => .ok codes
    | none => .error .noVariant
  | value => .error (.notSequence (describe value))

def toJson : Code → Json
  | text t => .string t
  | mapped t source offset features =>
    .array [.string t, .string source, .integer offset.toNat,
      .object [("navigation", .boolean features.navigation)]]

def encode (codes : List Code) : Json := .array (codes.map toJson)

end Code

end BlockExports
