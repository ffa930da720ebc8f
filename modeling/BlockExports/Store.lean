import BlockExports.Code

/-!
The store of generated code.

For each block of each file the store keeps the text it was asked about last and the code that was
generated last. Code is generated again only when the text differs. A block that was never asked
about counts as one with no text and no code.
-/

namespace BlockExports

structure Key where
  file : String
  block : String
  deriving DecidableEq, Repr

structure Entry where
  content : String
  codes : List Code
  deriving DecidableEq, Repr

namespace Entry

def blank : Entry := ⟨"", []⟩

end Entry

/-- The entries, each key at most once, in the order in which the keys came up. -/
structure Store where
  entries : List (Key × Entry)
  deriving DecidableEq, Repr

/-- The answer to a request: the text that code was generated from, if that was needed, and the
code, unless generating it broke off. -/
structure Response where
  computed : Option String
  codes : Option (List Code)
  deriving DecidableEq, Repr

namespace Store

def empty : Store := ⟨[]⟩

def size (s : Store) : Nat := s.entries.length

def get? (s : Store) (key : Key) : Option Entry := s.entries.lookup key

/-- Replaces the entry of a key in a list, or adds one at its end. -/
def put (key : Key) (entry : Entry) : List (Key × Entry) → List (Key × Entry)
  | [] => [(key, entry)]
  | (k, e) :: rest => if k = key then (key, entry) :: rest else (k, e) :: put key entry rest

def insert (s : Store) (key : Key) (entry : Entry) : Store := ⟨put key entry s.entries⟩

/-- Asks for the code of a block with a certain text. The text is noted before `compute` runs and the
code after it, so that a computation that breaks off, which is what `none` means, leaves the new text
with the old code. -/
def request (s : Store) (key : Key) (content : String)
    (compute : String → Option (List Code)) : Response × Store :=
  let entry := (s.get? key).getD .blank
  if entry.content = content then (⟨none, some entry.codes⟩, s.insert key entry)
  else
    let codes := compute content
    (⟨some content, codes⟩, s.insert key ⟨content, codes.getD entry.codes⟩)

def invalidate (s : Store) (file : String) : Store :=
  ⟨s.entries.filter (·.1.file ≠ file)⟩

def clear (_ : Store) : Store := empty

end Store

end BlockExports
