/-!
Generated code.

Code is a list of pieces. Most are plain text; a mapped piece also knows the block that it comes
from and the byte offset in that block where an editor should go.
-/

namespace BlockExports

/-- What an editor may do across the mapping of a piece. -/
structure Features where
  navigation : Bool
  deriving DecidableEq, Repr

inductive Code where
  | text (text : String)
  | mapped (text source : String) (offset : UInt32) (features : Features)
  deriving DecidableEq, Repr

namespace Code

/-- The text that a piece contributes. -/
def content : Code → String
  | text t => t
  | mapped t _ _ _ => t

def source (codes : List Code) : String := String.join (codes.map content)

@[simp] theorem source_append (codes more : List Code) :
    source (codes ++ more) = source codes ++ source more := by
  rw [source, List.map_append, String.join_append]
  rfl

theorem source_flatten (lists : List (List Code)) :
    source lists.flatten = String.join (lists.map source) := by
  induction lists with
  | nil => rfl
  | cons codes lists ih =>
      rw [List.flatten_cons, source_append, ih, List.map_cons, String.join_cons]

end Code

end BlockExports
