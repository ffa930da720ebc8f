import BlockExports.Code

/-!
Embedded code: the place that generated code goes to.

New pieces go to the end of the context type, an index into the pieces there are; without one they go
to the very end. The index moves along, so that later pieces land behind earlier ones.
-/

namespace BlockExports

structure Sink where
  id : String
  content : List Code
  /-- where new pieces go; it may lie beyond the end -/
  contextEnd : Option Nat
  deriving DecidableEq, Repr

namespace Sink

def ofId (id : String) : Sink := ⟨id, [], none⟩

def source (s : Sink) : String := Code.source s.content

/-- Puts pieces at the end of the context type. -/
def inject (s : Sink) (codes : List Code) : Sink :=
  match s.contextEnd with
  | some index =>
    let place := min index s.content.length
    { s with
      content := s.content.take place ++ codes ++ s.content.drop place
      contextEnd := some (place + codes.length) }
  | none => { s with content := s.content ++ codes }

end Sink

end BlockExports
