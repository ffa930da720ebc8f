import BlockExports.Text.Basic
import BlockExports.Component.Tag

/-!
Single-file components and their blocks.

A component file is a sequence of top-level blocks. The blocks for the template, the script and the
style are known to everybody; all others are custom and are numbered in the order of the file. What
a block holds is raw text.
-/

namespace BlockExports

open Text

/-- A custom block: its name, the tag that it is written with, its text, and the byte offset of the
text in the file. -/
structure Block where
  name : String
  type : String
  content : String
  start : Nat
  deriving DecidableEq, Repr

/-- The parts of a component that matter here. -/
structure Component where
  blocks : List Block
  deriving DecidableEq, Repr

namespace Component

/-- The blocks that are not custom. -/
def standardTags : List (List Char) :=
  ["template".toList, "script".toList, "style".toList]

/-- What a scan finds at an angle, measured in characters from the angle on. -/
inductive Markup where
  /-- a comment, a tag that closes itself, or an angle that opens nothing -/
  | passed (length : Nat)
  /-- a block: where its content starts and stops, and where the whole block stops -/
  | element (tag : List Char) (content stop length : Nat)
  deriving DecidableEq, Repr

/-- What stands at an angle; `none` when it is never finished. -/
def markup? (cs : List Char) : Option Markup :=
  if "<!--".toList.isPrefixOf cs then (find? "-->".toList cs).map (.passed <| · + 3)
  else
    match tagName? (cs.drop 1) with
    | none => some (.passed 1)
    | some name =>
      match tagEnd? none (cs.drop (1 + name.length)) with
      | none => none
      | some distance =>
        let content := 1 + name.length + distance
        if "/>".toList.isSuffixOf (cs.take content) then some (.passed content)
        else
          (closing? name (cs.drop content)).map fun (stop, length) =>
            .element name content (content + stop) (content + length)

def blockName (index : Nat) : String := "customBlock_" ++ toString index

/-- The custom blocks of a text that starts at a byte offset, numbered from `index` on; `skip`
characters were dealt with already. -/
def blocksFrom (offset index : Nat) : Nat → List Char → List Block
  | _, [] => []
  | skip + 1, c :: cs => blocksFrom (offset + c.utf8Size) index skip cs
  | 0, c :: cs =>
    if c = '<' then
      match markup? (c :: cs) with
      | none => []
      | some (.passed length) => blocksFrom (offset + c.utf8Size) index (length - 1) cs
      | some (.element tag content stop length) =>
        if standardTags.contains tag then
          blocksFrom (offset + c.utf8Size) index (length - 1) cs
        else
          { name := blockName index
            type := String.ofList tag
            content := String.ofList (((c :: cs).take stop).drop content)
            start := offset + byteLength ((c :: cs).take content) }
            :: blocksFrom (offset + c.utf8Size) (index + 1) (length - 1) cs
    else blocksFrom (offset + c.utf8Size) index 0 cs

def scan (text : String) : Component := ⟨blocksFrom 0 0 0 text.toList⟩

end Component

end BlockExports
