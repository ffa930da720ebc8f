import BlockExports.Text.Basic

/-!
Tags: their names, where an opening tag ends, and where the closing tag of a block stands.

All distances are counted in characters from the start of the text at hand.
-/

namespace BlockExports.Component

open Text

/-- The distance to the first occurrence of a text. -/
def find? (needle : List Char) : List Char → Option Nat
  | [] => if needle.isEmpty then some 0 else none
  | c :: cs => if needle.isPrefixOf (c :: cs) then some 0 else (find? needle cs).map (· + 1)

def isNameChar (c : Char) : Bool := c.isAlphanum || c = '-' || c = '_'

/-- The tag name at the start of a text: a letter, and the name characters behind it. -/
def tagName? (cs : List Char) : Option (List Char) :=
  let name := cs.takeWhile isNameChar
  if name.head?.any Char.isAlpha then some name else none

/-- The distance to just behind the angle that ends an opening tag. Within quotes, given by `quote`,
an angle does not count. -/
def tagEnd? : Option Char → List Char → Option Nat
  | _, [] => none
  | some q, c :: cs => (tagEnd? (if c = q then none else some q) cs).map (· + 1)
  | none, c :: cs =>
    if c = '>' then some 1
    else (tagEnd? (if c = '\x22' || c = '\x27' then some c else none) cs).map (· + 1)

/-- Whether the name of a tag ends here: at an angle, a slash, white space or the end of the text. -/
def atBoundary (cs : List Char) : Bool :=
  match cs with
  | [] => true
  | c :: _ => c = '>' || c = '/' || isBlank c

/-- How many times a tag opens in the first `room` characters of a text. Only whole tag names count,
and `skip` characters still belong to the occurrence before. -/
def openings (tag : List Char) : Nat → Nat → List Char → Nat
  | _, _, [] => 0
  | _, 0, _ => 0
  | skip + 1, room + 1, _ :: cs => openings tag skip room cs
  | 0, room + 1, c :: cs =>
    if tag.length ≤ room + 1 && tag.isPrefixOf (c :: cs) then
      (if atBoundary ((c :: cs).drop tag.length) then 1 else 0)
        + openings tag (tag.length - 1) room cs
    else openings tag 0 room cs

/-- The one kind of block that may hold blocks of its own kind. -/
def nestingName : List Char := "template".toList

/-- Looks for the closing tag of a block from the place `here` on, jumping from one closing tag to
the next. `depth` counts the inner blocks that are still open, and `skip` characters were dealt with
already. The result is the place where the block's content ends and the place behind the closing
tag. -/
def closingFrom? (name : List Char) (depth here : Nat) : Nat → List Char → Option (Nat × Nat)
  | _, [] => none
  | skip + 1, _ :: cs => closingFrom? name depth (here + 1) skip cs
  | 0, c :: cs =>
    match find? ('<' :: '/' :: name) (c :: cs) with
    | none => none
    | some content =>
      let inner :=
        if name = nestingName then depth + openings ('<' :: name) 0 content (c :: cs) else depth
      let behind := content + 2 + name.length
      if atBoundary ((c :: cs).drop behind) then
        match find? ['>'] ((c :: cs).drop behind) with
        | none => none
        | some distance =>
          let stop := behind + distance + 1
          match inner with
          | 0 => some (here + content, here + stop)
          | depth + 1 => closingFrom? name depth (here + 1) (stop - 1) cs
      else closingFrom? name inner (here + 1) (behind - 1) cs

/-- The closing tag of a block, from the start of the block's content. -/
def closing? (name cs : List Char) : Option (Nat × Nat) := closingFrom? name 0 0 0 cs

end BlockExports.Component
