/-!
Texts as the system hands them over.

The name of a file and an argument of a command are runs of bytes. Nearly all of them are UTF-8, and
so texts. The others can still be shown, with a replacement for each piece that is no character: the
longest one that a character could start with, or else a single byte. Only characters of ASCII are
looked for in them, whose bytes are part of no other character.
-/

namespace BlockExports

namespace Text

/-- A character of which some bytes have been read. The next byte has to lie within bounds. -/
structure Unfinished where
  bits : Nat
  owed : Nat
  least : UInt8
  greatest : UInt8
  deriving DecidableEq, Repr

def Unfinished.ofFirst? (b : UInt8) : Option Unfinished :=
  if b ≤ 0x7F then some ⟨b.toNat, 0, 0x80, 0xBF⟩
  else if b < 0xC2 then none
  else if b ≤ 0xDF then some ⟨b.toNat % 32, 1, 0x80, 0xBF⟩
  else if b = 0xE0 then some ⟨0, 2, 0xA0, 0xBF⟩
  -- the code points from D800 to DFFF are no characters
  else if b = 0xED then some ⟨13, 2, 0x80, 0x9F⟩
  else if b ≤ 0xEF then some ⟨b.toNat % 16, 2, 0x80, 0xBF⟩
  else if b = 0xF0 then some ⟨0, 3, 0x90, 0xBF⟩
  else if b ≤ 0xF3 then some ⟨b.toNat % 8, 3, 0x80, 0xBF⟩
  else if b = 0xF4 then some ⟨4, 3, 0x80, 0x8F⟩
  else none

def Unfinished.add (u : Unfinished) (b : UInt8) : Unfinished :=
  ⟨64 * u.bits + b.toNat % 64, u.owed - 1, 0x80, 0xBF⟩

/-- What stands for bytes that are no character. -/
def replacement : Char := '\uFFFD'

/-- The characters that a byte completes, and the one that it leaves unfinished. -/
def decodeByte (pending : Option Unfinished) (b : UInt8) : List Char × Option Unfinished :=
  match pending with
  | none => ofFirst [] b
  | some u => if u.least ≤ b ∧ b ≤ u.greatest then settle [] (u.add b) else ofFirst [replacement] b
where
  settle (done : List Char) (u : Unfinished) : List Char × Option Unfinished :=
    if u.owed = 0 then (done ++ [Char.ofNat u.bits], none) else (done, some u)
  ofFirst (done : List Char) (b : UInt8) : List Char × Option Unfinished :=
    match Unfinished.ofFirst? b with
    | none => (done ++ [replacement], none)
    | some u => settle done u

def decodeFrom (pending : Option Unfinished) : List UInt8 → List Char
  | [] => if pending.isSome then [replacement] else []
  | b :: bs =>
    let (done, pending) := decodeByte pending b
    done ++ decodeFrom pending bs

def decode (bytes : List UInt8) : String := String.ofList (decodeFrom none bytes)

end Text

/-- A text from the system. -/
inductive RawText where
  | text (s : String)
  /-- bytes that are no UTF-8 -/
  | bytes (b : ByteArray) (h : ¬b.IsValidUTF8)

namespace RawText

instance : DecidableEq RawText
  | text s, text t => decidable_of_iff (s = t) (by simp)
  | bytes b _, bytes c _ => decidable_of_iff (b.data = c.data) (by simp [ByteArray.ext_iff])
  | text _, bytes _ _ => isFalse (by simp)
  | bytes _ _, text _ => isFalse (by simp)

instance : Coe String RawText := ⟨text⟩

def ofBytes (b : ByteArray) : RawText :=
  if h : b.IsValidUTF8 then .text (.ofByteArray b h) else .bytes b h

def ofByteList (bytes : List UInt8) : RawText := ofBytes ⟨bytes.toArray⟩

def text? : RawText → Option String
  | text s => some s
  | bytes _ _ => none

def shown : RawText → String
  | text s => s
  | bytes b _ => Text.decode b.data.toList

def startsWith (c : Char) : RawText → Bool
  | text s => s.toList.head? = some c
  | bytes b _ => b.data.toList.head? = some c.toUInt8

def endsWith (c : Char) : RawText → Bool
  | text s => s.toList.getLast? = some c
  | bytes b _ => b.data.toList.getLast? = some c.toUInt8

def add : RawText → String → RawText
  | text s, more => .text (s ++ more)
  | bytes b _, more => .ofBytes (b ++ more.toByteArray)

/-- What stands in front of the first of some items that are equal, and what behind it. -/
def cutList {α : Type} [DecidableEq α] (item : α) (items : List α) : List α × Option (List α) :=
  let front := items.takeWhile (· ≠ item)
  match items.drop front.length with
  | [] => (items, none)
  | _ :: behind => (front, some behind)

def cut (c : Char) : RawText → RawText × Option RawText
  | text s =>
    let (front, behind) := cutList c s.toList
    (.text (.ofList front), behind.map fun cs => .text (.ofList cs))
  | bytes b _ =>
    let (front, behind) := cutList c.toUInt8 b.data.toList
    (.ofByteList front, behind.map .ofByteList)

/-- The parts of a list between the items that are equal to one; there is always at least one part. -/
def splitList {α : Type} [DecidableEq α] (item : α) : List α → List (List α)
  | [] => [[]]
  | a :: items =>
    if a = item then [] :: splitList item items
    else
      match splitList item items with
      | [] => [[a]]
      | part :: rest => (a :: part) :: rest

def split (c : Char) : RawText → List RawText
  | text s => (splitList c s.toList).map fun cs => .text (.ofList cs)
  | bytes b _ => (splitList c.toUInt8 b.data.toList).map .ofByteList

end RawText

end BlockExports
