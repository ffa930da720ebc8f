/-!
Characters: the room they take and the white space among them.

Lengths and places in a text are counted in bytes of its UTF-8 form, while the scanners walk over
its characters. `byteLength` joins the two. Markup ends a tag name at any character that Unicode calls
white space; PHP and TOML text know only the ASCII ones.
-/

namespace BlockExports.Text

/-- The number of bytes that a run of characters takes in UTF-8. -/
def byteLength : List Char → Nat
  | [] => 0
  | c :: cs => c.utf8Size + byteLength cs

@[simp] theorem byteLength_nil : byteLength [] = 0 := rfl

@[simp] theorem byteLength_cons (c : Char) (cs : List Char) :
    byteLength (c :: cs) = c.utf8Size + byteLength cs := rfl

@[simp] theorem byteLength_append (xs ys : List Char) :
    byteLength (xs ++ ys) = byteLength xs + byteLength ys := by
  induction xs with
  | nil => simp
  | cons c cs ih => simp [ih, Nat.add_assoc]

theorem byteLength_eq_zero {cs : List Char} : byteLength cs = 0 ↔ cs = [] := by
  cases cs with
  | nil => simp
  | cons c cs => simp; intro h; exact absurd h (Nat.ne_of_gt c.utf8Size_pos)

theorem length_le_byteLength (cs : List Char) : cs.length ≤ byteLength cs := by
  induction cs with
  | nil => simp
  | cons c cs ih =>
    have h := c.utf8Size_pos
    rw [List.length_cons, byteLength_cons]
    omega

/-- The characters of a text take as many bytes as the text. -/
theorem byteLength_toList (s : String) : byteLength s.toList = s.utf8ByteSize := by
  have h (cs : List Char) : byteLength cs = (String.ofList cs).utf8ByteSize := by
    induction cs with
    | nil => rfl
    | cons c cs ih =>
      rw [byteLength_cons, ih, ← List.singleton_append, String.ofList_append,
        String.utf8ByteSize_append]
      simp
  rw [h, String.ofList_toList]

/-- Space, tabulator, line feed, vertical tabulator, form feed and carriage return. -/
def isAsciiBlank (c : Char) : Bool :=
  c = ' ' || (9 ≤ c.toNat && c.toNat ≤ 13)

/-- The same without the vertical tabulator: the blanks inside of strings and documents. -/
def isTextBlank (c : Char) : Bool := isAsciiBlank c && c ≠ '\x0b'

/-- The characters with the Unicode property White_Space. -/
def isBlank (c : Char) : Bool :=
  isAsciiBlank c || c.toNat = 0x85 || c.toNat = 0xA0 || c.toNat = 0x1680
    || (0x2000 ≤ c.toNat && c.toNat ≤ 0x200A) || c.toNat = 0x2028 || c.toNat = 0x2029
    || c.toNat = 0x202F || c.toNat = 0x205F || c.toNat = 0x3000

end BlockExports.Text
