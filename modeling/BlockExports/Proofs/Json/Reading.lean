import BlockExports.Json.Reader

/-!
What is printed is read back.

The indented form of a value, with any blanks behind it, is read as the value (`read?_pretty`). Only
decimals are left out: they are printed as the floats nearest to them. Every reader is followed along
the form that it reads, with any text behind it. The limit of the readers is measured by the length of
the form, since each item and each field takes room of its own.
-/

namespace BlockExports.Json

/-! ### Blanks -/

theorem skipBlank_cons {c : Char} (h : isBlank c = false) (cs : List Char) :
    skipBlank (c :: cs) = c :: cs := by
  simp [skipBlank, h]

theorem skipBlank_blank {c : Char} (h : isBlank c = true) (cs : List Char) :
    skipBlank (c :: cs) = skipBlank cs := by
  simp [skipBlank, h]

theorem newline_toList (depth : Nat) :
    (newline depth).toList = '\n' :: List.replicate (2 * depth) ' ' := by
  simp [newline]

theorem skipBlank_newline (depth : Nat) (cs : List Char) :
    skipBlank ((newline depth).toList ++ cs) = skipBlank cs := by
  have hspaces (n : Nat) : skipBlank (List.replicate n ' ' ++ cs) = skipBlank cs := by
    induction n with
    | zero => rfl
    | succ n ih => exact (skipBlank_blank rfl _).trans ih
  rw [newline_toList]
  exact (skipBlank_blank rfl _).trans (hspaces _)

/-! ### Strings -/

theorem hexValue?_digitChar : ∀ n < 16, hexValue? (Nat.digitChar n) = some n := by decide

section

variable (seen rest : List Char)

theorem readString_unescape {c d : Char} (h : unescape? c = some d) :
    readString seen ('\\' :: c :: rest) = readString (d :: seen) rest := by
  have hu : c ≠ 'u' := by
    rintro rfl
    simp [unescape?] at h
  rw [readString.eq_def]
  simp [hu, h]

theorem readString_unit {n : Nat} (h : n < 32) :
    readString seen ('\\' :: 'u' :: '0' :: '0' :: Nat.digitChar (n / 16) ::
      Nat.digitChar (n % 16) :: rest) = readString (Char.ofNat n :: seen) rest := by
  have hunit : unit? '0' '0' (Nat.digitChar (n / 16)) (Nat.digitChar (n % 16)) = some n := by
    rw [unit?, hexValue?_digitChar _ (by omega), hexValue?_digitChar _ (by omega)]
    show some (((0 * 16 + 0) * 16 + n / 16) * 16 + n % 16) = some n
    congr
    omega
  have hlow : (n < 0xD800 || 0xDFFF < n) = true := by
    simp
    omega
  rw [readString.eq_def]
  simp only [hunit, hlow, if_true]

theorem readString_plain {c : Char} (hquote : c ≠ '\x22') (hslash : c ≠ '\\')
    (hcontrol : 32 ≤ c.toNat) : readString seen (c :: rest) = readString (c :: seen) rest := by
  rw [readString.eq_def]
  split
  · next h => exact absurd (List.cons.inj h).1 hquote
  · next h => exact absurd (List.cons.inj h).1 hslash
  · next h => exact absurd (List.cons.inj h).1 hslash
  · next h =>
    obtain ⟨rfl, rfl⟩ := List.cons.inj h
    rw [if_neg (by simp [hslash, hcontrol])]
  · next h => cases h

theorem readString_escape (c : Char) :
    readString seen (escape c ++ rest) = readString (c :: seen) rest := by
  have hletter {a d : Char} (ha : unescape? a = some d) (hc : c = d) :
      readString seen ('\\' :: a :: rest) = readString (c :: seen) rest := by
    rw [hc, readString_unescape seen rest ha]
  have hnumber {n : Nat} (h : c.toNat = n) : c = Char.ofNat n := by
    rw [← h, Char.ofNat_toNat]
  rw [escape]
  split
  · exact hletter rfl ‹_›
  split
  · exact hletter rfl ‹_›
  split
  · exact hletter rfl ‹_›
  split
  · exact hletter rfl ‹_›
  split
  · exact hletter rfl ‹_›
  split
  · exact hletter rfl (hnumber ‹_›)
  split
  · exact hletter rfl (hnumber ‹_›)
  split
  · next h =>
    have := readString_unit seen rest h
    rwa [Char.ofNat_toNat] at this
  · exact readString_plain seen rest ‹_› ‹_› (by omega)

end

theorem quoted_toList (s : String) :
    (quoted s).toList = '\x22' :: (s.toList.flatMap escape ++ ['\x22']) := by
  rw [quoted, String.toList_ofList]
  rfl

theorem readString_quoted (s : String) (rest : List Char) :
    readString [] (s.toList.flatMap escape ++ '\x22' :: rest) = some (s, rest) := by
  have h (cs seen : List Char) : readString seen (cs.flatMap escape ++ '\x22' :: rest) =
      some (String.ofList (seen.reverse ++ cs), rest) := by
    induction cs generalizing seen with
    | nil => simp [readString]
    | cons c cs ih =>
        rw [List.flatMap_cons, List.append_assoc, readString_escape, ih]
        simp
  simpa using h s.toList []

/-! ### Integers -/

/-- What may stand behind an integer: nothing that could be part of a number. -/
def EndsNumber (rest : List Char) : Prop :=
  ∀ c ∈ rest.head?, c.isDigit = false ∧ c ≠ '.' ∧ c ≠ 'e' ∧ c ≠ 'E'

theorem takeWhile_dropWhile_append {p : Char → Bool} {ds rest : List Char}
    (hds : ∀ c ∈ ds, p c = true)
    (hrest : ∀ c ∈ rest.head?, p c = false) :
    (ds ++ rest).takeWhile p = ds ∧ (ds ++ rest).dropWhile p = rest := by
  have hnone : rest.takeWhile p = [] ∧ rest.dropWhile p = rest := by
    cases rest with
    | nil => simp
    | cons c rest => simp [hrest c (by simp)]
  rw [List.takeWhile_append_of_pos hds, List.dropWhile_append_of_pos hds, hnone.1, hnone.2]
  simp

theorem readDigits_toDigits (n : Nat) {rest : List Char}
    (hrest : ∀ c ∈ rest.head?, c.isDigit = false) :
    readDigits (Nat.toDigits 10 n ++ rest) = some (Nat.toDigits 10 n, rest) := by
  have hdigits : ∀ c ∈ Nat.toDigits 10 n, c.isDigit = true := fun c hc =>
    Nat.isDigit_of_mem_toDigits (by omega) (by omega) hc
  obtain ⟨htake, hdrop⟩ := takeWhile_dropWhile_append hdigits hrest
  rw [readDigits, htake, hdrop]
  split
  · next h => exact absurd h Nat.toDigits_ne_nil
  · rfl

/-- The digits of a number start with a zero only if they are nothing else. -/
theorem head?_toDigits {n : Nat} (h : 0 < n) : (Nat.toDigits 10 n).head? ≠ some '0' := by
  induction n using Nat.strongRecOn with
  | _ n ih =>
    rcases Nat.lt_or_ge n 10 with hlt | hge
    · have hdigit : ∀ n < 10, 0 < n → Nat.digitChar n ≠ '0' := by decide
      rw [Nat.toDigits_of_lt_base hlt]
      simpa using hdigit n hlt h
    · have hhead := ih (n / 10) (by omega) (by omega)
      rw [Nat.toDigits_of_base_le (by omega) hge, List.head?_append]
      cases hfirst : (Nat.toDigits 10 (n / 10)).head? with
      | none => exact absurd (List.head?_eq_none_iff.mp hfirst) Nat.toDigits_ne_nil
      | some c => simpa [hfirst] using hhead

theorem readUnsigned_toDigits (negative : Bool) (n : Nat) {rest : List Char}
    (hrest : EndsNumber rest) :
    readUnsigned negative (Nat.toDigits 10 n ++ rest) =
      some (number negative (Nat.toDigits 10 n) none none, rest) := by
  have hzero : ¬((Nat.toDigits 10 n).head? = some '0' && (Nat.toDigits 10 n).length ≠ 1) = true := by
    rcases Nat.eq_zero_or_pos n with rfl | hn
    · simp [Nat.toDigits_zero]
    · simp [head?_toDigits hn]
  have hfraction : readFraction rest = some (none, rest) := by
    cases rest with
    | nil => rfl
    | cons c rest =>
      have := hrest c rfl
      rw [readFraction.eq_def]
      split
      · next h => simp_all
      · rfl
  have hexponent : readExponent rest = some (none, rest) := by
    cases rest with
    | nil => rfl
    | cons c rest =>
      obtain ⟨-, -, he, hE⟩ := hrest c rfl
      rw [readExponent.eq_def]
      simp [he, hE]
  rw [readUnsigned, readDigits_toDigits n fun c hc => (hrest c hc).1]
  simp only [Option.bind_eq_bind, Option.bind_some, if_neg hzero, hfraction, hexponent]
  rfl

theorem natOf_toDigits (n : Nat) : natOf (Nat.toDigits 10 n) = n :=
  Nat.ofDigitChars_ten_toDigits

theorem toString_toList (i : Int) :
    (toString i).toList =
      if 0 ≤ i then Nat.toDigits 10 i.toNat else '-' :: Nat.toDigits 10 (-i).toNat := by
  show i.repr.toList = _
  rw [Int.repr_eq_if]
  split
  · rw [Nat.repr_eq_ofList_toDigits, String.toList_ofList]
  · rw [Nat.repr_eq_ofList_toDigits, String.toList_append, String.toList_ofList]
    simp

theorem readValue_of_digit {c : Char} (hc : c.isDigit = true) (limit : Nat) (cs : List Char) :
    readValue (limit + 1) (c :: cs) = readUnsigned false (c :: cs) := by
  have hne {d : Char} (hd : d.isDigit = false) : c ≠ d := by
    rintro rfl
    rw [hc] at hd
    cases hd
  have hblank : isBlank c = false := by
    simp [isBlank, hne (d := ' ') rfl, hne (d := '\t') rfl, hne (d := '\n') rfl, hne (d := '\r') rfl]
  rw [readValue.eq_def]
  simp only [skipBlank_cons hblank]
  split
  all_goals first
    | rfl
    | next h => exact absurd (List.cons.inj h).1 (hne rfl)

/-- Integers are read back. -/
theorem readValue_integer (i : Int) {rest : List Char} (hrest : EndsNumber rest) (limit : Nat) :
    readValue (limit + 1) ((toString i).toList ++ rest) = some (.integer i, rest) := by
  rw [toString_toList]
  split
  · next h =>
    have hread := readUnsigned_toDigits false i.toNat hrest
    have hdigits : ∀ c ∈ Nat.toDigits 10 i.toNat, c.isDigit = true := fun c hc =>
      Nat.isDigit_of_mem_toDigits (by omega) (by omega) hc
    cases hcs : Nat.toDigits 10 i.toNat with
    | nil => exact absurd hcs Nat.toDigits_ne_nil
    | cons c cs =>
      rw [hcs] at hread hdigits
      rw [List.cons_append, readValue_of_digit (hdigits c (by simp)), ← List.cons_append, hread,
        ← hcs, number, natOf_toDigits]
      have hvalue : (i.toNat : Int) = i := by omega
      rw [if_neg (by simp), if_neg (by simp), hvalue]
  · next h =>
    have hread := readUnsigned_toDigits true (-i).toNat hrest
    show readUnsigned true (Nat.toDigits 10 (-i).toNat ++ rest) = _
    rw [hread, number, natOf_toDigits]
    have hne : ¬(true && decide ((-i).toNat = 0)) = true := by
      rw [Bool.true_and, decide_eq_true_eq]
      omega
    have hvalue : -((-i).toNat : Int) = i := by omega
    rw [if_neg hne, if_pos rfl, hvalue]

/-! ### Values -/

/-- Values that are printed as they are: those without decimals. -/
inductive Exact : Json → Prop where
  | null : Exact null
  | boolean (b : Bool) : Exact (boolean b)
  | integer (i : Int) : Exact (integer i)
  | string (s : String) : Exact (string s)
  | array {items : List Json} (h : ∀ item ∈ items, Exact item) : Exact (array items)
  | object {fields : List (String × Json)} (h : ∀ field ∈ fields, Exact field.2) :
      Exact (object fields)

/-- The form of a value is read as the value, whatever stands behind it. -/
def Reads (value : Json) : Prop :=
  ∀ depth limit rest, EndsNumber rest → (value.prettyAt depth).toList.length < limit →
    readValue limit ((value.prettyAt depth).toList ++ rest) = some (value, rest)

theorem reads_of_succ {value : Json} (h : ∀ depth limit rest, EndsNumber rest →
      (value.prettyAt depth).toList.length < limit + 1 →
      readValue (limit + 1) ((value.prettyAt depth).toList ++ rest) = some (value, rest)) :
    Reads value := by
  intro depth limit rest hrest hlimit
  obtain ⟨limit, rfl⟩ := Nat.exists_eq_succ_of_ne_zero (Nat.ne_zero_of_lt hlimit)
  exact h depth limit rest hrest hlimit

theorem readValue_congr {cs ds : List Char} (h : skipBlank cs = skipBlank ds) (limit : Nat) :
    readValue limit cs = readValue limit ds := by
  cases limit with
  | zero => rfl
  | succ limit => rw [readValue, readValue, h]

theorem readItems_congr {cs ds : List Char} (h : skipBlank cs = skipBlank ds) (limit : Nat) :
    readItems limit cs = readItems limit ds := by
  cases limit with
  | zero => rfl
  | succ limit => rw [readItems, readItems, readValue_congr h]

theorem readFields_congr {cs ds : List Char} (h : skipBlank cs = skipBlank ds) (limit : Nat) :
    readFields limit cs = readFields limit ds := by
  cases limit with
  | zero => rfl
  | succ limit => rw [readFields, readFields, h]

theorem endsNumber_cons {c : Char} (h : c = ',' ∨ c = '\n') (cs : List Char) :
    EndsNumber (c :: cs) := by
  intro d hd
  obtain rfl : c = d := by simpa using hd
  rcases h with rfl | rfl <;> decide

theorem endsNumber_newline (depth : Nat) (cs : List Char) :
    EndsNumber ((newline depth).toList ++ cs) := by
  rw [newline_toList]
  exact endsNumber_cons (Or.inr rfl) _

theorem readItems_pretty {depth outer : Nat} {item : Json} {items : List Json} (hitem : Reads item)
    (hitems : ∀ later ∈ items, Reads later) {limit : Nat}
    (hlimit : (item.prettyAt depth).toList.length + (prettyItems depth items).toList.length + 1
      < limit)
    (rest : List Char) :
    readItems limit ((item.prettyAt depth).toList ++ ((prettyItems depth items).toList ++
      ((newline outer).toList ++ ']' :: rest))) = some (item :: items, rest) := by
  induction items generalizing item limit with
  | nil =>
      obtain ⟨limit, rfl⟩ := Nat.exists_eq_succ_of_ne_zero (Nat.ne_zero_of_lt hlimit)
      have hend : (prettyItems depth []).toList = [] := rfl
      rw [hend, List.nil_append, readItems, hitem _ _ _ (endsNumber_newline _ _) (by omega)]
      simp only [skipBlank_newline]
      rfl
  | cons next items ih =>
      obtain ⟨limit, rfl⟩ := Nat.exists_eq_succ_of_ne_zero (Nat.ne_zero_of_lt hlimit)
      obtain ⟨hnext, hlater⟩ := List.forall_mem_cons.mp hitems
      have htext (cs : List Char) : (prettyItems depth (next :: items)).toList ++ cs =
          ',' :: ((newline depth).toList ++ ((next.prettyAt depth).toList ++
            ((prettyItems depth items).toList ++ cs))) := by
        simp [prettyItems]
      have hlength := congrArg List.length (htext [])
      simp only [List.append_nil, List.length_cons, List.length_append] at hlength
      rw [htext, readItems, hitem _ _ _ (endsNumber_cons (Or.inl rfl) _) (by omega)]
      show Option.map _ (readItems limit _) = _
      rw [readItems_congr (skipBlank_newline depth _), ih hnext hlater (by omega)]
      rfl

/-- What is read from behind a field on. -/
def behindField (limit : Nat) (field : String × Json) (rest : List Char) :
    Option (List (String × Json) × List Char) :=
  match skipBlank rest with
  | ',' :: rest => (readFields limit rest).map fun (fields, rest) => (field :: fields, rest)
  | '\x7d' :: rest => some ([field], rest)
  | _ => none

/-- A field is read up to what stands behind its value. -/
theorem readFields_succ {depth limit : Nat} {name : String} {value : Json} (hvalue : Reads value)
    (hlimit : (value.prettyAt depth).toList.length < limit) {rest : List Char}
    (hrest : EndsNumber rest) :
    readFields (limit + 1) ((quoted name).toList ++ (':' :: ' ' ::
      ((value.prettyAt depth).toList ++ rest))) = behindField limit (name, value) rest := by
  have hread : readValue limit (' ' :: ((value.prettyAt depth).toList ++ rest)) =
      some (value, rest) :=
    (readValue_congr (skipBlank_blank rfl _) limit).trans (hvalue depth limit rest hrest hlimit)
  have hcolon (cs : List Char) : skipBlank (':' :: cs) = ':' :: cs := skipBlank_cons rfl cs
  rw [quoted_toList, List.cons_append, List.append_assoc, List.singleton_append, readFields,
    skipBlank_cons rfl]
  simp only [readString_quoted, hcolon, hread]
  rfl

theorem readFields_pretty {depth outer : Nat} {field : String × Json}
    {fields : List (String × Json)} (hfield : Reads field.2)
    (hfields : ∀ later ∈ fields, Reads later.2) {limit : Nat}
    (hlimit : (field.2.prettyAt depth).toList.length + (prettyFields depth fields).toList.length + 1
      < limit)
    (rest : List Char) :
    readFields limit ((quoted field.1).toList ++ (':' :: ' ' :: ((field.2.prettyAt depth).toList ++
      ((prettyFields depth fields).toList ++ ((newline outer).toList ++ '\x7d' :: rest))))) =
      some (field :: fields, rest) := by
  induction fields generalizing field limit with
  | nil =>
      obtain ⟨limit, rfl⟩ := Nat.exists_eq_succ_of_ne_zero (Nat.ne_zero_of_lt hlimit)
      have hend : (prettyFields depth []).toList = [] := rfl
      rw [hend, List.nil_append, readFields_succ hfield (by omega) (endsNumber_newline _ _),
        behindField, skipBlank_newline]
      rfl
  | cons next fields ih =>
      obtain ⟨limit, rfl⟩ := Nat.exists_eq_succ_of_ne_zero (Nat.ne_zero_of_lt hlimit)
      obtain ⟨hnext, hlater⟩ := List.forall_mem_cons.mp hfields
      have htext (cs : List Char) : (prettyFields depth (next :: fields)).toList ++ cs =
          ',' :: ((newline depth).toList ++ ((quoted next.1).toList ++ (':' :: ' ' ::
            ((next.2.prettyAt depth).toList ++ ((prettyFields depth fields).toList ++ cs))))) := by
        simp [prettyFields]
      have hlength := congrArg List.length (htext [])
      simp only [List.append_nil, List.length_cons, List.length_append] at hlength
      rw [htext, readFields_succ hfield (by omega) (endsNumber_cons (Or.inl rfl) _)]
      show Option.map _ (readFields limit _) = _
      rw [readFields_congr (skipBlank_newline depth _), ih hnext hlater (by omega)]
      rfl

theorem skipBlank_skipBlank (cs : List Char) : skipBlank (skipBlank cs) = skipBlank cs := by
  induction cs with
  | nil => rfl
  | cons c cs ih =>
      cases hc : isBlank c with
      | true => rw [skipBlank_blank hc, ih]
      | false => rw [skipBlank_cons hc, skipBlank_cons hc]

theorem readItems_close (limit : Nat) (rest : List Char) : readItems limit (']' :: rest) = none := by
  have hvalue (limit : Nat) : readValue limit (']' :: rest) = none := by
    cases limit with
    | zero => rfl
    | succ limit =>
        rw [readValue, skipBlank_cons rfl]
        rfl
  cases limit with
  | zero => rfl
  | succ limit => rw [readItems, hvalue]

theorem readFields_close (limit : Nat) (rest : List Char) :
    readFields limit ('\x7d' :: rest) = none := by
  cases limit with
  | zero => rfl
  | succ limit =>
      rw [readFields, skipBlank_cons rfl]
      rfl

theorem readValue_of_items {limit : Nat} {cs rest : List Char} {items : List Json}
    (h : readItems limit cs = some (items, rest)) :
    readValue (limit + 1) ('[' :: cs) = some (array items, rest) := by
  rw [← readItems_congr (skipBlank_skipBlank cs)] at h
  rw [readValue, skipBlank_cons rfl]
  simp only
  split
  · next hclose =>
    rw [hclose, readItems_close] at h
    cases h
  · rw [h]
    rfl

theorem readValue_of_fields {limit : Nat} {cs rest : List Char} {fields : List (String × Json)}
    (h : readFields limit cs = some (fields, rest)) :
    readValue (limit + 1) ('\x7b' :: cs) = some (object fields, rest) := by
  rw [← readFields_congr (skipBlank_skipBlank cs)] at h
  rw [readValue, skipBlank_cons rfl]
  simp only
  split
  · next hclose =>
    rw [hclose, readFields_close] at h
    cases h
  · rw [h]
    rfl

theorem reads_array {items : List Json} (h : ∀ item ∈ items, Reads item) :
    Reads (array items) := by
  refine reads_of_succ fun depth limit rest _ hlimit => ?_
  cases items with
  | nil =>
      have htext : ((array []).prettyAt depth).toList = ['[', ']'] := by simp [prettyAt]
      rw [htext]
      rfl
  | cons item items =>
      obtain ⟨hitem, hitems⟩ := List.forall_mem_cons.mp h
      have htext (cs : List Char) : ((array (item :: items)).prettyAt depth).toList ++ cs =
          '[' :: ((newline (depth + 1)).toList ++ ((item.prettyAt (depth + 1)).toList ++
            ((prettyItems (depth + 1) items).toList ++ ((newline depth).toList ++ ']' :: cs)))) := by
        simp [prettyAt]
      have hlength := congrArg List.length (htext [])
      simp only [List.append_nil, List.length_cons, List.length_append, newline_toList] at hlength
      rw [htext]
      apply readValue_of_items
      rw [readItems_congr (skipBlank_newline _ _)]
      exact readItems_pretty hitem hitems (by omega) rest

theorem reads_object {fields : List (String × Json)} (h : ∀ field ∈ fields, Reads field.2) :
    Reads (object fields) := by
  refine reads_of_succ fun depth limit rest _ hlimit => ?_
  cases fields with
  | nil =>
      have htext : ((object []).prettyAt depth).toList = ['\x7b', '\x7d'] := by simp [prettyAt]
      rw [htext]
      rfl
  | cons field fields =>
      obtain ⟨hfield, hfields⟩ := List.forall_mem_cons.mp h
      have htext (cs : List Char) : ((object (field :: fields)).prettyAt depth).toList ++ cs =
          '\x7b' :: ((newline (depth + 1)).toList ++ ((quoted field.1).toList ++ (':' :: ' ' ::
            ((field.2.prettyAt (depth + 1)).toList ++ ((prettyFields (depth + 1) fields).toList ++
              ((newline depth).toList ++ '\x7d' :: cs)))))) := by
        simp [prettyAt]
      have hlength := congrArg List.length (htext [])
      simp only [List.append_nil, List.length_cons, List.length_append, newline_toList] at hlength
      rw [htext]
      apply readValue_of_fields
      rw [readFields_congr (skipBlank_newline _ _)]
      exact readFields_pretty hfield hfields (by omega) rest

theorem reads_of_exact {value : Json} (h : value.Exact) : Reads value := by
  induction h with
  | null =>
      refine reads_of_succ fun depth limit rest _ _ => ?_
      have htext : (null.prettyAt depth).toList = ['n', 'u', 'l', 'l'] := by simp [prettyAt]
      rw [htext]
      rfl
  | boolean b =>
      refine reads_of_succ fun depth limit rest _ _ => ?_
      have htext : ((boolean b).prettyAt depth).toList =
          if b then ['t', 'r', 'u', 'e'] else ['f', 'a', 'l', 's', 'e'] := by
        cases b <;> simp [prettyAt]
      rw [htext]
      cases b <;> rfl
  | integer i => exact reads_of_succ fun depth limit rest hrest _ => readValue_integer i hrest limit
  | string s =>
      refine reads_of_succ fun depth limit rest _ _ => ?_
      rw [prettyAt, quoted_toList, List.cons_append, List.append_assoc, List.singleton_append,
        readValue, skipBlank_cons rfl]
      simp only [readString_quoted, Option.map_some]
  | array h ih => exact reads_array ih
  | object h ih => exact reads_object ih

/-- What is printed for a value is read as the value, also with blanks behind it. -/
theorem read?_pretty {value : Json} (h : value.Exact) {blanks : String}
    (hblanks : blanks.toList.all isBlank = true) : read? (value.pretty ++ blanks) = some value := by
  have hrest : EndsNumber blanks.toList := by
    intro c hc
    have hblank := List.all_eq_true.mp hblanks c (List.mem_of_mem_head? hc)
    simp only [isBlank, Bool.or_eq_true, decide_eq_true_eq] at hblank
    rcases hblank with ((rfl | rfl) | rfl) | rfl <;> decide
  have hlength : (value.prettyAt 0).toList.length < (value.pretty ++ blanks).length + 1 := by
    rw [String.length_toList, String.length_append, pretty]
    omega
  have hread := reads_of_exact h 0 _ _ hrest hlength
  rw [read?, String.toList_append, pretty]
  rw [pretty] at hread
  rw [hread]
  exact if_pos hblanks

end BlockExports.Json
