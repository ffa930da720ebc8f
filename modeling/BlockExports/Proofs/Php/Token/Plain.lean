import BlockExports.Php.Token.Stream

/-!
Plain script text.

Outside of strings the reader goes from token to token: what one reading covers joins the stream,
and the text behind it is read afresh (`Lexer.items_token`), while blanks are passed
(`Lexer.items_blank`). A word or a number is read up to the first character that does not belong
to it.
-/

namespace BlockExports.Php

open Quote Text

/-! ### Words -/

section Reading

variable {word : List Char} {d : Char}

theorem nameLength_append (hword : ∀ c ∈ word, continuesName c = true)
    (hd : continuesName d = false) (rest : List Char) :
    nameLength (word ++ d :: rest) = word.length := by
  rw [nameLength, List.takeWhile_append_of_pos hword,
    List.takeWhile_cons_of_neg (by simp [hd]), List.append_nil]

theorem pathLength_append (hword : ∀ c ∈ word, continuesName c = true)
    (hd : continuesName d = false) (hslash : d ≠ '\\') (rest : List Char) :
    pathLength (word ++ d :: rest) = word.length := by
  induction word with
  | nil => simp [pathLength, hd, hslash]
  | cons c word ih =>
      rw [List.forall_mem_cons] at hword
      rw [List.cons_append, pathLength, if_pos (by simp [hword.1]), ih hword.2, List.length_cons,
        Nat.add_comm]

/-- A word is read up to the character that ends it. -/
theorem readWord_append (hword : ∀ c ∈ word, continuesName c = true)
    (hsetter : setter? (String.ofList word) = none) (hd : continuesName d = false)
    (hslash : d ≠ '\\') (rest : List Char) :
    readWord (word ++ d :: rest) = readWord.wordReading (String.ofList word) word.length := by
  unfold readWord
  simp [nameLength_append hword hd, pathLength_append hword hd hslash, hsetter]

end Reading

/-! ### Digits -/

/-- What is checked of a digit holds of the characters behind the zero. -/
theorem forall_digit {P : Char → Prop} (h : ∀ n < 10, P (Char.ofNat (48 + n))) {c : Char}
    (hc : c.isDigit = true) : P c := by
  obtain ⟨hfirst, hlast⟩ : 48 ≤ c.toNat ∧ c.toNat ≤ 57 := Char.isDigit_iff_toNat.mp hc
  have hchar : Char.ofNat (48 + (c.toNat - 48)) = c := by
    rw [Nat.add_sub_cancel' hfirst, Char.ofNat_toNat]
  rw [← hchar]
  exact h _ (by omega)

theorem readScript_number {c : Char} (hc : c.isDigit = true) {cs : List Char} {length : Nat}
    (hnumber : Number.number (c :: cs) = .valid length) :
    readScript (c :: cs) = .ofKind .number length := by
  obtain ⟨hblank, hname, hlower, hupper, hdollar, hslash⟩ :=
    @forall_digit (fun c => isAsciiBlank c = false ∧ startsName c = false ∧ c ≠ 'b' ∧ c ≠ 'B' ∧
      c ≠ '$' ∧ c ≠ '\\') (by decide) c hc
  unfold readScript
  simp only [hblank, hname, hlower, hupper, hdollar, hslash, hc, hnumber, Bool.false_eq_true,
    if_false, decide_false, Bool.or_self, Bool.false_and, Bool.true_or, if_true]

theorem digits_append {ds : List Char} (hds : ∀ c ∈ ds, c.isDigit = true) (rest : List Char) :
    Number.digits Char.isDigit (ds ++ ';' :: rest) = ds.length := by
  induction ds with
  | nil => simp [Number.digits]
  | cons c ds ih =>
      rw [List.forall_mem_cons] at hds
      rw [List.cons_append, Number.digits.eq_def]
      simp only [hds.1, if_true]
      rw [ih hds.2, List.length_cons, Nat.add_comm]

/-! ### The stream -/

namespace Lexer

/-- The reader outside of strings. -/
def plain (mode : Mode) (offset : Nat) : Lexer := ⟨offset, mode, [], [], false, false⟩

theorem items_skip (l : Lexer) (xs cs : List Char) :
    l.items xs.length (xs ++ cs) = { l with offset := l.offset + byteLength xs }.items 0 cs := by
  induction xs generalizing l with
  | nil => rfl
  | cons x xs ih =>
      rw [List.length_cons, List.cons_append, items, ih, byteLength_cons]
      simp only [Nat.add_assoc]

/-- A token that script text goes on behind joins the stream. -/
theorem items_token {mode : Mode} (hmode : mode.embeds = false) {kind : Kind} {xs cs : List Char}
    (hxs : xs ≠ []) (hkind : kind ≠ .stringPart) {offset : Nat}
    (hread : read mode (offset = 0) (xs ++ cs) = ⟨.token kind, xs.length, .script⟩) :
    (plain mode offset).items 0 (xs ++ cs) =
      .token ⟨kind, offset, String.ofList xs⟩ ::
        (plain .script (offset + byteLength xs)).items 0 cs := by
  cases xs with
  | nil => exact absurd rfl hxs
  | cons x xs =>
      rw [List.cons_append] at hread ⊢
      have henter : (plain mode offset).enter (x :: (xs ++ cs)) = ([], plain mode offset) := by
        simp [enter, plain, hmode]
      have hreading : read (plain mode offset).mode (decide ((plain mode offset).offset = 0))
          (x :: (xs ++ cs)) = ⟨.token kind, (x :: xs).length, .script⟩ := hread
      have htake : (x :: (xs ++ cs)).take (x :: xs).length = x :: xs := by
        rw [← List.cons_append, List.take_left]
      have hadvance :
          (plain mode offset).advance ⟨.token kind, (x :: xs).length, .script⟩ (x :: xs) =
            ([.token ⟨kind, offset, String.ofList (x :: xs)⟩], plain .script offset) := by
        simp [plain, advance, endsText]
      rw [items, henter]
      simp only [hreading, htake, hadvance]
      rw [List.length_cons, Nat.add_sub_cancel, items_skip, byteLength_cons, ← Nat.add_assoc]
      rfl

/-- A blank is read together with the blanks behind it. -/
theorem items_blanks {c : Char} (hc : isAsciiBlank c = true) (cs : List Char) (offset : Nat) :
    (plain .script offset).items 0 (c :: cs) =
      (plain .script (offset + c.utf8Size)).items (cs.takeWhile isAsciiBlank).length cs := by
  have hreading : read (plain .script offset).mode (decide ((plain .script offset).offset = 0))
      (c :: cs) = .ofBlank ((cs.takeWhile isAsciiBlank).length + 1) := by
    rw [plain, read, readScript, if_pos hc, List.takeWhile_cons_of_pos hc, List.length_cons]
  have henter : (plain .script offset).enter (c :: cs) = ([], plain .script offset) := rfl
  rw [items, henter]
  simp only [hreading]
  rfl

theorem items_blank {c : Char} (hc : isAsciiBlank c = true) (cs : List Char) (offset : Nat) :
    (plain .script offset).items 0 (c :: cs) =
      (plain .script (offset + c.utf8Size)).items 0 cs := by
  rw [items_blanks hc]
  cases cs with
  | nil => rfl
  | cons d ds =>
      cases hd : isAsciiBlank d with
      | false => rw [List.takeWhile_cons_of_neg (by simp [hd]), List.length_nil]
      | true =>
          -- from the second blank on the rest of the run is read as a whole again
          rw [List.takeWhile_cons_of_pos hd, List.length_cons, items, items_blanks hd]
          rfl

end Lexer

end BlockExports.Php
