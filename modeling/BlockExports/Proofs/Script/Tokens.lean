import BlockExports.Proofs.Php.Token.Plain
import BlockExports.Proofs.Script.Print

/-!
The tokens of a script.

A line is cut into pieces: tokens and single blanks. A piece is read as what it is when the text
behind it does not go on with it (`Piece.ReadBefore`), and then the stream of the pieces is their
tokens (`items_pieces`).
-/

namespace BlockExports.Script

open Php Quote Text

/-! ### Pieces -/

inductive Piece where
  | token (kind : Kind) (letters : List Char)
  | blank (c : Char)

namespace Piece

def letters : Piece → List Char
  | token _ letters => letters
  | blank c => [c]

/-- The tokens of pieces that start at a byte offset. -/
def tokens (offset : Nat) : List Piece → List Token
  | [] => []
  | token kind letters :: pieces =>
    ⟨kind, offset, String.ofList letters⟩ :: tokens (offset + byteLength letters) pieces
  | blank c :: pieces => tokens (offset + c.utf8Size) pieces

/-- The first piece of a text is read as what it is, given the text behind it. -/
def ReadBefore (rest : List Char) : Piece → Prop
  | token kind letters =>
    letters ≠ [] ∧ kind ≠ .stringPart ∧
      readScript (letters ++ rest) = ⟨.token kind, letters.length, .script⟩
  | blank c => isAsciiBlank c = true

/-- All pieces are read as what they are, given the text behind the last one. -/
def Readable (rest : List Char) : List Piece → Prop
  | [] => True
  | piece :: pieces =>
    piece.ReadBefore (pieces.flatMap letters ++ rest) ∧ Readable rest pieces

theorem tokens_append (offset : Nat) (xs ys : List Piece) :
    tokens offset (xs ++ ys) =
      tokens offset xs ++ tokens (offset + byteLength (xs.flatMap letters)) ys := by
  induction xs generalizing offset with
  | nil => rfl
  | cons x xs ih =>
      cases x with
      | token kind cs => simp [tokens, ih, letters, Nat.add_assoc]
      | blank c => simp [tokens, ih, letters, Nat.add_assoc]

theorem readable_append {rest : List Char} {xs ys : List Piece} :
    Readable rest (xs ++ ys) ↔ Readable (ys.flatMap letters ++ rest) xs ∧ Readable rest ys := by
  induction xs with
  | nil => simp [Readable]
  | cons x xs ih => simp [Readable, ih, and_assoc]

/-- The stream of readable pieces is their tokens. -/
theorem items_pieces {pieces : List Piece} {rest : List Char} (h : Readable rest pieces)
    (offset : Nat) :
    (Lexer.plain .script offset).items 0 (pieces.flatMap letters ++ rest) =
      (tokens offset pieces).map .token ++
        (Lexer.plain .script (offset + byteLength (pieces.flatMap letters))).items 0 rest := by
  induction pieces generalizing offset with
  | nil => rfl
  | cons piece pieces ih =>
      obtain ⟨hpiece, hpieces⟩ := h
      cases piece with
      | token kind cs =>
          obtain ⟨hcs, hkind, hread⟩ := hpiece
          have hscript : read .script (offset = 0) (cs ++ (pieces.flatMap letters ++ rest)) =
              ⟨.token kind, cs.length, .script⟩ := hread
          rw [List.flatMap_cons, List.append_assoc, letters,
            Lexer.items_token rfl hcs hkind hscript, ih hpieces, byteLength_append, Nat.add_assoc]
          rfl
      | blank c =>
          rw [List.flatMap_cons, List.append_assoc, letters, List.singleton_append,
            Lexer.items_blank hpiece, ih hpieces, byteLength_append, ← Nat.add_assoc]
          rfl

end Piece

/-! ### The pieces of a line -/

def Identifier.piece (n : Identifier) : Piece := .token .variable n.print

def Value.pieces : Value → List Piece
  | string body => [.token .string (string body).print]
  | number n => [.token .number n.digits]
  | boolean true => [.token (.keyword .true_) "true".toList]
  | boolean false => [.token (.keyword .false_) "false".toList]
  | null => [.token (.keyword .null) "null".toList]
  | emptyArray => [.token .openBracket ['['], .token .closeBracket [']']]

/-- Names with commas between them. -/
def argumentPieces : List Identifier → List Piece
  | [] => []
  | [n] => [n.piece]
  | n :: m :: names => n.piece :: .token .comma [','] :: .blank ' ' :: argumentPieces (m :: names)

def Line.pieces : Line → List Piece
  | assignment name value =>
    name.piece :: .blank ' ' :: .token .assign ['='] :: .blank ' ' ::
      (value.pieces ++ [.token .semicolon [';'], .blank '\n'])
  | bare name => [name.piece, .token .semicolon [';'], .blank '\n']
  | exports names =>
    .token .name "export".toList :: .token .openParen ['('] ::
      (argumentPieces names ++
        [.token .closeParen [')'], .token .semicolon [';'], .blank '\n'])

theorem Value.letters_pieces (value : Value) :
    value.pieces.flatMap Piece.letters = value.print := by
  cases value with
  | boolean b => cases b <;> rfl
  | string body => exact List.append_nil _
  | number n => exact List.append_nil _
  | null => rfl
  | emptyArray => rfl

theorem letters_argumentPieces (names : List Identifier) :
    (argumentPieces names).flatMap Piece.letters =
      [',', ' '].intercalate (names.map Identifier.print) := by
  induction names with
  | nil => rfl
  | cons n names ih =>
      cases names with
      | nil => simp [argumentPieces, Identifier.piece, Piece.letters]
      | cons m names =>
          rw [argumentPieces, List.flatMap_cons, List.flatMap_cons, List.flatMap_cons, ih]
          simp [Identifier.piece, Piece.letters, List.intercalate]


theorem Line.letters_pieces (line : Line) : line.pieces.flatMap Piece.letters = line.print := by
  cases line with
  | assignment name value =>
      simp [pieces, print_assignment, Identifier.piece, Piece.letters, Value.letters_pieces]
  | bare name => simp [pieces, print_bare, Identifier.piece, Piece.letters]
  | exports names => simp [pieces, print_exports, Piece.letters, letters_argumentPieces]

/-! ### Reading the pieces -/

theorem Identifier.readBefore (n : Identifier) {d : Char} (hd : continuesName d = false)
    (rest : List Char) : n.piece.ReadBefore (d :: rest) := by
  obtain ⟨c, letters, hletters, hc⟩ := n.exists_startsName
  have hlength : nameLength (n.letters ++ d :: rest) = n.letters.length :=
    nameLength_append n.continuesName_of_mem hd rest
  have hdollar : readScript ('$' :: (n.letters ++ d :: rest)) =
      .ofKind .variable (1 + nameLength (n.letters ++ d :: rest)) := by
    have hblank : isAsciiBlank '$' = false := by decide
    have hname : startsName '$' = false := by decide
    simp [hletters, readScript, hblank, hname, hc]
  refine ⟨by simp [print], by simp, ?_⟩
  rw [print, List.cons_append, hdollar, hlength, Nat.add_comm]
  rfl

theorem readBefore_semicolon (rest : List Char) :
    (Piece.token .semicolon [';']).ReadBefore rest := ⟨by simp, by simp, rfl⟩

theorem readBefore_comma (rest : List Char) : (Piece.token .comma [',']).ReadBefore rest :=
  ⟨by simp, by simp, rfl⟩

theorem readBefore_closeParen (rest : List Char) :
    (Piece.token .closeParen [')']).ReadBefore rest := ⟨by simp, by simp, rfl⟩

theorem readBefore_openBracket (rest : List Char) :
    (Piece.token .openBracket ['[']).ReadBefore rest := ⟨by simp, by simp, rfl⟩

theorem readBefore_closeBracket (rest : List Char) :
    (Piece.token .closeBracket [']']).ReadBefore rest := ⟨by simp, by simp, rfl⟩

theorem readBefore_assign (rest : List Char) :
    (Piece.token .assign ['=']).ReadBefore (' ' :: rest) := ⟨by simp, by simp, rfl⟩

/-- A word in small letters is looked up as it is. -/
theorem toLower_of_small {word : String} (h : word.toList.map Char.toLower = word.toList) :
    word.toLower = word := String.toList_inj.mp (String.toList_map.trans h)

theorem readBefore_openParen (rest : List Char) {c : Char} (hc : c = '$' ∨ c = ')') :
    (Piece.token .openParen ['(']).ReadBefore (c :: rest) := by
  have hcast : castLength? ('(' :: c :: rest) = none := by
    have hempty : castTypes.contains (String.toLower "") = false := by
      rw [toLower_of_small rfl]
      decide
    rcases hc with rfl | rfl
    · rfl
    · have hnone : (')' :: rest).takeWhile (fun c => c.isAlpha || isAsciiBlank c) = [] := rfl
      simp only [castLength?, hnone]
      simpa using hempty
  have hblank : isAsciiBlank '(' = false := by decide
  have hname : startsName '(' = false := by decide
  have hopening : opening? ('(' :: c :: rest) = none := rfl
  have hsign : sign? ('(' :: c :: rest) = some ("(", .openParen) := rfl
  have hdigit : ('(').isDigit = false := by decide
  refine ⟨by simp, by simp, ?_⟩
  rw [List.singleton_append]
  unfold readScript
  simp only [hblank, hname, hdigit, hcast, hopening, hsign, Char.reduceEq, decide_false,
    Bool.or_self, Bool.false_and, Bool.false_eq_true, if_false]
  rfl

/-- The letters of a word, and the kind of token that it is on its own. -/
def Spells (word : String) (kind : Kind) : Prop :=
  word.toList ≠ [] ∧ word.toList.all continuesName = true ∧ setter? word = none ∧
    readWord.wordReading word word.toList.length = ⟨.token kind, word.toList.length, .script⟩

instance (word : String) (kind : Kind) : Decidable (Spells word kind) :=
  inferInstanceAs (Decidable (_ ∧ _ ∧ _ ∧ _))

theorem spells_of_small {word : String} {kind : Kind}
    (hsmall : word.toList.map Char.toLower = word.toList) (hempty : word.toList ≠ [])
    (hletters : word.toList.all continuesName = true)
    (hsetter : word ∉ ["private", "protected", "public"])
    (hreading : (match Keyword.spellings.lookup word with
      | some keyword => Reading.ofKind (.keyword keyword) word.toList.length
      | none => Reading.ofKind .name word.toList.length) =
        ⟨.token kind, word.toList.length, .script⟩) : Spells word kind := by
  have hlower : word.toLower = word := toLower_of_small hsmall
  refine ⟨hempty, hletters, ?_, ?_⟩
  · simp only [List.mem_cons, List.not_mem_nil, or_false, not_or] at hsetter
    simp [setter?, hlower, List.lookup_cons, beq_false_of_ne, hsetter]
  · rw [readWord.wordReading, Keyword.ofWord?, hlower]
    exact hreading

/-- A word before a character that ends it. -/
theorem readBefore_word {word : String} {kind : Kind} {d : Char} (hword : Spells word kind)
    (hkind : kind ≠ .stringPart)
    (hread : ∀ cs, readScript (word.toList ++ cs) = readWord (word.toList ++ cs))
    (hd : continuesName d = false) (hslash : d ≠ '\\') (rest : List Char) :
    (Piece.token kind word.toList).ReadBefore (d :: rest) := by
  obtain ⟨hempty, hletters, hsetter, hreading⟩ := hword
  refine ⟨hempty, hkind, ?_⟩
  have hofList : String.ofList word.toList = word := String.ofList_toList
  rw [hread, readWord_append (List.all_eq_true.mp hletters) (by rwa [hofList]) hd hslash, hofList,
    hreading]

/-- Behind a number that is not one zero, a zero in front is the whole number. -/
theorem Decimal.digits_of_head {n : Decimal} (h : n.digits.head? = some '0') :
    n.digits = ['0'] := by
  have hlength := n.leading h
  obtain ⟨c, hc⟩ := List.length_eq_one_iff.mp hlength
  rw [hc] at h ⊢
  simpa using h

theorem Decimal.head?_append (n : Decimal) (rest : List Char) :
    (n.digits ++ rest).head? = n.digits.head? := by
  obtain ⟨c, digits, hdigits⟩ := List.exists_cons_of_ne_nil n.nonempty
  rw [hdigits]
  rfl

theorem Decimal.number_digits (n : Decimal) (rest : List Char) :
    Number.number (n.digits ++ ';' :: rest) = .valid n.digits.length := by
  have hdigits : Number.digits Char.isDigit (n.digits ++ ';' :: rest) = n.digits.length :=
    digits_append (List.all_eq_true.mp n.decimal) rest
  have hdecimal : Number.decimal (n.digits ++ ';' :: rest) = .valid n.digits.length := by
    have hoctal : ((n.digits ++ ';' :: rest).head? = some '0' && 1 < n.digits.length) = false := by
      rw [n.head?_append, Bool.eq_false_iff]
      intro h
      simp only [Bool.and_eq_true, decide_eq_true_eq] at h
      have hlength := n.leading h.1
      omega
    have hfraction : Number.fraction (';' :: rest) = 0 := rfl
    have hexponent : Number.exponent false (';' :: rest) = 0 := rfl
    unfold Number.decimal
    simp only [hdigits, List.drop_left, hfraction, Nat.add_zero, Nat.lt_irrefl, decide_false,
      hexponent, hoctal]
    simp
  unfold Number.number
  split
  · -- only a single zero is followed by no digit
    next x d cs hsplit =>
    have hhead : n.digits.head? = some '0' := by
      rw [← n.head?_append, hsplit]
      rfl
    rw [n.digits_of_head hhead] at hsplit
    obtain ⟨rfl, -⟩ : ';' = x ∧ rest = d :: cs := by simpa using hsplit
    rw [n.digits_of_head hhead, hsplit] at hdecimal
    rw [n.digits_of_head hhead, ← hdecimal]
    simp
  · exact hdecimal

theorem Decimal.readBefore (n : Decimal) (rest : List Char) :
    (Piece.token .number n.digits).ReadBefore (';' :: rest) := by
  refine ⟨n.nonempty, by simp, ?_⟩
  have hnumber := n.number_digits rest
  obtain ⟨c, digits, hdigits⟩ := List.exists_cons_of_ne_nil n.nonempty
  have hdigit : c.isDigit = true := List.all_eq_true.mp n.decimal c (by simp [hdigits])
  rw [hdigits, List.cons_append] at hnumber ⊢
  exact readScript_number hdigit hnumber

theorem StringBody.closing? (body : StringBody) (rest : List Char) :
    Quote.closing? '\x27' (body.chars ++ '\x27' :: rest) = some (body.chars.length + 1) := by
  obtain ⟨chars, hquote, hslash⟩ := body
  simp only
  induction chars with
  | nil => rfl
  | cons c chars ih =>
      simp only [List.mem_cons, not_or] at hquote hslash
      have hrest := ih hquote.2 hslash.2
      rw [List.cons_append, Quote.closing?.eq_def]
      simp [Ne.symm hquote.1, Ne.symm hslash.1, hrest]

theorem StringBody.readBefore (body : StringBody) (rest : List Char) :
    (Piece.token .string (Value.string body).print).ReadBefore rest := by
  have hprint : (Value.string body).print = '\x27' :: body.chars ++ ['\x27'] := rfl
  have hquote (cs : List Char) : readScript ('\x27' :: cs) = readString '\x27' 1 cs := rfl
  rw [hprint]
  refine ⟨by simp, by simp, ?_⟩
  rw [List.cons_append, List.cons_append, hquote, List.append_assoc,
    List.singleton_append, readString, body.closing? rest]
  simp [Reading.ofKind, Nat.add_comm]

/-- A value is read as its pieces before the end of a statement. -/
theorem Value.readable (value : Value) (rest : List Char) :
    Piece.Readable (';' :: rest) value.pieces := by
  cases value with
  | string body => exact ⟨body.readBefore _, trivial⟩
  | number n => exact ⟨n.readBefore rest, trivial⟩
  | boolean b =>
      cases b with
      | true =>
          have hword : Spells "true" (.keyword .true_) :=
            spells_of_small rfl (by decide) (by decide) (by decide) rfl
          exact ⟨readBefore_word hword nofun (fun _ => rfl) rfl (by decide) rest, trivial⟩
      | false =>
          have hword : Spells "false" (.keyword .false_) :=
            spells_of_small rfl (by decide) (by decide) (by decide) rfl
          exact ⟨readBefore_word hword nofun (fun _ => rfl) rfl (by decide) rest, trivial⟩
  | null =>
      have hword : Spells "null" (.keyword .null) :=
        spells_of_small rfl (by decide) (by decide) (by decide) rfl
      exact ⟨readBefore_word hword nofun (fun _ => rfl) rfl (by decide) rest, trivial⟩
  | emptyArray => exact ⟨readBefore_openBracket _, readBefore_closeBracket _, trivial⟩

theorem readable_argumentPieces (names : List Identifier) (rest : List Char) :
    Piece.Readable (')' :: rest) (argumentPieces names) := by
  induction names with
  | nil => trivial
  | cons n names ih =>
      cases names with
      | nil => exact ⟨n.readBefore (by decide) rest, trivial⟩
      | cons m names => exact ⟨n.readBefore (by decide) _, readBefore_comma _, rfl, ih⟩

/-- A line is read as its pieces, whatever follows. -/
theorem Line.readable (line : Line) (rest : List Char) : Piece.Readable rest line.pieces := by
  cases line with
  | assignment name value =>
      refine ⟨name.readBefore (by decide) _, rfl, readBefore_assign _, rfl, ?_⟩
      rw [Piece.readable_append]
      exact ⟨value.readable _, readBefore_semicolon _, rfl, trivial⟩
  | bare name => exact ⟨name.readBefore (by decide) _, readBefore_semicolon _, rfl, trivial⟩
  | exports names =>
      have hword : Spells "export" .name :=
        spells_of_small rfl (by decide) (by decide) (by decide) rfl
      refine ⟨readBefore_word hword nofun (fun _ => rfl) rfl (by decide) _, ?_, ?_⟩
      · cases names with
        | nil => exact readBefore_openParen _ (Or.inr rfl)
        | cons n names =>
            cases names with
            | nil => exact readBefore_openParen _ (Or.inl rfl)
            | cons m names => exact readBefore_openParen _ (Or.inl rfl)
      · rw [Piece.readable_append]
        exact ⟨readable_argumentPieces names _, readBefore_closeParen _, readBefore_semicolon _,
          rfl, trivial⟩

/-! ### The tokens of a script -/

def Line.tokens (offset : Nat) (line : Line) : List Token := Piece.tokens offset line.pieces

/-- The tokens of lines that start at a byte offset. -/
def tokens (offset : Nat) : List Line → List Token
  | [] => []
  | line :: lines => line.tokens offset ++ tokens (offset + byteLength line.print) lines

theorem items_lines (lines : List Line) (offset : Nat) :
    (Lexer.plain .script offset).items 0 (lines.flatMap Line.print) =
      (tokens offset lines).map .token := by
  induction lines generalizing offset with
  | nil => rfl
  | cons line lines ih =>
      rw [List.flatMap_cons, ← line.letters_pieces, Piece.items_pieces (line.readable _), ih,
        line.letters_pieces, tokens, List.map_append]
      rfl

theorem items_openTag (cs : List Char) :
    (Lexer.plain .inline 0).items 0 ("<?php".toList ++ cs) =
      .token ⟨.openTag, 0, "<?php"⟩ :: (Lexer.plain .script 5).items 0 cs := by
  have hword : String.toLower (String.ofList ['p', 'h', 'p']) = "php" := toLower_of_small rfl
  have hread : readInline true ('<' :: '?' :: 'p' :: 'h' :: 'p' :: cs) = .ofKind .openTag 5 := by
    simp [readInline, hword]
  exact Lexer.items_token rfl (by decide) (by decide) hread

/-- The stream of a script behind the prologue: the opening tag, and the tokens of the lines. -/
theorem tokenize_print (lines : List Line) :
    tokenize (prologue ++ print lines) =
      .token ⟨.openTag, 0, "<?php"⟩ :: (tokens 6 lines).map .token := by
  have htext : (prologue ++ print lines).toList =
      "<?php".toList ++ ' ' :: lines.flatMap Line.print := by
    rw [String.toList_append, print, String.toList_ofList]
    rfl
  have hstart : Lexer.start = Lexer.plain .inline 0 := rfl
  rw [tokenize, hstart, htext, items_openTag, Lexer.items_blank (by decide), items_lines]
  rfl

end BlockExports.Script
