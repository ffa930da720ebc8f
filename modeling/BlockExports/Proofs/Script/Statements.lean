import BlockExports.Proofs.Php.Parser.Run
import BlockExports.Proofs.Script.Tokens
import BlockExports.Proofs.Text.Slices

/-!
The statements of a script.

The parser is run on the tokens of the lines. A line is read as its statement and its semicolon is
taken (`Line.anyStatement`), and so the program of the text is the outline of the lines
(`parse_print`).
-/

namespace BlockExports.Script

open Php Php.Parser Text

/-! ### The outline of a script -/

def Identifier.variable (n : Identifier) (start : Nat) : Variable := ⟨String.ofList n.print, start⟩

def Value.expression : Value → Expression
  | string _ => .literal .string
  | number _ => .literal .number
  | boolean _ => .literal .boolean
  | null => .literal .null
  | emptyArray => .array

/-- The arguments that the names make, the first of which starts at a byte offset. -/
def arguments (offset : Nat) : List Identifier → List (Passing × Expression)
  | [] => []
  | n :: names =>
    (.positional, .variable (n.variable offset)) ::
      arguments (offset + byteLength n.print + 2) names

def Line.statement (offset : Nat) : Line → Statement
  | assignment name value =>
    .expression (.assignment (.variable (name.variable offset)) value.expression)
  | bare name => .expression (.variable (name.variable offset))
  | exports names => .expression (.call (.name "export") (arguments (offset + 7) names))

/-- The statements of lines that start at a byte offset. -/
def statements (offset : Nat) : List Line → Program
  | [] => []
  | line :: lines => line.statement offset :: statements (offset + byteLength line.print) lines

/-! ### Parsing a line -/

section Parsing

variable {c : Cursor} {position : Nat} {t : Token} {ts : List Token}

theorem stop_token (kind : Kind) (start : Nat) (cs : List Char) :
    (Token.mk kind start (String.ofList cs)).stop = start + byteLength cs := by
  rw [Token.stop, byteLength_eq_size]

theorem Value.operand (value : Value) {g : Grammar} (ht : t.kind = .semicolon) (level : Level)
    (offset : Nat) :
    g.operand level (c.at position (Piece.tokens offset value.pieces ++ t :: ts)) =
      (some value.expression, c.at (offset + byteLength value.print) (t :: ts)) := by
  cases value with
  | string body =>
      rw [← stop_token .string]
      exact Grammar.operand_single rfl level
  | number n =>
      rw [← stop_token .number]
      exact Grammar.operand_single rfl level
  | boolean b =>
      cases b with
      | true =>
          rw [← stop_token (.keyword .true_)]
          exact Grammar.operand_word rfl rfl ht level
      | false =>
          rw [← stop_token (.keyword .false_)]
          exact Grammar.operand_word rfl rfl ht level
  | null =>
      rw [← stop_token (.keyword .null)]
      exact Grammar.operand_word rfl rfl ht level
  | emptyArray =>
      have hstop : offset + byteLength emptyArray.print =
          (Token.mk .closeBracket (offset + byteLength ['[']) (String.ofList [']'])).stop := by
        rw [stop_token]
        rfl
      rw [hstop]
      exact Grammar.operand_emptyArray rfl rfl level

/-- No value starts with a reference. -/
theorem Value.accept_ampersand (value : Value) (offset : Nat) :
    accept .ampersand (c.at position (Piece.tokens offset value.pieces ++ ts)) =
      (some false, c.at position (Piece.tokens offset value.pieces ++ ts)) := by
  cases value with
  | string body => exact accept_at_of_ne nofun
  | number n => exact accept_at_of_ne nofun
  | boolean b => cases b <;> exact accept_at_of_ne nofun
  | null => exact accept_at_of_ne nofun
  | emptyArray => exact accept_at_of_ne nofun

theorem length_le_argumentTokens (names : List Identifier) (offset : Nat) :
    names.length ≤ (Piece.tokens offset (argumentPieces names)).length := by
  induction names generalizing offset with
  | nil => exact Nat.zero_le _
  | cons n names ih =>
      cases names with
      | nil => exact Nat.le_refl _
      | cons m names =>
          have hrest := ih (offset + byteLength n.print + byteLength [','] + (' ').utf8Size)
          simp only [argumentPieces, Identifier.piece, Piece.tokens, List.length_cons] at hrest ⊢
          omega

/-- Reading a variable gives it back, where the expression ends behind it. -/
theorem expression_variable (n : Identifier) (offset k : Nat) (level : Level)
    (hdepth : c.depth < depthLimit) (hend : Grammar.Ends t.kind) :
    (Grammar.ofDepth (k + 1)).expression level
        (c.at position (⟨.variable, offset, String.ofList n.print⟩ :: t :: ts)) =
      (some (.variable (n.variable offset)), c.at (offset + byteLength n.print) (t :: ts)) := by
  rw [← stop_token .variable]
  exact Grammar.expressionAt_operand hdepth hend (Grammar.operand_single rfl level)

theorem commaListFrom_arguments (names : List Identifier) {k : Nat} (hdepth : c.depth < depthLimit)
    (ht : t.kind = .closeParen) {limit : Nat} (hlimit : names.length ≤ limit)
    (offset : Nat) :
    commaListFrom (Grammar.ofDepth (k + 1)).argument .closeParen (limit + 1)
        (c.at position (Piece.tokens offset (argumentPieces names) ++ t :: ts)) =
      (some ((arguments offset names).map some), c.at t.stop ts) := by
  induction names generalizing offset limit position with
  | nil =>
      rw [← ht]
      exact Grammar.commaListFrom_closing _ _
  | cons n names ih =>
      have hkind : (Token.mk .variable offset (String.ofList n.print)).kind ≠ .closeParen := nofun
      -- what stands behind the name ends it
      have hfirst {u : Token} {us : List Token} (hend : Grammar.Ends u.kind) :
          (Grammar.ofDepth (k + 1)).argument
              (c.at position (⟨.variable, offset, String.ofList n.print⟩ :: u :: us)) =
            (some (some (.positional, .variable (n.variable offset))),
              c.at (Token.mk .variable offset (String.ofList n.print)).stop (u :: us)) := by
        refine Grammar.argument_single rfl ?_
        rw [stop_token]
        exact expression_variable n offset k .lowest hdepth hend
      cases names with
      | nil =>
          refine Grammar.commaListFrom_last hkind (hfirst ?_) ht limit
          rw [ht]
          exact ⟨rfl, rfl⟩
      | cons m names =>
          obtain ⟨limit, rfl⟩ : ∃ k, limit = k + 1 :=
            Nat.exists_eq_succ_of_ne_zero (by simp at hlimit; omega)
          refine Grammar.commaListFrom_next hkind (hfirst ⟨rfl, rfl⟩) rfl ?_
          exact ih (by simpa using hlimit) _

/-! ### The tokens of a line -/

theorem Line.tokens_assignment (name : Identifier) (value : Value) (offset : Nat) :
    (assignment name value).tokens offset =
      ⟨.variable, offset, String.ofList name.print⟩ ::
        ⟨.assign, offset + byteLength name.print + 1, String.ofList ['=']⟩ ::
        (Piece.tokens (offset + byteLength name.print + 3) value.pieces ++
          [⟨.semicolon, offset + byteLength name.print + 3 + byteLength value.print,
            String.ofList [';']⟩]) := by
  rw [← value.letters_pieces]
  exact congrArg _ (congrArg _ (Piece.tokens_append _ _ _))

theorem Line.tokens_exports (names : List Identifier) (offset : Nat) :
    (exports names).tokens offset =
      ⟨.name, offset, "export"⟩ :: ⟨.openParen, offset + 6, String.ofList ['(']⟩ ::
        (Piece.tokens (offset + 7) (argumentPieces names) ++
          [⟨.closeParen, offset + 7 + byteLength ((argumentPieces names).flatMap Piece.letters),
              String.ofList [')']⟩,
            ⟨.semicolon, offset + 7 + byteLength ((argumentPieces names).flatMap Piece.letters) + 1,
              String.ofList [';']⟩]) := by
  have hword : byteLength "export".toList = 6 := by decide
  change _ :: Token.mk .openParen (offset + byteLength "export".toList) _ ::
    Piece.tokens (offset + byteLength "export".toList + 1) _ = _
  rw [hword, Piece.tokens_append, String.ofList_toList]
  rfl

/-- A line is read as its statement, and its semicolon is taken. -/
theorem Line.anyStatement (line : Line) (offset k : Nat) (hdepth : c.depth + 1 < depthLimit)
    (hsize : (line.tokens offset).length ≤ c.size) :
    ∃ stop, offset < stop ∧ stop ≤ offset + byteLength line.print ∧
      (Grammar.ofDepth (k + 2)).anyStatement (c.at position (line.tokens offset ++ ts)) =
        (some (line.statement offset), c.at stop ts) := by
  have hdeeper : c.deeper.depth < depthLimit := hdepth
  have hhere : c.depth < depthLimit := Nat.lt_of_succ_lt hdepth
  have hsemicolon (place : Nat) :
      (Token.mk .semicolon place (String.ofList [';'])).stop = place + 1 := stop_token _ _ _
  have hend : byteLength [';', '\n'] = 2 := rfl
  cases line with
  | assignment name value =>
      have hsign : byteLength [' ', '=', ' '] = 3 := rfl
      refine ⟨offset + byteLength name.print + 3 + byteLength value.print + 1, by omega, ?_, ?_⟩
      · rw [print_assignment, byteLength_append, byteLength_append, byteLength_append, hsign, hend]
        omega
      · have hroom : 0 < c.size := by
          rw [tokens_assignment, List.length_cons] at hsize
          omega
        let semicolon : Token := ⟨.semicolon, offset + byteLength name.print + 3 +
          byteLength value.print, String.ofList [';']⟩
        have hvalue (place : Nat) := Grammar.expressionAt_operand hdeeper ⟨rfl, rfl⟩
          (@Value.operand _ place semicolon ts value (Grammar.ofDepth k) rfl .assignment
            (offset + byteLength name.print + 3))
        have hassignment := @Grammar.expressionAt_assignment (Grammar.ofDepth (k + 1)) c position
          semicolon ts ⟨.variable, offset, String.ofList name.print⟩
          ⟨.assign, offset + byteLength name.print + 1, String.ofList ['=']⟩ rfl rfl ⟨rfl, rfl⟩
          hhere hroom _ _ _ (value.accept_ampersand _) (hvalue _)
        rw [tokens_assignment, ← hsemicolon]
        simp only [List.cons_append, List.append_assoc, List.nil_append]
        exact @Grammar.anyStatement_variable (Grammar.ofDepth (k + 2)) c position semicolon ts
          _ _ _ _ rfl rfl hassignment
  | bare name =>
      refine ⟨offset + byteLength name.print + 1, by omega, ?_, ?_⟩
      · rw [print_bare, byteLength_append, hend]
        omega
      · rw [← hsemicolon]
        exact Grammar.anyStatement_variable rfl rfl
          (expression_variable name offset (k + 1) .lowest hhere ⟨rfl, rfl⟩)
  | exports names =>
      have hword : byteLength "export(".toList = 7 := by decide
      have hclose : byteLength [')', ';', '\n'] = 3 := rfl
      refine ⟨offset + 7 + byteLength ((argumentPieces names).flatMap Piece.letters) + 1 + 1,
        by omega, ?_, ?_⟩
      · rw [print_exports, ← letters_argumentPieces, byteLength_append, byteLength_append, hword,
          hclose]
        omega
      · let place := offset + 7 + byteLength ((argumentPieces names).flatMap Piece.letters)
        let paren : Token := ⟨.closeParen, place, String.ofList [')']⟩
        let semicolon : Token := ⟨.semicolon, place + 1, String.ofList [';']⟩
        have hroom : names.length ≤ c.size ∧ 0 < c.size := by
          have hnames := length_le_argumentTokens names (offset + 7)
          rw [tokens_exports, List.length_cons, List.length_cons, List.length_append] at hsize
          omega
        have harguments (start : Nat) :
            commaList (Grammar.ofDepth (k + 1)).argument .closeParen (c.deeper.at start
                (Piece.tokens (offset + 7) (argumentPieces names) ++ paren :: semicolon :: ts)) =
              (some ((arguments (offset + 7) names).map some),
                c.deeper.at paren.stop (semicolon :: ts)) := by
          rw [Grammar.commaList_at]
          exact commaListFrom_arguments names hdeeper rfl hroom.1 (offset + 7)
        have hcall := @Grammar.expressionAt_call (Grammar.ofDepth (k + 1)) c position semicolon ts
          ⟨.name, offset, "export"⟩ ⟨.openParen, offset + 6, String.ofList ['(']⟩ rfl rfl ⟨rfl, rfl⟩
          hhere hroom.2 _ _ _ (harguments _)
        rw [tokens_exports, ← hsemicolon]
        simp only [List.cons_append, List.append_assoc, List.nil_append]
        exact @Grammar.anyStatement_name (Grammar.ofDepth (k + 2)) c position semicolon ts
          _ _ _ _ _ rfl rfl rfl hcall

end Parsing

/-! ### Parsing a script -/

theorem Line.exists_tokens_eq_cons (line : Line) (offset : Nat) :
    ∃ t ts, line.tokens offset = t :: ts := by
  cases line <;> exact ⟨_, _, rfl⟩

theorem length_le_tokens (lines : List Line) (offset : Nat) :
    lines.length ≤ (tokens offset lines).length := by
  induction lines generalizing offset with
  | nil => exact Nat.zero_le _
  | cons line lines ih =>
      obtain ⟨t, ts, hline⟩ := line.exists_tokens_eq_cons offset
      have hlines := ih (offset + byteLength line.print)
      rw [tokens, List.length_append, hline, List.length_cons, List.length_cons]
      omega

/-- The statements of the lines are read one after the other. -/
theorem statements_at (lines : List Line) {c : Cursor} (k : Nat) (hdepth : c.depth + 1 < depthLimit)
    {offset position limit : Nat} (hposition : position ≤ offset) (hlimit : lines.length < limit)
    (hsize : (tokens offset lines).length ≤ c.size) :
    Program.statements (Grammar.ofDepth (k + 3)) limit (c.at position (tokens offset lines)) =
      statements offset lines := by
  induction lines generalizing offset position limit with
  | nil =>
      obtain ⟨limit, rfl⟩ : ∃ k, limit = k + 1 := Nat.exists_eq_succ_of_ne_zero (by omega)
      unfold Program.statements nextKind
      rw [kindAt_at]
      rfl
  | cons line lines ih =>
      obtain ⟨limit, rfl⟩ : ∃ k, limit = k + 1 := Nat.exists_eq_succ_of_ne_zero (by omega)
      rw [tokens, List.length_append] at hsize
      rw [List.length_cons] at hlimit
      obtain ⟨stop, hbefore, hbehind, hline⟩ := @Line.anyStatement c position
        (tokens (offset + byteLength line.print) lines) line offset k hdepth (by omega)
      -- the semicolon lies behind the place in front of the line, so the reader has moved
      have htolerant := @Grammar.tolerantStatement_at (Grammar.ofDepth (k + 3)) c position _ _ _ _
        (by omega : stop ≠ position) hline
      obtain ⟨t, ts, hcons⟩ := line.exists_tokens_eq_cons offset
      have hnext : nextKind (c.at position (tokens offset (line :: lines))) =
          (some (some t.kind), c.at position (tokens offset (line :: lines))) := by
        rw [tokens, hcons]
        exact kindAt_at 0
      unfold Program.statements
      rw [hnext]
      simp only
      rw [tokens, htolerant, statements]
      exact congrArg _ (ih hbehind (by omega) (by omega))

/-- The program of a script: the opening tag, and the statements of the lines. -/
theorem parse_print (lines : List Line) :
    Program.parse (prologue ++ print lines) = .other :: statements 6 lines := by
  let ts := tokens 6 lines
  let tag : Token := ⟨.openTag, 0, "<?php"⟩
  let c : Cursor := Cursor.start ((tag :: ts).map .token)
  have hstream : Program.ofItems ((tag :: ts).map .token) =
      Program.statements (Grammar.ofDepth (2 * ts.length + 1 + 3)) (ts.length + 2)
        (c.at 0 (tag :: ts)) := by
    unfold Program.ofItems
    rw [List.length_map, List.length_cons]
    rfl
  have htag : (Grammar.ofDepth (2 * ts.length + 1 + 3)).tolerantStatement (c.at 0 (tag :: ts)) =
      (some (some .other), c.at 5 ts) :=
    Grammar.tolerantStatement_at (by decide) (Grammar.anyStatement_openTag rfl)
  have hnext : nextKind (c.at 0 (tag :: ts)) = (some (some .openTag), c.at 0 (tag :: ts)) :=
    kindAt_at 0
  have hdepth : c.depth + 1 < depthLimit := (by decide : 0 + 1 < depthLimit)
  have hlines : ts.length ≤ c.size := by
    change ts.length ≤ ((tag :: ts).map Item.token).length
    rw [List.length_map]
    exact Nat.le_succ _
  rw [Program.parse, tokenize_print]
  refine hstream.trans ?_
  unfold Program.statements
  rw [hnext]
  simp only
  rw [htag]
  refine congrArg _ (statements_at lines _ hdepth (by decide) ?_ hlines)
  exact Nat.lt_succ_of_le (length_le_tokens lines 6)

end BlockExports.Script
