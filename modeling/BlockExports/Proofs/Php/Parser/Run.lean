import BlockExports.Php.Program
import BlockExports.Proofs.Php.Parser.Basic

/-!
Running the parsers on tokens.

Before nothing but tokens a parser is at a place (`Cursor.at`), where looking ahead changes nothing.
Each lemma takes one parser from such a place to another and says what it reads on the way: first
the single tokens, then operands, assignments and calls, and at last whole statements.
-/

namespace BlockExports.Php

/-- The place before some tokens, with the offset behind the last one that was taken. -/
def Cursor.at (c : Cursor) (position : Nat) (ts : List Token) : Cursor :=
  { c with items := ts.map .token, position }

/-- Within one more expression. -/
def Cursor.deeper (c : Cursor) : Cursor := { c with depth := c.depth + 1 }

namespace Parser

variable {α β : Type} {c : Cursor} {position : Nat} {t : Token} {ts : List Token}

/-! ### Single tokens -/

theorem bind_of_some {p : Parser α} {f : α → Parser β} {c c' : Cursor} {a : α}
    (h : p c = (some a, c')) : (p >>= f) c = f a c' := by
  rw [bind_apply, h]

theorem pure_apply (a : α) (c : Cursor) : (pure a : Parser α) c = (some a, c) := rfl

theorem look_tokens (n : Nat) (ts : List Token) :
    look n (ts.map .token) = (ts[n]?.elim .ending .token, ts.map .token) := by
  induction ts generalizing n with
  | nil => cases n <;> rfl
  | cons t ts ih =>
      cases n with
      | zero => rfl
      | succ n => simp [look, ih]

theorem peekAt_at (n : Nat) : peekAt n (c.at position ts) = (some ts[n]?, c.at position ts) := by
  have hlook : look n (c.at position ts).items = (ts[n]?.elim .ending .token, ts.map .token) :=
    look_tokens n ts
  rw [peekAt_apply, hlook]
  cases ts[n]? <;> rfl

theorem kindAt_at (n : Nat) :
    kindAt n (c.at position ts) = (some (ts[n]?.map Token.kind), c.at position ts) := by
  unfold kindAt
  rw [bind_of_some (peekAt_at n)]
  rfl

/-- Whoever looks at the next token goes on in front of it. -/
theorem peek_bind {f : Option Token → Parser α} :
    (peekAt 0 >>= f) (c.at position (t :: ts)) = f (some t) (c.at position (t :: ts)) :=
  bind_of_some (peekAt_at 0)

theorem nextKind_bind {f : Option Kind → Parser α} :
    (nextKind >>= f) (c.at position (t :: ts)) = f (some t.kind) (c.at position (t :: ts)) :=
  bind_of_some (kindAt_at 0)

theorem recovering_of_some {p : Parser α} {c c' : Cursor} {a : α} (h : p c = (some a, c')) :
    recovering p c = (some (some a), c') := by
  rw [recovering, h]

theorem take_at : take (c.at position (t :: ts)) = (some t, c.at t.stop ts) := by
  unfold take
  rw [peek_bind]
  rfl

theorem skip_at : skip (c.at position (t :: ts)) = (some (), c.at t.stop ts) := by
  unfold skip
  rw [bind_of_some take_at]
  rfl

theorem expect_at : expect t.kind (c.at position (t :: ts)) = (some (), c.at t.stop ts) := by
  unfold expect
  rw [nextKind_bind]
  simp [skip_at]

theorem accept_at_of_ne {kind : Kind} (h : t.kind ≠ kind) :
    accept kind (c.at position (t :: ts)) = (some false, c.at position (t :: ts)) := by
  unfold accept
  rw [nextKind_bind]
  simp [h, pure_apply]

theorem isLabel_at_of_not_word {kind : Kind} (h : kind.isWord = false) :
    isLabel kind (c.at position ts) = (some false, c.at position ts) := by
  unfold isLabel
  simp [h, pure_apply]

theorem ahead_at : ahead (c.at position ts) = (some c.size, c.at position ts) := rfl

theorem terminator_at (h : t.kind = .semicolon) :
    terminator (c.at position (t :: ts)) = (some (), c.at t.stop ts) := by
  unfold terminator
  rw [nextKind_bind]
  simp [h, skip_at]

theorem nested_at {p : Parser α} (hdepth : c.depth < depthLimit) {result : Option α}
    {position' : Nat} {ts' : List Token}
    (h : p (c.deeper.at position ts) = (result, c.deeper.at position' ts')) :
    nested p (c.at position ts) = (result, c.at position' ts') := by
  have hroom : (c.at position ts).depth < depthLimit := hdepth
  have hdeeper : { c.at position ts with depth := (c.at position ts).depth + 1 } =
      c.deeper.at position ts := rfl
  unfold nested
  rw [if_pos hroom, hdeeper, h]
  rfl

end Parser

namespace Grammar

open Php.Parser

variable {g : Grammar} {c : Cursor} {position : Nat} {t : Token} {ts : List Token}

/-! ### Expressions -/

/-- A token that continues no expression. -/
def Ends (kind : Kind) : Prop := kind.suffixLevel? = none ∧ kind.binaryLevel? = none

theorem continued_at (hend : Ends t.kind) (level : Level) (limit : Nat) (left : Expression) :
    g.continued level limit left (c.at position (t :: ts)) =
      (some left, c.at position (t :: ts)) := by
  cases limit with
  | zero => rfl
  | succ limit =>
      unfold continued
      rw [nextKind_bind]
      simp [hend.1, hend.2, pure_apply]

/-- An operand at which the expression ends. -/
theorem expressionAt_operand (hdepth : c.depth < depthLimit) {level : Level} {e : Expression}
    {position' : Nat} {ts' : List Token} (hend : Ends t.kind)
    (h : g.operand level (c.deeper.at position ts') =
      (some e, c.deeper.at position' (t :: ts))) :
    g.expressionAt level (c.at position ts') = (some e, c.at position' (t :: ts)) := by
  refine nested_at hdepth ?_
  rw [bind_of_some h, bind_of_some ahead_at]
  exact continued_at hend level _ e

/-- The operand that a single token makes, whatever follows. -/
def operandOf? (t : Token) : Option Expression :=
  match t.kind with
  | .variable => some (.variable ⟨t.text, t.start⟩)
  | .name => some (.name t.text)
  | .string => some (.literal .string)
  | .number => some (.literal .number)
  | _ => none

theorem operand_single {e : Expression} (h : operandOf? t = some e) (level : Level) :
    g.operand level (c.at position (t :: ts)) = (some e, c.at t.stop ts) := by
  have hskip (e : Expression) :
      (skip >>= fun _ => pure e) (c.at position (t :: ts)) = (some e, c.at t.stop ts) := by
    rw [bind_of_some skip_at]
    rfl
  unfold operand
  rw [peek_bind]
  simp only
  rw [bind_of_some (kindAt_at 1)]
  unfold operandOf? at h
  split at h
  · next hkind =>
    obtain rfl := Option.some.inj h
    simp only [hkind]
    exact hskip _
  · next hkind =>
    obtain rfl := Option.some.inj h
    simp only [hkind]
    exact hskip _
  · next hkind =>
    obtain rfl := Option.some.inj h
    simp only [hkind]
    exact hskip _
  · next hkind =>
    obtain rfl := Option.some.inj h
    simp only [hkind]
    exact hskip _
  · simp at h

/-- The literal that a reserved word makes. -/
def literalOf? : Keyword → Option Literal
  | .true_ | .false_ => some .boolean
  | .null => some .null
  | _ => none

theorem operand_word {w : Keyword} {l : Literal} (hw : literalOf? w = some l)
    (hkind : t.kind = .keyword w) {u : Token} (hu : u.kind = .semicolon) (level : Level) :
    g.operand level (c.at position (t :: u :: ts)) =
      (some (.literal l), c.at t.stop (u :: ts)) := by
  have hword (l : Literal) : wordLiteral level (some .semicolon) l (c.at position (t :: u :: ts)) =
      (some (.literal l), c.at t.stop (u :: ts)) := by
    unfold wordLiteral
    rw [bind_of_some take_at]
    rfl
  unfold operand
  rw [peek_bind]
  simp only
  rw [bind_of_some (kindAt_at 1)]
  simp only [hkind, List.getElem?_cons_succ, List.getElem?_cons_zero, Option.map_some, hu]
  unfold literalOf? at hw
  split at hw
  · obtain rfl := Option.some.inj hw
    exact hword _
  · obtain rfl := Option.some.inj hw
    exact hword _
  · obtain rfl := Option.some.inj hw
    exact hword _
  · simp at hw

theorem commaList_at {α : Type} (element : Parser α) (closing : Kind) :
    commaList element closing (c.at position ts) =
      commaListFrom element closing (c.size + 1) (c.at position ts) := by
  unfold commaList
  rw [bind_of_some ahead_at]

theorem commaListFrom_closing {α : Type} (element : Parser α) (limit : Nat) :
    commaListFrom element t.kind (limit + 1) (c.at position (t :: ts)) =
      (some [], c.at t.stop ts) := by
  unfold commaListFrom
  rw [nextKind_bind]
  simp only [if_true]
  rw [bind_of_some skip_at]
  rfl

theorem operand_emptyArray (hopen : t.kind = .openBracket) {u : Token}
    (hclose : u.kind = .closeBracket) (level : Level) :
    g.operand level (c.at position (t :: u :: ts)) = (some .array, c.at u.stop ts) := by
  have helements : g.arrayElements .closeBracket (c.at t.stop (u :: ts)) =
      (some (), c.at u.stop ts) := by
    have hlist : commaList g.arrayElement .closeBracket (c.at t.stop (u :: ts)) =
        (some [], c.at u.stop ts) := by
      rw [commaList_at, ← hclose, commaListFrom_closing]
    unfold arrayElements
    rw [bind_of_some hlist]
    rfl
  unfold operand
  rw [peek_bind]
  simp only
  rw [bind_of_some (kindAt_at 1)]
  simp only [hopen]
  rw [bind_of_some skip_at, bind_of_some helements]
  rfl

/-! ### Assignments -/

/-- A variable, the sign of an assignment and a value at which the expression ends. -/
theorem expressionAt_assignment {v assign : Token} (hv : v.kind = .variable)
    (hassign : assign.kind = .assign) (hend : Ends t.kind) (hdepth : c.depth < depthLimit)
    (hsize : 0 < c.size) {position' : Nat} {us : List Token} {value : Expression}
    (hplain : accept .ampersand (c.deeper.at assign.stop us) =
      (some false, c.deeper.at assign.stop us))
    (hvalue : g.expression .assignment (c.deeper.at assign.stop us) =
      (some value, c.deeper.at position' (t :: ts))) :
    g.expressionAt .lowest (c.at position (v :: assign :: us)) =
      (some (.assignment (.variable ⟨v.text, v.start⟩) value), c.at position' (t :: ts)) := by
  refine nested_at hdepth ?_
  have hoperand : operandOf? v = some (.variable ⟨v.text, v.start⟩) := by
    rw [operandOf?, hv]
  have hjoined : g.joined (.variable ⟨v.text, v.start⟩) .assign .assignment
      (c.deeper.at v.stop (assign :: us)) =
        (some (.assignment (.variable ⟨v.text, v.start⟩) value),
          c.deeper.at position' (t :: ts)) := by
    unfold joined
    simp only
    rw [bind_of_some skip_at, bind_of_some hplain]
    simp only [Bool.false_eq_true, if_false]
    rw [bind_of_some hvalue]
    rfl
  obtain ⟨limit, hlimit⟩ : ∃ limit, c.deeper.size = limit + 1 :=
    Nat.exists_eq_succ_of_ne_zero (Nat.ne_of_gt hsize)
  rw [bind_of_some (operand_single hoperand .lowest), bind_of_some ahead_at, hlimit]
  unfold continued
  rw [nextKind_bind]
  simp only [hassign, Kind.suffixLevel?,
    Kind.binaryLevel?]
  rw [if_neg (by decide), bind_of_some hjoined]
  exact continued_at hend _ _ _

/-! ### Calls -/

/-- A variable as an argument that is handed over by its place. -/
theorem argument_single {e : Expression} {u : Token} (ht : t.kind = .variable)
    (hvariable : g.expression .lowest (c.at position (t :: u :: ts)) =
      (some e, c.at t.stop (u :: ts))) :
    g.argument (c.at position (t :: u :: ts)) =
      (some (some (.positional, e)), c.at t.stop (u :: ts)) := by
  unfold argument
  rw [nextKind_bind]
  simp only [ht]
  rw [bind_of_some (isLabel_at_of_not_word rfl)]
  simp only [Bool.false_eq_true, if_false]
  rw [bind_of_some hvariable]
  rfl

section Lists

variable {α : Type} {element : Parser α} {a : α} {u : Token} (ht : t.kind ≠ .closeParen)
  (helement : element (c.at position (t :: u :: ts)) = (some a, c.at t.stop (u :: ts)))

include ht helement

/-- The last element of a list in parentheses. -/
theorem commaListFrom_last (hu : u.kind = .closeParen) (limit : Nat) :
    commaListFrom element .closeParen (limit + 1) (c.at position (t :: u :: ts)) =
      (some [a], c.at u.stop ts) := by
  unfold commaListFrom
  rw [nextKind_bind]
  simp only [if_neg ht]
  rw [bind_of_some (recovering_of_some helement), nextKind_bind]
  simp only [hu, if_true]
  rw [bind_of_some skip_at]
  rfl

/-- An element with a comma behind it. -/
theorem commaListFrom_next (hu : u.kind = .comma) {limit : Nat} {as : List α} {c' : Cursor}
    (hrest : commaListFrom element .closeParen limit (c.at u.stop ts) = (some as, c')) :
    commaListFrom element .closeParen (limit + 1) (c.at position (t :: u :: ts)) =
      (some (a :: as), c') := by
  unfold commaListFrom
  rw [nextKind_bind]
  simp only [if_neg ht]
  rw [bind_of_some (recovering_of_some helement), nextKind_bind]
  simp only [hu]
  rw [bind_of_some skip_at, bind_of_some hrest]
  rfl

end Lists

/-- A name, its arguments in parentheses, and the end of the expression. -/
theorem expressionAt_call {name paren : Token} (hname : name.kind = .name)
    (hparen : paren.kind = .openParen) (hend : Ends t.kind) (hdepth : c.depth < depthLimit)
    (hsize : 0 < c.size) {position' : Nat} {us : List Token}
    {arguments : List (Passing × Expression)}
    (harguments : commaList g.argument .closeParen (c.deeper.at paren.stop us) =
      (some (arguments.map some), c.deeper.at position' (t :: ts))) :
    g.expressionAt .lowest (c.at position (name :: paren :: us)) =
      (some (.call (.name name.text) arguments), c.at position' (t :: ts)) := by
  refine nested_at hdepth ?_
  have hoperand : operandOf? name = some (.name name.text) := by
    rw [operandOf?, hname]
  have hsuffixed : g.suffixed .lowest (.name name.text) .openParen
      (c.deeper.at name.stop (paren :: us)) =
        (some (.call (.name name.text) arguments), c.deeper.at position' (t :: ts)) := by
    have hall : g.arguments (c.deeper.at name.stop (paren :: us)) =
        (some (arguments.map some), c.deeper.at position' (t :: ts)) := by
      unfold Grammar.arguments
      rw [← hparen, bind_of_some expect_at]
      exact harguments
    have hcall : callOf (.name name.text) (arguments.map some) =
        .call (.name name.text) arguments := by
      simp [callOf]
    unfold suffixed
    simp only
    rw [bind_of_some hall, hcall]
    rfl
  obtain ⟨limit, hlimit⟩ : ∃ limit, c.deeper.size = limit + 1 :=
    Nat.exists_eq_succ_of_ne_zero (Nat.ne_of_gt hsize)
  rw [bind_of_some (operand_single hoperand .lowest), bind_of_some ahead_at, hlimit]
  unfold continued
  rw [nextKind_bind]
  simp only [hparen, Kind.suffixLevel?]
  rw [if_neg (by decide), bind_of_some hsuffixed]
  exact continued_at hend _ _ _

/-! ### Statements -/

theorem expressionStatement_at {e : Expression} {position' : Nat} {us : List Token}
    (ht : t.kind = .semicolon)
    (h : g.expression .lowest (c.at position us) = (some e, c.at position' (t :: ts))) :
    g.expressionStatement (c.at position us) = (some (.expression e), c.at t.stop ts) := by
  unfold expressionStatement
  rw [bind_of_some h, bind_of_some (terminator_at ht)]
  rfl

/-- A statement that starts with a variable. -/
theorem anyStatement_variable {v : Token} {us : List Token} {e : Expression} {position' : Nat}
    (hv : v.kind = .variable) (ht : t.kind = .semicolon)
    (h : g.expression .lowest (c.at position (v :: us)) = (some e, c.at position' (t :: ts))) :
    g.anyStatement (c.at position (v :: us)) = (some (.expression e), c.at t.stop ts) := by
  unfold anyStatement
  rw [nextKind_bind]
  simp only [hv]
  unfold plainStatement
  rw [bind_of_some (isLabel_at_of_not_word rfl)]
  simp only [Bool.false_eq_true, if_false]
  exact expressionStatement_at ht h

/-- A statement that starts with the name of a function. -/
theorem anyStatement_name {name paren : Token} {us : List Token} {e : Expression} {position' : Nat}
    (hname : name.kind = .name) (hparen : paren.kind = .openParen) (ht : t.kind = .semicolon)
    (h : g.expression .lowest (c.at position (name :: paren :: us)) =
      (some e, c.at position' (t :: ts))) :
    g.anyStatement (c.at position (name :: paren :: us)) =
      (some (.expression e), c.at t.stop ts) := by
  have hlabel : isLabel .name (c.at position (name :: paren :: us)) =
      (some false, c.at position (name :: paren :: us)) := by
    unfold isLabel
    rw [if_pos (by decide), bind_of_some (kindAt_at 1)]
    simp [hparen, pure_apply]
  unfold anyStatement
  rw [nextKind_bind]
  simp only [hname]
  unfold plainStatement
  rw [bind_of_some hlabel]
  simp only [Bool.false_eq_true, if_false]
  exact expressionStatement_at ht h

theorem anyStatement_openTag (ht : t.kind = .openTag) :
    g.anyStatement (c.at position (t :: ts)) = (some .other, c.at t.stop ts) := by
  unfold anyStatement
  rw [nextKind_bind]
  simp only [ht]
  unfold statementOf
  rw [bind_of_some skip_at]
  rfl

/-- A statement that ends further on than it started is read as it is. -/
theorem tolerantStatement_at {s : Statement} {us : List Token} {position' : Nat}
    (hmoved : position' ≠ position)
    (h : g.statement (c.at position us) = (some s, c.at position' ts)) :
    g.tolerantStatement (c.at position us) = (some (some s), c.at position' ts) := by
  have hget (position : Nat) (ts : List Token) :
      (get : Parser Cursor) (c.at position ts) = (some (c.at position ts), c.at position ts) := rfl
  have hplace (position : Nat) (ts : List Token) : (c.at position ts).position = position := rfl
  unfold tolerantStatement advancing
  rw [bind_of_some (hget _ _), bind_of_some (recovering_of_some h), bind_of_some (hget _ _)]
  rw [hplace, hplace, if_neg hmoved]
  rfl

end Grammar

end BlockExports.Php
