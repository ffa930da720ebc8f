import BlockExports.Php.Parser.Expression
import BlockExports.Proofs.Php.Parser.Declaration
import Mathlib.Tactic.SplitIfs

/-!
The variables of an expression stand in the text in the order in which the expression has them.

Most operands and continuations lose what they are made of. Variables are left in an operand that is
one, in parentheses, in an assignment and in a call.
-/

namespace BlockExports.Php.Grammar

open Php.Parser

/-- A call has the variables of what is called and those of its arguments. -/
theorem allVariables_callOf (callee : Expression)
    (arguments : List (Option (Passing × Expression))) :
    (callOf callee arguments).allVariables.Sublist
      (callee.allVariables ++ arguments.flatMap argumentVariables) := by
  have hcomplete : (arguments.filterMap id).flatMap (·.2.allVariables) =
      arguments.flatMap argumentVariables := by
    induction arguments with
    | nil => rfl
    | cons argument arguments ih => cases argument <;> simp_all
  have hcall : (Expression.call callee (arguments.filterMap id)).allVariables =
      callee.allVariables ++ arguments.flatMap argumentVariables := by
    rw [Expression.allVariables_call, hcomplete]
  unfold callOf
  split
  · exact hcall ▸ .refl _
  · exact List.nil_sublist _

section Faithful

variable {g : Grammar} (hg : g.Faithful)

include hg

/-! ### Parts of operands -/

@[grind .] theorem advances_computedVariable : Advances g.computedVariable := by
  have hdollars : Advances (untilDone do pure !(← accept .dollar)) :=
    .untilDone <| (advances_accept _).bind fun _ => .pure _
  refine hdollars.bind fun _ => advances_nextKind.bind fun kind => ?_
  split
  · exact advances_skip.bind fun _ => (advances_anyExpression hg).bind fun _ => advances_expect _
  · exact advances_expect _

@[grind .] theorem advances_stringParts (closing : Kind) : Advances (g.stringParts closing) := by
  refine .untilDone <| advances_nextKind.bind fun kind => ?_
  split
  · exact .failure
  · exact advances_skip.bind fun _ => .pure _
  · refine advances_skip.bind fun _ => ((advances_anyExpression hg).inString _).bind fun _ => ?_
    exact (advances_expect _).bind fun _ => .pure _
  · exact (advances_skip.bind fun _ => .pure _).ite <|
      ((advances_anyExpression hg).inString _).bind fun _ => .pure _

theorem advances_arrayElement : Advances g.arrayElement := by
  refine advances_nextKind.bind fun kind => ?_
  split
  · exact .pure _
  · exact advances_skip.bind fun _ => advances_anyExpression hg
  · exact (advances_anyExpression hg).bind fun _ => (advances_accept _).bind fun _ =>
      (advances_anyExpression hg).ite (.pure _)

@[grind .] theorem advances_arrayElements (closing : Kind) : Advances (g.arrayElements closing) :=
  ((advances_arrayElement hg).commaList _).bind fun _ => .pure _

@[grind .] theorem advances_matchArm : Advances g.matchArm := by
  have hconditions := (advances_anyExpression hg).commaSeparatedBefore (· = .doubleArrow)
  refine (advances_accept _).bind fun _ => .optional hconditions ?_
  exact (advances_expect _).bind fun _ => advances_anyExpression hg

@[grind .] theorem advances_instantiation : Advances g.instantiation := by
  refine advances_nextKind.bind fun kind => .ite ?_ ?_
  · refine (advances_attributes hg).bind fun _ => advances_modifiers.bind fun _ => ?_
    exact (advances_expect _).bind fun _ => advances_anonymousClass hg
  · exact (advances_expression hg _).bind fun _ => advances_optionalArguments hg

@[grind .] theorem advances_yielded : Advances g.yielded := by
  refine advances_nextKind.bind fun kind => ?_
  split
  · exact advances_skip.bind fun _ => (advances_expression hg _).bind fun _ => .pure _
  case h_9 =>
    refine (advances_expression hg _).bind fun _ => ?_
    refine (advances_accept _).bind fun _ => .ite ?_ (.pure _)
    exact (advances_expression hg _).bind fun _ => .pure _
  all_goals exact .pure _

@[grind .] theorem advances_anonymousFunction : Advances g.anonymousFunction := by
  refine advances_nextKind.bind fun first => (advances_kindAt 1).bind fun second => ?_
  dsimp only
  split
  · refine .optional advances_skip ?_
    exact advances_skip.bind fun _ => advances_arrowFunction hg
  · refine .optional advances_skip ?_
    exact advances_skip.bind fun _ => advances_closure hg
  · exact .failure

theorem advances_selector : Advances g.selector := by
  refine advances_nextKind.bind fun kind => ?_
  split
  · exact advances_computedVariable hg
  · exact advances_computedVariable hg
  · exact advances_computedVariable hg
  · exact advances_skip.bind fun _ => (advances_anyExpression hg).bind fun _ => advances_expect _
  · exact advances_skip.ite (.pure _)
  · exact .pure _

theorem advances_methodArguments (level : Level) (kind : Kind) :
    Advances (g.methodArguments level kind) := by
  refine .ite (.ite (advances_optionalArguments hg) ?_) (.pure _)
  refine advances_nextKind.bind fun _ => .ite ?_ (.pure _)
  exact (advances_arguments hg).bind fun _ => .pure _

/-! ### Calls -/

theorem keeps_copyArguments (limit : Nat) :
    Keeps [] (g.copyArguments limit) (List.flatMap argumentVariables) := by
  induction limit with
  | zero =>
      unfold copyArguments
      exact .failure
  | succ limit ih =>
      unfold copyArguments
      refine (advances_accept _).keeps_bind fun closed => .ite (.pure (.refl _)) ?_
      refine (keeps_argument hg).bind fun first => (advances_accept _).keeps_bind fun more => ?_
      refine .ite ?_ ?_
      · exact (ih.frame _).map fun rest => by simp
      · exact (advances_expect _).keeps_bind fun _ => .pure (by simp)

theorem keeps_copy (keyword : Token) : Keeps [] (g.copy keyword) Expression.allVariables := by
  refine (advances_accept _).keeps_bind fun opened => .ite ?_ ?_
  · refine advances_ahead.keeps_bind fun limit => ?_
    refine (keeps_copyArguments hg _).bind fun arguments => ?_
    split
    · exact .pure (List.nil_sublist _)
    · exact .pure (List.nil_sublist _)
    · exact .pure (allVariables_callOf _ _)
  · exact (advances_expression hg _).keeps_bind fun _ => .pure (.refl _)

/-! ### Operands -/

omit hg in
@[grind .] theorem keeps_construct (before : List Variable) {rest : Parser Unit}
    (hrest : Advances rest) : Keeps before (construct rest) Expression.allVariables :=
  advances_skip.keeps_bind fun _ => hrest.keeps_bind fun _ => .pure (List.nil_sublist _)

omit hg in
@[grind .] theorem keeps_missingOperand (level : Level) (kind : Kind) :
    Keeps [] (missingOperand level kind) Expression.allVariables := by
  unfold missingOperand
  split
  · exact advances_skip.keeps_bind fun _ => .pure (.refl _)
  · exact .pure (.refl _)

omit hg in
@[grind .] theorem keeps_wordLiteral (level : Level) (followed : Option Kind) (literal : Literal) :
    Keeps [] (wordLiteral level followed literal) Expression.allVariables := by
  refine advances_take.keeps_bind fun t => ?_
  split
  · split
    all_goals exact .pure (.refl _)
  all_goals exact .pure (.refl _)

omit hg in
@[grind .] theorem keeps_strayWord (level : Level) (w : Keyword) :
    Keeps [] (strayWord level w) Expression.allVariables := by
  refine advances_get.keeps_bind fun c => .ite ?_ (keeps_missingOperand level _)
  exact advances_take.keeps_bind fun t => .pure (List.nil_sublist _)

@[grind .] theorem keeps_operandAt (level : Level) :
    Keeps [] (g.operandAt level) Expression.allVariables :=
  advances_skip.keeps_bind fun _ => (advances_expression hg _).keeps_bind fun _ => .pure (.refl _)

@[grind .] theorem keeps_wordOperand (level : Level) (followed : Option Kind) (w : Keyword) :
    Keeps [] (g.wordOperand level followed w) Expression.allVariables := by
  unfold wordOperand
  split
  all_goals grind [keeps_copy]

/-- A variable is the token that it is read from. -/
theorem keeps_operand (level : Level) : Keeps [] (g.operand level) Expression.allVariables := by
  unfold operand
  refine Keeps.peek Keeps.failure fun t items c hitems => ?_
  by_cases hvariable : t.kind = .variable
  · -- the token behind is only looked at, so the variable is the one thing that is taken
    have hlook := kindAt_snd 1 c
    rw [hitems, look] at hlook
    have hahead : ([(⟨t.text, t.start⟩ : Variable)] ++ variablesIn (look 0 items).2).Sublist
        (variablesIn c.items) := by
      rw [hitems, variablesIn_token, if_pos hvariable]
      exact (variablesIn_look 0 items).append_left _
    simp only [hvariable]
    rw [bind_apply]
    cases hkind : kindAt 1 c with
    | mk result c' =>
        rw [hkind] at hlook
        obtain rfl : c' = _ := hlook
        cases result with
        | none =>
            rw [variablesIn_token, if_pos hvariable]
            exact hahead
        | some followed =>
            simp only
            rw [bind_apply, skip_apply rfl]
            exact hahead
  · -- every other kind has a lemma of its own, but for the parentheses
    have hparenthesized : Keeps [] (do
        let inner ← g.expression .lowest
        expect .closeParen
        pure (.parenthesized inner)) Expression.allVariables :=
      (hg.expression _).bind fun inner => (advances_expect _).keeps_bind fun _ => .pure (.refl _)
    refine @Advances.keeps_bind _ _ [] _ _ _ (advances_kindAt 1) (fun followed => ?_) c
    split
    all_goals grind

/-! ### Continuations -/

theorem keeps_suffixed (level : Level) (left : Expression) (kind : Kind) :
    Keeps left.allVariables (g.suffixed level left kind) Expression.allVariables := by
  unfold suffixed
  split
  · exact ((keeps_arguments hg).frame _).map fun arguments => allVariables_callOf left arguments
  · refine keeps_construct _ <| (advances_accept _).bind fun _ => .ite ?_ (.pure _)
    exact (advances_anyExpression hg).bind fun _ => advances_expect _
  · exact keeps_construct _ (.pure _)
  · exact keeps_construct _ <| (advances_selector hg).bind fun _ => advances_methodArguments hg _ _

theorem keeps_joined (left : Expression) (kind : Kind) (level : Level) :
    Keeps left.allVariables (g.joined left kind level) Expression.allVariables := by
  unfold joined
  split
  · refine advances_skip.keeps_bind fun _ => (advances_accept _).keeps_bind fun byReference => ?_
    split
    · refine (advances_expression hg _).keeps_bind fun _ => Keeps.pure ?_
      simpa using Expression.allVariables_assign left .operation
    · exact ((hg.expression _).frame _).map fun value => Expression.allVariables_assign left value
  · refine advances_skip.keeps_bind fun _ => ?_
    exact ((hg.expression _).frame _).map fun value => Expression.allVariables_assign left value
  · have hright : Keeps left.allVariables (do
        let _ ← g.expression level
        pure .operation) Expression.allVariables :=
      (advances_expression hg _).keeps_bind fun _ => .pure (List.nil_sublist _)
    refine (advances_kindAt 1).keeps_bind fun followed => .ite ?_ ?_
    · exact advances_skip.keeps_bind fun _ => advances_skip.keeps_bind fun _ => hright
    · refine advances_skip.keeps_bind fun _ => (advances_anyExpression hg).keeps_bind fun _ => ?_
      exact (advances_expect _).keeps_bind fun _ => hright
  · refine advances_skip.keeps_bind fun _ => (advances_expression hg _).keeps_bind fun _ => ?_
    refine .pure ?_
    split
    all_goals exact List.nil_sublist _

theorem keeps_continued (level : Level) (limit : Nat) (left : Expression) :
    Keeps left.allVariables (g.continued level limit left) Expression.allVariables := by
  induction limit generalizing left with
  | zero =>
      unfold continued
      exact Keeps.pure (.refl _)
  | succ limit ih =>
      unfold continued
      refine advances_nextKind.keeps_bind fun kind => ?_
      split
      · exact Keeps.pure (.refl _)
      · split
        · split_ifs
          · exact Keeps.pure (.refl _)
          · exact (keeps_suffixed hg _ _ _).bind ih
        · split
          · exact Keeps.pure (.refl _)
          · exact (keeps_joined hg _ _ _).bind ih
        · exact Keeps.pure (.refl _)

theorem keeps_expressionAt (level : Level) :
    Keeps [] (g.expressionAt level) Expression.allVariables :=
  ((keeps_operand hg level).bind fun left =>
    advances_ahead.keeps_bind fun limit => keeps_continued hg level limit left).nested

end Faithful

end BlockExports.Php.Grammar
