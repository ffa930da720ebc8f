import BlockExports.Php.Parser.Statement
import BlockExports.Proofs.Php.Parser.Expression

/-!
The variables of a statement: those of its expression, if it is an expression statement.
-/

namespace BlockExports.Php.Grammar

open Php.Parser

theorem advances_importedName : Advances importedName :=
  advances_anyName.bind fun _ => (advances_accept _).bind fun _ => advances_word.ite (.pure _)

theorem advances_importedGroup {item : Parser Unit} (hitem : Advances item) :
    Advances (importedGroup item) :=
  advances_anyName.bind fun _ => (advances_expect _).bind fun _ => (advances_expect _).bind fun _ =>
    (hitem.commaSeparatedBefore _).bind fun _ => advances_expect _

@[grind .] theorem advances_useStatement : Advances useStatement := by
  have hsecond : Advances (do
      if (← nextKind).any isImportKind then skip
      importedName) :=
    advances_nextKind.bind fun _ => .optional advances_skip advances_importedName
  refine advances_nextKind.bind fun first => (advances_kindAt _).bind fun second => ?_
  refine .optional advances_skip ?_
  split
  · exact (advances_importedName.commaSeparatedBefore _).bind fun _ => advances_terminator
  · split
    · exact (advances_importedGroup advances_importedName).bind fun _ => advances_terminator
    · exact (advances_importedGroup hsecond).bind fun _ => advances_terminator

@[grind .] theorem advances_haltStatement : Advances haltStatement :=
  (advances_expect _).bind fun _ => (advances_expect _).bind fun _ => advances_terminator

theorem advances_caseSeparator : Advances caseSeparator := advances_takeWhich _

@[grind .] theorem keeps_statementOf {rest : Parser Unit} (hrest : Advances rest) :
    Keeps [] (statementOf rest) Statement.allVariables :=
  advances_skip.keeps_bind fun _ => hrest.keeps_bind fun _ => .pure (.refl _)

section Faithful

variable {g : Grammar} (hg : g.Faithful)

include hg

/-! ### Branches and loops -/

@[grind .] theorem advances_values : Advances g.values :=
  ((advances_anyExpression hg).commaSeparatedBefore _).bind fun _ => advances_terminator

@[grind .] theorem advances_optionalResult : Advances g.optionalResult :=
  advances_nextKind.bind fun _ => .optional (advances_anyExpression hg) advances_terminator

theorem advances_colonBody (closing : Keyword) : Advances (g.colonBody closing) :=
  (advances_statementsBefore hg _).bind fun _ =>
    (advances_expect _).bind fun _ => advances_terminator

theorem advances_body (closing : Keyword) : Advances (g.body closing) :=
  (advances_accept _).bind fun _ =>
    (advances_colonBody hg _).ite <| (advances_statement hg).bind fun _ => .pure _

theorem advances_colonBranches : Advances g.colonBranches := by
  refine (advances_statementsBefore hg _).bind fun _ => .bind ?_ fun _ => ?_
  · refine .untilDone <| (advances_accept _).bind fun _ => .ite ?_ (.pure _)
    refine (advances_condition hg).bind fun _ => (advances_expect _).bind fun _ => ?_
    exact (advances_statementsBefore hg _).bind fun _ => .pure _
  · have hend : Advances (do expect (.keyword .endif); terminator) :=
      (advances_expect _).bind fun _ => advances_terminator
    refine (advances_accept _).bind fun _ => .ite ?_ hend
    exact (advances_expect _).bind fun _ => (advances_statementsBefore hg _).bind fun _ => hend

theorem advances_branches : Advances g.branches := by
  refine (advances_statement hg).bind fun _ => .bind ?_ fun _ => ?_
  · refine .untilDone <| (advances_accept _).bind fun _ => .ite ?_ (.pure _)
    exact (advances_condition hg).bind fun _ => (advances_statement hg).bind fun _ => .pure _
  · refine (advances_accept _).bind fun _ => .ite ?_ (.pure _)
    exact (advances_statement hg).bind fun _ => .pure _

@[grind .] theorem advances_ifStatement : Advances g.ifStatement :=
  (advances_condition hg).bind fun _ => (advances_accept _).bind fun _ =>
    (advances_colonBranches hg).ite (advances_branches hg)

@[grind .] theorem advances_whileStatement : Advances g.whileStatement :=
  (advances_condition hg).bind fun _ => advances_body hg _

@[grind .] theorem advances_doStatement : Advances g.doStatement :=
  (advances_statement hg).bind fun _ => (advances_expect _).bind fun _ =>
    (advances_condition hg).bind fun _ => advances_terminator

theorem advances_expressionsUntil (closing : Kind) :
    Advances (g.expressionsUntil closing) :=
  ((advances_anyExpression hg).commaSeparatedBefore _).bind fun _ => advances_expect _

@[grind .] theorem advances_forStatement : Advances g.forStatement := by
  refine (advances_expect _).bind fun _ => (advances_expressionsUntil hg _).bind fun _ => ?_
  refine (advances_expressionsUntil hg _).bind fun _ => ?_
  exact (advances_expressionsUntil hg _).bind fun _ => advances_body hg _

@[grind .] theorem advances_foreachStatement : Advances g.foreachStatement := by
  refine (advances_expect _).bind fun _ => (advances_anyExpression hg).bind fun _ => ?_
  refine (advances_expect _).bind fun _ => (advances_anyExpression hg).bind fun _ => ?_
  refine (advances_accept _).bind fun _ => .optional (advances_anyExpression hg) ?_
  exact (advances_expect _).bind fun _ => advances_body hg _

theorem advances_cases (closing : Kind) : Advances (g.cases closing) := by
  have hrest : Advances (do caseSeparator; g.statementsBefore endsCase; pure false) :=
    advances_caseSeparator.bind fun _ => (advances_statementsBefore hg _).bind fun _ => .pure _
  refine advances_nextKind.bind fun _ => .optional advances_terminator ?_
  refine .bind (.untilDone <| advances_nextKind.bind fun kind => ?_) fun _ => advances_expect _
  split
  · exact advances_skip.bind fun _ => (advances_anyExpression hg).bind fun _ => hrest
  · exact advances_skip.bind fun _ => hrest
  · exact .pure _

@[grind .] theorem advances_switchStatement : Advances g.switchStatement := by
  refine (advances_condition hg).bind fun _ => (advances_accept _).bind fun _ => .ite ?_ ?_
  · exact (advances_cases hg _).bind fun _ => advances_terminator
  · exact (advances_expect _).bind fun _ => advances_cases hg _

@[grind .] theorem advances_tryStatement : Advances g.tryStatement := by
  refine (advances_block hg).bind fun _ => .bind ?_ fun _ => ?_
  · refine .untilDone <| (advances_accept _).bind fun _ => .ite ?_ (.pure _)
    refine (advances_expect _).bind fun _ => advances_anyType.bind fun _ => ?_
    refine (advances_accept _).bind fun _ => (advances_expect _).bind fun _ => ?_
    exact (advances_block hg).bind fun _ => .pure _
  · exact (advances_accept _).bind fun _ => (advances_block hg).ite (.pure _)

/-! ### Declarations -/

@[grind .] theorem advances_declareStatement : Advances g.declareStatement := by
  have hdirective : Advances (do word; expect .assign; g.anyExpression) :=
    advances_word.bind fun _ => (advances_expect _).bind fun _ => advances_anyExpression hg
  refine (advances_expect _).bind fun _ => (hdirective.commaSeparatedBefore _).bind fun _ => ?_
  exact (advances_expect _).bind fun _ => advances_body hg _

@[grind .] theorem advances_namespaceStatement : Advances g.namespaceStatement := by
  refine advances_nextKind.bind fun kind => ?_
  split
  case' h_4 => refine advances_anyName.bind fun _ => ?_
  all_goals
    refine advances_nextKind.bind fun kind => .ite (advances_block hg) ?_
    refine advances_terminator.bind fun _ => .untilDone <| advances_nextKind.bind fun kind => ?_
    split
    · exact .pure _
    · exact .pure _
    · exact (advances_tolerantStatement hg).bind fun _ => .pure _

@[grind .] theorem advances_globalStatement : Advances g.globalStatement :=
  ((advances_computedVariable hg).commaSeparatedBefore _).bind fun _ => advances_terminator

@[grind .] theorem advances_staticStatement : Advances g.staticStatement := by
  have hvariable : Advances (do expect .variable; g.optionalValue) :=
    (advances_expect _).bind fun _ => advances_optionalValue hg
  exact (hvariable.commaSeparatedBefore _).bind fun _ => advances_terminator

@[grind .] theorem advances_unsetStatement : Advances g.unsetStatement :=
  (advances_expect _).bind fun _ => (advances_expressionsUntil hg _).bind fun _ =>
    advances_terminator

@[grind .] theorem advances_qualifiedClass : Advances g.qualifiedClass :=
  advances_modifiers.bind fun _ => (advances_expect _).bind fun _ => advances_namedClass hg

/-! ### Statements -/

@[grind .] theorem keeps_expressionStatement :
    Keeps [] g.expressionStatement Statement.allVariables :=
  (hg.expression _).bind fun _ => advances_terminator.keeps_bind fun _ => .pure (.refl _)

theorem keeps_anonymousStatement :
    Keeps [] g.anonymousStatement Statement.allVariables :=
  (advances_anonymousFunction hg).keeps_bind fun _ => advances_terminator.keeps_bind fun _ =>
    .pure (.refl _)

@[grind .] theorem keeps_functionStatement :
    Keeps [] g.functionStatement Statement.allVariables := by
  refine (advances_kindAt 1).keeps_bind fun first => (advances_kindAt 2).keeps_bind fun second => ?_
  exact .ite (keeps_anonymousStatement hg) (keeps_statementOf (advances_function hg))

theorem keeps_declaration {w : Keyword} {declaration : Parser Statement}
    (h : g.declaration? w = some declaration) : Keeps [] declaration Statement.allVariables := by
  unfold declaration? at h
  split at h
  all_goals grind

theorem keeps_attributedStatement :
    Keeps [] g.attributedStatement Statement.allVariables := by
  refine (advances_attributes hg).keeps_bind fun _ => advances_nextKind.keeps_bind fun first => ?_
  refine (advances_kindAt 1).keeps_bind fun second => ?_
  split
  · refine .ite (keeps_anonymousStatement hg) ?_
    split
    · exact keeps_declaration hg ‹_›
    · exact .ite ((advances_qualifiedClass hg).keeps_bind fun _ => .pure (.refl _)) .failure
  · exact .failure

@[grind .] theorem keeps_plainStatement (kind : Kind) :
    Keeps [] (g.plainStatement kind) Statement.allVariables :=
  (advances_isLabel kind).keeps_bind fun _ =>
    (keeps_statementOf advances_skip).ite (keeps_expressionStatement hg)

theorem keeps_wordStatement (w : Keyword) :
    Keeps [] (g.wordStatement w) Statement.allVariables := by
  unfold wordStatement
  split
  all_goals grind [keeps_declaration]

theorem keeps_anyStatement : Keeps [] g.anyStatement Statement.allVariables := by
  refine advances_nextKind.keeps_bind fun kind => ?_
  split
  · exact .failure
  case h_6 => exact keeps_statementOf (advances_values hg)
  case h_7 => exact keeps_attributedStatement hg
  case h_8 => exact (advances_block hg).keeps_bind fun _ => .pure (.refl _)
  case h_9 w => exact keeps_wordStatement hg w
  case h_10 kind _ _ _ _ _ _ _ _ => exact keeps_plainStatement hg kind
  all_goals exact keeps_statementOf (.pure _)

end Faithful

end BlockExports.Php.Grammar
