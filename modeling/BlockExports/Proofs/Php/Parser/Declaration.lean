import BlockExports.Php.Parser.Declaration
import BlockExports.Proofs.Php.Parser.Basic

/-!
Declarations make up no variable: nothing is kept of them but the arguments of calls.
-/

namespace BlockExports.Php.Grammar

open Php.Parser

/-! ### Types and modifiers -/

theorem advances_unit {limit : Nat} (htype : Advances (type limit)) :
    Advances (type.unit limit) := by
  unfold type.unit
  refine advances_nextKind.bind fun kind => ?_
  split
  · exact advances_skip.bind fun _ => htype
  · exact advances_skip.bind fun _ => htype.bind fun _ => advances_expect _
  · exact advances_skip.ite .failure
  · exact .failure

theorem advances_type (limit : Nat) : Advances (type limit) := by
  induction limit with
  | zero =>
      unfold type
      exact .failure
  | succ limit ih =>
      have hunit := advances_unit ih
      have hmore : Advances (do skip; type.unit limit; pure false) :=
        advances_skip.bind fun _ => hunit.bind fun _ => .pure _
      unfold type
      refine hunit.bind fun _ => .untilDone <| advances_nextKind.bind fun kind => ?_
      split
      · exact hmore
      · refine (advances_kindAt 1).bind fun next => ?_
        split
        · exact .pure _
        · exact .pure _
        · exact .pure _
        · exact hmore
      · exact .pure _

theorem advances_anyType : Advances anyType :=
  advances_ahead.bind fun _ => advances_type _

theorem advances_optionalReturnType : Advances optionalReturnType :=
  (advances_accept _).bind fun _ => advances_anyType.ite (.pure _)

theorem advances_modifiers : Advances modifiers := by
  refine .untilDone <| advances_nextKind.bind fun kind => ?_
  split
  · exact (advances_skip.bind fun _ => .pure _).ite (.pure _)
  · exact .pure _

theorem advances_optionalNames (keyword : Keyword) :
    Advances (optionalNames keyword) :=
  (advances_accept _).bind fun _ => (advances_anyName.commaSeparated).ite (.pure _)

theorem advances_renamed : Advances adaptation.renamed := by
  have hname : Advances (do if (← nextKind).any Kind.isWord then skip) :=
    advances_nextKind.bind fun _ => advances_skip.ite (.pure _)
  refine (advances_expect _).bind fun _ => advances_nextKind.bind fun kind => ?_
  split
  · exact advances_skip.bind fun _ => hname
  · exact advances_skip.bind fun _ => hname
  · exact advances_skip.bind fun _ => hname
  · exact hname

theorem advances_adaptation : Advances adaptation := by
  have hrenamed : Advances (do adaptation.renamed; terminator) :=
    advances_renamed.bind fun _ => advances_terminator
  refine (advances_kindAt 1).bind fun kind => .ite ?_ ?_
  · refine advances_anyName.bind fun _ => advances_skip.bind fun _ => advances_word.bind fun _ => ?_
    refine (advances_accept _).bind fun _ => .ite ?_ hrenamed
    exact (advances_anyName.commaSeparatedBefore _).bind fun _ => advances_terminator
  · exact advances_word.bind fun _ => hrenamed

theorem advances_traitUse : Advances traitUse := by
  refine (advances_anyName.commaSeparatedBefore _).bind fun _ => ?_
  refine (advances_accept _).bind fun _ => ?_
  refine .ite (.untilDone <| (advances_accept _).bind fun _ => ?_) advances_terminator
  exact (Advances.pure _).ite <| advances_adaptation.bind fun _ => .pure _

section Faithful

variable {g : Grammar} (hg : g.Faithful)

include hg

/-! ### Arguments -/

theorem keeps_plainArgument : Keeps [] g.plainArgument (·.2.allVariables) := by
  have hvalue (passing : Passing) :
      Keeps [] (do pure (passing, ← g.expression .lowest)) (·.2.allVariables) :=
    (hg.expression .lowest).map fun _ => .refl _
  refine advances_nextKind.keeps_bind fun kind => ?_
  split
  · exact advances_skip.keeps_bind fun _ => hvalue .spread
  · refine (advances_isLabel _).keeps_bind fun _ => .ite ?_ (hvalue .positional)
    exact advances_skip.keeps_bind fun _ => advances_skip.keeps_bind fun _ => hvalue .named
  · exact .failure

theorem advances_plainArgument : Advances g.plainArgument :=
  (keeps_plainArgument hg).advances

theorem keeps_argument : Keeps [] g.argument argumentVariables := by
  have hvalue (passing : Passing) :
      Keeps [] (do pure (some (passing, ← g.expression .lowest))) argumentVariables :=
    (hg.expression .lowest).map fun _ => .refl _
  have hplaceholder : Keeps [] (do skip; pure none) argumentVariables :=
    advances_skip.keeps_bind fun _ => .pure (.refl _)
  refine advances_nextKind.keeps_bind fun kind => ?_
  split
  · refine (advances_kindAt 1).keeps_bind fun next => ?_
    split
    · exact hplaceholder
    · exact hplaceholder
    · exact hplaceholder
    · exact (keeps_plainArgument hg).map fun _ => .refl _
  · exact hplaceholder
  · refine (advances_isLabel _).keeps_bind fun _ => .ite ?_ (hvalue .positional)
    refine advances_skip.keeps_bind fun _ => advances_skip.keeps_bind fun _ => ?_
    exact (advances_accept _).keeps_bind fun _ => (Keeps.pure (.refl _)).ite (hvalue .named)
  · exact .failure

theorem keeps_arguments : Keeps [] g.arguments (List.flatMap argumentVariables) :=
  (advances_expect _).keeps_bind fun _ => (keeps_argument hg).commaList _

theorem advances_arguments : Advances g.arguments := (keeps_arguments hg).advances

@[grind .] theorem advances_optionalArguments : Advances g.optionalArguments :=
  (advances_accept _).bind fun _ =>
    (((advances_plainArgument hg).commaList _).bind fun _ => .pure _).ite (.pure _)

@[grind .] theorem advances_attributes : Advances g.attributes := by
  have hlist : Advances (do anyName; g.optionalArguments) :=
    advances_anyName.bind fun _ => advances_optionalArguments hg
  refine .untilDone <| (advances_accept _).bind fun _ => .ite ?_ (.pure _)
  exact (hlist.commaList _).bind fun _ => .pure _

/-! ### Parameters -/

theorem advances_optionalValue : Advances g.optionalValue :=
  (advances_accept _).bind fun _ => (advances_anyExpression hg).ite (.pure _)

theorem advances_parameter {accessors : Parser Unit} (haccessors : Advances accessors) :
    Advances (parametersWith.parameter g accessors) := by
  refine (advances_attributes hg).bind fun _ => advances_modifiers.bind fun _ => ?_
  refine advances_nextKind.bind fun _ => .optional advances_anyType ?_
  refine (advances_accept _).bind fun _ => (advances_accept _).bind fun _ => ?_
  refine (advances_expect _).bind fun _ => (advances_optionalValue hg).bind fun _ => ?_
  exact advances_nextKind.bind fun _ => haccessors.ite (.pure _)

theorem advances_parametersWith {accessors : Parser Unit}
    (haccessors : Advances accessors) : Advances (g.parametersWith accessors) :=
  (advances_expect _).bind fun _ =>
    ((advances_parameter hg haccessors).commaList _).bind fun _ => .pure _

theorem advances_accessor {inner : Parser Unit} (hinner : Advances inner) :
    Advances (accessors.accessor g inner) := by
  refine (advances_attributes hg).bind fun _ => (advances_accept _).bind fun _ => ?_
  refine advances_modifiers.bind fun _ => advances_word.bind fun _ => ?_
  refine advances_nextKind.bind fun _ => .optional (advances_parametersWith hg hinner) ?_
  refine advances_nextKind.bind fun kind => ?_
  split
  · exact advances_block hg
  · exact advances_skip.bind fun _ => (advances_anyExpression hg).bind fun _ => advances_expect _
  · exact advances_expect _

theorem advances_accessors (limit : Nat) : Advances (g.accessors limit) := by
  induction limit with
  | zero =>
      unfold accessors
      exact .failure
  | succ limit ih =>
      unfold accessors
      refine (advances_expect _).bind fun _ => .untilDone <| (advances_accept _).bind fun _ => ?_
      exact (Advances.pure _).ite <| (advances_accessor hg ih).bind fun _ => .pure _

theorem advances_anyAccessors : Advances g.anyAccessors :=
  advances_ahead.bind fun _ => advances_accessors hg _

theorem advances_parameters : Advances g.parameters :=
  advances_parametersWith hg (advances_anyAccessors hg)

/-! ### Members -/

@[grind .] theorem advances_constants : Advances g.constants := by
  have hconstant : Advances (do word; expect .assign; g.anyExpression) :=
    advances_word.bind fun _ => (advances_expect _).bind fun _ => advances_anyExpression hg
  exact (hconstant.commaSeparatedBefore _).bind fun _ => advances_terminator

theorem advances_memberConstants : Advances g.memberConstants :=
  (advances_kindAt 1).bind fun _ => .optional advances_anyType (advances_constants hg)

theorem advances_method : Advances g.method := by
  refine (advances_accept _).bind fun _ => advances_word.bind fun _ => ?_
  refine (advances_parameters hg).bind fun _ => advances_optionalReturnType.bind fun _ => ?_
  exact advances_nextKind.bind fun _ => (advances_block hg).ite (advances_expect _)

theorem advances_property : Advances g.property := by
  have hvariable : Advances (do expect .variable; g.optionalValue) :=
    (advances_expect _).bind fun _ => advances_optionalValue hg
  refine advances_nextKind.bind fun _ => .optional advances_anyType ?_
  refine (advances_expect _).bind fun _ => (advances_optionalValue hg).bind fun _ => ?_
  refine advances_nextKind.bind fun _ => (advances_anyAccessors hg).ite ?_
  exact (advances_accept _).bind fun _ => .optional hvariable.commaSeparated advances_terminator

theorem advances_classMember : Advances g.classMember := by
  refine (advances_attributes hg).bind fun _ => advances_nextKind.bind fun kind => ?_
  split
  · exact advances_skip.bind fun _ => advances_traitUse
  · refine advances_skip.bind fun _ => advances_word.bind fun _ => ?_
    exact (advances_optionalValue hg).bind fun _ => advances_terminator
  · refine advances_modifiers.bind fun _ => advances_nextKind.bind fun kind => ?_
    split
    · exact advances_skip.bind fun _ => advances_memberConstants hg
    · exact advances_skip.bind fun _ => advances_method hg
    · exact advances_skip.bind fun _ => advances_property hg
    · exact advances_property hg

/-! ### Classes and functions -/

theorem advances_classBody : Advances g.classBody := by
  refine (advances_expect _).bind fun _ => .untilDone <| advances_nextKind.bind fun kind => ?_
  split
  · exact .failure
  · exact advances_skip.bind fun _ => .pure _
  · exact (advances_classMember hg).recovering.advancing.bind fun _ => .pure _

theorem advances_classTail : Advances g.classTail :=
  (advances_optionalNames _).bind fun _ => (advances_optionalNames _).bind fun _ =>
    advances_classBody hg

@[grind .] theorem advances_namedClass : Advances g.namedClass :=
  advances_word.bind fun _ => advances_classTail hg

@[grind .] theorem advances_interface : Advances g.interface :=
  advances_word.bind fun _ => (advances_optionalNames _).bind fun _ => advances_classBody hg

@[grind .] theorem advances_trait : Advances g.trait :=
  advances_word.bind fun _ => advances_classBody hg

@[grind .] theorem advances_enumeration : Advances g.enumeration :=
  advances_word.bind fun _ => advances_optionalReturnType.bind fun _ =>
    (advances_optionalNames _).bind fun _ => advances_classBody hg

theorem advances_anonymousClass : Advances g.anonymousClass :=
  (advances_optionalArguments hg).bind fun _ => advances_classTail hg

@[grind .] theorem advances_function : Advances g.function := by
  refine (advances_accept _).bind fun _ => advances_word.bind fun _ => ?_
  refine (advances_parameters hg).bind fun _ => advances_optionalReturnType.bind fun _ => ?_
  exact advances_block hg

theorem advances_closure : Advances g.closure := by
  have hused : Advances (do let _ ← accept .ampersand; expect .variable) :=
    (advances_accept _).bind fun _ => advances_expect _
  have hrest : Advances (do optionalReturnType; g.block) :=
    advances_optionalReturnType.bind fun _ => advances_block hg
  refine (advances_accept _).bind fun _ => (advances_parameters hg).bind fun _ => ?_
  refine (advances_accept _).bind fun _ => .ite ?_ hrest
  refine (advances_expect _).bind fun _ => (hused.commaSeparatedBefore _).bind fun _ => ?_
  exact (advances_expect _).bind fun _ => hrest

theorem advances_arrowFunction : Advances g.arrowFunction := by
  refine (advances_accept _).bind fun _ => (advances_parameters hg).bind fun _ => ?_
  refine advances_optionalReturnType.bind fun _ => (advances_expect _).bind fun _ => ?_
  exact advances_anyExpression hg

end Faithful

end BlockExports.Php.Grammar
