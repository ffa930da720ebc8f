import BlockExports.Php.Outline

/-!
The variables of an outline, in the order in which they stand in the text.

Forms that the outline keeps nothing of have no variables either.
-/

namespace BlockExports.Php

namespace Expression

mutual

def allVariables : Expression → List Variable
  | .variable v => [v]
  | .assignment target value => target.allVariables ++ value.allVariables
  | .call callee arguments => callee.allVariables ++ variablesOfAll arguments
  | .parenthesized inner => inner.allVariables
  | _ => []

/-- The variables of the arguments of a call. -/
def variablesOfAll : List (Passing × Expression) → List Variable
  | [] => []
  | (_, e) :: arguments => e.allVariables ++ variablesOfAll arguments

end

@[simp, grind =] theorem allVariables_variable (v : Variable) :
    (Expression.variable v).allVariables = [v] :=
  rfl

@[simp, grind =] theorem allVariables_assignment (target value : Expression) :
    (assignment target value).allVariables = target.allVariables ++ value.allVariables := rfl

@[simp, grind =] theorem allVariables_parenthesized (inner : Expression) :
    (parenthesized inner).allVariables = inner.allVariables := rfl

@[simp, grind =] theorem allVariables_literal (l : Literal) : (literal l).allVariables = [] := rfl

@[simp, grind =] theorem allVariables_array : array.allVariables = [] := rfl

@[simp, grind =] theorem allVariables_name (text : String) : (name text).allVariables = [] := rfl

@[simp, grind =] theorem allVariables_operation : operation.allVariables = [] := rfl

@[simp, grind =] theorem allVariables_missing : missing.allVariables = [] := rfl

@[simp, grind =] theorem allVariables_other : other.allVariables = [] := rfl

theorem variablesOfAll_eq (arguments : List (Passing × Expression)) :
    variablesOfAll arguments = arguments.flatMap (·.2.allVariables) := by
  induction arguments with
  | nil => rfl
  | cons argument arguments ih => rw [variablesOfAll, ih, List.flatMap_cons]

@[simp] theorem allVariables_call (callee : Expression) (arguments : List (Passing × Expression)) :
    (call callee arguments).allVariables =
      callee.allVariables ++ arguments.flatMap (·.2.allVariables) := by
  rw [allVariables, variablesOfAll_eq]

@[simp] theorem allVariables_stripped (e : Expression) :
    e.stripped.allVariables = e.allVariables := by
  fun_induction stripped e with
  | case1 inner ih => exact ih
  | case2 e h => rfl

/-- An operation takes the value in, and its variables are lost. -/
theorem allVariables_assign (target value : Expression) :
    (target.assign value).allVariables.Sublist (target.allVariables ++ value.allVariables) := by
  unfold assign
  split
  · exact List.nil_sublist _
  · exact List.Sublist.refl _

end Expression

/-- The variables of an argument, which may be a placeholder. -/
def argumentVariables (argument : Option (Passing × Expression)) : List Variable :=
  argument.elim [] (·.2.allVariables)

@[simp, grind =] theorem argumentVariables_none : argumentVariables none = [] := rfl

@[simp] theorem argumentVariables_some (argument : Passing × Expression) :
    argumentVariables (some argument) = argument.2.allVariables := rfl

def Statement.allVariables : Statement → List Variable
  | .expression e => e.allVariables
  | .other => []

@[simp, grind =] theorem Statement.allVariables_other : Statement.other.allVariables = [] := rfl

@[simp, grind =] theorem Statement.allVariables_expression (e : Expression) :
    (Statement.expression e).allVariables = e.allVariables := rfl

def Program.allVariables (program : Program) : List Variable :=
  program.flatMap Statement.allVariables

end BlockExports.Php
