import BlockExports.Proofs.Exports.Places

/-!
Programs that stand further on in their text.

With some bytes more in front, all variables of a program start later and everything else about it
stays the same. So the program exports the same when those bytes count as part of what stands before
the fragment (`collect_shift`), as long as all places can still be counted.
-/

namespace BlockExports

open Php

/-! ### Outlines -/

/-- The variable with so many bytes more in front. -/
def Php.Variable.shift (bytes : Nat) (v : Variable) : Variable := { v with start := v.start + bytes }

namespace Php.Expression

mutual

/-- The expression with so many bytes more in front. -/
def shift (bytes : Nat) : Expression → Expression
  | .variable v => .variable (v.shift bytes)
  | .assignment target value => .assignment (target.shift bytes) (value.shift bytes)
  | .call callee arguments => .call (callee.shift bytes) (shiftAll bytes arguments)
  | .parenthesized inner => .parenthesized (inner.shift bytes)
  | e => e

/-- The arguments of a call with so many bytes more in front. -/
def shiftAll (bytes : Nat) : List (Passing × Expression) → List (Passing × Expression)
  | [] => []
  | (passing, e) :: arguments => (passing, e.shift bytes) :: shiftAll bytes arguments

end

variable (bytes : Nat) (e : Expression)

@[simp] theorem stripped_shift : (e.shift bytes).stripped = e.stripped.shift bytes := by
  fun_induction stripped e with
  | case1 inner ih => exact ih
  | case2 e h =>
      cases e with
      | parenthesized inner => exact absurd rfl (h inner)
      | _ => rfl

theorem asVariable?_shift :
    (e.shift bytes).asVariable? = e.asVariable?.map (Variable.shift bytes) := by
  rw [asVariable?, asVariable?, stripped_shift]
  cases e.stripped <;> rfl

theorem asAssignment?_shift :
    (e.shift bytes).asAssignment? = e.asAssignment?.map (Prod.map (shift bytes) (shift bytes)) := by
  rw [asAssignment?, asAssignment?, stripped_shift]
  cases e.stripped <;> rfl

theorem asCall?_shift :
    (e.shift bytes).asCall? = e.asCall?.map (Prod.map (shift bytes) (shiftAll bytes)) := by
  rw [asCall?, asCall?, stripped_shift]
  cases e.stripped <;> rfl

theorem asLiteral?_shift : (e.shift bytes).asLiteral? = e.asLiteral? := by
  rw [asLiteral?, asLiteral?, stripped_shift]
  cases e.stripped <;> rfl

theorem isArray_shift : (e.shift bytes).isArray = e.isArray := by
  rw [isArray, isArray, stripped_shift]
  cases e.stripped <;> rfl

/-- The place of an expression says nothing about its type. -/
theorem inferredType_shift : (e.shift bytes).inferredType = e.inferredType := by
  have hcategory : (e.shift bytes).category? = e.category? := by
    unfold category? isString isNumber isBoolean isNull
    rw [asAssignment?_shift, asCall?_shift, asVariable?_shift, asLiteral?_shift, isArray_shift,
      Option.isSome_map, Option.isSome_map, Option.isSome_map]
  rw [inferredType, inferredType, hcategory]

theorem filterMap_argumentName?_shiftAll (arguments : List (Passing × Expression)) :
    (shiftAll bytes arguments).filterMap argumentName? = arguments.filterMap argumentName? := by
  induction arguments with
  | nil => rfl
  | cons argument arguments ih =>
      obtain ⟨passing, e⟩ := argument
      have hname : argumentName? (passing, e.shift bytes) = argumentName? (passing, e) := by
        cases passing with
        | positional =>
            rw [argumentName?, argumentName?, stripped_shift]
            cases e.stripped <;> rfl
        | spread => rfl
        | named => rfl
      rw [shiftAll, List.filterMap_cons, List.filterMap_cons, hname, ih]

end Php.Expression

/-- The statement with so many bytes more in front. -/
def Php.Statement.shift (bytes : Nat) : Statement → Statement
  | .expression e => .expression (e.shift bytes)
  | .other => .other

/-- The program with so many bytes more in front. -/
def Php.Program.shift (bytes : Nat) (program : Program) : Program :=
  program.map (Statement.shift bytes)

/-! ### Events -/

/-- The same event further on in a text. -/
def BindingEvent.shift (base : Nat) (e : BindingEvent) : BindingEvent :=
  { e with start := e.start + base }

theorem BindingEvent.firsts_map_shift (base : Nat) (es : List BindingEvent) :
    firsts (es.map (shift base)) = (firsts es).map (shift base) := by
  induction es with
  | nil => rfl
  | cons e es ih =>
      rw [List.map_cons, firsts, firsts, ih, List.filter_map, List.map_cons]
      rfl

theorem BindingEvent.of?_shift (bytes : Nat) (v : Variable) (type : String) :
    of? (v.shift bytes) type = (of? v type).map (shift bytes) := by
  have hname : (v.shift bytes).name? = v.name? := rfl
  rw [of?, of?, hname]
  cases v.name? with
  | none => rfl
  | some name =>
      simp only
      split <;> rfl

theorem Php.Statement.bound?_shift (bytes : Nat) (s : Statement) :
    (s.shift bytes).bound? = s.bound?.map (Prod.map (Variable.shift bytes) id) := by
  cases s with
  | other => rfl
  | expression e =>
      simp only [shift, bound?, Expression.asAssignment?_shift, Expression.asVariable?_shift]
      cases e.asAssignment? with
      | none => cases e.asVariable? <;> rfl
      | some sides =>
          obtain ⟨target, value⟩ := sides
          simp only [Option.map_some, Prod.map, Expression.asVariable?_shift,
            Expression.inferredType_shift]
          cases target.asVariable? <;> rfl

theorem Php.Statement.bindingEvent?_shift (bytes : Nat) (s : Statement) :
    (s.shift bytes).bindingEvent? = s.bindingEvent?.map (BindingEvent.shift bytes) := by
  rw [bindingEvent?_eq, bindingEvent?_eq, bound?_shift]
  cases s.bound? with
  | none => rfl
  | some bound => exact BindingEvent.of?_shift bytes bound.1 bound.2

theorem Php.Statement.exportedNames_shift (bytes : Nat) (s : Statement) :
    (s.shift bytes).exportedNames = s.exportedNames := by
  cases s with
  | other => rfl
  | expression e =>
      rw [shift, exportedNames, exportedNames, Expression.stripped_shift]
      cases e.stripped with
      | call callee arguments =>
          cases callee with
          | name text =>
              simp only [Expression.shift, Expression.filterMap_argumentName?_shiftAll]
          | _ => rfl
      | _ => rfl

theorem Php.Program.bindingEvents_shift (bytes : Nat) (program : Program) :
    (program.shift bytes).bindingEvents = program.bindingEvents.map (BindingEvent.shift bytes) := by
  rw [bindingEvents, bindingEvents, shift, List.filterMap_map, List.map_filterMap]
  exact congrArg (List.filterMap · program) (funext fun s => s.bindingEvent?_shift bytes)

theorem Php.Program.exportedNames_shift (bytes : Nat) (program : Program) :
    (program.shift bytes).exportedNames = program.exportedNames := by
  rw [exportedNames, exportedNames, shift, List.flatMap_map]
  exact congrArg (List.flatMap · program) (funext fun s => s.exportedNames_shift bytes)

/-! ### Exports -/

/-- Bytes that stand before the fragment take no part in a place in it. -/
theorem BindingEvent.binding_shift_add {e : BindingEvent} {base bytes : UInt32}
    (hbase : base.toNat ≤ e.start) (hroom : e.start + bytes.toNat < UInt32.size) :
    (e.shift bytes.toNat).binding (base + bytes) = e.binding base := by
  have hsum : (base + bytes).toNat = base.toNat + bytes.toNat := by
    rw [UInt32.toNat_add]
    exact Nat.mod_eq_of_lt (Nat.lt_of_le_of_lt (Nat.add_le_add_right hbase _) hroom)
  rw [binding, binding, shift, hsum, Nat.add_sub_add_right]

/-- A program exports the same when it stands further on, behind more that is not the fragment. -/
theorem collect_shift {program : Program} {base bytes : UInt32}
    (h : ∀ v ∈ program.allVariables,
      base.toNat ≤ v.start ∧ v.start + bytes.toNat < UInt32.size) :
    collect (program.shift bytes.toNat) (base + bytes) = collect program base := by
  rw [collect_eq_firsts, collect_eq_firsts, program.bindingEvents_shift,
    program.exportedNames_shift, BindingEvent.firsts_map_shift, List.filter_map, List.map_map]
  refine List.map_congr_left fun e he => ?_
  obtain ⟨v, hv, -, -, hstart⟩ := Program.exists_variable_of_mem_bindingEvents
    ((BindingEvent.firsts_sublist _).subset (List.mem_filter.mp he).1)
  obtain ⟨hbase, hroom⟩ := h v hv
  rw [hstart] at hbase hroom
  exact BindingEvent.binding_shift_add hbase hroom

end BlockExports
