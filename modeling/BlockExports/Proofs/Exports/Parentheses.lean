import BlockExports.Proofs.Exports.Listing
import Mathlib.Data.List.Forall2
import Mathlib.Logic.Function.Iterate
import Mathlib.Logic.Relation

/-!
Parentheses.

The tests for the categories look through enclosing parentheses and exclude each other, so it does
not matter in which order they are asked: the category of an expression is the one whose test holds
(`category?_eq_some_iff`). Two programs that differ in nothing but parentheses export the same
(`parentheses_invisible`). The one place where parentheses count is around what is called, where
they hide the name of the function.
-/

namespace BlockExports

open Php

namespace Php.Expression

/-! ### Categories -/

theorem category?_eq_some_iff (e : Expression) (k : Category) :
    e.category? = some k ↔ e.hasCategory k = true := by
  cases hstripped : e.stripped with
  | literal l =>
      cases l <;> cases k <;>
        simp [category?, hasCategory, isString, isNumber, isBoolean, isNull, isArray,
          asAssignment?, asCall?, asVariable?, asLiteral?, hstripped]
  | _ =>
      cases k <;>
        simp [category?, hasCategory, isString, isNumber, isBoolean, isNull, isArray,
          asAssignment?, asCall?, asVariable?, asLiteral?, hstripped]

/-- No two tests hold. -/
theorem hasCategory_unique {e : Expression} {k k' : Category} (h : e.hasCategory k = true)
    (h' : e.hasCategory k' = true) : k = k' := by
  rw [← category?_eq_some_iff] at h h'
  exact Option.some.inj (h.symm.trans h')

theorem category?_eq_none_iff (e : Expression) :
    e.category? = none ↔ ∀ k, e.hasCategory k = false := by
  rw [Option.eq_none_iff_forall_ne_some]
  refine forall_congr' fun k => ?_
  rw [ne_eq, category?_eq_some_iff, Bool.not_eq_true]

/-! ### Expressions that differ in parentheses -/

/-- The second expression is the first one with a pair of parentheses more, around it or around a
part of it. What is called is no such part. -/
inductive AddsPair : Expression → Expression → Prop where
  | around (e : Expression) : AddsPair e (parenthesized e)
  | inside {e e' : Expression} (h : AddsPair e e') : AddsPair (parenthesized e) (parenthesized e')
  | target {target target' : Expression} (value : Expression) (h : AddsPair target target') :
      AddsPair (assignment target value) (assignment target' value)
  | value (target : Expression) {value value' : Expression} (h : AddsPair value value') :
      AddsPair (assignment target value) (assignment target value')
  | argument (callee : Expression) (before : List (Passing × Expression)) (passing : Passing)
      {e e' : Expression} (after : List (Passing × Expression)) (h : AddsPair e e') :
      AddsPair (call callee (before ++ (passing, e) :: after))
        (call callee (before ++ (passing, e') :: after))

/-- The two expressions differ in nothing but parentheses: pairs are added and taken away, any
number of them and anywhere. -/
def SameButParentheses : Expression → Expression → Prop := Relation.EqvGen AddsPair

section Observations

variable {α : Type} {f : Expression → α} {e e' : Expression}

/-- What one pair does not change is not changed by any number of them. -/
theorem SameButParentheses.eq_of_addsPair (h : e.SameButParentheses e')
    (hpair : ∀ e e', AddsPair e e' → f e = f e') : f e = f e' :=
  congrArg (Quot.lift f hpair) (Quot.eqvGen_sound h)

/-- An observation that looks through parentheses, and sees of an assignment or a call no more than
that it is one, does not see a pair. -/
theorem AddsPair.eq_of_blind (h : AddsPair e e')
    (hparenthesized : ∀ e, f (parenthesized e) = f e)
    (hassignment : ∀ target value target' value',
      f (assignment target value) = f (assignment target' value'))
    (hcall : ∀ callee arguments arguments',
      f (call callee arguments) = f (call callee arguments')) : f e = f e' := by
  induction h with
  | around e => exact (hparenthesized e).symm
  | inside _ ih => rw [hparenthesized, hparenthesized, ih]
  | target => exact hassignment _ _ _ _
  | value => exact hassignment _ _ _ _
  | argument => exact hcall _ _ _

end Observations

section Pair

variable {e e' : Expression}

theorem AddsPair.asVariable?_eq (h : AddsPair e e') : e.asVariable? = e'.asVariable? :=
  h.eq_of_blind (f := asVariable?) (fun _ => rfl) (fun _ _ _ _ => rfl) (fun _ _ _ => rfl)

theorem AddsPair.hasCategory_eq (h : AddsPair e e') (k : Category) :
    e.hasCategory k = e'.hasCategory k := by
  refine h.eq_of_blind (f := fun e => e.hasCategory k) ?_ ?_ ?_ <;> cases k <;> intros <;> rfl

theorem AddsPair.category?_eq (h : AddsPair e e') : e.category? = e'.category? :=
  h.eq_of_blind (f := category?) (fun _ => rfl) (fun _ _ _ _ => rfl) (fun _ _ _ => rfl)

theorem AddsPair.inferredType_eq (h : AddsPair e e') : e.inferredType = e'.inferredType := by
  rw [inferredType, inferredType, h.category?_eq]

theorem AddsPair.argumentName?_eq (h : AddsPair e e') (passing : Passing) :
    argumentName? (passing, e) = argumentName? (passing, e') := by
  cases passing with
  | positional =>
      exact h.eq_of_blind (f := fun e => argumentName? (.positional, e)) (fun _ => rfl)
        (fun _ _ _ _ => rfl) (fun _ _ _ => rfl)
  | spread => rfl
  | named => rfl

/-- A pair around the sides of an assignment leaves the variable and its type as they are. -/
theorem AddsPair.bound?_eq (h : AddsPair e e') :
    (Statement.expression e).bound? = (Statement.expression e').bound? := by
  induction h with
  | around e => rfl
  | inside _ ih => exact ih
  | @target target target' value h _ =>
      show target.asVariable?.map (·, value.inferredType) = _
      rw [h.asVariable?_eq]
      rfl
  | @value target value value' h _ =>
      show target.asVariable?.map (·, value.inferredType) = _
      rw [h.inferredType_eq]
      rfl
  | argument => rfl

/-- A pair around an argument leaves the names that a call exports as they are. -/
theorem AddsPair.exportedNames_eq (h : AddsPair e e') :
    (Statement.expression e).exportedNames = (Statement.expression e').exportedNames := by
  induction h with
  | around e => rfl
  | inside _ ih => exact ih
  | target => rfl
  | value => rfl
  | @argument callee before passing e e' after h _ =>
      have hnames : (before ++ (passing, e) :: after).filterMap argumentName? =
          (before ++ (passing, e') :: after).filterMap argumentName? := by
        rw [List.filterMap_append, List.filterMap_append, List.filterMap_cons, List.filterMap_cons,
          h.argumentName?_eq]
      cases callee with
      | name text => simp only [Statement.exportedNames, stripped, hnames]
      | _ => rfl

end Pair

/-! ### Parentheses around an expression -/

theorem stripped_iterate_parenthesized (e : Expression) (n : Nat) :
    (parenthesized^[n] e).stripped = e.stripped := by
  induction n generalizing e with
  | zero => rfl
  | succ n ih => rw [Function.iterate_succ_apply, ih, stripped_parenthesized]

theorem sameButParentheses_iterate (e : Expression) (n : Nat) :
    e.SameButParentheses (parenthesized^[n] e) := by
  induction n generalizing e with
  | zero => exact .refl e
  | succ n ih => exact .trans _ _ _ (.rel _ _ (.around e)) (ih (parenthesized e))

end Php.Expression

/-! ### Programs -/

/-- The two statements differ in nothing but parentheses. -/
inductive Php.Statement.SameButParentheses : Statement → Statement → Prop where
  | expression {e e' : Expression} (h : e.SameButParentheses e') :
      SameButParentheses (.expression e) (.expression e')
  | other : SameButParentheses .other .other

section Programs

variable {s s' : Statement} {p q : Program}

theorem Php.Statement.SameButParentheses.bindingEvent?_eq (h : s.SameButParentheses s') :
    s.bindingEvent? = s'.bindingEvent? := by
  rw [Statement.bindingEvent?_eq, Statement.bindingEvent?_eq]
  cases h with
  | expression h => rw [h.eq_of_addsPair fun _ _ hpair => hpair.bound?_eq]
  | other => rfl

theorem Php.Statement.SameButParentheses.exportedNames_eq (h : s.SameButParentheses s') :
    s.exportedNames = s'.exportedNames := by
  cases h with
  | expression h => exact h.eq_of_addsPair fun _ _ hpair => hpair.exportedNames_eq
  | other => rfl

/-- What parentheses do not change in any statement they do not change in the whole program. -/
theorem map_eq_of_sameButParentheses {α : Type} {f : Statement → α}
    (h : List.Forall₂ Statement.SameButParentheses p q)
    (hf : ∀ s s' : Statement, s.SameButParentheses s' → f s = f s') : p.map f = q.map f := by
  induction h with
  | nil => rfl
  | cons hs _ ih => rw [List.map_cons, List.map_cons, hf _ _ hs, ih]

theorem collect_eq_of_sameButParentheses (h : List.Forall₂ Statement.SameButParentheses p q)
    (base : UInt32) : collect p base = collect q base := by
  have hevents : p.bindingEvents = q.bindingEvents := by
    have hmap := map_eq_of_sameButParentheses h fun _ _ hs => hs.bindingEvent?_eq
    simpa [List.filterMap_map, Program.bindingEvents] using congrArg (List.filterMap id) hmap
  have hnames : p.exportedNames = q.exportedNames := by
    have hmap := map_eq_of_sameButParentheses h fun _ _ hs => hs.exportedNames_eq
    rw [Program.exportedNames, Program.exportedNames, List.flatMap_def, List.flatMap_def, hmap]
  rw [collect_eq_firsts, collect_eq_firsts, hevents, hnames]

end Programs

open Expression in
/-- Programs that differ in nothing but parentheses export the same. Of two such expressions the
same tests hold, and they have the same category, type and variable; with parentheses around it an
expression has the same sides and the same arguments too. Of the eight tests at most one holds, and
the category is that of the test. -/
theorem parentheses_invisible :
    (∀ (p q : Program) (base : UInt32), List.Forall₂ Statement.SameButParentheses p q →
      collect p base = collect q base) ∧
      (∀ e e' : Expression, e.SameButParentheses e' →
        e'.category? = e.category? ∧ e'.inferredType = e.inferredType ∧
          e'.asVariable? = e.asVariable? ∧ ∀ k, e'.hasCategory k = e.hasCategory k) ∧
      (∀ (e : Expression) (n : Nat),
        let e' := parenthesized^[n] e
        e.SameButParentheses e' ∧ e'.asAssignment? = e.asAssignment? ∧ e'.asCall? = e.asCall?) ∧
      ∀ e : Expression,
        (∀ k k', e.hasCategory k = true → e.hasCategory k' = true → k = k') ∧
          (∀ k, e.category? = some k ↔ e.hasCategory k = true) ∧
          (e.category? = none ↔ ∀ k, e.hasCategory k = false) := by
  refine ⟨fun p q base h => collect_eq_of_sameButParentheses h base, fun e e' h => ?_,
    fun e n => ?_, fun e => ?_⟩
  · exact ⟨(h.eq_of_addsPair fun _ _ hpair => hpair.category?_eq).symm,
      (h.eq_of_addsPair fun _ _ hpair => hpair.inferredType_eq).symm,
      (h.eq_of_addsPair fun _ _ hpair => hpair.asVariable?_eq).symm,
      fun k => (h.eq_of_addsPair fun _ _ hpair => hpair.hasCategory_eq k).symm⟩
  · intro e'
    have hstripped : e'.stripped = e.stripped := e.stripped_iterate_parenthesized n
    refine ⟨e.sameButParentheses_iterate n, ?_, ?_⟩
    · rw [asAssignment?, asAssignment?, hstripped]
    · rw [asCall?, asCall?, hstripped]
  · exact ⟨fun _ _ => hasCategory_unique, e.category?_eq_some_iff, e.category?_eq_none_iff⟩

/-- `($a) = ('x'); export((($a)), $b);` beside `(($a = 'x')); (export($a, $b));`. -/
theorem parentheses_invisible_everywhere :
    let a (start : Nat) : Expression := .variable ⟨"$a", start⟩
    let b : Expression := .variable ⟨"$b", 31⟩
    let text : Expression := .literal .string
    let p : Program :=
      [.expression (.assignment (.parenthesized (a 7)) (.parenthesized text)),
        .expression (.call (.name "export")
          [(.positional, .parenthesized (.parenthesized (a 26))), (.positional, b)])]
    let q : Program :=
      [.expression (.parenthesized (.parenthesized (.assignment (a 7) text))),
        .expression (.parenthesized
          (.call (.name "export") [(.positional, a 26), (.positional, b)]))]
    List.Forall₂ Statement.SameButParentheses p q ∧ collect p 6 = collect q 6 ∧
      collect q 6 = [⟨"a", 2, "string"⟩] := by
  intro a b text p q
  have hassignment : Expression.SameButParentheses
      (.assignment (.parenthesized (a 7)) (.parenthesized text))
      (.parenthesized (.parenthesized (.assignment (a 7) text))) := by
    have htarget := Expression.AddsPair.target text (.around (a 7))
    have hvalue := Expression.AddsPair.value (.parenthesized (a 7)) (.around text)
    have hbare := (Relation.EqvGen.rel _ _ htarget).trans _ _ _ (.rel _ _ hvalue)
    exact hbare.symm.trans _ _ _ (Expression.sameButParentheses_iterate _ 2)
  have hcall : Expression.SameButParentheses
      (.call (.name "export")
        [(.positional, .parenthesized (.parenthesized (a 26))), (.positional, b)])
      (.parenthesized (.call (.name "export") [(.positional, a 26), (.positional, b)])) := by
    have hpair (e : Expression) := Expression.AddsPair.argument (.name "export") [] .positional
      [(.positional, b)] (.around e)
    have hbare := (Relation.EqvGen.rel _ _ (hpair (a 26))).trans _ _ _
      (.rel _ _ (hpair (.parenthesized (a 26))))
    exact hbare.symm.trans _ _ _ (Expression.sameButParentheses_iterate _ 1)
  have hsame : List.Forall₂ Statement.SameButParentheses p q :=
    .cons (.expression hassignment) (.cons (.expression hcall) .nil)
  exact ⟨hsame, parentheses_invisible.1 p q 6 hsame, by decide⟩

end BlockExports
