import BlockExports.Proofs.Exports.Members
import Mathlib.Data.List.Nodup

/-!
Programs that export the same.

Only two things about a program decide what it exports: its binding statements in their order, and
the set of the names that it exports anywhere. So export calls may be moved, split, merged or
repeated, and any other statements come and go, without a difference; and where binding statements
follow at the end or more names are exported, the bindings that were there before stay as they are.
Both are in `collect_rearranged`.
-/

namespace BlockExports

open Php

/-! ### Binding statements -/

/-- Whether a statement assigns to a variable or is a bare one. -/
def Php.Statement.binds (s : Statement) : Bool := s.bound?.isSome

/-- The binding statements of a program, in order. -/
def Php.Program.bindingStatements (program : Program) : Program := program.filter Statement.binds

theorem Php.Program.bindingEvents_bindingStatements (program : Program) :
    program.bindingStatements.bindingEvents = program.bindingEvents := by
  rw [bindingEvents, bindingEvents, bindingStatements, List.filterMap_filter]
  refine List.filterMap_congr fun s _ => ?_
  cases hbound : s.bound? <;> simp [Statement.binds, s.bindingEvent?_eq, hbound]

/-! ### First events -/

namespace BindingEvent

/-- Behind other events an event is the first of its name if they have none of that name. -/
theorem firsts_append (es fs : List BindingEvent) :
    firsts (es ++ fs) = firsts es ++ (firsts fs).filter (·.name ∉ es.map (·.name)) := by
  induction es with
  | nil =>
      have hall : (firsts fs).filter (·.name ∉ ([] : List BindingEvent).map (·.name)) = firsts fs :=
        List.filter_eq_self.mpr fun f _ => by simp
      rw [hall]
      rfl
  | cons e es ih =>
      have hhidden : ((firsts fs).filter (·.name ∉ es.map (·.name))).filter (·.name ≠ e.name) =
          (firsts fs).filter (·.name ∉ (e :: es).map (·.name)) := by
        rw [List.filter_filter]
        refine List.filter_congr fun f _ => ?_
        simp
      rw [List.cons_append, firsts, ih, List.filter_append, hhidden]
      rfl

/-- What comes first stays first when more events follow. -/
theorem firsts_prefix {es fs : List BindingEvent} (h : es <+: fs) : firsts es <+: firsts fs := by
  obtain ⟨more, rfl⟩ := h
  rw [firsts_append]
  exact List.prefix_append _ _

end BindingEvent

/-! ### Two programs -/

section Programs

variable {p q : Program}

theorem collect_congr (hbinding : p.bindingStatements = q.bindingStatements)
    (hexported : ∀ name, name ∈ p.exportedNames ↔ name ∈ q.exportedNames) (base : UInt32) :
    collect p base = collect q base := by
  have hevents : p.bindingEvents = q.bindingEvents := by
    rw [← p.bindingEvents_bindingStatements, hbinding, q.bindingEvents_bindingStatements]
  rw [collect_eq_firsts, collect_eq_firsts, hevents]
  refine congrArg _ (List.filter_congr fun e _ => ?_)
  rw [decide_eq_decide, hexported]

theorem collect_sublist (hbinding : p.bindingStatements <+: q.bindingStatements)
    (hexported : p.exportedNames ⊆ q.exportedNames) (base : UInt32) :
    (collect p base).Sublist (collect q base) := by
  have hevents : p.bindingEvents <+: q.bindingEvents := by
    rw [← p.bindingEvents_bindingStatements, ← q.bindingEvents_bindingStatements]
    exact hbinding.filterMap _
  have hfirsts := (BindingEvent.firsts_prefix hevents).sublist
  rw [collect_eq_firsts, collect_eq_firsts]
  refine (List.Sublist.trans ?_ (hfirsts.filter _)).map _
  refine List.monotone_filter_right _ fun e he => ?_
  rw [decide_eq_true_eq] at he ⊢
  exact hexported he

/-- A name is listed once, so bindings of one name are the same. -/
theorem eq_of_name_eq {base : UInt32} {b d : Binding} (hb : b ∈ collect q base)
    (hd : d ∈ collect q base) (hname : b.name = d.name) : b = d :=
  List.inj_on_of_nodup_map (nodup_name_collect q base) hb hd hname

end Programs

/-- More binding statements at the end and more exported names leave what is listed as it is and in
its order, with the same place and type for every name. Of the other statements only the set of the
exported names counts. -/
theorem collect_rearranged (p q : Program) (base : UInt32) :
    (p.bindingStatements <+: q.bindingStatements → p.exportedNames ⊆ q.exportedNames →
      (collect p base).Sublist (collect q base) ∧
        ∀ b ∈ collect p base, ∀ d ∈ collect q base, b.name = d.name → b = d) ∧
      (p.bindingStatements = q.bindingStatements →
        (∀ name, name ∈ p.exportedNames ↔ name ∈ q.exportedNames) →
        collect p base = collect q base) := by
  constructor
  · intro hbinding hexported
    have hsublist := collect_sublist hbinding hexported base
    exact ⟨hsublist, fun b hb d hd => eq_of_name_eq (hsublist.subset hb) hd⟩
  · intro hbinding hexported
    exact collect_congr hbinding hexported base

/-- `$b; $a = 1; export($a);`, then with `($a) .= 'x'; $c;` at the end and one call for all names in
front, and at last with this call split in two and moved behind the first statement. -/
theorem collect_rearranged_split :
    let v (name : String) (start : Nat) : Expression := .variable ⟨"$" ++ name, start⟩
    let exporting (names : List (String × Nat)) : Statement :=
      .expression <| .call (.name "export") <|
        names.map fun (name, start) => (.positional, v name start)
    let bound : Program :=
      [.expression (v "b" 30), .expression (.assignment (v "a" 34) (.literal .number))]
    let more : Program :=
      [.expression (.assignment (.parenthesized (v "a" 42)) (.literal .string)),
        .expression (v "c" 54)]
    let p : Program := bound ++ [exporting [("a", 42)]]
    let q : Program := exporting [("c", 13), ("a", 17), ("c", 21)] :: bound ++ .other :: more
    let q' : Program :=
      bound ++ exporting [("a", 13)] :: exporting [] :: more ++ [exporting [("c", 70)]]
    (collect p 6).Sublist (collect q 6) ∧ collect p 6 = [⟨"a", 29, "number"⟩] ∧
      collect q 6 = collect q' 6 ∧
      collect q 6 = [⟨"a", 29, "number"⟩, ⟨"c", 49, "unknown"⟩] := by
  intro v exporting bound more p q q'
  have hprefix : p.bindingStatements <+: q.bindingStatements := ⟨more, rfl⟩
  have hsubset : p.exportedNames ⊆ q.exportedNames := by decide
  have hsame : q.bindingStatements = q'.bindingStatements := rfl
  have hforth : q.exportedNames ⊆ q'.exportedNames := by decide
  have hback : q'.exportedNames ⊆ q.exportedNames := by decide
  exact ⟨((collect_rearranged p q 6).1 hprefix hsubset).1, by decide,
    (collect_rearranged q q' 6).2 hsame fun _ => ⟨@hforth _, @hback _⟩, by decide⟩

end BlockExports
