import BlockExports.Php.Program
import BlockExports.Proofs.Php.Parser.Statement
import BlockExports.Proofs.Php.Token.Layout

/-!
The variables of a program are variables of its text, in the same order, and each stands where it
says.
-/

namespace BlockExports.Php

open Php.Parser

theorem Grammar.faithful_ofDepth (limit : Nat) : (Grammar.ofDepth limit).Faithful := by
  induction limit with
  | zero => exact ⟨fun _ => Keeps.failure, Keeps.failure⟩
  | succ limit ih => exact ⟨fun level => keeps_expressionAt ih level, keeps_anyStatement ih⟩

namespace Program

theorem allVariables_append (program rest : Program) :
    allVariables (program ++ rest) = allVariables program ++ allVariables rest :=
  List.flatMap_append

theorem allVariables_toList (statement : Option Statement) :
    allVariables statement.toList = statement.elim [] Statement.allVariables := by
  cases statement with
  | none => rfl
  | some s => simp [allVariables]

theorem allVariables_statements {g : Grammar} (hg : g.Faithful) (limit : Nat) (c : Cursor) :
    (allVariables (statements g limit c)).Sublist (variablesIn c.items) := by
  induction limit generalizing c with
  | zero => exact List.nil_sublist _
  | succ limit ih =>
      unfold statements
      split
      · next kind c' hnext =>
        have hahead := advances_nextKind c
        rw [hnext] at hahead
        have hread := Grammar.keeps_tolerantStatement hg c'
        cases hstatement : g.tolerantStatement c' with
        | mk statement rest =>
            rw [hstatement] at hread
            simp only
            rw [allVariables_append, allVariables_toList]
            refine ((ih rest).append_left _).trans (List.Sublist.trans ?_ (hread.trans hahead))
            cases statement <;> exact .refl _
      · exact List.nil_sublist _

theorem allVariables_ofItems (items : List Item) :
    (allVariables (ofItems items)).Sublist (variablesIn items) :=
  allVariables_statements (Grammar.faithful_ofDepth _) _ (.start items)

/-- The variables of a program are tokens of its text, in order. -/
theorem allVariables_parse (text : String) :
    (allVariables (parse text)).Sublist (variablesIn (tokenize text)) :=
  allVariables_ofItems _

end Program

/-! ### Order -/

/-- The byte offset just behind a variable. -/
def Variable.stop (v : Variable) : Nat := v.start + v.text.utf8ByteSize

theorem variablesIn_eq (items : List Item) :
    variablesIn items =
      (tokens items).filterMap fun t => if t.kind = .variable then some ⟨t.text, t.start⟩ else none := by
  rw [variablesIn, tokens, List.filterMap_filterMap]
  congr 1
  funext item
  cases item <;> rfl

/-- Every variable of a text ends before the next one starts. -/
theorem Program.ordered_parse (text : String) :
    (parse text).allVariables.Pairwise fun v w => v.stop ≤ w.start := by
  refine List.Pairwise.sublist (allVariables_parse text) ?_
  rw [variablesIn_eq, List.pairwise_filterMap]
  refine (layout_tokenize text).ordered.imp fun {t u} hle v hv w hw => ?_
  simp only [Option.ite_none_right_eq_some, Option.some.injEq] at hv hw
  obtain ⟨-, rfl⟩ := hv
  obtain ⟨-, rfl⟩ := hw
  exact hle

/-! ### Places -/

/-- A variable is spelled like one and stands in a text at its byte offset. -/
structure Variable.StandsIn (v : Variable) (text : String) : Prop where
  covered : ∃ before after, text.toList = before ++ v.text.toList ++ after ∧
    Text.byteLength before = v.start
  spelled : SpellsVariable v.text.toList

theorem mem_variablesIn {v : Variable} {items : List Item} (h : v ∈ variablesIn items) :
    ∃ t ∈ tokens items, t.kind = .variable ∧ v = ⟨t.text, t.start⟩ := by
  obtain ⟨item, hitem, hv⟩ := List.mem_filterMap.mp h
  cases item with
  | token t =>
      by_cases hkind : t.kind = .variable
      · refine ⟨t, List.mem_filterMap.mpr ⟨.token t, hitem, rfl⟩, hkind, ?_⟩
        simpa [Item.asVariable?, hkind, eq_comm] using hv
      · simp [Item.asVariable?, hkind] at hv
  | unreadable => simp [Item.asVariable?] at hv
  | gap => simp [Item.asVariable?] at hv

theorem Variable.standsIn_of_mem_parse {v : Variable} {text : String}
    (h : v ∈ (Program.parse text).allVariables) : v.StandsIn text := by
  obtain ⟨t, ht, hkind, rfl⟩ := mem_variablesIn ((Program.allVariables_parse text).subset h)
  have hlayout := layout_tokenize text
  obtain ⟨before, after, htext, hstart⟩ := hlayout.covers ht
  exact ⟨⟨before, after, htext, by simpa using hstart⟩, hlayout.spelled ht hkind⟩

end BlockExports.Php
