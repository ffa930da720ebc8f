import BlockExports.Proofs.Exports.Listing
import BlockExports.Proofs.Php.Program

/-!
Where exported variables stand.

A fragment is read behind a prologue, and the prologue's length is taken off the offsets again. What
is left is the place of a name in the fragment itself, just behind its dollar sign.
-/

namespace BlockExports

open Php Text

/-- The variable that a statement binds is one of its variables. -/
theorem Php.Statement.mem_allVariables_of_bound? {s : Statement} {v : Variable} {type : String}
    (h : s.bound? = some (v, type)) : v ∈ s.allVariables := by
  cases s with
  | other => simp [bound?] at h
  | expression e =>
      simp only [bound?, Expression.asAssignment?, Expression.asVariable?] at h
      rw [allVariables_expression, ← Expression.allVariables_stripped]
      cases hstripped : e.stripped with
      | assignment target value =>
          rw [hstripped] at h
          rw [Expression.allVariables_assignment, ← Expression.allVariables_stripped target]
          cases htarget : target.stripped <;> simp_all
      | _ => simp_all

/-- The event of a statement comes from one of its variables. -/
theorem Php.Statement.variable_of_bindingEvent? {s : Statement} {e : BindingEvent}
    (h : s.bindingEvent? = some e) :
    ∃ v ∈ s.allVariables, v.name? = some e.name ∧ e.name ≠ "" ∧ v.start = e.start := by
  rw [s.bindingEvent?_eq] at h
  obtain ⟨⟨v, type⟩, hbound, hevent⟩ := Option.bind_eq_some_iff.mp h
  obtain ⟨hname, hempty, hstart, -⟩ := BindingEvent.of?_eq_some_iff.mp hevent
  exact ⟨v, s.mem_allVariables_of_bound? hbound, hname, hempty, hstart⟩

theorem Php.Program.exists_variable_of_mem_bindingEvents {program : Program} {e : BindingEvent}
    (h : e ∈ program.bindingEvents) :
    ∃ v ∈ program.allVariables, v.name? = some e.name ∧ e.name ≠ "" ∧ v.start = e.start := by
  obtain ⟨s, hs, hevent⟩ := List.mem_filterMap.mp h
  obtain ⟨v, hv, hplace⟩ := s.variable_of_bindingEvent? hevent
  exact ⟨v, List.mem_flatMap.mpr ⟨s, hs, hv⟩, hplace⟩

/-- What is collected comes from a variable of the program. -/
theorem exists_variable_of_mem_collect {program : Program} {base : UInt32} {b : Binding}
    (h : b ∈ collect program base) :
    ∃ v ∈ program.allVariables, v.text = "$" ++ b.name ∧ b.name ≠ "" ∧
      b.offset = v.nameOffset base := by
  obtain ⟨e, he, rfl⟩ := exists_event_of_mem_collect h
  obtain ⟨v, hv, hname, hempty, hstart⟩ := program.exists_variable_of_mem_bindingEvents he
  refine ⟨v, hv, (v.name?_eq_some_iff _).mp hname, hempty, ?_⟩
  rw [Variable.nameOffset, hstart]
  rfl

/-- A variable behind the prologue stands in the fragment. -/
theorem Php.Variable.StandsIn.fragment {v : Variable} {fragment name : String}
    (h : v.StandsIn (prologue ++ fragment)) (hname : v.text = "$" ++ name) :
    ∃ before after, fragment.toList = before ++ '$' :: name.toList ++ after ∧
      v.start = prologueLength.toNat + byteLength before := by
  obtain ⟨front, after, htext, hstart⟩ := h.covered
  have hchars : v.text.toList = '$' :: name.toList := by
    rw [hname, String.toList_append]
    rfl
  rw [hchars, String.toList_append, List.append_assoc] at htext
  rcases List.append_eq_append_iff.mp htext with ⟨before, rfl, hfragment⟩ | ⟨rest, hprologue, hrest⟩
  · refine ⟨before, after, by rw [hfragment, List.append_assoc], ?_⟩
    rw [← hstart, byteLength_append]
    rfl
  · -- otherwise the prologue would hold a dollar sign
    cases rest with
    | nil =>
        refine ⟨[], after, by simpa using hrest.symm, ?_⟩
        rw [← hstart, ← List.append_nil front, ← hprologue]
        rfl
    | cons c rest =>
        obtain ⟨rfl, -⟩ : '$' = c ∧ _ := by simpa using hrest
        have hmem : '$' ∈ prologue.toList := by
          rw [hprologue]
          simp
        exact absurd hmem (by decide)

/-- The offset of an exported variable is the place of its name in the fragment. -/
theorem mem_analyze_place {fragment : String} {b : Binding} (h : b ∈ analyze fragment)
    (hsize : (prologue ++ fragment).utf8ByteSize < UInt32.size) :
    b.name ≠ "" ∧ ∃ before after, fragment.toList = before ++ '$' :: b.name.toList ++ after ∧
      b.offset.toNat = byteLength before + 1 := by
  obtain ⟨v, hv, hname, hempty, hoffset⟩ := exists_variable_of_mem_collect h
  obtain ⟨before, after, hfragment, hstart⟩ := (Variable.standsIn_of_mem_parse hv).fragment hname
  have hroom : byteLength before + 1 < UInt32.size := by
    have hbytes := byteLength_toList fragment
    rw [hfragment] at hbytes
    rw [String.utf8ByteSize_append, ← hbytes] at hsize
    simp only [byteLength_append, byteLength_cons] at hsize
    have hdollar : '$'.utf8Size = 1 := by decide
    omega
  have hplace : v.start - prologueLength.toNat = byteLength before := by
    rw [hstart, Nat.add_sub_cancel_left]
  refine ⟨hempty, before, after, hfragment, ?_⟩
  rw [hoffset, Variable.toNat_nameOffset (by rwa [hplace]), hplace]

end BlockExports
