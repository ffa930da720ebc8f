import BlockExports.Proofs.Exports.Places

/-!
What an exported variable can be called, and the types that it can have.

The names that a fragment exports are names of PHP variables, whatever else the fragment holds; no
two of them are the same, because only the first binding of a name counts, and each has one of six
types.
-/

namespace BlockExports

open Php

/-- A name of a PHP variable: a letter, an underscore or a character beyond ASCII, with such
characters and digits behind it. -/
def Php.IsName (name : String) : Prop :=
  ∃ c rest, name.toList = c :: rest ∧ Quote.startsName c = true ∧
    ∀ d ∈ rest, Quote.continuesName d = true

theorem Php.IsName.ne_empty {name : String} (h : IsName name) : name ≠ "" := by
  rintro rfl
  obtain ⟨c, rest, hname, -⟩ := h
  simp at hname

theorem Php.IsName.continuesName_of_mem {name : String} (h : IsName name) {c : Char}
    (hc : c ∈ name.toList) : Quote.continuesName c = true := by
  obtain ⟨d, rest, hname, hd, hrest⟩ := h
  rw [hname] at hc
  rcases List.mem_cons.mp hc with rfl | hc
  · simp [Quote.continuesName, hd]
  · exact hrest c hc

/-- A variable is its name behind a dollar sign. -/
theorem Php.SpellsVariable.isName {v : Variable} {name : String}
    (h : SpellsVariable v.text.toList) (hname : v.text = "$" ++ name) : IsName name := by
  obtain ⟨c, rest, hspelled, hc, hrest⟩ := h
  have hletters : v.text.toList = '$' :: name.toList := by
    rw [hname, String.toList_append]
    rfl
  rw [hletters, List.cons.injEq] at hspelled
  exact ⟨c, rest, hspelled.2, hc, hrest⟩

theorem isName_of_mem_analyze {fragment : String} {b : Binding} (h : b ∈ analyze fragment) :
    IsName b.name := by
  obtain ⟨v, hv, hname, -, -⟩ := exists_variable_of_mem_collect h
  exact (Variable.standsIn_of_mem_parse hv).spelled.isName hname

/-! ### Types -/

/-- The types that a member can have. -/
def memberTypes : List String := ["string", "number", "boolean", "null", "unknown[]", "unknown"]

theorem Php.Expression.inferredType_mem (e : Expression) : e.inferredType ∈ memberTypes := by
  unfold inferredType
  split <;> simp [memberTypes, unknownType]

theorem Php.Statement.type_mem_of_bound? {s : Statement} {v : Variable} {type : String}
    (h : s.bound? = some (v, type)) : type ∈ memberTypes := by
  cases s with
  | other => simp [bound?] at h
  | expression e =>
      rw [bound?] at h
      split at h
      · next target value _ =>
        obtain ⟨w, -, hbound⟩ := Option.map_eq_some_iff.mp h
        obtain rfl : value.inferredType = type := congrArg Prod.snd hbound
        exact value.inferredType_mem
      · obtain ⟨w, -, hbound⟩ := Option.map_eq_some_iff.mp h
        obtain rfl : Expression.unknownType = type := congrArg Prod.snd hbound
        simp [memberTypes, Expression.unknownType]

theorem type_mem_of_mem_collect {program : Program} {base : UInt32} {b : Binding}
    (h : b ∈ collect program base) : b.type ∈ memberTypes := by
  obtain ⟨e, he, rfl⟩ := exists_event_of_mem_collect h
  obtain ⟨s, -, hs⟩ := List.mem_filterMap.mp he
  rw [s.bindingEvent?_eq] at hs
  obtain ⟨⟨v, type⟩, hbound, hevent⟩ := Option.bind_eq_some_iff.mp hs
  obtain ⟨-, -, -, rfl⟩ := BindingEvent.of?_eq_some_iff.mp hevent
  exact s.type_mem_of_bound? hbound

/-! ### Names -/

/-- The first events have names of their own. -/
theorem BindingEvent.nodup_firsts (es : List BindingEvent) : ((firsts es).map (·.name)).Nodup := by
  induction es with
  | nil => exact List.nodup_nil
  | cons e es ih =>
      rw [firsts, List.map_cons, List.nodup_cons]
      constructor
      · intro hmem
        obtain ⟨d, hd, hname⟩ := List.mem_map.mp hmem
        have hother : d.name ≠ e.name := by simpa using (List.mem_filter.mp hd).2
        exact hother hname
      · exact ih.sublist (List.filter_sublist.map _)

theorem nodup_name_collect (program : Program) (base : UInt32) :
    ((collect program base).map (·.name)).Nodup := by
  rw [collect_eq_firsts, List.map_map]
  exact (BindingEvent.nodup_firsts _).sublist (List.filter_sublist.map _)

end BlockExports
