import BlockExports.Proofs.Exports.Shifting

/-!
The offsets of exported variables.

The variables of a fragment stand in it one behind the other, behind the prologue, and each is a
dollar sign with a name. So no offset is cut off at the prologue or wraps around, the offsets of what
is exported grow from one variable to the next, and each leads to the first statement that binds its
name. `offsets_exact` says all this, and that an offset does not depend on how much stands before the
fragment.
-/

namespace BlockExports

open Php Text

/-! ### The first statement that binds a name -/

/-- The first event of a name comes from the first statement with an event of that name. -/
theorem BindingEvent.exists_statement_of_mem_firsts {program : Program} {e : BindingEvent}
    (h : e ∈ firsts program.bindingEvents) :
    ∃ before s after, program = before ++ s :: after ∧ s.bindingEvent? = some e ∧
      ∀ t ∈ before, ∀ f, t.bindingEvent? = some f → f.name ≠ e.name := by
  induction program with
  | nil => simp [Program.bindingEvents, firsts] at h
  | cons s program ih =>
      rw [Program.bindingEvents] at h
      cases hs : s.bindingEvent? with
      | none =>
          rw [List.filterMap_cons_none hs] at h
          obtain ⟨before, first, after, rfl, hfirst, hbefore⟩ := ih h
          refine ⟨s :: before, first, after, rfl, hfirst, List.forall_mem_cons.mpr ⟨?_, hbefore⟩⟩
          simp [hs]
      | some f =>
          rw [List.filterMap_cons_some hs, firsts] at h
          rcases List.mem_cons.mp h with rfl | h
          · exact ⟨[], s, program, rfl, hs, by simp⟩
          · obtain ⟨hmem, hname⟩ := List.mem_filter.mp h
            obtain ⟨before, first, after, rfl, hfirst, hbefore⟩ := ih hmem
            refine ⟨s :: before, first, after, rfl, hfirst, List.forall_mem_cons.mpr ⟨?_, hbefore⟩⟩
            intro g hg
            obtain rfl : f = g := Option.some.inj (hs.symm.trans hg)
            exact Ne.symm (of_decide_eq_true hname)

/-- What is collected is bound by the first statement that binds its name. -/
theorem exists_first_statement_of_mem_collect {program : Program} {base : UInt32} {b : Binding}
    (h : b ∈ collect program base) :
    ∃ before s after v, program = before ++ s :: after ∧ s.bound? = some (v, b.type) ∧
      v.text = "$" ++ b.name ∧ b.offset = v.nameOffset base ∧
      ∀ t ∈ before, ∀ w type, t.bound? = some (w, type) → w.text ≠ "$" ++ b.name := by
  rw [collect_eq_firsts] at h
  obtain ⟨e, he, rfl⟩ := List.mem_map.mp h
  obtain ⟨before, s, after, hprogram, hs, hbefore⟩ :=
    BindingEvent.exists_statement_of_mem_firsts (List.mem_filter.mp he).1
  rw [s.bindingEvent?_eq] at hs
  obtain ⟨⟨v, type⟩, hbound, hevent⟩ := Option.bind_eq_some_iff.mp hs
  obtain ⟨hname, hempty, hstart, rfl⟩ := BindingEvent.of?_eq_some_iff.mp hevent
  refine ⟨before, s, after, v, hprogram, hbound, (v.name?_eq_some_iff _).mp hname, ?_, ?_⟩
  · rw [Variable.nameOffset, hstart]
    rfl
  · intro t ht w type hw hspelled
    -- such a statement would have an event of that name before the first one
    have hevent : t.bindingEvent? = some ⟨e.name, w.start, type⟩ := by
      rw [t.bindingEvent?_eq, hw]
      exact BindingEvent.of?_eq_some_iff.mpr ⟨(w.name?_eq_some_iff _).mpr hspelled, hempty, rfl, rfl⟩
    exact hbefore t ht _ hevent rfl

/-! ### Places of variables -/

/-- A variable of a fragment lies behind the prologue and within the fragment, and has more than its
dollar sign. -/
theorem place_of_mem_parseFragment {fragment : String} {v : Variable}
    (h : v ∈ (parseFragment fragment).allVariables) :
    prologueLength.toNat ≤ v.start ∧
      v.stop ≤ prologueLength.toNat + fragment.utf8ByteSize ∧ v.start + 2 ≤ v.stop := by
  have hstands : v.StandsIn (prologue ++ fragment) := Variable.standsIn_of_mem_parse h
  obtain ⟨c, rest, hspelled, -, -⟩ := hstands.spelled
  have hname : v.text = "$" ++ String.ofList (c :: rest) := by
    rw [← String.toList_inj, hspelled]
    simp
  obtain ⟨before, after, hfragment, hstart⟩ := hstands.fragment hname
  have hbytes := byteLength_toList fragment
  have htext := byteLength_toList v.text
  rw [hfragment, String.toList_ofList] at hbytes
  rw [hspelled] at htext
  simp only [byteLength_append, byteLength_cons] at hbytes htext
  have hdollar : '$'.utf8Size = 1 := by decide
  have hletter := c.utf8Size_pos
  rw [Variable.stop]
  omega

/-- The variables of a fragment start one behind the other. -/
theorem increasing_parseFragment (fragment : String) :
    (parseFragment fragment).allVariables.Pairwise fun v w => v.start < w.start := by
  refine (Program.ordered_parse _).imp_of_mem fun {v w} hv _ hle => ?_
  obtain ⟨-, -, hlength⟩ := place_of_mem_parseFragment hv
  omega

/-- The events of a program start where some of its variables do, in order. -/
theorem Php.Program.starts_bindingEvents (program : Program) :
    (program.bindingEvents.map (·.start)).Sublist (program.allVariables.map (·.start)) := by
  induction program with
  | nil => exact .slnil
  | cons s program ih =>
      rw [allVariables, List.flatMap_cons, List.map_append]
      cases hs : s.bindingEvent? with
      | none =>
          rw [bindingEvents, List.filterMap_cons_none hs]
          exact ih.trans (List.sublist_append_right _ _)
      | some e =>
          obtain ⟨v, hv, -, -, hstart⟩ := Statement.variable_of_bindingEvent? hs
          have hmem : e.start ∈ s.allVariables.map (·.start) := List.mem_map.mpr ⟨v, hv, hstart⟩
          rw [bindingEvents, List.filterMap_cons_some hs, List.map_cons, ← List.singleton_append]
          exact (List.singleton_sublist.mpr hmem).append ih

/-! ### Offsets -/

/-- The offset of a fragment's variable is not cut off at the prologue and does not wrap around. -/
theorem toNat_nameOffset_of_mem_parseFragment {fragment : String} {v : Variable}
    (hsize : fragment.utf8ByteSize + prologueLength.toNat < UInt32.size)
    (h : v ∈ (parseFragment fragment).allVariables) :
    (v.nameOffset prologueLength).toNat = v.start - prologueLength.toNat + 1 := by
  obtain ⟨hbehind, hwithin, hlength⟩ := place_of_mem_parseFragment h
  exact Variable.toNat_nameOffset (by omega)

/-- Events that start one behind the other have offsets that grow. -/
theorem offset_lt_of_start_lt {fragment : String}
    (hsize : fragment.utf8ByteSize + prologueLength.toNat < UInt32.size) {e f : BindingEvent}
    (he : e ∈ (parseFragment fragment).bindingEvents)
    (hf : f ∈ (parseFragment fragment).bindingEvents) (hlt : e.start < f.start) :
    (e.binding prologueLength).offset < (f.binding prologueLength).offset := by
  have hplace {g : BindingEvent} (hg : g ∈ (parseFragment fragment).bindingEvents) :
      prologueLength.toNat ≤ g.start ∧
        (g.binding prologueLength).offset.toNat = g.start - prologueLength.toNat + 1 := by
    obtain ⟨v, hv, -, -, hstart⟩ := Program.exists_variable_of_mem_bindingEvents hg
    rw [← hstart, ← toNat_nameOffset_of_mem_parseFragment hsize hv, Variable.nameOffset, hstart]
    exact ⟨hstart ▸ (place_of_mem_parseFragment hv).1, rfl⟩
  obtain ⟨hbehind, heoffset⟩ := hplace he
  obtain ⟨-, hfoffset⟩ := hplace hf
  rw [UInt32.lt_iff_toNat_lt, heoffset, hfoffset]
  omega

theorem increasing_analyze {fragment : String}
    (hsize : fragment.utf8ByteSize + prologueLength.toNat < UInt32.size) :
    (analyze fragment).Pairwise fun b d => b.offset < d.offset := by
  have hvariables : ((parseFragment fragment).allVariables.map (·.start)).Pairwise (· < ·) :=
    List.pairwise_map.mpr (increasing_parseFragment fragment)
  have hevents : (parseFragment fragment).bindingEvents.Pairwise fun e f => e.start < f.start :=
    List.pairwise_map.mp (hvariables.sublist (Program.starts_bindingEvents _))
  rw [analyze_eq_collect, collect_eq_firsts, List.pairwise_map]
  have hlisted {listed : BindingEvent → Bool} {es : List BindingEvent} :
      ((BindingEvent.firsts es).filter listed).Sublist es :=
    List.filter_sublist.trans (BindingEvent.firsts_sublist es)
  refine (hevents.sublist hlisted).imp_of_mem fun he hf hlt => ?_
  exact offset_lt_of_start_lt hsize (hlisted.subset he) (hlisted.subset hf) hlt

/-- The offsets of a fragment's exported variables grow, lie in the fragment, and lead to the first
statement that binds the name; on the way to them nothing is cut off or wraps around. A program that
stands further on, behind more that is not the fragment, has the same offsets. -/
theorem offsets_exact :
    (∀ fragment : String, fragment.utf8ByteSize + prologueLength.toNat < UInt32.size →
      (analyze fragment).Pairwise (fun b d => b.offset < d.offset) ∧
        (∀ v ∈ (parseFragment fragment).allVariables, prologueLength.toNat ≤ v.start ∧
          (v.nameOffset prologueLength).toNat = v.start - prologueLength.toNat + 1) ∧
        ∀ b ∈ analyze fragment, 1 ≤ b.offset.toNat ∧ b.offset.toNat < fragment.utf8ByteSize ∧
          ∃ before s after v, parseFragment fragment = before ++ s :: after ∧
            s.bound? = some (v, b.type) ∧ v.text = "$" ++ b.name ∧
            v.start = prologueLength.toNat + (b.offset.toNat - 1) ∧
            ∀ t ∈ before, ∀ w type, t.bound? = some (w, type) → w.text ≠ "$" ++ b.name) ∧
      ∀ (program : Program) (base bytes : UInt32),
        (∀ v ∈ program.allVariables,
          base.toNat ≤ v.start ∧ v.start + bytes.toNat < UInt32.size) →
        collect (program.shift bytes.toNat) (base + bytes) = collect program base := by
  refine ⟨fun fragment hsize => ⟨increasing_analyze hsize, fun v hv => ?_, fun b hb => ?_⟩,
    fun program base bytes h => collect_shift h⟩
  · exact ⟨(place_of_mem_parseFragment hv).1, toNat_nameOffset_of_mem_parseFragment hsize hv⟩
  · rw [analyze_eq_collect] at hb
    obtain ⟨before, s, after, v, hprogram, hbound, hname, hoffset, hfirst⟩ :=
      exists_first_statement_of_mem_collect hb
    have hv : v ∈ (parseFragment fragment).allVariables := by
      rw [hprogram]
      exact List.mem_flatMap.mpr ⟨s, by simp, s.mem_allVariables_of_bound? hbound⟩
    obtain ⟨hbehind, hwithin, hlength⟩ := place_of_mem_parseFragment hv
    have hplace := toNat_nameOffset_of_mem_parseFragment hsize hv
    rw [← hoffset] at hplace
    refine ⟨by omega, by omega, before, s, after, v, hprogram, hbound, hname, by omega, hfirst⟩

/-- `$b; $é = 'ü'; ($a) .= []; $é = 1; export($a, $é);`, where the second `$é` adds nothing, and
a program that a shift brings close to the last place that can be counted. -/
theorem offsets_exact_edges :
    let fragment := "$b; $é = 'ü'; ($a) .= []; $é = 1; export($a, $é);"
    let late : Program :=
      [.expression (.assignment (.variable ⟨"$a", 4294967000⟩) (.literal .null)),
        .expression (.call (.name "export") [(.positional, .variable ⟨"$a", 4294967005⟩)])]
    fragment.utf8ByteSize + prologueLength.toNat < UInt32.size ∧
      analyze fragment = [⟨"é", 5, "string"⟩, ⟨"a", 18, "unknown[]"⟩] ∧
      (analyze fragment).Pairwise (fun b d => b.offset < d.offset) ∧
      collect late 4294966999 = [⟨"a", 2, "null"⟩] ∧
      collect (late.shift 290) 4294967289 = collect late 4294966999 := by
  intro fragment late
  have hsize : fragment.utf8ByteSize + prologueLength.toNat < UInt32.size := by decide
  have hroom : ∀ v ∈ late.allVariables,
      UInt32.toNat 4294966999 ≤ v.start ∧ v.start + UInt32.toNat 290 < UInt32.size := by decide
  exact ⟨hsize, by decide +kernel, (offsets_exact.1 fragment hsize).1, by decide,
    offsets_exact.2 late 4294966999 290 hroom⟩

end BlockExports
