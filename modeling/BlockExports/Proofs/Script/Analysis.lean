import BlockExports.Proofs.Exports.Shifting
import BlockExports.Proofs.Script.Statements

/-!
What is found in the text of a script.

The statements that the text is read as bind and export what the lines say, and so the analysis of
the text gives the listing of the lines.
-/

namespace BlockExports

theorem BindingEvent.binding_shift (base : UInt32) (e : BindingEvent) :
    (e.shift base.toNat).binding base = ⟨e.name, UInt32.ofNat (e.start + 1), e.type⟩ := by
  rw [binding, shift, Nat.add_sub_cancel, UInt32.ofNat_add]
  rfl

namespace Script

open Php Text

/-! ### Events -/

theorem Identifier.name?_variable (n : Identifier) (start : Nat) :
    (n.variable start).name? = some n.name := by
  rw [Variable.name?_eq_some_iff, Identifier.variable, Identifier.print, Identifier.name]
  rw [← String.toList_inj]
  simp

theorem Identifier.of?_variable (n : Identifier) (start : Nat) (type : String) :
    BindingEvent.of? (n.variable start) type = some ⟨n.name, start, type⟩ := by
  rw [BindingEvent.of?, n.name?_variable]
  simp only
  rw [if_neg n.name_ne_empty]
  rfl

theorem Value.inferredType_expression (value : Value) :
    value.expression.inferredType = value.type := by
  cases value <;> rfl

theorem Line.bindingEvent?_statement (line : Line) (offset : Nat) :
    (line.statement offset).bindingEvent? = line.declared? offset := by
  cases line with
  | assignment name value =>
      rw [declared?, ← value.inferredType_expression]
      exact name.of?_variable offset _
  | bare name => exact name.of?_variable offset _
  | exports names => rfl

theorem filterMap_arguments (names : List Identifier) (offset : Nat) :
    (arguments offset names).filterMap argumentName? = names.map Identifier.name := by
  induction names generalizing offset with
  | nil => rfl
  | cons n names ih =>
      have hname : argumentName? (.positional, .variable (n.variable offset)) = some n.name :=
        n.name?_variable offset
      rw [arguments, List.filterMap_cons_some hname, ih, List.map_cons]

theorem Line.exportedNames_statement (line : Line) (offset : Nat) :
    (line.statement offset).exportedNames = line.exported := by
  cases line with
  | assignment name value => rfl
  | bare name => rfl
  | exports names =>
      have hcall : ((exports names).statement offset).exportedNames =
          if "export" = "export" then (arguments (offset + 7) names).filterMap argumentName?
          else [] := rfl
      rw [hcall, if_pos rfl, filterMap_arguments]
      rfl

theorem bindingEvents_statements (lines : List Line) (offset : Nat) :
    (statements offset lines).bindingEvents = declared offset lines := by
  induction lines generalizing offset with
  | nil => rfl
  | cons line lines ih =>
      have hrest := ih (offset + byteLength line.print)
      rw [Program.bindingEvents] at hrest ⊢
      rw [statements, declared, List.filterMap_cons, line.bindingEvent?_statement, hrest]
      cases line.declared? offset <;> rfl

theorem exportedNames_statements (lines : List Line) (offset : Nat) :
    (statements offset lines).exportedNames = exported lines := by
  induction lines generalizing offset with
  | nil => rfl
  | cons line lines ih =>
      rw [statements, exported, List.flatMap_cons, ← line.exportedNames_statement offset]
      exact congrArg _ (ih _)

/-! ### Places -/

theorem declared_add (lines : List Line) (offset base : Nat) :
    declared (offset + base) lines = (declared offset lines).map (BindingEvent.shift base) := by
  induction lines generalizing offset with
  | nil => rfl
  | cons line lines ih =>
      rw [declared, declared, List.map_append, Nat.add_right_comm, ih]
      cases line <;> rfl

theorem Line.byteLength_print_pos (line : Line) : 0 < byteLength line.print := by
  rw [Nat.pos_iff_ne_zero, Ne, byteLength_eq_zero]
  cases line with
  | assignment name value => simp [print_assignment]
  | bare name => simp [print_bare]
  | exports names => simp [print_exports]

/-- A line binds a name within its own text. -/
theorem start_lt_of_mem_declared {lines : List Line} {offset : Nat} {e : BindingEvent}
    (he : e ∈ declared offset lines) :
    e.start < offset + byteLength (lines.flatMap Line.print) := by
  induction lines generalizing offset with
  | nil => simp [declared] at he
  | cons line lines ih =>
      rw [List.flatMap_cons, byteLength_append, ← Nat.add_assoc]
      rw [declared, List.mem_append] at he
      rcases he with he | he
      · have hstart : e.start = offset := by
          cases line with
          | assignment name value =>
              obtain rfl : e = ⟨name.name, offset, value.type⟩ := by simpa [Line.declared?] using he
              rfl
          | bare name =>
              obtain rfl : e = ⟨name.name, offset, "unknown"⟩ := by simpa [Line.declared?] using he
              rfl
          | exports names => simp [Line.declared?] at he
        have hpos := line.byteLength_print_pos
        omega
      · have hlater := ih he
        omega

/-! ### The analysis -/

/-- The analysis of a script's text finds the first bindings of the exported names, in order, with
the place of each name. Places that no offset can count wrap around. -/
theorem analyze_print (lines : List Line) :
    (analyze (print lines)).map (fun b => (b.name, b.offset, b.type)) =
        (listing lines).map (fun (name, place, type) => (name, UInt32.ofNat place, type)) ∧
      ((print lines).utf8ByteSize < UInt32.size →
        (analyze (print lines)).map (fun b => (b.name, b.offset.toNat, b.type)) =
          listing lines) := by
  have hevents : Program.bindingEvents (.other :: statements 6 lines) =
      (declared 0 lines).map (BindingEvent.shift 6) := by
    rw [← declared_add, ← bindingEvents_statements]
    rfl
  have hnames : Program.exportedNames (.other :: statements 6 lines) = exported lines := by
    rw [← exportedNames_statements lines 6]
    rfl
  have hanalyze : analyze (print lines) =
      ((BindingEvent.firsts (declared 0 lines)).filter (·.name ∈ exported lines)).map
        fun e => ⟨e.name, UInt32.ofNat (e.start + 1), e.type⟩ := by
    rw [analyze_eq_collect, parseFragment, parse_print, collect_eq_firsts, hevents, hnames,
      BindingEvent.firsts_map_shift, List.filter_map, List.map_map]
    exact List.map_congr_left fun e _ => e.binding_shift prologueLength
  constructor
  · rw [hanalyze, listing, List.map_map, List.map_map]
    rfl
  · intro hsize
    rw [hanalyze, listing, List.map_map]
    refine List.map_congr_left fun e he => ?_
    -- a name lies within the text, and so its place can be counted
    have hdeclared : e ∈ declared 0 lines :=
      (BindingEvent.firsts_sublist _).subset (List.mem_filter.mp he).1
    have hstart : e.start < (print lines).utf8ByteSize := by
      have hlength := start_lt_of_mem_declared hdeclared
      rwa [Nat.zero_add, byteLength_eq_size] at hlength
    have hplace : (UInt32.ofNat (e.start + 1)).toNat = e.start + 1 :=
      UInt32.toNat_ofNat_of_lt' (by omega)
    simp only [Function.comp_apply, hplace]

/-- A string that looks like code and has a character of two bytes, a name that is bound before and
one that is bound after its export, one that is bound twice and one that is not exported. -/
theorem analyze_print_lookalike :
    let text := "$s = 'é ?> // $x export($y);';\nexport($s, $n, $_1);\n$n;\n$n = 0;\n" ++
      "export();\n$x = true;\n$_1 = [];\n"
    text.utf8ByteSize < UInt32.size ∧
      (analyze text).map (fun b => (b.name, b.offset.toNat, b.type)) =
        [("s", 1, "string"), ("n", 54, "unknown"), ("_1", 87, "unknown[]")] := by
  intro text
  let s : Identifier := ⟨['s'], by decide, by decide⟩
  let n : Identifier := ⟨['n'], by decide, by decide⟩
  let x : Identifier := ⟨['x'], by decide, by decide⟩
  let one : Identifier := ⟨['_', '1'], by decide, by decide⟩
  let body : StringBody := ⟨"é ?> // $x export($y);".toList, by decide, by decide⟩
  let zero : Decimal := ⟨['0'], by decide, by decide, by decide⟩
  let lines : List Line :=
    [.assignment s (.string body), .exports [s, n, one], .bare n, .assignment n (.number zero),
      .exports [], .assignment x (.boolean true), .assignment one .emptyArray]
  have htext : print lines = text := by decide
  have hsize : (print lines).utf8ByteSize < UInt32.size := by
    rw [htext]
    decide
  have hlisting : listing lines =
      [("s", 1, "string"), ("n", 54, "unknown"), ("_1", 87, "unknown[]")] := by decide
  rw [← htext, ← hlisting]
  exact ⟨hsize, (analyze_print lines).2 hsize⟩

end Script

end BlockExports
