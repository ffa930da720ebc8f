import BlockExports.Exports.Collect

/-!
What a program exports, said without a walk over its statements.

`collect` keeps bindings and exported names side by side while it visits the statements. Here the
two are described apart: every statement gives at most one binding event and a list of exported
names, an event counts when no earlier one has its name, and what counts is listed when its name is
exported anywhere in the program. `collect_listing` says that the walk gives this list.
-/

namespace BlockExports

open Php

/-! ### Events -/

/-- A statement that binds a name: the name, the byte offset of the variable and the type that the
statement implies. -/
structure BindingEvent where
  name : String
  start : Nat
  type : String
  deriving DecidableEq, Repr

namespace BindingEvent

/-- The event of a variable; a variable without a dollar sign or without a name gives none. -/
def of? (v : Variable) (type : String) : Option BindingEvent :=
  match v.name? with
  | some name => if name = "" then none else some ⟨name, v.start, type⟩
  | none => none

theorem of?_eq_some_iff {v : Variable} {type : String} {e : BindingEvent} :
    of? v type = some e ↔
      v.name? = some e.name ∧ e.name ≠ "" ∧ v.start = e.start ∧ type = e.type := by
  obtain ⟨name, start, type'⟩ := e
  unfold of?
  cases v.name? with
  | none => simp
  | some first =>
      by_cases hempty : first = ""
      · simp +contextual [hempty, eq_comm]
      · simp only [hempty, if_false, Option.some.injEq, BindingEvent.mk.injEq]
        constructor
        · rintro ⟨rfl, rfl, rfl⟩
          exact ⟨rfl, hempty, rfl, rfl⟩
        · rintro ⟨rfl, -, rfl, rfl⟩
          exact ⟨rfl, rfl, rfl⟩

/-- What `collect` records for an event. -/
def binding (base : UInt32) (e : BindingEvent) : Binding :=
  ⟨e.name, UInt32.ofNat (e.start - base.toNat) + 1, e.type⟩

@[simp] theorem binding_name (base : UInt32) (e : BindingEvent) : (e.binding base).name = e.name :=
  rfl

/-- The events that come before all others of their name. -/
def firsts : List BindingEvent → List BindingEvent
  | [] => []
  | e :: es => e :: (firsts es).filter (·.name ≠ e.name)

end BindingEvent

/-- The event of a statement. -/
def Php.Statement.bindingEvent? : Statement → Option BindingEvent
  | .other => none
  | .expression e =>
    match e.stripped with
    | .assignment target value =>
      match target.stripped with
      | .variable v => BindingEvent.of? v value.inferredType
      | _ => none
    | .variable v => BindingEvent.of? v "unknown"
    | _ => none

/-- The variable that a statement binds, with the type that the statement implies. -/
def Php.Statement.bound? : Statement → Option (Variable × String)
  | .other => none
  | .expression e =>
    match e.asAssignment? with
    | some (target, value) => target.asVariable?.map (·, value.inferredType)
    | none => e.asVariable?.map (·, Expression.unknownType)

/-- Every statement that binds a variable with a name is an event. -/
theorem Php.Statement.bindingEvent?_eq (s : Statement) :
    s.bindingEvent? = s.bound?.bind fun (v, type) => BindingEvent.of? v type := by
  cases s with
  | other => rfl
  | expression e =>
      simp only [bindingEvent?, bound?, Expression.asAssignment?, Expression.asVariable?]
      cases e.stripped with
      | assignment target value =>
          simp only
          cases target.stripped <;> rfl
      | _ => rfl

/-- The name that an argument exports. -/
def Php.argumentName? : Passing × Expression → Option String
  | (.positional, e) =>
    match e.stripped with
    | .variable v => v.name?
    | _ => none
  | _ => none

/-- The names that a statement exports. -/
def Php.Statement.exportedNames : Statement → List String
  | .other => []
  | .expression e =>
    match e.stripped with
    | .call (.name callee) arguments =>
      if callee = "export" then arguments.filterMap argumentName? else []
    | _ => []

/-- The events of a program, in order. -/
def Php.Program.bindingEvents (program : Program) : List BindingEvent :=
  program.filterMap Statement.bindingEvent?

/-- The names exported anywhere in a program. -/
def Php.Program.exportedNames (program : Program) : List String :=
  program.flatMap Statement.exportedNames

/-- A variable's name is what stands behind its dollar sign. -/
theorem Php.Variable.name?_eq_some_iff (v : Variable) (name : String) :
    v.name? = some name ↔ v.text = "$" ++ name := by
  have hchars : v.text = "$" ++ name ↔ v.text.toList = '$' :: name.toList := by
    rw [← String.toList_inj, String.toList_append]
    rfl
  rw [hchars, Variable.name?]
  split
  · next cs hcs =>
    simp only [Option.some.injEq, List.cons.injEq, true_and, hcs]
    constructor
    · rintro rfl
      exact String.toList_ofList.symm
    · rintro rfl
      exact String.ofList_toList
  · next hno =>
    simp only [reduceCtorEq, false_iff]
    exact hno _

/-- The offset of a name does not wrap around when the name starts below the largest offset. -/
theorem Php.Variable.toNat_nameOffset {v : Variable} {base : UInt32}
    (h : v.start - base.toNat + 1 < UInt32.size) :
    (v.nameOffset base).toNat = v.start - base.toNat + 1 := by
  rw [Variable.nameOffset, UInt32.toNat_add, UInt32.toNat_ofNat_of_lt' (Nat.lt_of_succ_lt h)]
  exact Nat.mod_eq_of_lt h

/-! ### One statement -/

namespace Collection

/-- The names bound so far. -/
def names (c : Collection) : List String := c.bindings.map (·.name)

variable (base : UInt32) (c : Collection)

/-- Records the first events of all names that are new. -/
def record (es : List BindingEvent) : Collection :=
  { c with bindings := c.bindings ++ (es.filter (·.name ∉ c.names)).map (·.binding base) }

@[simp] theorem record_nil : c.record base [] = c := by
  simp [record]

theorem bind_eq_record (v : Variable) (type : String) :
    c.bind base v type = c.record base (BindingEvent.of? v type).toList := by
  unfold bind BindingEvent.of?
  cases hname : v.name? with
  | none => simp
  | some name =>
      have hany : c.bindings.any (·.name = name) = decide (name ∈ c.names) := by
        rw [Bool.eq_iff_iff]
        simp [names]
      by_cases hempty : name = ""
      · simp [hempty]
      · by_cases hseen : name ∈ c.names
        · simp [hempty, hany, hseen, record]
        · simp [hempty, hany, hseen, record, BindingEvent.binding, Variable.nameOffset]

/-- A visit appends the statement's event, if its name is new, and the names that the statement
exports. -/
theorem visit_eq (s : Statement) :
    visit base c s =
      { c.record base s.bindingEvent?.toList with exported := c.exported ++ s.exportedNames } := by
  cases s with
  | other => simp [visit, Statement.bindingEvent?, Statement.exportedNames]
  | expression e =>
      have hargument : exportedName? = argumentName? := by
        funext argument
        obtain ⟨passing, e⟩ := argument
        cases passing with
        | positional =>
            simp only [exportedName?, argumentName?, Expression.asVariable?]
            cases e.stripped <;> rfl
        | spread => rfl
        | named => rfl
      simp only [visit, Statement.bindingEvent?, Statement.exportedNames, Expression.asAssignment?,
        Expression.asVariable?, Expression.asCall?, bind_eq_record]
      cases e.stripped with
      | assignment target value =>
          cases htarget : target.stripped <;> simp [htarget, record]
      | «variable» v => simp [Expression.unknownType, record]
      | call callee arguments =>
          cases callee with
          | name text =>
              by_cases hmarker : text = "export" <;>
                simp [Expression.calleeName?, marker, hmarker, hargument]
          | _ => simp [Expression.calleeName?]
      | _ => simp

@[simp] theorem visit_exported (s : Statement) :
    (visit base c s).exported = c.exported ++ s.exportedNames := by
  rw [visit_eq]

@[simp] theorem visit_bindings (s : Statement) :
    (visit base c s).bindings = (c.record base s.bindingEvent?.toList).bindings := by
  rw [visit_eq]

/-! ### All statements -/

theorem foldl_visit_exported (program : Program) :
    (program.foldl (visit base) c).exported = c.exported ++ program.exportedNames := by
  induction program generalizing c with
  | nil => simp [Program.exportedNames]
  | cons s program ih =>
      rw [List.foldl_cons, ih, visit_exported, List.append_assoc]
      rfl

/-- An event whose name is not yet bound is recorded and hides the later ones of its name; any other
event changes nothing. -/
theorem record_firsts_cons (e : BindingEvent) (es : List BindingEvent) :
    (c.record base (BindingEvent.firsts (e :: es))).bindings =
      ((c.record base [e]).record base (BindingEvent.firsts es)).bindings := by
  by_cases hseen : e.name ∈ c.names
  · -- what `e` hides among the later events is hidden by the earlier binding already
    have hsame : c.record base [e] = c := by simp [record, hseen]
    have hhidden : ((BindingEvent.firsts es).filter (·.name ≠ e.name)).filter (·.name ∉ c.names) =
        (BindingEvent.firsts es).filter (·.name ∉ c.names) := by
      rw [List.filter_filter]
      refine List.filter_congr fun d _ => ?_
      by_cases hd : d.name = e.name <;> simp [hd, hseen]
    rw [hsame]
    simp only [record, BindingEvent.firsts, List.filter_cons, hseen, not_true_eq_false,
      decide_false, Bool.false_eq_true, if_false, hhidden]
  · have hone : [e].filter (·.name ∉ c.names) = [e] := by simp [hseen]
    have hnames : (c.record base [e]).names = c.names ++ [e.name] := by
      simp only [record, hone]
      simp [names]
    have hrest : ((BindingEvent.firsts es).filter (·.name ≠ e.name)).filter (·.name ∉ c.names) =
        (BindingEvent.firsts es).filter (·.name ∉ (c.record base [e]).names) := by
      rw [List.filter_filter, hnames]
      refine List.filter_congr fun d _ => ?_
      simp
    simp only [record, BindingEvent.firsts, List.filter_cons, hseen, not_false_eq_true, decide_true,
      if_true, hrest, List.map_cons, List.filter_nil, List.map_nil, List.append_assoc,
      List.singleton_append]

theorem foldl_visit_bindings (program : Program) :
    (program.foldl (visit base) c).bindings =
      (c.record base (BindingEvent.firsts program.bindingEvents)).bindings := by
  induction program generalizing c with
  | nil => simp [Program.bindingEvents, BindingEvent.firsts]
  | cons s program ih =>
      have hvisit (es : List BindingEvent) : ((visit base c s).record base es).bindings =
          ((c.record base s.bindingEvent?.toList).record base es).bindings := by
        simp [record, names]
      rw [List.foldl_cons, ih, hvisit]
      cases hs : s.bindingEvent? with
      | none => simp [Program.bindingEvents, hs]
      | some e =>
          simp only [Program.bindingEvents, List.filterMap_cons, hs, Option.toList_some]
          exact (record_firsts_cons base c e _).symm

end Collection

/-! ### The list -/

/-- What a program exports: the first event of each name that is exported anywhere, in the order of
the events, with the place of the name in a fragment that starts at `base`. -/
def Php.Program.listing (program : Program) (base : UInt32) : List (String × Nat × String) :=
  ((BindingEvent.firsts program.bindingEvents).filter (·.name ∈ program.exportedNames)).map
    fun e => (e.name, e.start - base.toNat + 1, e.type)

theorem collect_eq_firsts (program : Program) (base : UInt32) :
    collect program base =
      ((BindingEvent.firsts program.bindingEvents).filter (·.name ∈ program.exportedNames)).map
        (·.binding base) := by
  rw [collect, Collection.result, Collection.foldl_visit_bindings,
    Collection.foldl_visit_exported]
  simp [Collection.record, Collection.empty, Collection.names, List.filter_map, Function.comp_def]
  rfl

theorem BindingEvent.firsts_sublist (es : List BindingEvent) : (firsts es).Sublist es := by
  induction es with
  | nil => exact .slnil
  | cons e es ih => exact (List.filter_sublist.trans ih).cons_cons e

/-- What is collected comes from an event. -/
theorem exists_event_of_mem_collect {program : Program} {base : UInt32} {b : Binding}
    (h : b ∈ collect program base) : ∃ e ∈ program.bindingEvents, e.binding base = b := by
  rw [collect_eq_firsts] at h
  obtain ⟨e, he, hbinding⟩ := List.mem_map.mp h
  exact ⟨e, (BindingEvent.firsts_sublist _).subset (List.mem_filter.mp he).1, hbinding⟩

/-- The walk over the statements gives the list. -/
theorem collect_listing (program : Program) (base : UInt32)
    (hstart : ∀ e ∈ program.bindingEvents, e.start + 1 < UInt32.size) :
    (collect program base).map (fun b => (b.name, b.offset.toNat, b.type)) =
      program.listing base := by
  rw [collect_eq_firsts, List.map_map]
  refine List.map_congr_left fun e he => ?_
  have hevent : e ∈ program.bindingEvents :=
    (BindingEvent.firsts_sublist _).subset (List.mem_filter.mp he).1
  have hroom : e.start - base.toNat + 1 < UInt32.size :=
    Nat.lt_of_le_of_lt (Nat.succ_le_succ (Nat.sub_le _ _)) (hstart e hevent)
  have hoffset : (e.binding base).offset.toNat = e.start - base.toNat + 1 :=
    @Variable.toNat_nameOffset ⟨e.name, e.start⟩ base hroom
  simp only [Function.comp_apply, BindingEvent.binding_name, hoffset]
  rfl

/-- `export($a, ...$b, ($c)); ($c) .= []; $a = ('x'); $a = 1; $b; export(n: $b);` after six bytes:
`$c` and the first `$a` are listed, `$b` is handed over in no way that exports it. -/
theorem collect_listing_mixed :
    let v (name : String) (start : Nat) : Expression := .variable ⟨"$" ++ name, start⟩
    let program : Program :=
      [.expression (.call (.name "export")
        [(.positional, v "a" 13), (.spread, v "b" 20), (.positional, .parenthesized (v "c" 25))]),
       .other,
       .expression (.assignment (.parenthesized (v "c" 32)) .array),
       .expression (.parenthesized (.assignment (v "a" 43) (.parenthesized (.literal .string)))),
       .expression (.assignment (v "a" 55) (.literal .number)),
       .expression (v "b" 63),
       .expression (.call (.name "export") [(.named, v "b" 77)])]
    (∀ e ∈ program.bindingEvents, e.start + 1 < UInt32.size) ∧
      program.listing 6 = [("c", 27, "unknown[]"), ("a", 38, "string")] ∧
      (collect program 6).map (fun b => (b.name, b.offset.toNat, b.type)) = program.listing 6 := by
  intro v program
  have hstart : ∀ e ∈ program.bindingEvents, e.start + 1 < UInt32.size := by decide
  exact ⟨hstart, by decide, collect_listing program 6 hstart⟩

end BlockExports
