import BlockExports.Toml.Document
import Mathlib.Data.List.Nodup

/-!
The keys of a document.

A line of a document never brings in a key a second time: a field is only added where its key is
missing, and all else changes values in place. So the table of a document has each key once
(`uniqueKeys_parse?`), and it can be read as a set of fields.
-/

namespace BlockExports.Toml

namespace Table

/-- No two fields have the same key. -/
def UniqueKeys (t : Table) : Prop := (t.map (·.1)).Nodup

section Lookup

variable {t : Table} {key : String} {value : Value}

theorem lookup_eq_none_iff : t.lookup key = none ↔ key ∉ t.map (·.1) := by
  rw [List.lookup_eq_none_iff, List.mem_map]
  constructor
  · rintro h ⟨field, hfield, rfl⟩
    simpa using h field hfield
  · intro h field hfield
    have hne : key ≠ field.1 := fun heq => h ⟨field, hfield, heq.symm⟩
    simpa using hne

theorem mem_of_lookup (h : t.lookup key = some value) : (key, value) ∈ t := by
  obtain ⟨front, back, rfl, -⟩ := List.lookup_eq_some_iff.mp h
  exact List.mem_append_right _ List.mem_cons_self

theorem UniqueKeys.eq_of_mem (ht : t.UniqueKeys) {other : Value} (h : (key, value) ∈ t)
    (hother : (key, other) ∈ t) : value = other :=
  (Prod.mk.inj (List.inj_on_of_nodup_map ht h hother rfl)).2

end Lookup

/-! ### Edits -/

/-- An edit of tables that keeps each key once. -/
def KeepsKeys (edit : Table → Option Table) : Prop :=
  ∀ t t', edit t = some t' → t.UniqueKeys → t'.UniqueKeys

theorem map_fst_put (key : String) (value : Value) (t : Table) :
    (t.put key value).map (·.1) = t.map (·.1) := by
  rw [put, List.map_map]
  refine List.map_congr_left fun (k, v) _ => ?_
  change (if k = key then (key, value) else (k, v)).1 = k
  split
  · next hkey => exact hkey.symm
  · rfl

theorem UniqueKeys.put {t : Table} (ht : t.UniqueKeys) (key : String) (value : Value) :
    (t.put key value).UniqueKeys := by
  rwa [UniqueKeys, map_fst_put]

theorem keepsKeys_add? (key : String) (value : Value) : KeepsKeys (add? key value) := by
  intro t t' h ht
  rw [add?] at h
  split at h
  · next hnone =>
    obtain rfl := Option.some.inj h
    rw [UniqueKeys, List.map_append, List.map_singleton, ← List.concat_eq_append]
    exact List.Nodup.concat (lookup_eq_none_iff.mp hnone) ht
  · simp at h

/-- At the end of an empty path the table itself is edited; on any other path one value changes. -/
theorem keepsKeys_alter? {byDots : Bool} {edit : Origin → Table → Option Table}
    (hedit : ∀ origin, KeepsKeys (edit origin)) (path : List String) (origin : Origin) :
    KeepsKeys (alter? byDots edit path origin) := by
  intro t t' h ht
  cases path with
  | nil => exact hedit origin t t' h ht
  | cons key path =>
      rw [alter?] at h
      split at h
      · obtain ⟨inner, -, hadd⟩ := Option.bind_eq_some_iff.mp h
        exact keepsKeys_add? _ _ t t' hadd ht
      · split at h
        · simp at h
        · obtain ⟨inner, -, hput⟩ := Option.bind_eq_some_iff.mp h
          obtain rfl := Option.some.inj hput
          exact ht.put _ _
      · obtain ⟨newest, -, hput⟩ := Option.bind_eq_some_iff.mp h
        obtain rfl := Option.some.inj hput
        exact ht.put _ _
      · simp at h

theorem keepsKeys_set? (path : List String) (key : String) (value : Value) :
    KeepsKeys (set? path key value) := by
  refine keepsKeys_alter? (fun origin t t' h ht => ?_) path .header
  split at h
  · exact keepsKeys_add? key value t t' h ht
  · simp at h

theorem keepsKeys_openHeading? (key : String) : KeepsKeys (openHeading? key) := by
  intro t t' h ht
  rw [openHeading?] at h
  split at h
  · exact keepsKeys_add? _ _ t t' h ht
  · obtain rfl := Option.some.inj h
    exact ht.put _ _
  · simp at h

theorem keepsKeys_openRepeated? (key : String) : KeepsKeys (openRepeated? key) := by
  intro t t' h ht
  rw [openRepeated?] at h
  split at h
  · exact keepsKeys_add? _ _ t t' h ht
  · obtain rfl := Option.some.inj h
    exact ht.put _ _
  · simp at h

end Table

/-! ### Documents -/

theorem Draft.uniqueKeys_extend? {d d' : Draft} {line : Line} (h : d.extend? line = some d')
    (hd : d.root.UniqueKeys) : d'.root.UniqueKeys := by
  cases line with
  | field path key value =>
      obtain ⟨root, halter, hpure⟩ := Option.bind_eq_some_iff.mp h
      obtain rfl := Option.some.inj hpure
      exact Table.keepsKeys_alter? (fun _ => Table.keepsKeys_set? path key value) _ _ _ _ halter hd
  | heading path key =>
      obtain ⟨root, halter, hpure⟩ := Option.bind_eq_some_iff.mp h
      obtain rfl := Option.some.inj hpure
      exact Table.keepsKeys_alter? (fun _ => Table.keepsKeys_openHeading? key) _ _ _ _ halter hd
  | repeated path key =>
      obtain ⟨root, halter, hpure⟩ := Option.bind_eq_some_iff.mp h
      obtain rfl := Option.some.inj hpure
      exact Table.keepsKeys_alter? (fun _ => Table.keepsKeys_openRepeated? key) _ _ _ _ halter hd

theorem Draft.uniqueKeys_foldlM {d d' : Draft} {lines : List Line}
    (h : lines.foldlM Draft.extend? d = some d') (hd : d.root.UniqueKeys) :
    d'.root.UniqueKeys := by
  induction lines generalizing d with
  | nil =>
      obtain rfl := Option.some.inj h
      exact hd
  | cons line lines ih =>
      rw [List.foldlM_cons] at h
      obtain ⟨next, hnext, hrest⟩ := Option.bind_eq_some_iff.mp h
      exact ih hrest (uniqueKeys_extend? hnext hd)

theorem uniqueKeys_parse? {text : String} {t : Table} (h : parse? text = some t) :
    t.UniqueKeys := by
  obtain ⟨lines, -, hassemble⟩ := Option.bind_eq_some_iff.mp h
  obtain ⟨d, hd, rfl⟩ := Option.map_eq_some_iff.mp hassemble
  exact Draft.uniqueKeys_foldlM hd List.nodup_nil

end BlockExports.Toml
