import BlockExports.Store

/-!
The store as a table.

All that a request sees of the store is `get?`. The lemmas here say what each operation does to it:
an insertion changes one key, an invalidation empties the keys of one file.
-/

namespace BlockExports.Store

@[simp] theorem get?_empty (key : Key) : empty.get? key = none := rfl

@[simp] theorem get?_clear (s : Store) (key : Key) : s.clear.get? key = none := rfl

theorem lookup_cons_eq_ite (k first : Key) (e : Entry) (rest : List (Key × Entry)) :
    ((first, e) :: rest).lookup k = if k = first then some e else rest.lookup k := by
  rw [List.lookup_cons]
  by_cases hk : k = first
  · simp [hk]
  · rw [beq_false_of_ne hk, if_neg hk]

theorem lookup_put (key : Key) (entry : Entry) (entries : List (Key × Entry)) (k : Key) :
    (put key entry entries).lookup k = if k = key then some entry else entries.lookup k := by
  induction entries with
  | nil => rw [put, lookup_cons_eq_ite]
  | cons pair rest ih =>
      obtain ⟨first, e⟩ := pair
      rw [put]
      split
      · next hfirst =>
        subst hfirst
        simp only [lookup_cons_eq_ite]
        split <;> rfl
      · next hfirst =>
        simp only [lookup_cons_eq_ite, ih]
        split
        · next hk => rw [if_neg (hk ▸ hfirst)]
        · rfl

@[simp] theorem get?_insert (s : Store) (key : Key) (entry : Entry) (k : Key) :
    (s.insert key entry).get? k = if k = key then some entry else s.get? k :=
  lookup_put key entry s.entries k

@[simp] theorem get?_invalidate (s : Store) (file : String) (k : Key) :
    (s.invalidate file).get? k = if k.file = file then none else s.get? k := by
  obtain ⟨entries⟩ := s
  simp only [get?, invalidate]
  induction entries with
  | nil => simp
  | cons pair rest ih =>
      obtain ⟨first, e⟩ := pair
      by_cases hfirst : first.file = file
      · rw [List.filter_cons_of_neg (by simpa using hfirst), ih, lookup_cons_eq_ite]
        by_cases hk : k.file = file
        · simp [hk]
        · have hne : k ≠ first := fun h => hk (h ▸ hfirst)
          simp [hk, hne]
      · rw [List.filter_cons_of_pos (by simpa using hfirst), lookup_cons_eq_ite,
          lookup_cons_eq_ite, ih]
        by_cases hk : k = first
        · simp [hk, hfirst]
        · simp [hk]

/-- What a store says about a key; a key without an entry counts as blank. -/
def entry (s : Store) (key : Key) : Entry := (s.get? key).getD .blank

@[simp] theorem entry_insert (s : Store) (key : Key) (e : Entry) (k : Key) :
    (s.insert key e).entry k = if k = key then e else s.entry k := by
  rw [entry, get?_insert]
  split <;> rfl

@[simp] theorem entry_invalidate (s : Store) (file : String) (k : Key) :
    (s.invalidate file).entry k = if k.file = file then .blank else s.entry k := by
  rw [entry, get?_invalidate]
  split <;> rfl

@[simp] theorem entry_clear (s : Store) (k : Key) : s.clear.entry k = .blank := rfl

end BlockExports.Store
