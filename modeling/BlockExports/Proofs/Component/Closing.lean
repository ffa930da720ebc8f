import BlockExports.Component.Tag
import Mathlib.Data.List.Infix

/-!
The search for a closing tag, one character at a time.

`closingFrom?` jumps from one candidate to the next and counts the openings in between afterwards.
Here the same search is taken apart into single steps: a character at which no closing tag stands is
passed, and is counted when a tag of the same kind opens there (`closingFrom?_cons`); at a closing
tag the search ends or leaves one level (`closingFrom?_mark`).
-/

namespace BlockExports.Component

/-! ### First occurrences -/

theorem find?_eq_some_iff {needle : List Char} (hne : needle ≠ []) (cs : List Char) (n : Nat) :
    find? needle cs = some n ↔
      needle <+: cs.drop n ∧ ∀ m < n, ¬needle <+: cs.drop m := by
  induction cs generalizing n with
  | nil => simp [find?, hne]
  | cons c cs ih =>
      rw [find?]
      split
      · next hstarts =>
        rw [List.isPrefixOf_iff_prefix] at hstarts
        constructor
        · rintro ⟨⟩
          exact ⟨hstarts, by simp⟩
        · rintro ⟨-, hfirst⟩
          cases n with
          | zero => rfl
          | succ n => exact absurd hstarts (hfirst 0 (by omega))
      · next hstarts =>
        rw [List.isPrefixOf_iff_prefix] at hstarts
        cases n with
        | zero => simp [hstarts]
        | succ n =>
            simp only [Option.map_eq_some_iff, Nat.add_right_cancel_iff, exists_eq_right, ih,
              List.drop_succ_cons]
            refine and_congr_right fun _ => ⟨fun h m hm => ?_, fun h m hm => ?_⟩
            · cases m with
              | zero => exact hstarts
              | succ m => exact h m (by omega)
            · exact h (m + 1) (by omega)

/-- There is room for the needle behind its first occurrence. -/
theorem add_length_le_of_find? {needle cs : List Char} (hne : needle ≠ []) {n : Nat}
    (h : find? needle cs = some n) : n + needle.length ≤ cs.length := by
  have hat : needle <+: cs.drop n := ((find?_eq_some_iff hne cs n).mp h).1
  have hle : needle.length ≤ cs.length - n := by simpa using hat.length_le
  have hpos : 0 < needle.length := List.length_pos_iff.mpr hne
  omega

/-- What is found is found again when more text follows. -/
theorem find?_append_of_some {needle xs : List Char} (hne : needle ≠ []) {n : Nat}
    (h : find? needle xs = some n) (cs : List Char) : find? needle (xs ++ cs) = some n := by
  have hroom := add_length_le_of_find? hne h
  obtain ⟨hat, hfirst⟩ := (find?_eq_some_iff hne xs n).mp h
  refine (find?_eq_some_iff hne _ n).mpr ⟨?_, fun m hm hearly => hfirst m hm ?_⟩
  · rw [List.drop_append_of_le_length (by omega)]
    exact hat.trans (List.prefix_append _ _)
  · rw [List.drop_append_of_le_length (by omega)] at hearly
    refine List.prefix_of_prefix_length_le hearly (List.prefix_append _ _) ?_
    rw [List.length_drop]
    omega

/-- Text without the first character of a needle does not hold its beginning. -/
theorem find?_append_of_notMem {c : Char} {needle xs : List Char} (hxs : c ∉ xs)
    (cs : List Char) :
    find? (c :: needle) (xs ++ cs) = (find? (c :: needle) cs).map (· + xs.length) := by
  induction xs with
  | nil => simp
  | cons x xs ih =>
      simp only [List.mem_cons, not_or] at hxs
      have hstarts : (c :: needle).isPrefixOf (x :: (xs ++ cs)) = false := by
        simp [List.isPrefixOf, hxs.1]
      rw [List.cons_append, find?, hstarts, ih hxs.2, if_neg (by simp), Option.map_map]
      rfl

theorem find?_append_cons {c : Char} {xs : List Char} (hxs : c ∉ xs) (cs : List Char) :
    find? [c] (xs ++ c :: cs) = some xs.length := by
  rw [find?_append_of_notMem hxs]
  simp [find?, List.isPrefixOf]

/-- A character that is not found is not there. -/
theorem notMem_of_find?_eq_none {c : Char} {cs : List Char} (h : find? [c] cs = none) :
    c ∉ cs := by
  intro hmem
  obtain ⟨xs, ys, rfl, hxs⟩ := List.eq_append_cons_of_mem hmem
  rw [find?_append_cons hxs] at h
  simp at h

/-! ### Openings -/

/-- Nothing is counted within the characters that belong to the occurrence before. -/
theorem openings_drop (tag : List Char) (skip room : Nat) (cs : List Char) :
    openings tag skip (skip + room) cs = openings tag 0 room (cs.drop skip) := by
  induction skip generalizing cs with
  | zero => rw [Nat.zero_add, List.drop_zero]
  | succ skip ih =>
      cases cs with
      | nil => simp [openings]
      | cons c cs => rw [Nat.add_right_comm, openings, ih, List.drop_succ_cons]

/-- The openings are counted from one occurrence of the tag's letters to the next. -/
theorem openings_eq {tag : List Char} (htag : tag ≠ []) (room : Nat) (cs : List Char) :
    openings tag 0 room cs =
      match find? tag (cs.take room) with
      | none => 0
      | some n =>
        (if atBoundary (cs.drop (n + tag.length)) then 1 else 0) +
          openings tag 0 (room - (n + tag.length)) (cs.drop (n + tag.length)) := by
  obtain ⟨t, ts, rfl⟩ := List.exists_cons_of_ne_nil htag
  induction cs generalizing room with
  | nil => simp [openings, find?]
  | cons c cs ih =>
      cases room with
      | zero => simp [openings, find?]
      | succ room =>
          have hstarts : (t :: ts).isPrefixOf (c :: cs.take room) =
              ((t :: ts).length ≤ room + 1 && (t :: ts).isPrefixOf (c :: cs)) := by
            rw [← List.take_succ_cons, Bool.eq_iff_iff, Bool.and_eq_true, decide_eq_true_eq,
              List.isPrefixOf_iff_prefix, List.isPrefixOf_iff_prefix, List.prefix_take_iff,
              and_comm]
          rw [openings, List.take_succ_cons, find?, hstarts]
          split
          · next hfits =>
            rw [Bool.and_eq_true, decide_eq_true_eq, List.length_cons] at hfits
            obtain ⟨more, rfl⟩ : ∃ more, room = ts.length + more :=
              Nat.exists_eq_add_of_le (Nat.le_of_succ_le_succ hfits.1)
            simp only [List.length_cons, Nat.add_sub_cancel, Nat.zero_add, List.drop_succ_cons,
              openings_drop]
            congr 2
            omega
          · rw [ih]
            cases find? (t :: ts) (cs.take room) with
            | none => rfl
            | some n =>
                simp only [Option.map_some, Nat.add_right_comm n 1, List.drop_succ_cons,
                  Nat.add_sub_add_right]

/-- A tag opens here that may hold others of its kind. -/
def opensAt (name cs : List Char) : Bool :=
  name = nestingName && (('<' :: name).isPrefixOf cs && atBoundary (cs.drop (name.length + 1)))

/-- A closing tag stands here. -/
def closesAt (name cs : List Char) : Bool :=
  ('<' :: '/' :: name).isPrefixOf cs && atBoundary (cs.drop (name.length + 2))

theorem nestingName_angle : '<' ∉ nestingName := by decide

theorem opensAt_cons_of_ne (name : List Char) {c : Char} (hc : c ≠ '<') (cs : List Char) :
    opensAt name (c :: cs) = false := by
  simp [opensAt, List.isPrefixOf, Ne.symm hc]

section Steps

variable {name : List Char}

theorem openings_cons_of_ne {c : Char} (hc : c ≠ '<') (room : Nat) (cs : List Char) :
    openings ('<' :: name) 0 (room + 1) (c :: cs) = openings ('<' :: name) 0 room cs := by
  have hstarts : ('<' :: name).isPrefixOf (c :: cs) = false := by
    simp [List.isPrefixOf, Ne.symm hc]
  rw [openings, hstarts]
  simp

/-- Skipping text in which nothing opens is as good as reading it. -/
theorem openings_skip {xs : List Char} (hxs : '<' ∉ xs) (room : Nat) (cs : List Char) :
    openings ('<' :: name) xs.length room (xs ++ cs) =
      openings ('<' :: name) 0 room (xs ++ cs) := by
  induction xs generalizing room with
  | nil => rfl
  | cons x xs ih =>
      simp only [List.mem_cons, not_or] at hxs
      cases room with
      | zero => simp [openings]
      | succ room =>
          rw [List.cons_append, openings_cons_of_ne (Ne.symm hxs.1), List.length_cons, openings,
            ih hxs.2]

/-- Openings are counted one by one, as long as there is room for the first. -/
theorem openings_cons (hname : '<' ∉ name) {room : Nat} {c : Char} {cs : List Char}
    (hroom : ('<' :: name) <+: c :: cs → name.length ≤ room) :
    openings ('<' :: name) 0 (room + 1) (c :: cs) =
      (if ('<' :: name).isPrefixOf (c :: cs) && atBoundary ((c :: cs).drop (name.length + 1))
        then 1 else 0) + openings ('<' :: name) 0 room cs := by
  cases hstarts : ('<' :: name).isPrefixOf (c :: cs) with
  | false =>
      rw [openings, hstarts]
      simp
  | true =>
      obtain ⟨rest, hrest⟩ := List.isPrefixOf_iff_prefix.mp hstarts
      have hfits : name.length ≤ room := hroom ⟨rest, hrest⟩
      obtain ⟨rfl, rfl⟩ : '<' = c ∧ name ++ rest = cs := by simpa using hrest
      rw [openings, hstarts]
      simp only [List.length_cons, Nat.add_le_add_iff_right, hfits, decide_true, Bool.and_self,
        if_true, Bool.true_and, Nat.add_sub_cancel]
      rw [openings_skip hname]

/-! ### Passing a character -/

theorem closingFrom?_skip (depth here : Nat) (xs cs : List Char) :
    closingFrom? name depth here xs.length (xs ++ cs) =
      closingFrom? name depth (here + xs.length) 0 cs := by
  induction xs generalizing here with
  | nil => rfl
  | cons x xs ih =>
      rw [List.length_cons, List.cons_append, closingFrom?, ih]
      congr 1
      omega

/-- Characters that were dealt with already are passed. -/
theorem closingFrom?_drop (depth here : Nat) {skip : Nat} {cs : List Char}
    (h : skip ≤ cs.length) :
    closingFrom? name depth here skip cs =
      closingFrom? name depth (here + skip) 0 (cs.drop skip) := by
  have hskip := @closingFrom?_skip name depth here (cs.take skip) (cs.drop skip)
  rwa [List.take_append_drop, List.length_take, Nat.min_eq_left h] at hskip

/-- The places that a search gives count from where it starts. -/
theorem closingFrom?_add (base depth here skip : Nat) (cs : List Char) :
    closingFrom? name depth (base + here) skip cs =
      (closingFrom? name depth here skip cs).map fun (a, b) => (base + a, base + b) := by
  induction cs generalizing depth here skip with
  | nil => simp [closingFrom?]
  | cons c cs ih =>
      cases skip with
      | succ skip => rw [closingFrom?, closingFrom?, Nat.add_assoc, ih]
      | zero =>
          rw [closingFrom?, closingFrom?]
          cases find? ('<' :: '/' :: name) (c :: cs) with
          | none => rfl
          | some content =>
              simp only
              generalize (if name = nestingName then _ else _ : Nat) = inner
              split
              · cases find? ['>'] ((c :: cs).drop (content + 2 + name.length)) with
                | none => rfl
                | some distance =>
                    cases inner with
                    | zero => simp only [Option.map_some, Nat.add_assoc]
                    | succ inner => exact ih inner (here + 1) _
              · exact ih inner (here + 1) _

/-- Where the letters of a closing tag do not begin, the search passes one character. -/
theorem closingFrom?_cons_of_no_mark (depth here : Nat) {c : Char} {cs : List Char}
    (hmark : ¬('<' :: '/' :: name) <+: c :: cs) :
    closingFrom? name depth here 0 (c :: cs) =
      closingFrom? name (depth + if opensAt name (c :: cs) then 1 else 0) (here + 1) 0 cs := by
  have hfind : find? ('<' :: '/' :: name) (c :: cs) =
      (find? ('<' :: '/' :: name) cs).map (· + 1) := by
    rw [find?, if_neg (by rwa [List.isPrefixOf_iff_prefix])]
  cases hnext : find? ('<' :: '/' :: name) cs with
  | none =>
      rw [closingFrom?, hfind, hnext]
      cases cs with
      | nil => rfl
      | cons e es =>
          rw [closingFrom?, hnext]
          rfl
  | some n =>
      obtain ⟨hat, hfirst⟩ := (find?_eq_some_iff (by simp) cs n).mp hnext
      -- an opening here ends before the next closing tag begins
      have hroom (hname : '<' ∉ name) : ('<' :: name) <+: c :: cs → name.length ≤ n := by
        rintro ⟨rest, hrest⟩
        obtain ⟨-, rfl⟩ : '<' = c ∧ name ++ rest = cs := by simpa using hrest
        rw [find?_append_of_notMem hname] at hnext
        obtain ⟨m, -, rfl⟩ := Option.map_eq_some_iff.mp hnext
        omega
      have hinner : (if name = nestingName then
            depth + openings ('<' :: name) 0 (n + 1) (c :: cs) else depth) =
          if name = nestingName then
            (depth + if opensAt name (c :: cs) then 1 else 0) + openings ('<' :: name) 0 n cs
          else depth + if opensAt name (c :: cs) then 1 else 0 := by
        by_cases hnesting : name = nestingName
        · have hname : '<' ∉ name := hnesting ▸ nestingName_angle
          rw [if_pos hnesting, if_pos hnesting, openings_cons hname (hroom hname), Nat.add_assoc]
          simp [opensAt, hnesting]
        · simp [opensAt, hnesting]
      have hbehind : n + 1 + 2 + name.length = (n + 2 + name.length) + 1 := by omega
      cases cs with
      | nil => simp [find?] at hnext
      | cons e es =>
          -- both searches jump to the same place, one of them from a character further on
          have hskip (d k : Nat) : closingFrom? name d (here + 1) (k + 1) (e :: es) =
              closingFrom? name d (here + 1 + 1) k es := by rw [closingFrom?]
          rw [closingFrom?, hfind, hnext]
          rw [closingFrom?, hnext]
          simp only [Option.map_some, hinner, hbehind, List.drop_succ_cons, Nat.add_sub_cancel]
          generalize (if name = nestingName then _ else _ : Nat) = inner
          split
          · cases find? ['>'] (List.drop (n + 2 + name.length) (e :: es)) with
            | none => rfl
            | some distance =>
                cases inner with
                | zero =>
                    simp only [Option.some.injEq, Prod.mk.injEq]
                    omega
                | succ inner =>
                    simp only
                    rw [Nat.add_right_comm _ 1 distance, hskip]
          · rw [show n + 2 + name.length = n + 1 + name.length + 1 by omega, hskip]
            rfl

theorem closingFrom?_cons_of_ne (depth here : Nat) {c : Char} (hc : c ≠ '<') (cs : List Char) :
    closingFrom? name depth here 0 (c :: cs) = closingFrom? name depth (here + 1) 0 cs := by
  have hmark : ¬('<' :: '/' :: name) <+: c :: cs := by simp [Ne.symm hc]
  rw [closingFrom?_cons_of_no_mark depth here hmark, opensAt_cons_of_ne name hc]
  simp

theorem closingFrom?_append_of_notMem (depth here : Nat) {xs : List Char} (hxs : '<' ∉ xs)
    (cs : List Char) :
    closingFrom? name depth here 0 (xs ++ cs) =
      closingFrom? name depth (here + xs.length) 0 cs := by
  induction xs generalizing here with
  | nil => rfl
  | cons x xs ih =>
      simp only [List.mem_cons, not_or] at hxs
      rw [List.cons_append, closingFrom?_cons_of_ne depth here (Ne.symm hxs.1), ih _ hxs.2,
        List.length_cons]
      congr 1
      omega

/-- The letters of a closing tag, with what follows them: either the tag ends behind them, or they
are passed like any text. -/
theorem closingFrom?_mark (depth here : Nat) (rest : List Char) :
    closingFrom? name depth here 0 ('<' :: '/' :: name ++ rest) =
      if atBoundary rest then
        match find? ['>'] rest with
        | none => none
        | some distance =>
          match depth with
          | 0 => some (here, here + (name.length + distance + 3))
          | depth + 1 => closingFrom? name depth (here + (name.length + distance + 3)) 0
              (rest.drop (distance + 1))
      else closingFrom? name depth (here + (name.length + 2)) 0 rest := by
  have hfind : find? ('<' :: '/' :: name) ('<' :: '/' :: name ++ rest) = some 0 :=
    (find?_eq_some_iff (by simp) _ 0).mpr ⟨List.prefix_append _ _, by simp⟩
  have hdrop : ('<' :: '/' :: (name ++ rest)).drop (0 + 2 + name.length) = rest := by
    rw [show 0 + 2 + name.length = name.length + 1 + 1 by omega, List.drop_succ_cons,
      List.drop_succ_cons, List.drop_left]
  have hopenings : openings ('<' :: name) 0 0 ('<' :: '/' :: (name ++ rest)) = 0 := by
    rw [openings]
    simp
  simp only [List.cons_append] at hfind ⊢
  rw [closingFrom?, hfind]
  simp only [hdrop, hopenings, Nat.add_zero, ite_self, Nat.zero_add]
  split
  · cases hend : find? ['>'] rest with
    | none => rfl
    | some distance =>
        have hroom : distance + 1 ≤ rest.length := add_length_le_of_find? (by simp) hend
        cases depth with
        | zero =>
            simp only [Option.some.injEq, Prod.mk.injEq, true_and]
            omega
        | succ depth =>
            have hlength : ('/' :: name ++ rest.take (distance + 1)).length =
                2 + name.length + distance := by
              simp only [List.cons_append, List.length_cons, List.length_append, List.length_take]
              omega
            have hsplit : '/' :: (name ++ rest) =
                ('/' :: name ++ rest.take (distance + 1)) ++ rest.drop (distance + 1) := by
              simp
            simp only [Nat.add_sub_cancel]
            rw [← hlength, hsplit, closingFrom?_skip, hlength]
            congr 1
            omega
  · rw [show 2 + name.length - 1 = ('/' :: name).length by simp; omega, ← List.cons_append,
      closingFrom?_skip, List.length_cons]
    congr 1
    omega

/-- Unless a closing tag stands here, the search passes one character and counts an opening. -/
theorem closingFrom?_cons (hname : '<' ∉ name) (depth here : Nat) {c : Char} {cs : List Char}
    (hclose : closesAt name (c :: cs) = false) :
    closingFrom? name depth here 0 (c :: cs) =
      closingFrom? name (depth + if opensAt name (c :: cs) then 1 else 0) (here + 1) 0 cs := by
  by_cases hmark : ('<' :: '/' :: name) <+: c :: cs
  · obtain ⟨rest, hrest⟩ := hmark
    obtain ⟨rfl, rfl⟩ : '<' = c ∧ '/' :: name ++ rest = cs := by simpa using hrest
    -- the letters are there but no end of the name, so they are text without an angle
    have hfree : '<' ∉ '/' :: name := by simp [hname]
    have hopens : opensAt name ('<' :: ('/' :: name ++ rest)) = false := by
      by_cases hnesting : name = nestingName
      · subst hnesting
        rfl
      · simp [opensAt, hnesting]
    have hboundary : atBoundary rest = false := by
      simpa [closesAt] using hclose
    rw [← List.cons_append, closingFrom?_mark, hboundary, List.cons_append, hopens,
      closingFrom?_append_of_notMem _ _ hfree]
    simp only [Bool.false_eq_true, if_false, List.length_cons, Nat.add_zero]
    congr 1
    omega
  · exact closingFrom?_cons_of_no_mark depth here hmark

/-- Text at no place of which a tag opens or closes is passed. -/
theorem closingFrom?_append (hname : '<' ∉ name) (depth here : Nat) {xs cs : List Char}
    (hpass : ∀ k < xs.length, closesAt name ((xs ++ cs).drop k) = false ∧
      opensAt name ((xs ++ cs).drop k) = false) :
    closingFrom? name depth here 0 (xs ++ cs) =
      closingFrom? name depth (here + xs.length) 0 cs := by
  induction xs generalizing here with
  | nil => rfl
  | cons x xs ih =>
      obtain ⟨hclose, hopen⟩ := hpass 0 (by simp)
      simp only [List.cons_append, List.drop_zero] at hclose hopen
      have hrest : ∀ k < xs.length, closesAt name ((xs ++ cs).drop k) = false ∧
          opensAt name ((xs ++ cs).drop k) = false := by
        intro k hk
        exact hpass (k + 1) (by simpa using hk)
      rw [List.cons_append, closingFrom?_cons hname depth here hclose, hopen]
      simp only [Bool.false_eq_true, if_false, Nat.add_zero]
      rw [ih _ hrest, List.length_cons]
      congr 1
      omega

end Steps

end BlockExports.Component
