import BlockExports.Proofs.Component.Markup

/-!
Markup within a part of a text.

What is read stays what it is when more text follows. This is the way back: what is read in a longer
text and ends within the first part of it is read in that part alone (`markup?_of_append`). So what a
scan has passed does not depend on anything behind it.
-/

namespace BlockExports.Component

open Text

theorem find?_of_append {needle xs ts : List Char} (hne : needle ≠ []) {n : Nat}
    (h : find? needle (xs ++ ts) = some n) (hwithin : n + needle.length ≤ xs.length) :
    find? needle xs = some n := by
  obtain ⟨hat, hfirst⟩ := (find?_eq_some_iff hne _ n).mp h
  refine (find?_eq_some_iff hne xs n).mpr ⟨?_, fun m hm hearly => hfirst m hm ?_⟩
  · rw [List.drop_append_of_le_length (by omega)] at hat
    apply List.prefix_of_prefix_length_le hat (List.prefix_append _ _)
    rw [List.length_drop]
    omega
  · rw [List.drop_append_of_le_length (by omega)]
    exact hearly.trans (List.prefix_append _ _)

/-! ### Closing tags -/

/-- A closing tag stands behind the characters that are skipped, and has room for its own. -/
theorem closingFrom?_place {name cs : List Char} {depth here skip stop length : Nat}
    (h : closingFrom? name depth here skip cs = some (stop, length)) :
    here + skip ≤ stop ∧ stop + (name.length + 3) ≤ length := by
  fun_induction closingFrom? name depth here skip cs with
  | case1 | case3 | case4 => simp at h
  | case2 depth here skip c cs ih =>
      have hplace := ih h
      omega
  | case5 depth here c cs content _ inner behind _ distance _ =>
      obtain ⟨rfl, rfl⟩ : here + content = stop ∧ here + (behind + distance + 1) = length := by
        simpa using h
      omega
  | case6 | case7 =>
      rename_i ih
      have hplace := ih h
      omega

/-- The first letters of a closing tag are the earliest place of one. -/
theorem closingFrom?_mark_le {name cs : List Char} {depth here content stop length : Nat}
    (hmark : find? ('<' :: '/' :: name) cs = some content)
    (h : closingFrom? name depth here 0 cs = some (stop, length)) : here + content ≤ stop := by
  cases cs with
  | nil => simp [closingFrom?] at h
  | cons c cs =>
      rw [closingFrom?, hmark] at h
      simp only at h
      generalize (if name = nestingName then _ else _ : Nat) = inner at h
      split at h
      · split at h
        · simp at h
        · cases inner with
          | zero =>
              obtain ⟨rfl, -⟩ := Prod.mk.inj (Option.some.inj h)
              exact Nat.le_refl _
          | succ inner =>
              have hplace := (closingFrom?_place h).1
              omega
      · have hplace := (closingFrom?_place h).1
        omega

/-- Where a closing tag ends within the first part of a text, so do the letters of every closing tag
in front of it. -/
theorem candidate_of_append {name xs ts : List Char} {depth here content stop length : Nat}
    (hmark : find? ('<' :: '/' :: name) (xs ++ ts) = some content)
    (h : closingFrom? name depth here 0 (xs ++ ts) = some (stop, length))
    (hwithin : length ≤ here + xs.length) :
    find? ('<' :: '/' :: name) xs = some content ∧
      xs.drop (content + 2 + name.length) ≠ [] := by
  have hfirst := closingFrom?_mark_le hmark h
  have hroom := (closingFrom?_place h).2
  refine ⟨find?_of_append (by simp) hmark ?_, ?_⟩
  · simp only [List.length_cons]
    omega
  · rw [Ne, List.drop_eq_nil_iff]
    omega

/-- A closing tag that ends within the first part of a text is found in that part alone. -/
theorem closingFrom?_of_append {name xs ts : List Char} {depth here skip stop length : Nat}
    (h : closingFrom? name depth here skip (xs ++ ts) = some (stop, length))
    (hwithin : length ≤ here + xs.length) :
    closingFrom? name depth here skip xs = some (stop, length) := by
  induction xs generalizing depth here skip with
  | nil =>
      have hplace := closingFrom?_place h
      rw [List.length_nil] at hwithin
      omega
  | cons c xs ih =>
      have hnext : length ≤ here + 1 + xs.length := by
        rw [List.length_cons] at hwithin
        omega
      cases skip with
      | succ skip => exact ih h hnext
      | zero =>
          cases hmark : find? ('<' :: '/' :: name) (c :: xs ++ ts) with
          | none =>
              rw [List.cons_append] at hmark h
              simp [closingFrom?, hmark] at h
          | some content =>
              obtain ⟨hmark', hbehind⟩ := candidate_of_append hmark h hwithin
              obtain ⟨-, hopenings, hdrop⟩ := candidate_append hmark' ts
              rw [List.cons_append] at h hmark hopenings hdrop
              rw [closingFrom?, hmark']
              rw [closingFrom?, hmark] at h
              simp only [hopenings, hdrop, atBoundary_append hbehind] at h ⊢
              generalize (if name = nestingName then _ else _ : Nat) = inner at h ⊢
              split at h
              · next hboundary =>
                rw [if_pos hboundary]
                cases hangle : find? ['>'] ((c :: xs).drop (content + 2 + name.length) ++ ts) with
                | none => simp [hangle] at h
                | some distance =>
                    simp only [hangle] at h
                    -- the angle lies within the first part as well
                    have hends : content + 2 + name.length + distance + 1 ≤ (c :: xs).length := by
                      cases inner with
                      | zero =>
                          obtain ⟨-, rfl⟩ := Prod.mk.inj (Option.some.inj h)
                          omega
                      | succ inner =>
                          have hplace := (closingFrom?_place h).1
                          have hroom := (closingFrom?_place h).2
                          rw [List.length_cons]
                          omega
                    have hangle' := find?_of_append (by simp) hangle (by
                      rw [List.length_drop, List.length_singleton]
                      omega)
                    rw [hangle']
                    cases inner with
                    | zero => exact h
                    | succ inner => exact ih h hnext
              · next hboundary =>
                rw [if_neg hboundary]
                exact ih h hnext

theorem closing?_of_append {name xs ts : List Char} {stop length : Nat}
    (h : closing? name (xs ++ ts) = some (stop, length)) (hwithin : length ≤ xs.length) :
    closing? name xs = some (stop, length) :=
  closingFrom?_of_append h (by omega)

/-! ### Opening tags -/

theorem tagEnd?_of_append {quote : Option Char} {xs ts : List Char} {n : Nat}
    (h : tagEnd? quote (xs ++ ts) = some n) (hwithin : n ≤ xs.length) :
    tagEnd? quote xs = some n := by
  induction xs generalizing quote n with
  | nil =>
      obtain ⟨attributes, _, -, rfl⟩ := tagEnd?_eq_some h
      simp at hwithin
  | cons c xs ih =>
      rw [List.length_cons] at hwithin
      cases quote with
      | some q =>
          rw [List.cons_append, tagEnd?] at h
          obtain ⟨k, hk, rfl⟩ := Option.map_eq_some_iff.mp h
          rw [tagEnd?, ih hk (by omega), Option.map_some]
      | none =>
          rw [List.cons_append, tagEnd?] at h
          rw [tagEnd?]
          split at h
          · next hangle => rw [if_pos hangle, h]
          · next hangle =>
            obtain ⟨k, hk, rfl⟩ := Option.map_eq_some_iff.mp h
            rw [if_neg hangle, ih hk (by omega), Option.map_some]

/-- A name is read up to the first character that cannot be part of one. -/
theorem tagName?_next {name rest : List Char} (h : tagName? (name ++ rest) = some name) :
    ∀ c ∈ rest.head?, isNameChar c = false := by
  obtain ⟨htag, -⟩ := tagName?_eq_some h
  unfold tagName? at h
  simp only at h
  split at h
  · have hrun := Option.some.inj h
    rw [List.takeWhile_append_of_pos htag.2, List.append_right_eq_self] at hrun
    cases rest with
    | nil => simp
    | cons c rest =>
        rw [List.takeWhile_cons] at hrun
        split at hrun
        · simp at hrun
        · next hc => simpa using hc
  · simp at h

theorem ReadsTag.of_append {name attributes rest ts : List Char}
    (h : ReadsTag name attributes (rest ++ ts)) : ReadsTag name attributes rest where
  name_eq := by
    refine tagName?_append (tagName?_eq_some h.name_eq).1 ?_
    have hnext := tagName?_next h.name_eq
    cases attributes with
    | nil => exact hnext
    | cons c attributes => exact hnext
  end_eq := by
    have hend := h.end_eq
    rw [← List.cons_append, ← List.append_assoc] at hend
    refine tagEnd?_of_append hend ?_
    simp

theorem tagName?_of_append_none {xs ts : List Char} (h : tagName? (xs ++ ts) = none) :
    tagName? xs = none := by
  cases hname : tagName? xs with
  | none => rfl
  | some name =>
      obtain ⟨⟨⟨c, hc, halpha⟩, hchars⟩, rest, rfl⟩ := tagName?_eq_some hname
      have hhead : (name ++ (rest ++ ts).takeWhile isNameChar).head? = some c := by
        rw [List.head?_append, Option.mem_def.mp hc, Option.some_or]
      rw [List.append_assoc, tagName?, List.takeWhile_append_of_pos hchars] at h
      simp only [hhead, Option.any_some, halpha, if_true, reduceCtorEq] at h

/-! ### Markup -/

theorem tagMarkup?_opening_le {name attributes rest : List Char} {m : Markup}
    (h : tagMarkup? name attributes rest = some m) :
    (openingTag name attributes).length ≤ m.length := by
  unfold tagMarkup? at h
  simp only at h
  split at h
  · obtain rfl := Option.some.inj h
    exact Nat.le_refl _
  · obtain ⟨found, -, rfl⟩ := Option.map_eq_some_iff.mp h
    exact Nat.le_add_right _ _

theorem tagMarkup?_of_append {name attributes rest ts : List Char} {m : Markup}
    (h : tagMarkup? name attributes (rest ++ ts) = some m)
    (hwithin : m.length ≤ (openingTag name attributes ++ rest).length) :
    tagMarkup? name attributes rest = some m := by
  unfold tagMarkup? at h ⊢
  simp only at h ⊢
  split at h
  · next hslash => rw [if_pos hslash, h]
  · next hslash =>
    obtain ⟨⟨stop, length⟩, hfound, rfl⟩ := Option.map_eq_some_iff.mp h
    have hle : length ≤ rest.length := by
      rw [Markup.length, List.length_append] at hwithin
      exact Nat.le_of_add_le_add_left hwithin
    rw [if_neg hslash, closing?_of_append hfound hle, Option.map_some]

/-- What stands at an angle and ends within the first part of a text stands there in that part
alone. -/
theorem markup?_of_append {xs ts : List Char} {m : Markup}
    (h : markup? ('<' :: (xs ++ ts)) = some m) (hwithin : m.length ≤ ('<' :: xs).length) :
    markup? ('<' :: xs) = some m := by
  cases hcomment : "<!--".toList.isPrefixOf ('<' :: (xs ++ ts)) with
  | true =>
      rw [markup?, if_pos hcomment] at h
      obtain ⟨n, hn, rfl⟩ := Option.map_eq_some_iff.mp h
      have hlater : n ≠ 0 := by
        rintro rfl
        have hat := ((find?_eq_some_iff (by decide) _ 0).mp hn).1
        simp at hat
      have hroom : "<!--".toList.length ≤ ('<' :: xs).length := by
        rw [Markup.length] at hwithin
        change 4 ≤ _
        omega
      rw [← List.cons_append] at hcomment hn
      rw [isPrefixOf_append hroom] at hcomment
      rw [markup?, if_pos hcomment, find?_of_append (by decide) hn hwithin, Option.map_some]
  | false =>
      have hcomment' : "<!--".toList.isPrefixOf ('<' :: xs) = false := by
        by_contra hstarts
        rw [Bool.not_eq_false, List.isPrefixOf_iff_prefix] at hstarts
        have hlonger := hstarts.trans (List.prefix_append _ ts)
        rw [List.cons_append, ← List.isPrefixOf_iff_prefix, hcomment] at hlonger
        simp at hlonger
      rcases exists_readsTag h hcomment with ⟨hname, rfl⟩ | ⟨name, attributes, rest, hcs, htag⟩
      · rw [markup?, hcomment', if_neg (by simp), List.drop_succ_cons, List.drop_zero,
          tagName?_of_append_none hname]
      · rw [hcs, markup?_of_readsTag htag] at h
        rw [← List.cons_append] at hcs
        -- the opening tag lies within the first part
        have hopening : openingTag name attributes <+: '<' :: xs := by
          refine List.prefix_of_prefix_length_le ⟨rest, hcs.symm⟩ (List.prefix_append _ ts) ?_
          exact (tagMarkup?_opening_le h).trans hwithin
        obtain ⟨rest', hrest'⟩ := hopening
        obtain rfl : rest = rest' ++ ts := by
          rw [← hrest', List.append_assoc] at hcs
          exact (List.append_cancel_left hcs).symm
        rw [← hrest'] at hwithin ⊢
        rw [markup?_of_readsTag htag.of_append]
        exact tagMarkup?_of_append h hwithin

end BlockExports.Component
