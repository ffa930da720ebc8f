import BlockExports.Proofs.Component.Soundness

/-!
Markup in a text that goes on.

A scan decides what stands at an angle by looking for marks: the end of a comment, the end of a
name, the angle of a tag, a closing tag. A mark that is found is found again when more text follows.
The end of the text counts as the end of a name, but no tag ends there, so what is read to its end
stays what it is (`markup?_append_of_some`). Only the first letters of the mark that opens a comment
can turn into something else.
-/

namespace BlockExports.Component

open Text

/-! ### Tags -/

theorem atBoundary_append {cs : List Char} (hcs : cs ≠ []) (ts : List Char) :
    atBoundary (cs ++ ts) = atBoundary cs := by
  cases cs with
  | nil => exact absurd rfl hcs
  | cons c cs => rfl

theorem isPrefixOf_append {tag cs : List Char} (h : tag.length ≤ cs.length) (ts : List Char) :
    tag.isPrefixOf (cs ++ ts) = tag.isPrefixOf cs := by
  rw [Bool.eq_iff_iff, List.isPrefixOf_iff_prefix, List.isPrefixOf_iff_prefix]
  exact ⟨fun hpre => List.prefix_of_prefix_length_le hpre (List.prefix_append cs ts) h,
    fun hpre => hpre.trans (List.prefix_append cs ts)⟩

theorem isSuffixOf_append {tag ys : List Char} (h : tag.length ≤ ys.length) (xs : List Char) :
    tag.isSuffixOf (xs ++ ys) = tag.isSuffixOf ys := by
  rw [Bool.eq_iff_iff, List.isSuffixOf_iff_suffix, List.isSuffixOf_iff_suffix]
  exact ⟨fun hsuf => List.suffix_of_suffix_length_le hsuf (List.suffix_append xs ys) h,
    fun hsuf => hsuf.trans (List.suffix_append xs ys)⟩

/-- Openings are counted in a part of the text with something behind it, so that the end of the text
ends no name there. -/
theorem openings_append {tag cs : List Char} {skip room : Nat} (h : room < cs.length)
    (ts : List Char) : openings tag skip room (cs ++ ts) = openings tag skip room cs := by
  induction cs generalizing skip room with
  | nil => simp at h
  | cons c cs ih =>
      cases room with
      | zero => simp [openings]
      | succ room =>
          have hrest : room < cs.length := by simpa using h
          cases skip with
          | succ skip => rw [List.cons_append, openings, openings, ih hrest]
          | zero =>
              rw [List.cons_append, openings, openings]
              by_cases hfits : tag.length ≤ room + 1
              · have hdrop : (c :: (cs ++ ts)).drop tag.length =
                    (c :: cs).drop tag.length ++ ts := by
                  rw [← List.cons_append, List.drop_append_of_le_length (by simp; omega)]
                have hbehind : (c :: cs).drop tag.length ≠ [] := by
                  rw [Ne, List.drop_eq_nil_iff, List.length_cons]
                  omega
                rw [hdrop, atBoundary_append hbehind, ← List.cons_append,
                  isPrefixOf_append (by simp; omega), ih hrest, ih hrest]
              · simp only [hfits, decide_false, Bool.false_and, Bool.false_eq_true, if_false,
                  ih hrest]

/-- The letters of a closing tag, what opens in front of them and what stands behind them are the
same when more text follows. -/
theorem candidate_append {name cs : List Char} {content : Nat}
    (hmark : find? ('<' :: '/' :: name) cs = some content) (ts : List Char) :
    find? ('<' :: '/' :: name) (cs ++ ts) = some content ∧
      openings ('<' :: name) 0 content (cs ++ ts) = openings ('<' :: name) 0 content cs ∧
      (cs ++ ts).drop (content + 2 + name.length) =
        cs.drop (content + 2 + name.length) ++ ts := by
  have hroom : content + (name.length + 2) ≤ cs.length := add_length_le_of_find? (by simp) hmark
  exact ⟨find?_append_of_some (by simp) hmark ts, openings_append (by omega) ts,
    List.drop_append_of_le_length (by omega)⟩

/-- A closing tag that is found is found again when more text follows. -/
theorem closingFrom?_append_of_some {name cs : List Char} {depth here skip : Nat}
    {found : Nat × Nat} (h : closingFrom? name depth here skip cs = some found) (ts : List Char) :
    closingFrom? name depth here skip (cs ++ ts) = some found := by
  induction cs generalizing depth here skip with
  | nil => simp [closingFrom?] at h
  | cons c cs ih =>
      cases skip with
      | succ skip =>
          rw [closingFrom?] at h
          rw [List.cons_append, closingFrom?, ih h]
      | zero =>
          rw [closingFrom?] at h
          cases hmark : find? ('<' :: '/' :: name) (c :: cs) with
          | none => simp [hmark] at h
          | some content =>
              obtain ⟨hmark', hopenings, hdrop⟩ := candidate_append hmark ts
              simp only [hmark] at h
              rw [List.cons_append] at hmark' hopenings hdrop ⊢
              rw [closingFrom?]
              simp only [hmark', hopenings, hdrop]
              generalize (if name = nestingName then _ else _ : Nat) = inner at h ⊢
              generalize (c :: cs).drop (content + 2 + name.length) = rest at h ⊢
              -- the letters of a closing tag at the very end come before no angle
              have hrest : rest ≠ [] := by
                rintro rfl
                simp [atBoundary, find?] at h
              rw [atBoundary_append hrest]
              split at h
              · next hboundary =>
                rw [if_pos hboundary]
                cases hangle : find? ['>'] rest with
                | none => simp [hangle] at h
                | some distance =>
                    rw [find?_append_of_some (by simp) hangle]
                    rw [hangle] at h
                    cases inner with
                    | zero => exact h
                    | succ inner => exact ih h
              · next hboundary =>
                rw [if_neg hboundary]
                exact ih h

theorem closing?_append_of_some {name cs : List Char} {found : Nat × Nat}
    (h : closing? name cs = some found) (ts : List Char) : closing? name (cs ++ ts) = some found :=
  closingFrom?_append_of_some h ts

/-- A closing tag ends within the text. -/
theorem closingFrom?_le {name cs : List Char} {depth here skip stop length : Nat}
    (h : closingFrom? name depth here skip cs = some (stop, length)) :
    length ≤ here + cs.length := by
  fun_induction closingFrom? name depth here skip cs with
  | case1 | case3 | case4 => simp at h
  | case5 depth here c cs content _ inner behind _ distance hangle =>
      have hroom : distance + 1 ≤ ((c :: cs).drop behind).length :=
        add_length_le_of_find? (by simp) hangle
      rw [List.length_drop] at hroom
      obtain ⟨-, rfl⟩ : here + content = stop ∧ here + (behind + distance + 1) = length := by
        simpa using h
      omega
  | case2 | case6 | case7 =>
      -- the search goes on with the next character
      rename_i ih
      have hle := ih h
      rw [List.length_cons]
      omega

theorem tagEnd?_append_of_some {quote : Option Char} {cs : List Char} {n : Nat}
    (h : tagEnd? quote cs = some n) (ts : List Char) : tagEnd? quote (cs ++ ts) = some n := by
  induction cs generalizing quote n with
  | nil => cases quote <;> simp [tagEnd?] at h
  | cons c cs ih =>
      cases quote with
      | some q =>
          rw [tagEnd?] at h
          obtain ⟨k, hk, rfl⟩ := Option.map_eq_some_iff.mp h
          rw [List.cons_append, tagEnd?, ih hk, Option.map_some]
      | none =>
          rw [tagEnd?] at h
          rw [List.cons_append, tagEnd?]
          split at h
          · next hangle => rw [if_pos hangle, h]
          · next hangle =>
            obtain ⟨k, hk, rfl⟩ := Option.map_eq_some_iff.mp h
            rw [if_neg hangle, ih hk, Option.map_some]

/-- A name with text behind it ends there. -/
theorem tagName?_append_of_some {cs name : List Char} (h : tagName? cs = some name)
    (hmore : name.length < cs.length) (ts : List Char) : tagName? (cs ++ ts) = some name := by
  unfold tagName? at h
  simp only at h
  split at h
  · next hfirst =>
    obtain rfl := Option.some.inj h
    have htake : (cs ++ ts).takeWhile isNameChar = cs.takeWhile isNameChar := by
      rw [List.takeWhile_append, if_neg (by omega)]
    rw [tagName?]
    simp only [htake]
    exact if_pos hfirst
  · simp at h

theorem tagName?_append_of_none {cs : List Char} (h : tagName? cs = none) (hcs : cs ≠ [])
    (ts : List Char) : tagName? (cs ++ ts) = none := by
  cases cs with
  | nil => exact absurd rfl hcs
  | cons c cs =>
      -- whether there is a name is up to the first character
      have hfirst : ((c :: cs ++ ts).takeWhile isNameChar).head? =
          ((c :: cs).takeWhile isNameChar).head? := by
        rw [List.cons_append, List.takeWhile_cons, List.takeWhile_cons]
        split <;> rfl
      unfold tagName? at h ⊢
      simp only at h ⊢
      split at h
      · simp at h
      · next hname => rw [hfirst, if_neg hname]

/-! ### Markup -/

/-- How many characters a scan passes at once. -/
def Markup.length : Markup → Nat
  | passed length => length
  | element _ _ _ length => length

/-- The custom blocks in markup at the start of a text: the markup itself, if it is one. -/
def Markup.blocks (offset index : Nat) (cs : List Char) : Markup → List Block
  | passed _ => []
  | element tag content stop _ =>
    if standardTags.contains tag then []
    else
      [{ name := blockName index
         type := String.ofList tag
         content := String.ofList ((cs.take stop).drop content)
         start := offset + byteLength (cs.take content) }]

theorem markup?_length_pos {cs : List Char} {m : Markup} (h : markup? cs = some m) :
    0 < m.length := by
  unfold markup? at h
  split at h
  · obtain ⟨n, -, rfl⟩ := Option.map_eq_some_iff.mp h
    exact Nat.succ_pos _
  · split at h
    · obtain rfl := Option.some.inj h
      exact Nat.one_pos
    · split at h
      · simp at h
      · simp only at h
        split at h
        · obtain rfl := Option.some.inj h
          rw [Markup.length]
          omega
        · obtain ⟨found, -, rfl⟩ := Option.map_eq_some_iff.mp h
          simp only [Markup.length]
          omega

/-- At an angle a scan finds what the markup is, and goes on behind it. -/
theorem blocksFrom_markup {cs : List Char} {m : Markup} (h : markup? ('<' :: cs) = some m)
    (offset index : Nat) :
    blocksFrom offset index 0 ('<' :: cs) =
      m.blocks offset index ('<' :: cs) ++
        blocksFrom (offset + ('<').utf8Size)
          (index + (m.blocks offset index ('<' :: cs)).length) (m.length - 1) cs := by
  rw [blocksFrom, if_pos rfl, h]
  cases m with
  | passed length => rfl
  | element tag content stop length =>
      simp only [Markup.blocks, Markup.length]
      split <;> rfl

theorem blocksFrom_unfinished {cs : List Char} (h : markup? ('<' :: cs) = none)
    (offset index : Nat) : blocksFrom offset index 0 ('<' :: cs) = [] := by
  rw [blocksFrom, if_pos rfl, h]

theorem blocksFrom_text_cons {c : Char} (hc : c ≠ '<') (offset index : Nat) (cs : List Char) :
    blocksFrom offset index 0 (c :: cs) = blocksFrom (offset + c.utf8Size) index 0 cs := by
  rw [blocksFrom, if_neg hc]

/-! ### Reading on -/

/-- What the opening tag of a block or of an empty element is, with some text behind it. -/
def tagMarkup? (name attributes rest : List Char) : Option Markup :=
  let opening := openingTag name attributes
  if "/>".toList.isSuffixOf opening then some (.passed opening.length)
  else
    (closing? name rest).map fun (stop, length) =>
      .element name opening.length (opening.length + stop) (opening.length + length)

/-- The name of an opening tag is read up to its attributes, and the tag up to its angle. -/
structure ReadsTag (name attributes rest : List Char) : Prop where
  name_eq : tagName? (name ++ (attributes ++ '>' :: rest)) = some name
  end_eq : tagEnd? none (attributes ++ '>' :: rest) = some (attributes.length + 1)

section Tag

variable {name attributes rest : List Char}

theorem ReadsTag.append (h : ReadsTag name attributes rest) (ts : List Char) :
    ReadsTag name attributes (rest ++ ts) where
  name_eq := by
    have hmore : name.length < (name ++ (attributes ++ '>' :: rest)).length := by
      simp only [List.length_append, List.length_cons]
      omega
    have hname := tagName?_append_of_some h.name_eq hmore ts
    simpa using hname
  end_eq := by
    have hend := tagEnd?_append_of_some h.end_eq ts
    simpa using hend

theorem markup?_of_readsTag (h : ReadsTag name attributes rest) :
    markup? (openingTag name attributes ++ rest) = tagMarkup? name attributes rest := by
  have htag : TagName name := (tagName?_eq_some h.name_eq).1
  have hcomment : "<!--".toList.isPrefixOf (openingTag name attributes ++ rest) = false := by
    rw [openingTag_eq]
    exact htag.not_comment _
  have hname : tagName? ((openingTag name attributes ++ rest).drop 1) = some name := by
    rw [openingTag_eq]
    exact h.name_eq
  have hdrop : (openingTag name attributes ++ rest).drop (1 + name.length) =
      attributes ++ '>' :: rest := by
    rw [openingTag_eq, Nat.add_comm, List.drop_succ_cons, List.drop_left]
  have hlength : 1 + name.length + (attributes.length + 1) =
      (openingTag name attributes).length := by
    simp [openingTag]
    omega
  rw [markup?, hcomment]
  simp only [Bool.false_eq_true, if_false, hname, hdrop, h.end_eq, hlength, List.take_left,
    List.drop_left]
  rfl

theorem tagMarkup?_append_of_some {m : Markup} (h : tagMarkup? name attributes rest = some m)
    (ts : List Char) : tagMarkup? name attributes (rest ++ ts) = some m := by
  unfold tagMarkup? at h ⊢
  simp only at h ⊢
  split at h
  · next hslash => rw [if_pos hslash, h]
  · next hslash =>
    obtain ⟨found, hfound, rfl⟩ := Option.map_eq_some_iff.mp h
    rw [if_neg hslash, closing?_append_of_some hfound, Option.map_some]

theorem tagMarkup?_length_le {m : Markup} (h : tagMarkup? name attributes rest = some m) :
    m.length ≤ (openingTag name attributes ++ rest).length := by
  unfold tagMarkup? at h
  simp only at h
  rw [List.length_append]
  split at h
  · obtain rfl := Option.some.inj h
    exact Nat.le_add_right _ _
  · obtain ⟨⟨stop, length⟩, hfound, rfl⟩ := Option.map_eq_some_iff.mp h
    have hle := closingFrom?_le hfound
    rw [Markup.length]
    omega

end Tag

/-- What can stand at an angle that opens no comment. -/
theorem exists_readsTag {cs : List Char} {m : Markup} (h : markup? ('<' :: cs) = some m)
    (hcomment : "<!--".toList.isPrefixOf ('<' :: cs) = false) :
    tagName? cs = none ∧ m = .passed 1 ∨
      ∃ name attributes rest, '<' :: cs = openingTag name attributes ++ rest ∧
        ReadsTag name attributes rest := by
  rw [markup?, hcomment, if_neg (by simp), List.drop_succ_cons, List.drop_zero] at h
  cases hname : tagName? cs with
  | none =>
      rw [hname] at h
      exact Or.inl ⟨rfl, (Option.some.inj h).symm⟩
  | some name =>
      obtain ⟨-, rest, rfl⟩ := tagName?_eq_some hname
      have hdrop : ('<' :: (name ++ rest)).drop (1 + name.length) = rest := by
        rw [Nat.add_comm, List.drop_succ_cons, List.drop_left]
      simp only [hname, hdrop] at h
      cases hend : tagEnd? none rest with
      | none => simp [hend] at h
      | some distance =>
          obtain ⟨attributes, rest, rfl, rfl⟩ := tagEnd?_eq_some hend
          exact Or.inr ⟨name, attributes, rest, (openingTag_eq name attributes rest).symm,
            hname, hend⟩

/-- Markup ends within the text. -/
theorem markup?_length_le {cs : List Char} {m : Markup} (h : markup? ('<' :: cs) = some m) :
    m.length ≤ ('<' :: cs).length := by
  cases hcomment : "<!--".toList.isPrefixOf ('<' :: cs) with
  | true =>
      rw [markup?, if_pos hcomment] at h
      obtain ⟨n, hn, rfl⟩ := Option.map_eq_some_iff.mp h
      exact add_length_le_of_find? (by decide) hn
  | false =>
      rcases exists_readsTag h hcomment with ⟨-, rfl⟩ | ⟨name, attributes, rest, hcs, htag⟩
      · simp [Markup.length]
      · rw [hcs, markup?_of_readsTag htag] at h
        rw [hcs]
        exact tagMarkup?_length_le h

/-- Whether a comment opens is decided, unless the text stops within the mark of a comment. -/
theorem isPrefixOf_comment_append {cs : List Char} (hcs : ¬cs <+: "<!-".toList) (ts : List Char) :
    "<!--".toList.isPrefixOf (cs ++ ts) = "<!--".toList.isPrefixOf cs := by
  by_cases hlength : 4 ≤ cs.length
  · exact isPrefixOf_append (by simpa using hlength) ts
  · -- a shorter text could only be the beginning of the mark
    have hshort (h : cs <+: "<!--".toList) : False :=
      hcs (List.prefix_of_prefix_length_le h (by decide) (by simp; omega))
    rw [Bool.eq_iff_iff, List.isPrefixOf_iff_prefix, List.isPrefixOf_iff_prefix]
    constructor
    · intro hlonger
      exact (hshort (List.prefix_of_prefix_length_le (List.prefix_append cs ts) hlonger
        (by simp; omega))).elim
    · intro hmark
      have hle := hmark.length_le
      exact absurd hle hlength

/-- What stands at an angle still stands there when more text follows, unless the text stops where a
comment may be about to open. -/
theorem markup?_append_of_some {cs : List Char} {m : Markup} (h : markup? ('<' :: cs) = some m)
    (hcs : ¬('<' :: cs) <+: "<!-".toList) (ts : List Char) :
    markup? ('<' :: (cs ++ ts)) = some m := by
  have hmark := isPrefixOf_comment_append hcs ts
  rw [List.cons_append] at hmark
  cases hcomment : "<!--".toList.isPrefixOf ('<' :: cs) with
  | true =>
      rw [markup?, if_pos hcomment] at h
      obtain ⟨n, hn, rfl⟩ := Option.map_eq_some_iff.mp h
      rw [markup?, hmark, if_pos hcomment, ← List.cons_append,
        find?_append_of_some (by decide) hn, Option.map_some]
  | false =>
      rcases exists_readsTag h hcomment with ⟨hname, rfl⟩ | ⟨name, attributes, rest, htext, htag⟩
      · have hne : cs ≠ [] := by
          rintro rfl
          exact hcs (by decide)
        rw [markup?, hmark, hcomment, if_neg (by simp), List.drop_succ_cons, List.drop_zero,
          tagName?_append_of_none hname hne]
      · rw [htext, markup?_of_readsTag htag] at h
        rw [← List.cons_append, htext, List.append_assoc, markup?_of_readsTag (htag.append ts),
          tagMarkup?_append_of_some h]

/-- Custom markup with more text behind it is the same block. -/
theorem blocks_append {cs : List Char} {m : Markup} (h : markup? ('<' :: cs) = some m)
    (offset index : Nat) (ts : List Char) :
    m.blocks offset index ('<' :: (cs ++ ts)) = m.blocks offset index ('<' :: cs) := by
  cases m with
  | passed length => rfl
  | element tag content stop length =>
      rw [Markup.blocks, Markup.blocks]
      split
      · rfl
      · next hcustom =>
        obtain ⟨attributes, body, margin, rest, hcs, rfl, rfl, -, -, -⟩ :=
          markup?_element h (not_standard (Bool.eq_false_iff.mpr hcustom)).1
        have hroom := congrArg List.length hcs
        simp only [List.length_append] at hroom
        rw [← List.cons_append, List.take_append_of_le_length (by omega),
          List.take_append_of_le_length (by omega)]

end BlockExports.Component
