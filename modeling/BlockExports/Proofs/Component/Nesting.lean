import BlockExports.Proofs.Component.Closing

/-!
Bodies of blocks.

The body of a block is text that its closing tag cannot be found in. For most tags that is all; a
template's body is a balanced nesting of templates, where every inner closing tag has an opening tag
before it. `closing?_body` finds the tag behind such a body.
-/

namespace BlockExports.Component

open Text

/-- White space and nothing else. -/
def Blanks (cs : List Char) : Prop := ∀ c ∈ cs, isBlank c = true

/-- Nothing, or text that starts with white space. -/
def StartsBlank (cs : List Char) : Prop := ∀ c ∈ cs.head?, isBlank c = true

instance (cs : List Char) : Decidable (Blanks cs) :=
  List.decidableBAll _ cs

instance (cs : List Char) : Decidable (StartsBlank cs) :=
  Option.decidableForallMem cs.head?

/-- A character that ends the name of a tag. -/
def EndsName (c : Char) : Prop := c = '>' ∨ c = '/' ∨ isBlank c = true

/-- The beginning of a tag stands in a text, with a character behind it that ends the tag's name. -/
def Holds (tag cs : List Char) : Prop := ∃ c, EndsName c ∧ tag ++ [c] <:+: cs

instance (c : Char) : Decidable (EndsName c) :=
  inferInstanceAs (Decidable (c = '>' ∨ c = '/' ∨ isBlank c = true))

instance (tag cs : List Char) : Decidable (Holds tag cs) :=
  @decidable_of_iff _ (∃ c ∈ cs, EndsName c ∧ tag ++ [c] <:+: cs)
    ⟨fun ⟨c, _, h⟩ => ⟨c, h⟩, fun ⟨c, hc, h⟩ => ⟨c, h.subset (by simp), hc, h⟩⟩
    (List.decidableBEx _ cs)

/-- The tag that a block starts with. -/
def openingTag (name attributes : List Char) : List Char := '<' :: name ++ attributes ++ ['>']

/-- The tag that a block ends with. -/
def closingTag (name margin : List Char) : List Char := '<' :: '/' :: name ++ margin ++ ['>']

/-- Text in which no template opens or closes. -/
def Bare (cs : List Char) : Prop :=
  ¬Holds ('<' :: nestingName) cs ∧ ¬Holds ('<' :: '/' :: nestingName) cs

instance (cs : List Char) : Decidable (Bare cs) :=
  inferInstanceAs <| Decidable <|
    ¬Holds ('<' :: nestingName) cs ∧ ¬Holds ('<' :: '/' :: nestingName) cs

/-- Text with templates in it, each of them with its closing tag. -/
inductive Balanced : List Char → Prop where
  | bare {cs : List Char} (hcs : Bare cs) : Balanced cs
  | element {before attributes inner margin after : List Char} (hbefore : Bare before)
      (hstart : StartsBlank attributes) (hattributes : Bare (attributes ++ ['>']))
      (hinner : Balanced inner) (hmargin : Blanks margin) (hafter : Balanced after) :
      Balanced (before ++ openingTag nestingName attributes ++ inner
        ++ closingTag nestingName margin ++ after)

/-- What may stand between the tags of a block. -/
def Body (name cs : List Char) : Prop :=
  if name = nestingName then Balanced cs else ¬Holds ('<' :: '/' :: name) cs

theorem body_iff_of_ne {name : List Char} (h : name ≠ nestingName) (cs : List Char) :
    Body name cs ↔ ¬Holds ('<' :: '/' :: name) cs := by
  rw [Body, if_neg h]

/-! ### Ends of names -/

theorem atBoundary_cons (c : Char) (cs : List Char) : atBoundary (c :: cs) = true ↔ EndsName c := by
  simp [atBoundary, EndsName, or_assoc]

theorem atBoundary_angle (cs : List Char) : atBoundary ('<' :: cs) = false := by
  simp [atBoundary]
  decide

theorem Blanks.notMem_angle {cs : List Char} (h : Blanks cs) : '>' ∉ cs := fun hmem =>
  absurd (h _ hmem) (by decide)

theorem atBoundary_blanks {cs : List Char} (h : Blanks cs) (rest : List Char) :
    atBoundary (cs ++ '>' :: rest) = true := by
  cases cs with
  | nil => rfl
  | cons c cs => exact (atBoundary_cons c _).mpr (Or.inr (Or.inr (h c (by simp))))

theorem StartsBlank.atBoundary {cs : List Char} (h : StartsBlank cs) {e : Char} (he : EndsName e)
    (rest : List Char) : atBoundary (cs ++ e :: rest) = true := by
  cases cs with
  | nil => exact (atBoundary_cons e rest).mpr he
  | cons c cs => exact (atBoundary_cons c _).mpr (Or.inr (Or.inr (h c rfl)))

/-! ### Texts without tags -/

theorem Holds.of_suffix {tag s t : List Char} (hst : s <:+ t) (h : Holds tag s) : Holds tag t := by
  obtain ⟨c, hc, hinfix⟩ := h
  exact ⟨c, hc, hinfix.trans hst.isInfix⟩

theorem holds_of_boundary {tag cs : List Char} {c : Char} (hc : atBoundary (c :: cs) = true) :
    Holds tag (tag ++ c :: cs) :=
  ⟨c, (atBoundary_cons c cs).mp hc, [], cs, by simp⟩

/-- A tag that begins before an angle ends before it. -/
theorem holds_of_angle {m s r x : List Char} (hm : '<' ∉ m) (hs : s ≠ [])
    (heq : s ++ '<' :: r = '<' :: m ++ x) (hx : atBoundary x = true) : Holds ('<' :: m) s := by
  rcases List.append_eq_append_iff.mp heq with ⟨a, htag, hrest⟩ | ⟨b, rfl, hrest⟩
  · cases s with
    | nil => exact absurd rfl hs
    | cons d s =>
        -- the letters of the tag reach up to the angle, or would have it among them
        cases a with
        | nil =>
            simp only [List.nil_append] at hrest
            rw [← hrest, atBoundary_angle] at hx
            simp at hx
        | cons e a =>
            obtain ⟨-, rfl⟩ : '<' = d ∧ m = s ++ e :: a := by simpa using htag
            obtain ⟨rfl, -⟩ : '<' = e ∧ r = a ++ x := by simpa using hrest
            simp at hm
  · cases b with
    | nil =>
        simp only [List.nil_append] at hrest
        rw [hrest, atBoundary_angle] at hx
        simp at hx
    | cons c b =>
        rw [hrest, List.cons_append] at hx
        exact holds_of_boundary ((atBoundary_cons c b).mpr ((atBoundary_cons c _).mp hx))

/-- A tag that begins before the end of an opening tag ends before it. -/
theorem holds_of_tagEnd {m s rest x : List Char} (hm : '>' ∉ '<' :: m)
    (heq : s ++ ['>'] ++ rest = '<' :: m ++ x) (hx : atBoundary x = true) :
    Holds ('<' :: m) (s ++ ['>']) := by
  rcases List.append_eq_append_iff.mp heq with ⟨a, htag, -⟩ | ⟨b, hs, hrest⟩
  · rw [htag] at hm
    simp at hm
  · cases b with
    | nil =>
        rw [List.append_nil] at hs
        rw [← hs] at hm
        simp at hm
    | cons c b =>
        rw [hrest, List.cons_append] at hx
        rw [hs]
        exact holds_of_boundary ((atBoundary_cons c b).mpr ((atBoundary_cons c _).mp hx))

theorem eq_of_closesAt {name cs : List Char} (h : closesAt name cs = true) :
    ∃ x, cs = '<' :: '/' :: name ++ x ∧ atBoundary x = true := by
  simp only [closesAt, Bool.and_eq_true, List.isPrefixOf_iff_prefix] at h
  obtain ⟨⟨x, rfl⟩, hx⟩ := h
  refine ⟨x, rfl, ?_⟩
  rwa [List.drop_left' (by simp)] at hx

theorem eq_of_opensAt {name cs : List Char} (h : opensAt name cs = true) :
    name = nestingName ∧ ∃ x, cs = '<' :: name ++ x ∧ atBoundary x = true := by
  simp only [opensAt, Bool.and_eq_true, List.isPrefixOf_iff_prefix, decide_eq_true_eq] at h
  obtain ⟨hname, ⟨x, rfl⟩, hx⟩ := h
  refine ⟨hname, x, rfl, ?_⟩
  rwa [List.drop_left' (by simp)] at hx

/-- Nothing opens or closes within a text that holds no tag, if an angle follows it. -/
theorem passes_of_angle {name t : List Char} (hname : '<' ∉ name)
    (hclose : ¬Holds ('<' :: '/' :: name) t) (hopen : name = nestingName → ¬Holds ('<' :: name) t)
    (r : List Char) : ∀ k < t.length, closesAt name ((t ++ '<' :: r).drop k) = false ∧
      opensAt name ((t ++ '<' :: r).drop k) = false := by
  intro k hk
  have hs : t.drop k ≠ [] := by simpa [List.drop_eq_nil_iff] using hk
  rw [List.drop_append_of_le_length (by omega)]
  constructor
  · by_contra h
    obtain ⟨x, heq, hx⟩ := eq_of_closesAt (eq_true_of_ne_false h)
    have hrest := holds_of_angle (by simpa using hname) hs heq hx
    exact hclose (hrest.of_suffix (List.drop_suffix k t))
  · by_contra h
    obtain ⟨hnesting, x, heq, hx⟩ := eq_of_opensAt (eq_true_of_ne_false h)
    exact hopen hnesting ((holds_of_angle hname hs heq hx).of_suffix (List.drop_suffix k t))

/-- The same for a text that ends an opening tag, whatever follows it. -/
theorem passes_of_tagEnd {t : List Char} (ht : Bare (t ++ ['>'])) (rest : List Char) :
    ∀ k < (t ++ ['>']).length, closesAt nestingName ((t ++ ['>'] ++ rest).drop k) = false ∧
      opensAt nestingName ((t ++ ['>'] ++ rest).drop k) = false := by
  intro k hk
  have hle : k ≤ t.length := by simpa [Nat.lt_succ_iff] using hk
  have hdrop : (t ++ ['>']).drop k = t.drop k ++ ['>'] := List.drop_append_of_le_length hle
  have hsuffix : t.drop k ++ ['>'] <:+ t ++ ['>'] := hdrop ▸ List.drop_suffix k _
  rw [List.drop_append_of_le_length (by omega), hdrop]
  constructor
  · by_contra h
    obtain ⟨x, heq, hx⟩ := eq_of_closesAt (eq_true_of_ne_false h)
    exact ht.2 ((holds_of_tagEnd (by decide) heq hx).of_suffix hsuffix)
  · by_contra h
    obtain ⟨-, x, heq, hx⟩ := eq_of_opensAt (eq_true_of_ne_false h)
    exact ht.1 ((holds_of_tagEnd (by decide) heq hx).of_suffix hsuffix)

/-! ### The closing tag behind a body -/

/-- Reading some text in front of `rest`, the search for a template's closing tag gets from one depth
to another. -/
def Leads (depth depth' : Nat) (xs rest : List Char) : Prop :=
  ∀ here, closingFrom? nestingName depth here 0 (xs ++ rest) =
    closingFrom? nestingName depth' (here + xs.length) 0 rest

theorem Leads.append {depth depth' depth'' : Nat} {xs ys rest : List Char}
    (h : Leads depth depth' xs (ys ++ rest)) (h' : Leads depth' depth'' ys rest) :
    Leads depth depth'' (xs ++ ys) rest := by
  intro here
  rw [List.append_assoc, h, h', List.length_append, Nat.add_assoc]

/-- Bare text in front of an angle changes no depth. -/
theorem Bare.leads {t rest : List Char} (ht : Bare t) (hrest : rest.head? = some '<') (depth : Nat) :
    Leads depth depth t rest := by
  obtain ⟨r, rfl⟩ := List.head?_eq_some_iff.mp hrest
  intro here
  exact closingFrom?_append nestingName_angle depth here
    (passes_of_angle nestingName_angle ht.2 (fun _ => ht.1) r)

/-- The tag of a template adds a level, whether it closes itself or not. -/
theorem leads_tag {attributes : List Char} (hends : atBoundary (attributes ++ ['>']) = true)
    (hattributes : Bare (attributes ++ ['>'])) (depth : Nat) (rest : List Char) :
    Leads depth (depth + 1) (openingTag nestingName attributes) rest := by
  intro here
  have hsplit : openingTag nestingName attributes ++ rest =
      '<' :: (nestingName ++ (attributes ++ ['>'] ++ rest)) := by simp [openingTag]
  have hclose : closesAt nestingName ('<' :: (nestingName ++ (attributes ++ ['>'] ++ rest))) =
      false := rfl
  have hboundary : atBoundary (attributes ++ ['>'] ++ rest) = true := by
    cases attributes with
    | nil => rfl
    | cons c cs => exact hends
  have hopen : opensAt nestingName ('<' :: (nestingName ++ (attributes ++ ['>'] ++ rest))) = true :=
    hboundary
  rw [hsplit, closingFrom?_cons nestingName_angle depth here hclose, hopen,
    closingFrom?_append_of_notMem _ _ nestingName_angle,
    closingFrom?_append nestingName_angle _ _ (passes_of_tagEnd hattributes rest)]
  simp only [if_true, openingTag, List.cons_append, List.length_cons, List.length_append]
  congr 1
  omega

theorem leads_opening {attributes : List Char} (hstart : StartsBlank attributes)
    (hattributes : Bare (attributes ++ ['>'])) (depth : Nat) (rest : List Char) :
    Leads depth (depth + 1) (openingTag nestingName attributes) rest :=
  leads_tag (hstart.atBoundary (by decide) []) hattributes depth rest

/-- At a closing tag the search leaves a level or ends. -/
theorem closingFrom?_closing {name margin : List Char} (hmargin : Blanks margin) (depth here : Nat)
    (r : List Char) :
    closingFrom? name depth here 0 (closingTag name margin ++ r) =
      match depth with
      | 0 => some (here, here + (closingTag name margin).length)
      | depth + 1 => closingFrom? name depth (here + (closingTag name margin).length) 0 r := by
  have hsplit : closingTag name margin ++ r = '<' :: '/' :: name ++ (margin ++ '>' :: r) := by
    simp [closingTag]
  have hlength : (closingTag name margin).length = name.length + margin.length + 3 := by
    simp only [closingTag, List.cons_append, List.length_cons, List.length_append, List.length_nil]
  have hdrop : (margin ++ '>' :: r).drop (margin.length + 1) = r := by simp
  rw [hsplit, closingFrom?_mark, if_pos (atBoundary_blanks hmargin r),
    find?_append_cons hmargin.notMem_angle r]
  cases depth with
  | zero => simp only [hlength]
  | succ depth => simp only [hdrop, hlength]

theorem leads_closing {margin : List Char} (hmargin : Blanks margin) (depth : Nat)
    (rest : List Char) : Leads (depth + 1) depth (closingTag nestingName margin) rest := fun here =>
  closingFrom?_closing hmargin (depth + 1) here rest

/-- A template in front of some text changes no depth if its body changes none. -/
theorem leads_element {before attributes inner margin rest : List Char} {depth : Nat}
    (hbefore : Bare before) (hstart : StartsBlank attributes)
    (hattributes : Bare (attributes ++ ['>']))
    (hinner : Leads (depth + 1) (depth + 1) inner (closingTag nestingName margin ++ rest))
    (hmargin : Blanks margin) :
    Leads depth depth (before ++ openingTag nestingName attributes ++ inner
      ++ closingTag nestingName margin) rest := by
  have hopening := leads_opening hstart hattributes depth
    (inner ++ (closingTag nestingName margin ++ rest))
  have hclosing := leads_closing hmargin depth rest
  exact (((hbefore.leads rfl depth).append hopening).append hinner).append hclosing

/-- Balanced text in front of an angle changes no depth. -/
theorem Balanced.leads {t rest : List Char} (ht : Balanced t) (hrest : rest.head? = some '<')
    (depth : Nat) : Leads depth depth t rest := by
  induction ht generalizing depth rest with
  | bare ht => exact ht.leads hrest depth
  | element hbefore hstart hattributes _ hmargin _ ihinner ihafter =>
      refine Leads.append ?_ (ihafter hrest depth)
      exact leads_element hbefore hstart hattributes (ihinner rfl (depth + 1)) hmargin

/-- The search goes through a body as a whole. -/
theorem closingFrom?_body {name t : List Char} (hname : '<' ∉ name) (ht : Body name t)
    (here : Nat) (r : List Char) :
    closingFrom? name 0 here 0 (t ++ '<' :: r) =
      closingFrom? name 0 (here + t.length) 0 ('<' :: r) := by
  by_cases hnesting : name = nestingName
  · subst hnesting
    exact ((if_pos rfl).mp ht : Balanced t).leads rfl 0 here
  · have hclose : ¬Holds ('<' :: '/' :: name) t := (body_iff_of_ne hnesting t).mp ht
    exact closingFrom?_append hname 0 here
      (passes_of_angle hname hclose (fun h => absurd h hnesting) r)

/-- The closing tag of a block is the one behind its body. -/
theorem closing?_body {name t margin : List Char} (hname : '<' ∉ name) (ht : Body name t)
    (hmargin : Blanks margin) (rest : List Char) :
    closing? name (t ++ (closingTag name margin ++ rest)) =
      some (t.length, t.length + (closingTag name margin).length) := by
  have hsearch := closingFrom?_body hname ht 0 (('/' :: name ++ margin ++ ['>']) ++ rest)
  rw [Nat.zero_add] at hsearch
  exact hsearch.trans (closingFrom?_closing hmargin 0 t.length rest)

end BlockExports.Component
