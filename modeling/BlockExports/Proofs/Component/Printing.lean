import BlockExports.Component
import BlockExports.Proofs.Component.Nesting

/-!
Component files in print.

A file is a sequence of items: text between tags, comments, tags that close themselves, and blocks.
`scan_print` says that a scan finds exactly the blocks that were printed, with the tag, the body and
the place of each. One lemma for each kind of item says what stands at its first angle.
-/

namespace BlockExports.Component

open Text

/-- A letter, with letters, digits, hyphens and underscores behind it. -/
def TagName (cs : List Char) : Prop :=
  (∃ c ∈ cs.head?, c.isAlpha = true) ∧ ∀ c ∈ cs, isNameChar c = true

instance (cs : List Char) : Decidable (TagName cs) :=
  @instDecidableAnd _ _ (Option.decidableExistsMem cs.head?) (List.decidableBAll _ cs)

/-- Text in which every quote is closed and no angle stands outside of quotes. -/
inductive Quoted : List Char → Prop where
  | nil : Quoted []
  | plain {c : Char} {cs : List Char} (hangle : c ≠ '>') (hdouble : c ≠ '\x22')
      (hsingle : c ≠ '\x27') (hcs : Quoted cs) : Quoted (c :: cs)
  | quote {q : Char} {inner cs : List Char} (hq : q = '\x22' ∨ q = '\x27') (hinner : q ∉ inner)
      (hcs : Quoted cs) : Quoted (q :: inner ++ q :: cs)

/-- What may stand behind the name in an opening tag. -/
structure Attributes (cs : List Char) : Prop where
  startsBlank : StartsBlank cs
  quoted : Quoted cs

inductive Item where
  | text (cs : List Char)
  | comment (cs : List Char)
  /-- a tag that closes itself -/
  | empty (name attributes : List Char)
  | block (name attributes body margin : List Char)

namespace Item

def print : Item → List Char
  | text cs => cs
  | comment cs => "<!--".toList ++ cs ++ "-->".toList
  | empty name attributes => openingTag name (attributes ++ ['/'])
  | block name attributes body margin =>
    openingTag name attributes ++ body ++ closingTag name margin

def WellFormed : Item → Prop
  | text cs => '<' ∉ cs
  | comment cs => ∀ before after,
    "<!--".toList ++ cs ++ "-->".toList = before ++ "-->".toList ++ after → after = []
  | empty name attributes => TagName name ∧ Attributes attributes
  | block name attributes body margin =>
    TagName name ∧ Attributes attributes ∧ attributes.getLast? ≠ some '/' ∧ Body name body ∧
      Blanks margin

theorem print_text (cs : List Char) : (text cs).print = cs := rfl

theorem print_comment (cs : List Char) :
    (comment cs).print = "<!--".toList ++ cs ++ "-->".toList := rfl

theorem print_empty (name attributes : List Char) :
    (empty name attributes).print = openingTag name (attributes ++ ['/']) := rfl

theorem print_block (name attributes body margin : List Char) :
    (block name attributes body margin).print =
      openingTag name attributes ++ body ++ closingTag name margin := rfl

/-- The custom blocks among items whose text starts at a byte offset, numbered from `index` on. -/
def blocks (offset index : Nat) : List Item → List Block
  | [] => []
  | item :: items =>
    match item with
    | block name attributes body _ =>
      if standardTags.contains name then blocks (offset + byteLength item.print) index items
      else
        { name := blockName index
          type := String.ofList name
          content := String.ofList body
          start := offset + byteLength (openingTag name attributes) }
          :: blocks (offset + byteLength item.print) (index + 1) items
    | _ => blocks (offset + byteLength item.print) index items

end Item

/-! ### Opening tags -/

/-- The characters of a name lie between the hyphen and the last small letter. -/
theorem toNat_of_isNameChar {c : Char} (h : isNameChar c = true) :
    45 ≤ c.toNat ∧ c.toNat ≤ 122 := by
  change (c.isUpper || c.isLower || c.isDigit || decide (c = '-') || decide (c = '_')) = true at h
  simp only [Bool.or_eq_true, decide_eq_true_eq] at h
  rcases h with (((hupper | hlower) | hdigit) | rfl) | rfl
  · obtain ⟨hfirst, hlast⟩ : 'A'.val ≤ c.val ∧ c.val ≤ 'Z'.val := of_decide_eq_true hupper
    have hfirst' : 65 ≤ c.toNat := hfirst
    have hlast' : c.toNat ≤ 90 := hlast
    omega
  · obtain ⟨hfirst, hlast⟩ := Bool.and_eq_true_iff.mp hlower
    have hfirst' : 97 ≤ c.toNat := of_decide_eq_true hfirst
    have hlast' : c.toNat ≤ 122 := of_decide_eq_true hlast
    omega
  · have hrange : 48 ≤ c.toNat ∧ c.toNat ≤ 57 := Char.isDigit_iff_toNat.mp hdigit
    omega
  · decide
  · decide

theorem isNameChar_of_isBlank {c : Char} (h : isBlank c = true) : isNameChar c = false := by
  by_contra hname
  obtain ⟨hfirst, hlast⟩ := toNat_of_isNameChar (eq_true_of_ne_false hname)
  have hspace : c ≠ ' ' := by
    rintro rfl
    exact absurd hfirst (by decide)
  simp only [isBlank, isAsciiBlank, Bool.or_eq_true, Bool.and_eq_true, decide_eq_true_eq, hspace,
    false_or] at h
  omega

theorem StartsBlank.not_isNameChar {cs : List Char} (h : StartsBlank cs) {e : Char}
    (he : isNameChar e = false) (rest : List Char) :
    ∀ c ∈ (cs ++ e :: rest).head?, isNameChar c = false := by
  cases cs with
  | nil => simpa using he
  | cons c cs => simpa using isNameChar_of_isBlank (h c rfl)

theorem TagName.angle_notMem {name : List Char} (h : TagName name) : '<' ∉ name := fun hmem =>
  absurd (h.2 _ hmem) (by decide)

/-- A tag name is no comment. -/
theorem TagName.not_comment {name : List Char} (h : TagName name) (rest : List Char) :
    "<!--".toList.isPrefixOf ('<' :: (name ++ rest)) = false := by
  obtain ⟨⟨c, hc, halpha⟩, -⟩ := h
  cases name with
  | nil => simp at hc
  | cons d name =>
      obtain rfl : d = c := by simpa using hc
      have hbang : '!' ≠ d := by
        rintro rfl
        exact absurd halpha (by decide)
      simp [List.isPrefixOf, hbang]

/-- A slash before the end of an opening tag belongs to the attributes. -/
theorem TagName.not_slash {name attributes : List Char} (h : TagName name)
    (hslash : attributes.getLast? ≠ some '/') :
    ('<' :: name ++ attributes).getLast? ≠ some '/' := by
  intro hlast
  rw [List.getLast?_append] at hlast
  cases hattributes : attributes.getLast? with
  | none =>
      rw [hattributes, Option.none_or] at hlast
      have hmem : '/' ∈ '<' :: name := List.mem_of_getLast? hlast
      have hname : '/' ∈ name := by simpa using hmem
      exact absurd (h.2 _ hname) (by decide)
  | some c =>
      rw [hattributes] at hlast hslash
      exact hslash hlast

/-- The tag of a block does not close itself. -/
theorem TagName.not_selfClosing {name attributes : List Char} (h : TagName name)
    (hslash : attributes.getLast? ≠ some '/') :
    "/>".toList.isSuffixOf (openingTag name attributes) = false := by
  by_contra hends
  rw [Bool.not_eq_false, List.isSuffixOf_iff_suffix] at hends
  obtain ⟨before, hbefore⟩ := hends
  -- the slash would be the last character of the attributes or of the name
  have hlast : before ++ ['/'] = '<' :: name ++ attributes :=
    (List.append_inj' (by simpa [openingTag] using hbefore : before ++ ['/'] ++ ['>'] =
      '<' :: name ++ attributes ++ ['>']) rfl).1
  exact h.not_slash hslash (by rw [← hlast, List.getLast?_concat])

theorem tagName?_append {name rest : List Char} (hname : TagName name)
    (hrest : ∀ c ∈ rest.head?, isNameChar c = false) : tagName? (name ++ rest) = some name := by
  obtain ⟨⟨c, hc, halpha⟩, hchars⟩ := hname
  have hnone : rest.takeWhile isNameChar = [] := by
    cases rest with
    | nil => rfl
    | cons d rest => simp [hrest d (by simp)]
  have htake : (name ++ rest).takeWhile isNameChar = name := by
    rw [List.takeWhile_append_of_pos hchars, hnone, List.append_nil]
  rw [tagName?, htake]
  simp [Option.mem_def.mp hc, halpha]

/-- Within quotes everything up to the same quote is passed. -/
theorem tagEnd?_within {q : Char} {inner : List Char} (hinner : q ∉ inner) (rest : List Char) :
    tagEnd? (some q) (inner ++ q :: rest) =
      (tagEnd? none rest).map (· + (inner.length + 1)) := by
  induction inner with
  | nil => simp [tagEnd?]
  | cons c inner ih =>
      simp only [List.mem_cons, not_or] at hinner
      rw [List.cons_append, tagEnd?, if_neg (Ne.symm hinner.1), ih hinner.2, Option.map_map]
      congr 1

theorem tagEnd?_quoted {cs : List Char} (h : Quoted cs) (rest : List Char) :
    tagEnd? none (cs ++ '>' :: rest) = some (cs.length + 1) := by
  induction h with
  | nil => simp [tagEnd?]
  | plain hangle hdouble hsingle _ ih =>
      rw [List.cons_append, tagEnd?, if_neg hangle]
      simp [hdouble, hsingle, ih]
  | @quote q inner cs hq hinner _ ih =>
      have hangle : q ≠ '>' := by
        rcases hq with rfl | rfl <;> decide
      have hquote : (decide (q = '\x22') || decide (q = '\x27')) = true := by simpa using hq
      rw [List.cons_append, List.cons_append, tagEnd?, if_neg hangle, if_pos hquote,
        List.append_assoc, List.cons_append, tagEnd?_within hinner, ih]
      simp only [Option.map_some, List.length_cons, List.length_append]
      congr 1
      omega

theorem Quoted.append_slash {cs : List Char} (h : Quoted cs) : Quoted (cs ++ ['/']) := by
  induction h with
  | nil => exact .plain (by decide) (by decide) (by decide) .nil
  | plain hangle hdouble hsingle _ ih => exact .plain hangle hdouble hsingle ih
  | quote hq hinner _ ih =>
      rw [List.append_assoc, List.cons_append]
      exact .quote hq hinner ih

theorem openingTag_eq (name attributes rest : List Char) :
    openingTag name attributes ++ rest = '<' :: (name ++ (attributes ++ '>' :: rest)) := by
  simp [openingTag]

/-- Reading the opening tag of a block or of an empty element. -/
theorem markup?_openingTag {name attributes : List Char} (hname : TagName name)
    (hstart : ∀ c ∈ (attributes ++ ['>']).head?, isNameChar c = false) (hquoted : Quoted attributes)
    (rest : List Char) :
    markup? (openingTag name attributes ++ rest) =
      if "/>".toList.isSuffixOf (openingTag name attributes) then
        some (.passed (openingTag name attributes).length)
      else
        (closing? name rest).map fun (stop, length) =>
          .element name (openingTag name attributes).length
            ((openingTag name attributes).length + stop)
            ((openingTag name attributes).length + length) := by
  have hlength : 1 + name.length + (attributes.length + 1) =
      (openingTag name attributes).length := by
    simp [openingTag]
    omega
  have hnext : ∀ c ∈ (attributes ++ '>' :: rest).head?, isNameChar c = false := by
    cases attributes with
    | nil => simpa using hstart
    | cons c cs => simpa using hstart
  have hdrop : (openingTag name attributes ++ rest).drop (1 + name.length) =
      attributes ++ '>' :: rest := by
    rw [openingTag_eq, Nat.add_comm, List.drop_succ_cons, List.drop_left]
  have hname? : tagName? ((openingTag name attributes ++ rest).drop 1) = some name := by
    rw [openingTag_eq, List.drop_succ_cons, List.drop_zero, tagName?_append hname hnext]
  have hcomment : "<!--".toList.isPrefixOf (openingTag name attributes ++ rest) = false := by
    rw [openingTag_eq]
    exact hname.not_comment _
  rw [markup?, hcomment]
  simp only [Bool.false_eq_true, if_false, hname?, hdrop, tagEnd?_quoted hquoted, hlength,
    List.take_left, List.drop_left]

/-! ### Items -/

/-- The mark that ends a comment is the first one that can be found. -/
theorem Item.comment_wellFormed_iff (cs : List Char) :
    (Item.comment cs).WellFormed ↔
      find? "-->".toList (Item.comment cs).print = some (cs.length + 4) := by
  have hlength : (Item.comment cs).print.length = cs.length + 7 := by
    simp [Item.print_comment]
  have hopen : ("<!--".toList ++ cs).length = cs.length + 4 := by simp
  constructor
  · intro h
    refine (find?_eq_some_iff (by decide) _ _).mpr ⟨?_, fun m hm hearly => ?_⟩
    · rw [Item.print_comment, ← hopen, List.drop_left]
    · -- something would stand behind an earlier mark
      obtain ⟨after, hafter⟩ := hearly
      have hsplit : (Item.comment cs).print =
          (Item.comment cs).print.take m ++ "-->".toList ++ after := by
        rw [List.append_assoc, hafter, List.take_append_drop]
      have hnil : after = [] := h _ after hsplit
      have hcount := congrArg List.length hafter
      rw [hnil, List.append_nil, List.length_drop, hlength] at hcount
      simp at hcount
      omega
  · -- a mark that ends before the comment does would be found earlier
    intro hfind before after hsplit
    have hfirst := ((find?_eq_some_iff (by decide) _ _).mp hfind).2 before.length
    have hlate : cs.length + 4 ≤ before.length := by
      by_contra hlt
      refine hfirst (by omega) ?_
      rw [Item.print_comment, hsplit, List.append_assoc, List.drop_left]
      exact List.prefix_append _ _
    have hcount := congrArg List.length hsplit
    simp at hcount
    exact List.length_eq_zero_iff.mp (by omega)

theorem markup?_comment {cs : List Char} (h : (Item.comment cs).WellFormed) (rest : List Char) :
    markup? ((Item.comment cs).print ++ rest) =
      some (.passed (Item.comment cs).print.length) := by
  have hstarts : "<!--".toList.isPrefixOf ((Item.comment cs).print ++ rest) = true := by
    rw [List.isPrefixOf_iff_prefix, Item.print_comment, List.append_assoc, List.append_assoc]
    exact List.prefix_append _ _
  have hlength : (Item.comment cs).print.length = cs.length + 7 := by
    simp [Item.print_comment]
  have hfind : find? "-->".toList ((Item.comment cs).print ++ rest) = some (cs.length + 4) :=
    find?_append_of_some (by decide) ((Item.comment_wellFormed_iff cs).mp h) rest
  rw [markup?, if_pos hstarts, hfind, hlength]
  rfl

theorem markup?_empty {name attributes : List Char} (h : (Item.empty name attributes).WellFormed)
    (rest : List Char) :
    markup? ((Item.empty name attributes).print ++ rest) =
      some (.passed (Item.empty name attributes).print.length) := by
  obtain ⟨hname, hattributes⟩ := h
  have hstart : ∀ c ∈ (attributes ++ ['/'] ++ ['>']).head?, isNameChar c = false := by
    rw [List.append_assoc]
    exact hattributes.startsBlank.not_isNameChar rfl _
  have hsuffix : "/>".toList.isSuffixOf (openingTag name (attributes ++ ['/'])) = true := by
    rw [List.isSuffixOf_iff_suffix]
    exact ⟨'<' :: name ++ attributes, by simp [openingTag]⟩
  rw [Item.print_empty, markup?_openingTag hname hstart hattributes.quoted.append_slash,
    if_pos hsuffix]

/-- The body of a block stands between the two lengths that are read off its tags. -/
theorem Item.take_drop_block (name attributes body margin rest : List Char) :
    (((Item.block name attributes body margin).print ++ rest).take
      ((openingTag name attributes).length + body.length)).drop
        (openingTag name attributes).length = body := by
  rw [Item.print_block, List.append_assoc, ← List.length_append, List.take_left, List.drop_left]

theorem Item.take_block (name attributes body margin rest : List Char) :
    ((Item.block name attributes body margin).print ++ rest).take
      (openingTag name attributes).length = openingTag name attributes := by
  rw [Item.print_block, List.append_assoc, List.append_assoc, List.take_left]

theorem markup?_block {name attributes body margin : List Char}
    (h : (Item.block name attributes body margin).WellFormed) (rest : List Char) :
    markup? ((Item.block name attributes body margin).print ++ rest) =
      some (.element name (openingTag name attributes).length
        ((openingTag name attributes).length + body.length)
        (Item.block name attributes body margin).print.length) := by
  obtain ⟨hname, hattributes, hslash, hbody, hmargin⟩ := h
  have hstart := hattributes.startsBlank.not_isNameChar (rfl : isNameChar '>' = false) []
  have hprint : (Item.block name attributes body margin).print ++ rest =
      openingTag name attributes ++ (body ++ (closingTag name margin ++ rest)) := by
    simp [Item.print_block]
  rw [hprint, markup?_openingTag hname hstart hattributes.quoted,
    hname.not_selfClosing hslash, closing?_body hname.angle_notMem hbody hmargin]
  simp [Item.print_block]

/-! ### The scan -/

theorem blocksFrom_skip (offset index : Nat) (xs cs : List Char) :
    blocksFrom offset index xs.length (xs ++ cs) =
      blocksFrom (offset + byteLength xs) index 0 cs := by
  induction xs generalizing offset with
  | nil => rfl
  | cons x xs ih =>
      rw [List.length_cons, List.cons_append, blocksFrom, ih, byteLength_cons, Nat.add_assoc]

theorem blocksFrom_drop (offset index : Nat) {skip : Nat} {cs : List Char}
    (h : skip ≤ cs.length) :
    blocksFrom offset index skip cs =
      blocksFrom (offset + byteLength (cs.take skip)) index 0 (cs.drop skip) := by
  have hskip := blocksFrom_skip offset index (cs.take skip) (cs.drop skip)
  rwa [List.take_append_drop, List.length_take, Nat.min_eq_left h] at hskip

theorem blocksFrom_text {xs : List Char} (hxs : '<' ∉ xs) (offset index : Nat) (cs : List Char) :
    blocksFrom offset index 0 (xs ++ cs) = blocksFrom (offset + byteLength xs) index 0 cs := by
  induction xs generalizing offset with
  | nil => rfl
  | cons x xs ih =>
      simp only [List.mem_cons, not_or] at hxs
      rw [List.cons_append, blocksFrom, if_neg (Ne.symm hxs.1), ih hxs.2, byteLength_cons,
        Nat.add_assoc]

theorem blocksFrom_passed {xs : List Char} (hxs : xs.head? = some '<') {cs : List Char}
    (hmarkup : markup? (xs ++ cs) = some (.passed xs.length)) (offset index : Nat) :
    blocksFrom offset index 0 (xs ++ cs) = blocksFrom (offset + byteLength xs) index 0 cs := by
  obtain ⟨p, rfl⟩ := List.head?_eq_some_iff.mp hxs
  rw [List.cons_append] at hmarkup ⊢
  rw [blocksFrom, if_pos rfl, hmarkup]
  simp only [List.length_cons, Nat.add_sub_cancel]
  rw [blocksFrom_skip, byteLength_cons, Nat.add_assoc]

theorem blocksFrom_element {xs : List Char} (hxs : xs.head? = some '<') {cs tag : List Char}
    {content stop : Nat} (hmarkup : markup? (xs ++ cs) = some (.element tag content stop xs.length))
    (offset index : Nat) :
    blocksFrom offset index 0 (xs ++ cs) =
      if standardTags.contains tag then blocksFrom (offset + byteLength xs) index 0 cs
      else
        { name := blockName index
          type := String.ofList tag
          content := String.ofList (((xs ++ cs).take stop).drop content)
          start := offset + byteLength ((xs ++ cs).take content) }
          :: blocksFrom (offset + byteLength xs) (index + 1) 0 cs := by
  obtain ⟨p, rfl⟩ := List.head?_eq_some_iff.mp hxs
  rw [List.cons_append] at hmarkup ⊢
  rw [blocksFrom, if_pos rfl, hmarkup]
  simp only [List.length_cons, Nat.add_sub_cancel]
  rw [blocksFrom_skip, blocksFrom_skip, byteLength_cons, Nat.add_assoc]

/-- Reading the items of a file gives their blocks, and then those of the text behind them. -/
theorem blocksFrom_print_append {items : List Item} (h : ∀ item ∈ items, item.WellFormed)
    (offset index : Nat) (rest : List Char) :
    blocksFrom offset index 0 (items.flatMap Item.print ++ rest) =
      Item.blocks offset index items ++
        blocksFrom (offset + byteLength (items.flatMap Item.print))
          (index + (Item.blocks offset index items).length) 0 rest := by
  induction items generalizing offset index with
  | nil => rfl
  | cons item items ih =>
      have hitem := h item (by simp)
      have hitems : ∀ item ∈ items, item.WellFormed := fun item hmem => h item (by simp [hmem])
      rw [List.flatMap_cons, List.append_assoc, byteLength_append, ← Nat.add_assoc]
      cases item with
      | text cs =>
          rw [Item.print_text, blocksFrom_text hitem, ih hitems]
          rfl
      | comment cs =>
          rw [blocksFrom_passed rfl (markup?_comment hitem _), ih hitems]
          rfl
      | empty name attributes =>
          rw [blocksFrom_passed rfl (markup?_empty hitem _), ih hitems]
          rfl
      | block name attributes body margin =>
          rw [blocksFrom_element rfl (markup?_block hitem _), ih hitems, ih hitems, Item.blocks,
            Item.take_drop_block, Item.take_block]
          split
          · rfl
          · rw [List.cons_append, List.length_cons, Nat.add_right_comm index, Nat.add_assoc index]

theorem blocksFrom_print {items : List Item} (h : ∀ item ∈ items, item.WellFormed)
    (offset index : Nat) :
    blocksFrom offset index 0 (items.flatMap Item.print) = Item.blocks offset index items := by
  have hprint := blocksFrom_print_append h offset index []
  rwa [List.append_nil, blocksFrom, List.append_nil] at hprint

/-- Scanning a file in print finds the blocks that were printed. -/
theorem scan_print {items : List Item} (h : ∀ item ∈ items, item.WellFormed) :
    (scan (String.ofList (items.flatMap Item.print))).blocks = Item.blocks 0 0 items := by
  rw [scan, String.toList_ofList]
  exact blocksFrom_print h 0 0

/-- A file with a comment, a nested template, and a block whose text looks like a closing tag. -/
theorem scan_print_lookalike :
    (scan ("<!-- <php> -->é<template><template a='>'>x</template>\n</template ><br/>" ++
      "<php a='>'>$x = \"</phpx>é\";</php>")).blocks =
      [{ name := "customBlock_0", type := "php", content := "$x = \"</phpx>é\";", start := 83 }] := by
  let items : List Item :=
    [.comment " <php> ".toList, .text ['é'],
      .block "template".toList [] "<template a='>'>x</template>\n".toList [' '],
      .empty "br".toList [],
      .block "php".toList " a='>'".toList "$x = \"</phpx>é\";".toList []]
  have hnested : Balanced "<template a='>'>x</template>\n".toList :=
    @Balanced.element [] " a='>'".toList ['x'] [] ['\n'] (by decide) (by decide) (by decide)
      (.bare (by decide)) (by decide) (.bare (by decide))
  have hattributes : Attributes " a='>'".toList :=
    { startsBlank := by decide
      quoted := .plain (by decide) (by decide) (by decide) <|
        .plain (by decide) (by decide) (by decide) <| .plain (by decide) (by decide) (by decide) <|
        @Quoted.quote '\x27' ['>'] [] (by decide) (by decide) .nil }
  have hwell : ∀ item ∈ items, item.WellFormed := by
    simp only [items, List.forall_mem_cons]
    refine ⟨?_, ?_, ?_, ?_, ?_, by simp⟩
    · exact (Item.comment_wellFormed_iff _).mpr (by decide)
    · exact (by decide : '<' ∉ ['é'])
    · exact ⟨by decide, ⟨by decide, .nil⟩, by decide, hnested, by decide⟩
    · exact ⟨by decide, by decide, .nil⟩
    · exact ⟨by decide, hattributes, by decide, (body_iff_of_ne (by decide) _).mpr (by decide),
        by decide⟩
  have htext : String.ofList (items.flatMap Item.print) =
      "<!-- <php> -->é<template><template a='>'>x</template>\n</template ><br/>" ++
        "<php a='>'>$x = \"</phpx>é\";</php>" := by decide
  rw [← htext, scan_print hwell]
  decide

end BlockExports.Component
