import BlockExports.Proofs.Component.Markup

/-!
Tags that close themselves in the body of a template.

At the top level a scan passes a tag that ends with a slash and an angle. The search for the closing
tag of a template does not look at the slash: to it, the tag of an inner template is one more
template to be closed. `scan_selfClosing` says what comes of that. A tag of any other name changes
nothing but places; the tag of a template makes the template around it go on to the next closing tag
that is left over in the rest of the file, and where there is none, no block behind it is found.
-/

namespace BlockExports.Component

open Text

/-! ### Balanced text in two parts -/

/-- Balanced text in two parts, cut anywhere but within a tag of a template. -/
inductive Cut : List Char → List Char → Prop where
  | bare {s t : List Char} (h : Bare (s ++ t)) : Cut s t
  | before {s t attributes inner margin after : List Char} (hbefore : Bare (s ++ t))
      (hstart : StartsBlank attributes) (hattributes : Bare (attributes ++ ['>']))
      (hinner : Balanced inner) (hmargin : Blanks margin) (hafter : Balanced after) :
      Cut s (t ++ openingTag nestingName attributes ++ inner ++ closingTag nestingName margin
        ++ after)
  | inner {before attributes s t margin after : List Char} (hbefore : Bare before)
      (hstart : StartsBlank attributes) (hattributes : Bare (attributes ++ ['>']))
      (hinner : Cut s t) (hmargin : Blanks margin) (hafter : Balanced after) :
      Cut (before ++ openingTag nestingName attributes ++ s)
        (t ++ closingTag nestingName margin ++ after)
  | after {before attributes inner margin s t : List Char} (hbefore : Bare before)
      (hstart : StartsBlank attributes) (hattributes : Bare (attributes ++ ['>']))
      (hinner : Balanced inner) (hmargin : Blanks margin) (hafter : Cut s t) :
      Cut (before ++ openingTag nestingName attributes ++ inner ++ closingTag nestingName margin
        ++ s) t

/-- Text that fits into bare text fits into balanced text. -/
theorem Cut.balanced_insert {s t : List Char} (h : Cut s t) {x : List Char}
    (hx : ∀ {s t : List Char}, Bare (s ++ t) → Bare (s ++ x ++ t)) : Balanced (s ++ x ++ t) := by
  induction h with
  | bare h => exact .bare (hx h)
  | before hbefore hstart hattributes hinner hmargin hafter =>
      simpa using Balanced.element (hx hbefore) hstart hattributes hinner hmargin hafter
  | inner hbefore hstart hattributes _ hmargin hafter ih =>
      simpa using Balanced.element hbefore hstart hattributes ih hmargin hafter
  | after hbefore hstart hattributes hinner hmargin _ ih =>
      simpa using Balanced.element hbefore hstart hattributes hinner hmargin ih

theorem Cut.balanced {s t : List Char} (h : Cut s t) : Balanced (s ++ t) := by
  simpa using @Cut.balanced_insert s t h [] fun hbare => by simpa using hbare

/-! ### Bare tags -/

theorem Bare.of_part {s t : List Char} (hst : s <:+: t) (h : Bare t) : Bare s := by
  have hholds {tag : List Char} : Holds tag s → Holds tag t := fun ⟨c, hc, hpart⟩ =>
    ⟨c, hc, hpart.trans hst⟩
  exact ⟨fun hopen => h.1 (hholds hopen), fun hclose => h.2 (hholds hclose)⟩

theorem EndsName.not_isNameChar {c : Char} (h : EndsName c) : isNameChar c = false := by
  rcases h with rfl | rfl | hblank
  · rfl
  · rfl
  · exact isNameChar_of_isBlank hblank

/-- The beginning of a tag does not lie across the borders of another tag. -/
theorem holds_insert_tag {m s x t : List Char} (hopen : '<' ∉ m) (hangle : '>' ∉ '<' :: m)
    (h : Holds ('<' :: m) (s ++ ('<' :: x ++ ['>']) ++ t)) :
    Holds ('<' :: m) s ∨ Holds ('<' :: m) ('<' :: x ++ ['>']) ∨ Holds ('<' :: m) t := by
  obtain ⟨c, hc, u, v, huv⟩ := h
  have hboundary : atBoundary (c :: v) = true := (atBoundary_cons c v).mpr hc
  have heq : u ++ ('<' :: m ++ c :: v) = s ++ ('<' :: x ++ ['>'] ++ t) := by simpa using huv
  have hbehind (w : List Char) (hw : '<' :: x ++ ['>'] ++ t = w ++ ('<' :: m ++ c :: v)) :
      Holds ('<' :: m) ('<' :: x ++ ['>']) ∨ Holds ('<' :: m) t := by
    rcases List.append_eq_append_iff.mp hw with ⟨y, rfl, hrest⟩ | ⟨y, htag, hrest⟩
    · right
      rw [hrest]
      exact (holds_of_boundary hboundary).of_suffix (List.suffix_append y _)
    · cases List.eq_nil_or_concat y with
      | inl hnil =>
          right
          rw [hnil, List.nil_append] at hrest
          rw [← hrest]
          exact holds_of_boundary hboundary
      | inr hlast =>
          -- the tag begins within the inserted one, so it is over by the angle at its end
          left
          obtain ⟨y, d, rfl⟩ := hlast
          rw [List.concat_eq_append] at htag hrest
          obtain ⟨hfront, hd⟩ := List.append_inj' (htag.trans (List.append_assoc w y [d]).symm) rfl
          obtain rfl : '>' = d := by simpa using hd
          have hholds := holds_of_tagEnd hangle hrest.symm hboundary
          rw [htag]
          exact hholds.of_suffix (List.suffix_append w _)
  rcases List.append_eq_append_iff.mp heq with ⟨w, rfl, hrest⟩ | ⟨w, -, hrest⟩
  · cases w with
    | nil => exact Or.inr (hbehind [] hrest.symm)
    | cons d w =>
        left
        have hholds := holds_of_angle hopen (List.cons_ne_nil d w) hrest.symm hboundary
        exact hholds.of_suffix (List.suffix_append u _)
  · exact Or.inr (hbehind w hrest)

theorem Bare.insert_tag {s x t : List Char} (hx : Bare ('<' :: x ++ ['>'])) (h : Bare (s ++ t)) :
    Bare (s ++ ('<' :: x ++ ['>']) ++ t) := by
  have hs : Bare s := h.of_part (List.prefix_append s t).isInfix
  have ht : Bare t := h.of_part (List.suffix_append s t).isInfix
  constructor
  · intro hopen
    rcases holds_insert_tag (by decide) (by decide) hopen with hopen | hopen | hopen
    · exact hs.1 hopen
    · exact hx.1 hopen
    · exact ht.1 hopen
  · intro hclose
    rcases holds_insert_tag (by decide) (by decide) hclose with hclose | hclose | hclose
    · exact hs.2 hclose
    · exact hx.2 hclose
    · exact ht.2 hclose

theorem bare_of_angle_notMem {cs : List Char} (h : '<' ∉ cs) : Bare cs := by
  have hnone {m : List Char} : ¬Holds ('<' :: m) cs := fun ⟨c, _, hpart⟩ =>
    h (hpart.subset (by simp))
  exact ⟨hnone, hnone⟩

/-- The tag of another name is no tag of a template. -/
theorem bare_openingTag {name attributes : List Char} (hname : TagName name)
    (hother : name ≠ nestingName) (hattributes : '<' ∉ attributes)
    (hnext : ∀ c ∈ (attributes ++ ['>']).head?, isNameChar c = false) :
    Bare (openingTag name attributes) := by
  have hread : tagName? (name ++ (attributes ++ ['>'])) = some name := tagName?_append hname hnext
  have hfree : '<' ∉ name ++ (attributes ++ ['>']) := by
    simp [hname.angle_notMem, hattributes]
  have hstarts {m : List Char} (h : Holds ('<' :: m) (openingTag name attributes)) :
      ∃ c v, EndsName c ∧ name ++ (attributes ++ ['>']) = m ++ c :: v := by
    obtain ⟨c, hc, u, v, huv⟩ := h
    rw [openingTag, List.append_assoc, List.append_assoc, List.cons_append] at huv
    cases u with
    | nil => exact ⟨c, v, hc, by simpa using huv.symm⟩
    | cons d u =>
        -- the tag has only one angle of this kind
        obtain ⟨-, hrest⟩ : d = '<' ∧ u ++ '<' :: (m ++ c :: v) = name ++ (attributes ++ ['>']) := by
          simpa using huv
        rw [← hrest] at hfree
        simp at hfree
  constructor
  · intro hopen
    obtain ⟨c, v, hc, heq⟩ := hstarts hopen
    have hnesting : tagName? (nestingName ++ c :: v) = some nestingName :=
      tagName?_append (by decide) (by simpa using hc.not_isNameChar)
    rw [heq, hnesting] at hread
    exact hother (Option.some.inj hread).symm
  · intro hclose
    obtain ⟨c, v, -, heq⟩ := hstarts hclose
    have hnone : tagName? ('/' :: nestingName ++ c :: v) = none := rfl
    rw [heq, hnone] at hread
    simp at hread

/-! ### Levels -/

/-- At a cut so many templates are open, and behind the second part none of them is. -/
theorem Cut.exists_level {s t : List Char} (h : Cut s t) :
    ∃ level, ∀ (depth : Nat) (rest : List Char), rest.head? = some '<' →
      Leads depth (depth + level) s rest ∧ Leads (depth + level) depth t rest := by
  induction h with
  | @bare s t h =>
      have hs : Bare s := h.of_part (List.prefix_append s t).isInfix
      have ht : Bare t := h.of_part (List.suffix_append s t).isInfix
      exact ⟨0, fun depth rest hrest => ⟨hs.leads hrest depth, ht.leads hrest depth⟩⟩
  | @before s t _ _ _ _ hbefore hstart hattributes hinner hmargin hafter =>
      have hs : Bare s := hbefore.of_part (List.prefix_append s t).isInfix
      have ht : Bare t := hbefore.of_part (List.suffix_append s t).isInfix
      refine ⟨0, fun depth rest hrest => ⟨hs.leads hrest depth, ?_⟩⟩
      exact (Balanced.element ht hstart hattributes hinner hmargin hafter).leads hrest depth
  | inner hbefore hstart hattributes _ hmargin hafter ih =>
      obtain ⟨level, ih⟩ := ih
      refine ⟨1 + level, fun depth rest hrest => ?_⟩
      rw [← Nat.add_assoc]
      constructor
      · refine Leads.append (Leads.append (hbefore.leads rfl depth) ?_) (ih (depth + 1) rest hrest).1
        exact leads_opening hstart hattributes depth _
      · refine Leads.append (Leads.append (ih (depth + 1) _ rfl).2 ?_) (hafter.leads hrest depth)
        exact leads_closing hmargin depth _
  | after hbefore hstart hattributes hinner hmargin _ ih =>
      obtain ⟨level, ih⟩ := ih
      refine ⟨level, fun depth rest hrest => ⟨?_, (ih depth rest hrest).2⟩⟩
      refine Leads.append ?_ (ih depth rest hrest).1
      exact leads_element hbefore hstart hattributes (hinner.leads rfl (depth + 1)) hmargin

/-- A tag of one more template in the body of a template leaves the search where it started when it
is behind the closing tag. -/
theorem Cut.leads_insert {s t : List Char} (h : Cut s t) {tag margin : List Char}
    (htag : ∀ depth rest, Leads depth (depth + 1) tag rest) (hangle : tag.head? = some '<')
    (hmargin : Blanks margin) (rest : List Char) :
    Leads 0 0 (s ++ tag ++ t ++ closingTag nestingName margin) rest := by
  obtain ⟨level, hlevel⟩ := h.exists_level
  have hnext (r : List Char) : (tag ++ r).head? = some '<' := by simp [hangle]
  have hfront : Leads 0 level s (tag ++ (t ++ (closingTag nestingName margin ++ rest))) := by
    have hs := (hlevel 0 _ (hnext (t ++ (closingTag nestingName margin ++ rest)))).1
    rwa [Nat.zero_add] at hs
  have hback : Leads (level + 1) 1 t (closingTag nestingName margin ++ rest) := by
    have ht := (hlevel 1 (closingTag nestingName margin ++ rest) rfl).2
    rwa [Nat.add_comm] at ht
  exact ((hfront.append (htag level _)).append hback).append (leads_closing hmargin 0 rest)

theorem closing?_of_leads {xs rest : List Char} (h : Leads 0 0 xs rest) :
    closing? nestingName (xs ++ rest) =
      (closing? nestingName rest).map fun (stop, length) =>
        (xs.length + stop, xs.length + length) := by
  have hsearch := h 0
  rw [Nat.zero_add, ← Nat.add_zero xs.length, closingFrom?_add] at hsearch
  exact hsearch

/-- Where all templates are closed, no closing tag is left over. -/
theorem Balanced.closing?_eq_none {cs : List Char} (h : Balanced cs) :
    closing? nestingName cs = none := by
  by_contra hsome
  obtain ⟨found, hfound⟩ := Option.ne_none_iff_exists'.mp hsome
  have hlonger := closing?_append_of_some hfound ['<']
  rw [closing?_of_leads (h.leads rfl 0)] at hlonger
  simp [closing?, closingFrom?, find?] at hlonger

/-! ### The scan -/

theorem standardTags_nestingName : standardTags.contains nestingName = true := by decide

/-- The blocks behind the next closing tag of a template that is left over in a text. -/
def blocksBehind (offset index : Nat) (cs : List Char) : List Block :=
  match closing? nestingName cs with
  | none => []
  | some (_, length) => blocksFrom (offset + byteLength (cs.take length)) index 0 (cs.drop length)

/-- A template that is not closed by its own closing tag goes on to the next one that is left over. -/
theorem blocksFrom_template {attributes xs rest : List Char} (hattributes : Attributes attributes)
    (hslash : attributes.getLast? ≠ some '/') (hleads : Leads 0 0 xs rest) (offset index : Nat) :
    blocksFrom offset index 0 (openingTag nestingName attributes ++ xs ++ rest) =
      blocksBehind (offset + byteLength (openingTag nestingName attributes ++ xs)) index rest := by
  have hname : TagName nestingName := by decide
  have hstart := hattributes.startsBlank.not_isNameChar (rfl : isNameChar '>' = false) []
  have hmarkup := markup?_openingTag hname hstart hattributes.quoted (xs ++ rest)
  rw [hname.not_selfClosing hslash, if_neg (by simp), closing?_of_leads hleads] at hmarkup
  rw [blocksBehind]
  cases hclosing : closing? nestingName rest with
  | none =>
      rw [hclosing] at hmarkup
      rw [List.append_assoc]
      exact blocksFrom_unfinished hmarkup offset index
  | some found =>
      obtain ⟨stop, length⟩ := found
      have hwithin : length ≤ rest.length := by simpa using closingFrom?_le hclosing
      have hsplit : openingTag nestingName attributes ++ (xs ++ rest) =
          (openingTag nestingName attributes ++ xs ++ rest.take length) ++ rest.drop length := by
        simp
      have hlength : (openingTag nestingName attributes).length + (xs.length + length) =
          (openingTag nestingName attributes ++ xs ++ rest.take length).length := by
        simp [hwithin]
      rw [hclosing, hsplit] at hmarkup
      simp only [Option.map_some, hlength] at hmarkup
      rw [List.append_assoc, hsplit, blocksFrom_element rfl hmarkup, if_pos standardTags_nestingName]
      simp only [byteLength_append, Nat.add_assoc]

/-- The blocks of items further on in a file. -/
theorem Item.blocks_add (offset index bytes : Nat) (items : List Item) :
    Item.blocks (offset + bytes) index items =
      (Item.blocks offset index items).map fun b => { b with start := b.start + bytes } := by
  induction items generalizing offset index with
  | nil => rfl
  | cons item items ih =>
      cases item with
      | text | comment | empty =>
          simp only [Item.blocks]
          rw [Nat.add_right_comm, ih]
      | block name attributes body margin =>
          simp only [Item.blocks, Nat.add_right_comm offset bytes, ih]
          split <;> rfl

section File

variable {before after : List Item} {attributes margin : List Char}

/-- A file with a template whose body is balanced. -/
theorem scan_template (hbefore : ∀ item ∈ before, item.WellFormed)
    (hafter : ∀ item ∈ after, item.WellFormed) (hattributes : Attributes attributes)
    (hslash : attributes.getLast? ≠ some '/') (hmargin : Blanks margin) {body : List Char}
    (hbody : Balanced body) :
    (scan (String.ofList
      ((before ++ .block nestingName attributes body margin :: after).flatMap Item.print))).blocks =
      Item.blocks 0 0 before ++
        Item.blocks (byteLength (before.flatMap Item.print ++
          (Item.block nestingName attributes body margin).print)) (Item.blocks 0 0 before).length
          after := by
  have htemplate : (Item.block nestingName attributes body margin).WellFormed :=
    ⟨by decide, hattributes, hslash, (if_pos rfl).mpr hbody, hmargin⟩
  have hrest : ∀ item ∈ Item.block nestingName attributes body margin :: after, item.WellFormed :=
    List.forall_mem_cons.mpr ⟨htemplate, hafter⟩
  rw [scan, String.toList_ofList, List.flatMap_append, blocksFrom_print_append hbefore,
    blocksFrom_print hrest, byteLength_append]
  simp only [Nat.zero_add, Item.blocks, if_pos standardTags_nestingName]

/-- A file with a template that is not closed by its own closing tag. -/
theorem scan_open_template (hbefore : ∀ item ∈ before, item.WellFormed)
    (hattributes : Attributes attributes) (hslash : attributes.getLast? ≠ some '/')
    {body : List Char}
    (hleads : Leads 0 0 (body ++ closingTag nestingName margin) (after.flatMap Item.print)) :
    (scan (String.ofList
      ((before ++ .block nestingName attributes body margin :: after).flatMap Item.print))).blocks =
      Item.blocks 0 0 before ++
        blocksBehind (byteLength (before.flatMap Item.print ++
          (Item.block nestingName attributes body margin).print)) (Item.blocks 0 0 before).length
          (after.flatMap Item.print) := by
  rw [scan, String.toList_ofList, List.flatMap_append, blocksFrom_print_append hbefore,
    List.flatMap_cons, Item.print_block, List.append_assoc (openingTag nestingName attributes),
    blocksFrom_template hattributes hslash hleads]
  simp only [Nat.zero_add, byteLength_append]

/-- A tag that closes itself somewhere in the body of a template. If it is not the tag of a template,
the blocks behind it move by its length, and nothing else changes. If it is, the template goes on to
the next closing tag that is left over behind it; where there is none, no more blocks are found. -/
theorem scan_selfClosing {s t name inserted : List Char} (hbefore : ∀ item ∈ before, item.WellFormed)
    (hafter : ∀ item ∈ after, item.WellFormed) (hattributes : Attributes attributes)
    (hslash : attributes.getLast? ≠ some '/') (hcut : Cut s t) (hmargin : Blanks margin)
    (hname : TagName name) (hstart : StartsBlank inserted) (hangle : '<' ∉ inserted) :
    let template (body : List Char) := Item.block nestingName attributes body margin
    let file (body : List Char) :=
      String.ofList ((before ++ template body :: after).flatMap Item.print)
    let tag := openingTag name (inserted ++ ['/'])
    let place := byteLength (before.flatMap Item.print ++ (template (s ++ t)).print)
    let first := Item.blocks 0 0 before
    let later := Item.blocks place first.length after
    (scan (file (s ++ t))).blocks = first ++ later ∧
      (name ≠ nestingName → (scan (file (s ++ tag ++ t))).blocks =
        first ++ later.map fun b => { b with start := b.start + byteLength tag }) ∧
      (name = nestingName → (scan (file (s ++ tag ++ t))).blocks =
        first ++ blocksBehind (place + byteLength tag) first.length (after.flatMap Item.print)) ∧
      (name = nestingName → Balanced (after.flatMap Item.print) →
        (scan (file (s ++ tag ++ t))).blocks = first) := by
  intro template file tag place first later
  have hplace : byteLength (before.flatMap Item.print ++ (template (s ++ tag ++ t)).print) =
      place + byteLength tag := by
    simp only [place, template, Item.print_block, byteLength_append]
    omega
  have hfree : '<' ∉ inserted ++ ['/'] := by simp [hangle]
  have hrunsOn (hnesting : name = nestingName) : (scan (file (s ++ tag ++ t))).blocks =
      first ++ blocksBehind (place + byteLength tag) first.length (after.flatMap Item.print) := by
    subst hnesting
    have hends : atBoundary (inserted ++ ['/'] ++ ['>']) = true := by
      rw [List.append_assoc]
      exact hstart.atBoundary (by decide) ['>']
    have hbare : Bare (inserted ++ ['/'] ++ ['>']) := bare_of_angle_notMem (by simp [hangle])
    have hleads := hcut.leads_insert (leads_tag hends hbare) rfl hmargin (after.flatMap Item.print)
    rw [← hplace]
    exact scan_open_template hbefore hattributes hslash hleads
  refine ⟨scan_template hbefore hafter hattributes hslash hmargin hcut.balanced, ?_, hrunsOn, ?_⟩
  · intro hother
    have hnext : ∀ c ∈ (inserted ++ ['/'] ++ ['>']).head?, isNameChar c = false := by
      rw [List.append_assoc]
      exact hstart.not_isNameChar rfl ['>']
    have hbare : Bare tag := bare_openingTag hname hother hfree hnext
    have hbalanced : Balanced (s ++ tag ++ t) := hcut.balanced_insert hbare.insert_tag
    have hscan := scan_template hbefore hafter hattributes hslash hmargin hbalanced
    rwa [hplace, Item.blocks_add] at hscan
  · intro hnesting hbalanced
    rw [hrunsOn hnesting, blocksBehind, hbalanced.closing?_eq_none, List.append_nil]

end File

/-- The tag of an inner template that closes itself, in a file with a closing tag in a comment. The
block in front of the comment is lost, and the one behind it gets its number. -/
theorem scan_selfClosing_left_over :
    (scan ("<i18n>{}</i18n><template><template v-if='x'>é<template b/></template></template>" ++
      "<php>$a;</php><!-- </template> --><php>$b;</php>")).blocks =
      [{ name := "customBlock_0", type := "i18n", content := "{}", start := 6 },
        { name := "customBlock_1", type := "php", content := "$b;", start := 120 }] := by
  let before : List Item := [.block "i18n".toList [] "{}".toList []]
  let after : List Item := [.block "php".toList [] "$a;".toList [],
    .comment " </template> ".toList, .block "php".toList [] "$b;".toList []]
  have hblank : Attributes [] := ⟨by decide, .nil⟩
  have hbefore : ∀ item ∈ before, item.WellFormed := by
    simp only [before, List.forall_mem_cons]
    exact ⟨⟨by decide, hblank, by decide, (body_iff_of_ne (by decide) _).mpr (by decide),
      by decide⟩, by simp⟩
  have hafter : ∀ item ∈ after, item.WellFormed := by
    simp only [after, List.forall_mem_cons]
    refine ⟨?_, ?_, ?_, by simp⟩
    · exact ⟨by decide, hblank, by decide, (body_iff_of_ne (by decide) _).mpr (by decide), by decide⟩
    · exact (Item.comment_wellFormed_iff _).mpr (by decide)
    · exact ⟨by decide, hblank, by decide, (body_iff_of_ne (by decide) _).mpr (by decide), by decide⟩
  have hcut : Cut "<template v-if='x'>é".toList "</template>".toList :=
    @Cut.inner [] " v-if='x'".toList ['é'] [] [] [] (by decide) (by decide) (by decide)
      (.bare (by decide)) (by decide) (.bare (by decide))
  have hscan := (scan_selfClosing hbefore hafter hblank (by decide) hcut (by decide : Blanks [])
    (by decide : TagName nestingName) (by decide : StartsBlank " b".toList) (by decide)).2.2.1 rfl
  have htext : String.ofList ((before ++ Item.block nestingName []
      ("<template v-if='x'>é".toList ++ openingTag nestingName (" b".toList ++ ['/'])
        ++ "</template>".toList) [] :: after).flatMap Item.print) =
      "<i18n>{}</i18n><template><template v-if='x'>é<template b/></template></template>" ++
        "<php>$a;</php><!-- </template> --><php>$b;</php>" := by decide +kernel
  rw [← htext, hscan]
  decide

/-- With the tag of an inner template that closes itself the block behind the template is gone. -/
theorem scan_empty_template :
    let after : Item := .block "php".toList [] "$a;".toList []
    let file (body : List Char) :=
      String.ofList ([.block nestingName [] body [], after].flatMap Item.print)
    let block : Block := { name := "customBlock_0", type := "php", content := "$a;", start := 26 }
    after.WellFormed ∧ Cut [] [] ∧ (scan (file [])).blocks = [block] ∧
      file "<template/>".toList = "<template><template/></template><php>$a;</php>" ∧
      (scan (file "<template/>".toList)).blocks = [] ∧
      (scan (file "<template/>".toList)).blocks ≠ [{ block with start := block.start + 11 }] := by
  intro after file block
  have hafter : after.WellFormed :=
    ⟨by decide, ⟨by decide, .nil⟩, by decide, (body_iff_of_ne (by decide) _).mpr (by decide),
      by decide⟩
  exact ⟨hafter, .bare (by decide), by decide, by decide, by decide, by decide⟩

end BlockExports.Component
