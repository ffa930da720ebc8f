import BlockExports.Proofs.Component.Appending
import BlockExports.Proofs.Component.Within

/-!
The opening tags of the blocks.

A block is found where the scan gets to an opening tag, and there is one such tag for each block
(`Block.OpenedBy`). The tag that opens a block and the tag that closes it do not end their names in
the same way. The name in a closing tag ends at an angle, a slash or white space. The name in an
opening tag is the run of name characters, and whatever stands behind it is taken for an attribute,
as if there were a blank in between: `scan_tag_name` says so for every block of every text.
-/

namespace BlockExports

open Text Component

/-- The scan gets to an opening tag, reads its name and its end there, and the content of the block
starts behind it. -/
structure Block.OpenedBy (b : Block) (text front attributes rest : List Char) : Prop where
  text_eq : text = front ++ (openingTag b.type.toList attributes ++ rest)
  through : readsThrough 0 front = true
  reads : ReadsTag b.type.toList attributes rest
  start_eq : b.start = byteLength (front ++ openingTag b.type.toList attributes)

/-- The block as it is in a file with so many bytes more in front. -/
def Block.later (b : Block) (bytes : Nat) : Block := { b with start := b.start + bytes }

@[simp]
theorem Block.later_type (b : Block) (bytes : Nat) : (b.later bytes).type = b.type := rfl

namespace Component

/-! ### Where a block is found -/

theorem Markup.length_blocks_le (m : Markup) (offset index : Nat) (cs : List Char) :
    (m.blocks offset index cs).length ≤ 1 := by
  cases m with
  | passed length => exact Nat.zero_le _
  | element tag content stop length =>
      rw [Markup.blocks]
      split
      · exact Nat.zero_le _
      · exact Nat.le_refl 1

/-- The part of a text in front of a block: the scan gets through it and finds the earlier blocks in
it, and the block is in the markup at the angle behind it. -/
structure FrontOf (b : Block) (offset index skip : Nat) (before : List Block)
    (cs front : List Char) : Prop where
  fits : skip ≤ front.length
  through : readsThrough skip front = true
  blocks_eq : blocksFrom offset index skip front = before
  found : ∃ ds m, cs = front ++ '<' :: ds ∧ markup? ('<' :: ds) = some m ∧
    m.blocks (offset + byteLength front) (index + before.length) ('<' :: ds) = [b]

section Front

variable {b : Block} {offset index skip : Nat} {before : List Block} {c : Char}
  {cs front : List Char}

theorem FrontOf.skipped (h : FrontOf b (offset + c.utf8Size) index skip before cs front) :
    FrontOf b offset index (skip + 1) before (c :: cs) (c :: front) where
  fits := Nat.succ_le_succ h.fits
  through := h.through
  blocks_eq := h.blocks_eq
  found := by
    obtain ⟨ds, m, rfl, hmarkup, hb⟩ := h.found
    refine ⟨ds, m, rfl, hmarkup, ?_⟩
    rwa [byteLength_cons, ← Nat.add_assoc]

theorem FrontOf.text (hangle : c ≠ '<')
    (h : FrontOf b (offset + c.utf8Size) index 0 before cs front) :
    FrontOf b offset index 0 before (c :: cs) (c :: front) where
  fits := Nat.zero_le _
  through := by
    rw [readsThrough, if_neg hangle]
    exact h.through
  blocks_eq := by
    rw [blocksFrom_text_cons hangle]
    exact h.blocks_eq
  found := h.skipped.found

/-- Markup that ends in front of the block is read there as it is in the whole text. -/
theorem FrontOf.markup {m : Markup} (hmarkup : markup? ('<' :: cs) = some m)
    (h : FrontOf b (offset + ('<').utf8Size)
      (index + (m.blocks offset index ('<' :: cs)).length) (m.length - 1) before cs front) :
    FrontOf b offset index 0 (m.blocks offset index ('<' :: cs) ++ before) ('<' :: cs)
      ('<' :: front) := by
  obtain ⟨ds, n, rfl, hn, hb⟩ := h.found
  have hfits := h.fits
  have hfront : markup? ('<' :: front) = some m :=
    markup?_of_append hmarkup (by rw [List.length_cons]; omega)
  constructor
  case fits => exact Nat.zero_le _
  case through =>
    rw [readsThrough, if_pos rfl, hfront]
    exact h.through
  case blocks_eq =>
    rw [blocksFrom_markup hfront, ← blocks_append hfront offset index ('<' :: ds), h.blocks_eq]
  case found =>
    refine ⟨ds, n, rfl, hn, ?_⟩
    rw [byteLength_cons, ← Nat.add_assoc, List.length_append, ← Nat.add_assoc, hb]

end Front

/-- Every block has a text in front of it. -/
theorem exists_front {offset index skip : Nat} {cs : List Char} {before after : List Block}
    {b : Block} (h : blocksFrom offset index skip cs = before ++ b :: after) :
    ∃ front, FrontOf b offset index skip before cs front := by
  induction cs generalizing offset index skip before with
  | nil => simp [blocksFrom] at h
  | cons c cs ih =>
      cases skip with
      | succ skip =>
          obtain ⟨front, hfront⟩ := ih h
          exact ⟨c :: front, hfront.skipped⟩
      | zero =>
          by_cases hangle : c = '<'
          · subst hangle
            cases hmarkup : markup? ('<' :: cs) with
            | none =>
                rw [blocksFrom_unfinished hmarkup] at h
                simp at h
            | some m =>
                rw [blocksFrom_markup hmarkup] at h
                -- the block is in the markup itself or in what the scan has not passed
                rcases List.append_eq_append_iff.mp h with ⟨found, rfl, hrest⟩ | ⟨found, hm, hrest⟩
                · obtain ⟨front, hfront⟩ := ih hrest
                  exact ⟨'<' :: front, hfront.markup hmarkup⟩
                · cases found with
                  | nil =>
                      rw [List.append_nil] at hm
                      obtain ⟨front, hfront⟩ := ih (show _ = [] ++ b :: after from hrest.symm)
                      have hmore := hfront.markup hmarkup
                      rw [List.append_nil, hm] at hmore
                      exact ⟨'<' :: front, hmore⟩
                  | cons b' found =>
                      obtain ⟨rfl, -⟩ := List.cons.inj hrest
                      have hone := m.length_blocks_le offset index ('<' :: cs)
                      rw [hm, List.length_append, List.length_cons] at hone
                      obtain rfl : before = [] := List.length_eq_zero_iff.mp (by omega)
                      obtain rfl : found = [] := List.length_eq_zero_iff.mp (by omega)
                      exact ⟨[], Nat.le_refl 0, rfl, rfl, cs, m, rfl, hmarkup, hm⟩
          · rw [blocksFrom_text_cons hangle] at h
            obtain ⟨front, hfront⟩ := ih h
            exact ⟨c :: front, hfront.text hangle⟩

/-! ### Opening tags -/

/-- A slash at the end of an opening tag is the last character of the attributes. -/
theorem TagName.selfClosing_iff {name attributes : List Char} (h : TagName name) :
    "/>".toList.isSuffixOf (openingTag name attributes) = true ↔
      attributes.getLast? = some '/' := by
  constructor
  · intro hends
    by_contra hslash
    rw [h.not_selfClosing hslash] at hends
    simp at hends
  · intro hslash
    obtain ⟨front, rfl⟩ := List.getLast?_eq_some_iff.mp hslash
    rw [List.isSuffixOf_iff_suffix]
    exact ⟨'<' :: name ++ front, by simp [openingTag]⟩

theorem byteLength_openingTag_blank (name attributes : List Char) :
    byteLength (openingTag name (' ' :: attributes)) =
      byteLength (openingTag name attributes) + 1 := by
  have hblank : (' ').utf8Size = 1 := rfl
  simp only [openingTag, List.cons_append, byteLength_cons, byteLength_append, hblank]
  omega

/-- An opening tag and the text behind it that make a block at a byte offset, with a number. The
content stops, and the closing tag ends, so many characters behind the opening tag. -/
structure OpensBlock (b : Block) (offset index : Nat) (attributes rest : List Char)
    (stop length : Nat) : Prop where
  reads : ReadsTag b.type.toList attributes rest
  custom : standardTags.contains b.type.toList = false
  notEmpty : attributes.getLast? ≠ some '/'
  closing_eq : closing? b.type.toList rest = some (stop, length)
  name_eq : b.name = blockName index
  content_eq : b.content = String.ofList (rest.take stop)
  start_eq : b.start = offset + byteLength (openingTag b.type.toList attributes)

section OpensBlock

variable {b : Block} {offset index stop length : Nat} {attributes rest : List Char}

theorem OpensBlock.tagName (h : OpensBlock b offset index attributes rest stop length) :
    TagName b.type.toList := (tagName?_eq_some h.reads.name_eq).1

theorem OpensBlock.markup_eq (h : OpensBlock b offset index attributes rest stop length) :
    markup? (openingTag b.type.toList attributes ++ rest) =
      some (.element b.type.toList (openingTag b.type.toList attributes).length
        ((openingTag b.type.toList attributes).length + stop)
        ((openingTag b.type.toList attributes).length + length)) := by
  rw [markup?_of_readsTag h.reads, tagMarkup?]
  simp only [h.tagName.not_selfClosing h.notEmpty, Bool.false_eq_true, if_false, h.closing_eq,
    Option.map_some]

/-- The markup of a block is its opening tag, its content and its closing tag. -/
theorem exists_opensBlock {cs : List Char} {m : Markup} (hmarkup : markup? ('<' :: cs) = some m)
    (hb : m.blocks offset index ('<' :: cs) = [b]) :
    ∃ attributes rest stop length, '<' :: cs = openingTag b.type.toList attributes ++ rest ∧
      OpensBlock b offset index attributes rest stop length := by
  cases m with
  | passed length => simp [Markup.blocks] at hb
  | element tag content stop length =>
      rw [Markup.blocks] at hb
      split at hb
      · simp at hb
      · next hcustom =>
        obtain rfl := (List.cons.inj hb).1
        have hcomment : "<!--".toList.isPrefixOf ('<' :: cs) = false := by
          by_contra hcomment
          rw [markup?, if_pos (eq_true_of_ne_false hcomment)] at hmarkup
          simp at hmarkup
        rcases exists_readsTag hmarkup hcomment with ⟨-, hpassed⟩ | ⟨name, attributes, rest, hcs, htag⟩
        · simp at hpassed
        · rw [hcs, markup?_of_readsTag htag, tagMarkup?] at hmarkup
          simp only at hmarkup
          split at hmarkup
          · simp at hmarkup
          · next hslash =>
            obtain ⟨⟨stop, length⟩, hclosing, helement⟩ := Option.map_eq_some_iff.mp hmarkup
            obtain ⟨rfl, rfl, rfl, rfl⟩ := Markup.element.inj helement
            refine ⟨attributes, rest, stop, length, by rw [String.toList_ofList, hcs], ?_⟩
            have hname : TagName name := (tagName?_eq_some htag.name_eq).1
            constructor
            case reads => rwa [String.toList_ofList]
            case custom => rwa [String.toList_ofList, ← Bool.not_eq_true]
            case notEmpty => exact fun hempty => hslash (hname.selfClosing_iff.mpr hempty)
            case closing_eq => rwa [String.toList_ofList]
            case name_eq => rfl
            case content_eq =>
              rw [hcs, List.take_length_add_append, List.drop_left]
            case start_eq => rw [hcs, List.take_left, String.toList_ofList]

/-- The scan finds the block, and goes on behind its closing tag. -/
theorem OpensBlock.blocksFrom_eq (h : OpensBlock b offset index attributes rest stop length) :
    blocksFrom offset index 0 (openingTag b.type.toList attributes ++ rest) =
      b :: blocksFrom (offset + byteLength (openingTag b.type.toList attributes)) (index + 1)
        length rest := by
  have hwithin : length ≤ rest.length := by simpa using closingFrom?_le h.closing_eq
  have hsplit : openingTag b.type.toList attributes ++ rest =
      (openingTag b.type.toList attributes ++ rest.take length) ++ rest.drop length := by
    rw [List.append_assoc, List.take_append_drop]
  have hlength : (openingTag b.type.toList attributes).length + length =
      (openingTag b.type.toList attributes ++ rest.take length).length := by
    rw [List.length_append, List.length_take, Nat.min_eq_left hwithin]
  have hblock : b = { name := blockName index
                      type := String.ofList b.type.toList
                      content := String.ofList (rest.take stop)
                      start := offset + byteLength (openingTag b.type.toList attributes) } := by
    rw [String.ofList_toList, ← h.name_eq, ← h.content_eq, ← h.start_eq]
  have hmarkup := h.markup_eq
  rw [hsplit, hlength] at hmarkup
  rw [hsplit, blocksFrom_element rfl hmarkup, ← hsplit, h.custom, if_neg (by simp),
    List.take_length_add_append, List.drop_left, List.take_left, ← hblock,
    blocksFrom_drop (offset + _) (index + 1) hwithin, byteLength_append, Nat.add_assoc]

/-- A blank between the name and the attributes makes no difference but for the place. -/
theorem OpensBlock.spaced (h : OpensBlock b offset index attributes rest stop length) :
    OpensBlock (b.later 1) offset index (' ' :: attributes) rest stop length where
  reads :=
    { name_eq := tagName?_append h.tagName (by simp; rfl)
      end_eq := by
        have hend := h.reads.end_eq
        simp [tagEnd?, hend] }
  custom := h.custom
  notEmpty := by
    have hslash := h.notEmpty
    cases attributes with
    | nil => simp
    | cons c attributes => rwa [List.getLast?_cons_cons]
  closing_eq := h.closing_eq
  name_eq := h.name_eq
  content_eq := h.content_eq
  start_eq := by
    rw [Block.later_type, byteLength_openingTag_blank, ← Nat.add_assoc, ← h.start_eq]
    rfl

end OpensBlock

/-! ### The one opening tag -/

/-- A scan that gets to an opening tag does not get to a place within it. -/
theorem eq_nil_of_readsThrough {name attributes rest front part more : List Char}
    (htag : ReadsTag name attributes rest) (hthrough : readsThrough 0 front = true)
    (hsplit : openingTag name attributes = part ++ '<' :: more)
    (hwithin : readsThrough 0 (front ++ part) = true) : part = [] := by
  by_contra hpart
  obtain ⟨c, part, rfl⟩ := List.exists_cons_of_ne_nil hpart
  obtain ⟨rfl, hletters⟩ : '<' = c ∧ name ++ (attributes ++ ['>']) = part ++ '<' :: more := by
    simpa [openingTag] using hsplit
  rw [readsThrough_append hthrough (Nat.zero_le _) (seam_angle front part), readsThrough,
    if_pos rfl] at hwithin
  cases hmarkup : markup? ('<' :: part) with
  | none => simp [hmarkup] at hwithin
  | some m =>
      by_cases hstart : ('<' :: part) <+: "<!-".toList
      · -- the name starts with a letter
        obtain ⟨⟨c, hc, halpha⟩, -⟩ := (tagName?_eq_some htag.name_eq).1
        have hfirst : (part ++ '<' :: more).head? = some c := by
          rw [← hletters, List.head?_append, Option.mem_def.mp hc, Option.some_or]
        rcases eq_of_comment_start hstart with rfl | rfl | rfl
        all_goals
          obtain rfl := Option.some.inj hfirst
          exact absurd halpha (by decide)
      · -- markup that is finished would be finished before the tag is
        have hlonger := markup?_append_of_some hmarkup hstart ('<' :: more ++ rest)
        rw [← List.cons_append, ← List.append_assoc, ← hsplit, markup?_of_readsTag htag] at hlonger
        have hopening := tagMarkup?_opening_le hlonger
        have hends := markup?_length_le hmarkup
        rw [hsplit, List.length_append, List.length_cons] at hopening
        rw [List.length_cons] at hends hopening
        omega

theorem openedBy_unique {b : Block} {text front front' attributes attributes' rest rest' : List Char}
    (h : b.OpenedBy text front attributes rest) (h' : b.OpenedBy text front' attributes' rest') :
    front' = front ∧ attributes' = attributes ∧ rest' = rest := by
  have hcuts : front ++ openingTag b.type.toList attributes ++ rest =
      front' ++ openingTag b.type.toList attributes' ++ rest' := by
    rw [List.append_assoc, List.append_assoc, ← h.text_eq, h'.text_eq]
  have hplace := h.start_eq.symm.trans h'.start_eq
  obtain ⟨hm, rfl⟩ := cut_unique hcuts hplace
  have hfront : front' = front := by
    rcases List.append_eq_append_iff.mp hm.symm with ⟨part, hlater, htag⟩ | ⟨part, hlater, htag⟩
    · have hwithin := h.through
      rw [hlater] at hwithin
      rw [hlater, eq_nil_of_readsThrough h'.reads h'.through htag hwithin, List.append_nil]
    · have hwithin := h'.through
      rw [hlater] at hwithin
      rw [hlater, eq_nil_of_readsThrough h.reads h.through htag hwithin, List.append_nil]
  subst hfront
  refine ⟨rfl, ?_, rfl⟩
  simpa [openingTag] using List.append_cancel_left hm.symm

/-! ### All blocks of a text -/

theorem blocksFrom_later (offset index skip bytes : Nat) (cs : List Char) :
    blocksFrom (offset + bytes) index skip cs =
      (blocksFrom offset index skip cs).map (·.later bytes) := by
  have hmoved := blocksFrom_moved offset index skip bytes 0 cs
  rw [Nat.add_zero] at hmoved
  rw [hmoved]
  refine List.ext_getElem (by simp) fun i hi _ => ?_
  rw [List.length_mapIdx] at hi
  have hname := congrArg (·[i]?) (map_name_blocksFrom offset index skip cs)
  simp [hi] at hname
  simp [Block.moved, Block.later, hname]

/-- The same letters with one more at the same place end with the same letter. -/
theorem standsAt_concat_inj {text part : List Char} {c d : Char} {place : Nat}
    (hc : StandsAt text (part ++ [c]) place) (hd : StandsAt text (part ++ [d]) place) : c = d := by
  obtain ⟨before, after, rfl, rfl⟩ := hc
  obtain ⟨before', after', hsplit, hplace⟩ := hd
  rw [List.append_assoc, List.append_assoc before'] at hsplit
  obtain ⟨rfl, hletters⟩ := cut_unique hsplit hplace.symm
  have hletters : c :: after = d :: after' := by simpa using hletters
  exact (List.cons.inj hletters).1

theorem foundIn_of_mem_scan {text : String} {b : Block} (hb : b ∈ (scan text).blocks) :
    ∃ origin index, b.FoundIn text.toList origin index := by
  have hfound : Found text.toList 0 0 (scan text).blocks :=
    @found_blocksFrom text.toList [] text.toList 0 0 0 rfl rfl
  obtain ⟨i, hi, hget⟩ := List.mem_iff_getElem.mp hb
  obtain ⟨origin, -, hb, -⟩ := hfound.getElem? (List.getElem?_eq_some_iff.mpr ⟨hi, hget⟩)
  exact ⟨origin, _, hb⟩

/-- Each block has one opening tag. Behind the name in it stands a character that is no part of a
name; where it does not end the name of a closing tag, the closing tag goes on in another way. To
the scan it belongs to the attributes: with a blank behind the name, the same blocks are found. -/
theorem scan_tag_name {text : String} {before after : List Block} {b : Block}
    (h : (scan text).blocks = before ++ b :: after) :
    ∃ front attributes rest, b.OpenedBy text.toList front attributes rest ∧
      (∀ front' attributes' rest', b.OpenedBy text.toList front' attributes' rest' →
        front' = front ∧ attributes' = attributes ∧ rest' = rest) ∧
      (∃ c more, attributes ++ ['>'] = c :: more ∧ isNameChar c = false ∧
        (¬EndsName c → ¬StandsAt text.toList ('<' :: '/' :: b.type.toList ++ [c]) b.stop)) ∧
      (scan (String.ofList (front ++ (openingTag b.type.toList (' ' :: attributes) ++ rest)))).blocks
        = before ++ (b :: after).map (·.later 1) := by
  rw [scan] at h
  obtain ⟨front, -, hthrough, hbefore, ds, m, htext, hmarkup, hm⟩ := exists_front h
  obtain ⟨attributes, rest, stop, length, hds, hopens⟩ := exists_opensBlock hmarkup hm
  rw [hds] at htext
  have hopened : b.OpenedBy text.toList front attributes rest :=
    { text_eq := htext
      through := hthrough
      reads := hopens.reads
      start_eq := by rw [hopens.start_eq, byteLength_append, Nat.zero_add] }
  refine ⟨front, attributes, rest, hopened, fun _ _ _ h' => openedBy_unique hopened h', ?_, ?_⟩
  · obtain ⟨c, more, hmore⟩ : ∃ c more, attributes ++ ['>'] = c :: more :=
      List.exists_cons_of_ne_nil (by simp)
    refine ⟨c, more, hmore, ?_, fun hends hstands => hends ?_⟩
    · refine tagName?_next hopens.reads.name_eq c ?_
      rw [← List.singleton_append, ← List.append_assoc, hmore]
      rfl
    · obtain ⟨_, _, hfound⟩ : ∃ origin index, b.FoundIn text.toList origin index :=
        foundIn_of_mem_scan (by rw [scan, h]; simp)
      obtain ⟨d, hd, hcloses⟩ := hfound.closes
      rwa [standsAt_concat_inj hstands hcloses]
  · -- the scan gets to the tag in both texts, and from there on the blocks are the same
    have hscan (attributes : List Char) :
        blocksFrom 0 0 0 (front ++ (openingTag b.type.toList attributes ++ rest)) =
          before ++ blocksFrom (0 + byteLength front) (0 + before.length) 0
            (openingTag b.type.toList attributes ++ rest) := by
      rw [openingTag_eq, blocksFrom_append_of_seam hthrough (Nat.zero_le _) (seam_angle front _),
        hbefore]
    have hspaced := hopens.spaced.blocksFrom_eq
    rw [Block.later_type, byteLength_openingTag_blank, ← Nat.add_assoc] at hspaced
    rw [htext, hscan, hopens.blocksFrom_eq] at h
    obtain ⟨-, hafter⟩ := List.cons.inj (List.append_cancel_left h)
    rw [scan, String.toList_ofList, hscan, hspaced, List.map_cons, ← hafter, ← blocksFrom_later]

/-- A dot behind a name, next to a comment, an angle in quotes and a closing tag of another name. -/
theorem scan_tag_name_dotted :
    let text := "é<!-- <php.x> --><php.x a='>'>$a;</php.x></php><i18n>é</i18n>"
    let first : Block :=
      { name := "customBlock_0", type := "php", content := "$a;</php.x>", start := 31 }
    let second : Block := { name := "customBlock_1", type := "i18n", content := "é", start := 54 }
    (scan text).blocks = [] ++ first :: [second] ∧
      (scan "é<!-- <php.x> --><php .x a='>'>$a;</php.x></php><i18n>é</i18n>").blocks =
        [{ first with start := 32 }, { second with start := 55 }] := by
  intro text first second
  have hblocks : (scan text).blocks = [] ++ first :: [second] := by decide
  have hdotted : first.OpenedBy text.toList "é<!-- <php.x> -->".toList ".x a='>'".toList
      "$a;</php.x></php><i18n>é</i18n>".toList :=
    { text_eq := by decide
      through := by decide
      reads := ⟨by decide, by decide⟩
      start_eq := by decide }
  obtain ⟨front, attributes, rest, -, hunique, -, hspaced⟩ := scan_tag_name hblocks
  obtain ⟨rfl, rfl, rfl⟩ := hunique _ _ _ hdotted
  have htext : "é<!-- <php.x> -->".toList ++ (openingTag first.type.toList (' ' :: ".x a='>'".toList)
      ++ "$a;</php.x></php><i18n>é</i18n>".toList) =
        "é<!-- <php.x> --><php .x a='>'>$a;</php.x></php><i18n>é</i18n>".toList := by decide
  rw [htext, String.ofList_toList] at hspaced
  exact ⟨hblocks, hspaced⟩

/-- The name of an opening tag need not end where the name of a closing tag would. -/
theorem opening_name_undelimited :
    ¬∀ (text : String), ∀ b ∈ (scan text).blocks, ∀ front attributes rest,
      b.OpenedBy text.toList front attributes rest →
        ∀ c ∈ (attributes ++ ['>']).head?, EndsName c := by
  intro hends
  let b : Block := { name := "customBlock_0", type := "php", content := "$a;", start := 7 }
  have hb : b ∈ (scan "<php.x>$a;</php>").blocks := by decide
  have hopened : b.OpenedBy "<php.x>$a;</php>".toList [] ".x".toList "$a;</php>".toList :=
    { text_eq := by decide
      through := by decide
      reads := ⟨by decide, by decide⟩
      start_eq := by decide }
  exact absurd (hends _ b hb _ _ _ hopened '.' rfl) (by decide)

end Component

end BlockExports
