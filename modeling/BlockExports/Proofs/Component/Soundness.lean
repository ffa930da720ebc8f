import BlockExports.Proofs.Component.Printing
import BlockExports.Proofs.Component.Slices
import BlockExports.Proofs.Text.Slices
import Mathlib.Data.List.TakeWhile

/-!
What is true of the blocks that a scan finds, whatever the text is like.

A block is found where an opening tag is read and the search for a closing tag comes to an end. The
search passes one character after the other, so the closing tag is the first one behind the opening
tag (`closing?_eq_some`), and the scan goes on behind it. `Block.FoundIn` says what this means for a
block and its place in the text, and `Found` lines the blocks up: each is looked for from the end of
the closing tag of the one before.
-/

namespace BlockExports

open Text Component

/-! ### Places in a text -/

/-- The letters of a closing tag stand at a place, with the end of the tag's name behind them. -/
def ClosesAt (text tag : List Char) (place : Nat) : Prop :=
  ∃ c, EndsName c ∧ StandsAt text ('<' :: '/' :: tag ++ [c]) place

namespace Block

/-- The byte offset just behind the content. -/
def stop (b : Block) : Nat := b.start + b.content.utf8ByteSize

/-- The closing tag that stands behind the content ends at a place, with the first angle. -/
def ClosedBy (b : Block) (text : List Char) (place : Nat) : Prop :=
  ∃ margin, '>' ∉ margin ∧ StandsAt text (closingTag b.type.toList margin) b.stop ∧
    place = b.stop + byteLength (closingTag b.type.toList margin)

/-- What a scan that looks for a block from the place `origin` on says of it. -/
structure FoundIn (b : Block) (text : List Char) (origin index : Nat) : Prop where
  name_eq : b.name = blockName index
  tagName : TagName b.type.toList
  custom : b.type ∉ ["template", "script", "style"]
  content : StandsAt text b.content.toList b.start
  behindAngle : ∃ place, StandsAt text ['>'] place ∧ place + 1 = b.start
  closes : ClosesAt text b.type.toList b.stop
  closesFirst : ∀ place, b.start ≤ place → ClosesAt text b.type.toList place → b.stop ≤ place
  closed : ∃ place, b.ClosedBy text place
  opened : ∃ place, origin ≤ place ∧ StandsAt text ('<' :: b.type.toList) place ∧
    place + byteLength ('<' :: b.type.toList) < b.start

end Block

namespace Component

/-! ### Reading a block -/

theorem tagName?_eq_some {cs name : List Char} (h : tagName? cs = some name) :
    TagName name ∧ ∃ rest, cs = name ++ rest := by
  unfold tagName? at h
  simp only at h
  split at h
  · next hfirst =>
    obtain rfl := Option.some.inj h
    obtain ⟨c, hc, halpha⟩ := (Option.any_eq_true _ _).mp hfirst
    refine ⟨⟨⟨c, hc, halpha⟩, fun d hd => List.mem_takeWhile_imp hd⟩, _,
      (List.takeWhile_append_dropWhile).symm⟩
  · simp at h

theorem tagEnd?_eq_some {quote : Option Char} {cs : List Char} {n : Nat}
    (h : tagEnd? quote cs = some n) : ∃ xs ys, cs = xs ++ '>' :: ys ∧ n = xs.length + 1 := by
  induction cs generalizing quote n with
  | nil => cases quote <;> simp [tagEnd?] at h
  | cons c cs ih =>
      -- a character that is passed belongs to the part before the angle
      have hpass {q : Option Char} (hm : (tagEnd? q cs).map (· + 1) = some n) :
          ∃ xs ys, c :: cs = xs ++ '>' :: ys ∧ n = xs.length + 1 := by
        obtain ⟨k, hk, rfl⟩ := Option.map_eq_some_iff.mp hm
        obtain ⟨xs, ys, rfl, rfl⟩ := ih hk
        exact ⟨c :: xs, ys, rfl, rfl⟩
      cases quote with
      | some q => exact hpass h
      | none =>
          rw [tagEnd?] at h
          split at h
          · next hangle =>
            obtain rfl := Option.some.inj h
            exact ⟨[], cs, by rw [hangle]; rfl, rfl⟩
          · exact hpass h

theorem find?_char_eq_some {c : Char} {cs : List Char} {n : Nat} (h : find? [c] cs = some n) :
    ∃ margin rest, cs = margin ++ c :: rest ∧ n = margin.length ∧ c ∉ margin := by
  obtain ⟨⟨rest, hat⟩, hfirst⟩ := (find?_eq_some_iff (by simp) cs n).mp h
  have hroom : n + 1 ≤ cs.length := add_length_le_of_find? (by simp) h
  refine ⟨cs.take n, rest, ?_, ?_, fun hmem => ?_⟩
  · rw [show c :: rest = cs.drop n from hat, List.take_append_drop]
  · rw [List.length_take]
    omega
  · obtain ⟨k, hk, hget⟩ := List.mem_iff_getElem.mp hmem
    rw [List.getElem_take] at hget
    rw [List.length_take] at hk
    refine hfirst k (by omega) ⟨cs.drop (k + 1), ?_⟩
    rw [List.singleton_append, ← hget, List.cons_getElem_drop_succ]

/-- A body with its closing tag: no closing tag of the same name begins earlier. -/
structure ClosedBody (tag body margin rest : List Char) : Prop where
  boundary : atBoundary (margin ++ ['>']) = true
  angle : '>' ∉ margin
  first : ∀ k < body.length,
    closesAt tag ((body ++ (closingTag tag margin ++ rest)).drop k) = false

/-- The search for the closing tag of raw text ends at the first one. -/
theorem closing?_eq_some {tag cs : List Char} {stop length : Nat} (htag : '<' ∉ tag)
    (hraw : tag ≠ nestingName) (h : closing? tag cs = some (stop, length)) :
    ∃ body margin rest, cs = body ++ (closingTag tag margin ++ rest) ∧ stop = body.length ∧
      length = body.length + (closingTag tag margin).length ∧ ClosedBody tag body margin rest := by
  suffices hsearch : ∀ (cs : List Char) (here : Nat),
      closingFrom? tag 0 here 0 cs = some (stop, length) →
      ∃ body margin rest, cs = body ++ (closingTag tag margin ++ rest) ∧
        stop = here + body.length ∧ length = stop + (closingTag tag margin).length ∧
        ClosedBody tag body margin rest by
    obtain ⟨body, margin, rest, hcs, rfl, rfl, hbody⟩ := hsearch cs 0 h
    exact ⟨body, margin, rest, hcs, by omega, by omega, hbody⟩
  intro cs
  induction cs with
  | nil =>
      intro here hnil
      simp [closingFrom?] at hnil
  | cons c cs ih =>
      intro here hcons
      cases hclose : closesAt tag (c :: cs) with
      | true =>
          obtain ⟨x, hx, hend⟩ := eq_of_closesAt hclose
          rw [hx, closingFrom?_mark, if_pos hend] at hcons
          cases hangle : find? ['>'] x with
          | none => simp [hangle] at hcons
          | some n =>
              obtain ⟨margin, rest, rfl, rfl, hmargin⟩ := find?_char_eq_some hangle
              obtain ⟨rfl, rfl⟩ :
                  here = stop ∧ here + (tag.length + margin.length + 3) = length := by
                simpa [hangle] using hcons
              refine ⟨[], margin, rest, by simpa [closingTag] using hx, rfl, ?_, ?_, hmargin, ?_⟩
              · simp [closingTag]
                omega
              · cases margin with
                | nil => rfl
                | cons d margin => exact hend
              · simp
      | false =>
          have hopens : opensAt tag (c :: cs) = false := by simp [opensAt, hraw]
          rw [closingFrom?_cons htag 0 here hclose, hopens] at hcons
          obtain ⟨body, margin, rest, hcs, rfl, rfl, hbody⟩ := ih (here + 1) hcons
          refine ⟨c :: body, margin, rest, by rw [hcs]; rfl, by simp; omega, rfl, hbody.boundary,
            hbody.angle, ?_⟩
          intro k hk
          cases k with
          | zero => rwa [List.drop_zero, List.cons_append, ← hcs]
          | succ k => exact hbody.first k (by simpa using hk)

/-- What stands where a custom block is found. -/
theorem markup?_element {cs tag : List Char} {content stop length : Nat}
    (h : markup? ('<' :: cs) = some (.element tag content stop length))
    (hraw : tag ≠ nestingName) :
    ∃ attributes body margin rest,
      '<' :: cs = openingTag tag attributes ++ (body ++ (closingTag tag margin ++ rest)) ∧
      content = (openingTag tag attributes).length ∧ stop = content + body.length ∧
      length = stop + (closingTag tag margin).length ∧ TagName tag ∧
      ClosedBody tag body margin rest := by
  unfold markup? at h
  split at h
  · -- a comment is no element
    simp at h
  · rw [List.drop_succ_cons, List.drop_zero] at h
    cases hname : tagName? cs with
    | none => simp [hname] at h
    | some name =>
        obtain ⟨htag, x, rfl⟩ := tagName?_eq_some hname
        have hdrop : ('<' :: (name ++ x)).drop (1 + name.length) = x := by
          rw [Nat.add_comm, List.drop_succ_cons, List.drop_left]
        simp only [hname, hdrop] at h
        cases hend : tagEnd? none x with
        | none => simp [hend] at h
        | some n =>
            obtain ⟨attributes, y, rfl, rfl⟩ := tagEnd?_eq_some hend
            have hopening : '<' :: (name ++ (attributes ++ '>' :: y)) =
                openingTag name attributes ++ y := (openingTag_eq name attributes y).symm
            have hlength : 1 + name.length + (attributes.length + 1) =
                (openingTag name attributes).length := by
              simp [openingTag]
              omega
            simp only [hend, hopening, hlength, List.take_left, List.drop_left] at h
            split at h
            · simp at h
            · obtain ⟨⟨bodyStop, bodyLength⟩, hclosing, helement⟩ := Option.map_eq_some_iff.mp h
              obtain ⟨rfl, rfl, rfl, rfl⟩ := Markup.element.inj helement
              obtain ⟨body, margin, rest, rfl, rfl, rfl, hbody⟩ :=
                closing?_eq_some htag.angle_notMem hraw hclosing
              exact ⟨attributes, body, margin, rest, hopening, rfl, rfl, by omega, htag, hbody⟩

/-! ### Finding the blocks -/

theorem not_standard {tag : List Char} (h : standardTags.contains tag = false) :
    tag ≠ nestingName ∧ String.ofList tag ∉ ["template", "script", "style"] := by
  have hnotMem : tag ∉ standardTags := by simpa using h
  constructor
  · rintro rfl
    exact hnotMem (by decide)
  · intro hmem
    have htag : (String.ofList tag).toList ∈ standardTags := by
      simp only [standardTags, List.mem_cons, List.not_mem_nil, or_false] at hmem ⊢
      rcases hmem with h | h | h <;> simp [h]
    rw [String.toList_ofList] at htag
    exact hnotMem htag

section Place

variable {tag attributes body margin rest : List Char}

/-- The closing tag of a body starts with its name and a character that ends it. -/
theorem ClosedBody.exists_mark (h : ClosedBody tag body margin rest) :
    ∃ c more, EndsName c ∧ closingTag tag margin = '<' :: '/' :: tag ++ [c] ++ more := by
  obtain ⟨c, more, hmore⟩ : ∃ c more, margin ++ ['>'] = c :: more :=
    List.exists_cons_of_ne_nil (by simp)
  have hboundary := h.boundary
  rw [hmore] at hboundary
  refine ⟨c, more, (atBoundary_cons c more).mp hboundary, ?_⟩
  rw [closingTag, List.append_assoc, hmore]
  simp

/-- No closing tag of the same name begins within a body. -/
theorem ClosedBody.not_within (h : ClosedBody tag body margin rest) {m after : List Char} {c : Char}
    (hc : EndsName c) (hm : body ++ (closingTag tag margin ++ rest) =
      m ++ ('<' :: '/' :: tag ++ [c] ++ after)) : byteLength body ≤ byteLength m := by
  by_contra hlt
  have hshort : byteLength m < byteLength body := by omega
  obtain ⟨k, rfl, -⟩ := exists_between hm.symm (Nat.le_of_lt hshort)
  have hlength : m.length < (m ++ k).length := by
    cases k with
    | nil => simp at hshort
    | cons d k => simp
  have hcloses : closesAt tag ('<' :: '/' :: tag ++ [c] ++ after) = true := by
    have hsplit : '<' :: '/' :: tag ++ [c] ++ after = '<' :: '/' :: tag ++ (c :: after) := by simp
    rw [closesAt, hsplit, Bool.and_eq_true, List.isPrefixOf_iff_prefix]
    refine ⟨List.prefix_append _ _, ?_⟩
    rw [List.drop_left' (by simp)]
    exact (atBoundary_cons c after).mpr hc
  have hfirst := h.first m.length hlength
  rw [hm, List.drop_left, hcloses] at hfirst
  simp at hfirst

/-- A block is found where its opening tag and its body stand in the text. -/
theorem foundIn_of_closedBody {text front : List Char}
    (htext : text = front ++ (openingTag tag attributes ++
      (body ++ (closingTag tag margin ++ rest)))) (htag : TagName tag)
    (hcustom : String.ofList tag ∉ ["template", "script", "style"])
    (hbody : ClosedBody tag body margin rest) (index : Nat) {b : Block}
    (hb : b = { name := blockName index
                type := String.ofList tag
                content := String.ofList body
                start := byteLength (front ++ openingTag tag attributes) }) :
    b.FoundIn text (byteLength front) index ∧
      b.ClosedBy text (byteLength (front ++ openingTag tag attributes ++ body
        ++ closingTag tag margin)) := by
  have hname : b.name = blockName index := by rw [hb]
  have htype : b.type = String.ofList tag := by rw [hb]
  have hletters : b.type.toList = tag := by rw [htype, String.toList_ofList]
  have hcontent : b.content.toList = body := by rw [hb, String.toList_ofList]
  have hstart : b.start = byteLength (front ++ openingTag tag attributes) := by rw [hb]
  have hstop : b.stop = byteLength (front ++ openingTag tag attributes ++ body) := by
    rw [Block.stop, hstart, ← byteLength_toList, hcontent, ← byteLength_append]
  clear hb
  have hclosing : StandsAt text (closingTag tag margin) b.stop :=
    ⟨front ++ openingTag tag attributes ++ body, rest, by simp [htext], hstop.symm⟩
  have hclosed : b.ClosedBy text (byteLength (front ++ openingTag tag attributes ++ body
      ++ closingTag tag margin)) := by
    refine ⟨margin, hbody.angle, by rwa [hletters], ?_⟩
    rw [hletters, hstop, byteLength_append _ (closingTag tag margin)]
  refine ⟨?_, hclosed⟩
  constructor
  case name_eq => exact hname
  case tagName => rwa [hletters]
  case custom => rwa [htype]
  case content =>
    rw [hcontent, hstart]
    exact ⟨front ++ openingTag tag attributes, closingTag tag margin ++ rest, by simp [htext], rfl⟩
  case behindAngle =>
    refine ⟨byteLength (front ++ '<' :: tag ++ attributes),
      ⟨_, body ++ (closingTag tag margin ++ rest), by simp [htext, openingTag], rfl⟩, ?_⟩
    have hangle : ('>').utf8Size = 1 := rfl
    rw [hstart]
    simp [openingTag, hangle]
    omega
  case closes =>
    obtain ⟨c, more, hc, hmark⟩ := hbody.exists_mark
    obtain ⟨before, after, hsplit, hplace⟩ := hclosing
    rw [hletters]
    exact ⟨c, hc, before, more ++ after, by rw [hsplit, hmark]; simp, hplace⟩
  case closesFirst =>
    rintro place hle ⟨c, hc, before, after, hsplit, rfl⟩
    rw [hletters] at hsplit
    have hcuts : front ++ openingTag tag attributes ++
          (body ++ (closingTag tag margin ++ rest)) =
        before ++ ('<' :: '/' :: tag ++ [c] ++ after) := by
      rw [List.append_assoc, ← htext, hsplit, List.append_assoc]
    obtain ⟨m, rfl, hm⟩ := exists_between hcuts (by rwa [← hstart])
    have hbehind := hbody.not_within hc hm
    rw [hstop, byteLength_append _ body, byteLength_append _ m]
    omega
  case closed => exact ⟨_, hclosed⟩
  case opened =>
    rw [hletters, hstart]
    refine ⟨byteLength front, Nat.le_refl _, ⟨front, attributes ++ '>' ::
      (body ++ (closingTag tag margin ++ rest)), by simp [htext, openingTag], rfl⟩, ?_⟩
    have hpos := ('>').utf8Size_pos
    simp [openingTag]
    omega

end Place

/-- Blocks that were found one after the other from the place `origin` on, the first of them with
the number `index`. -/
inductive Found (text : List Char) : Nat → Nat → List Block → Prop where
  | done {origin index : Nat} : Found text origin index []
  | block {origin index place : Nat} {b : Block} {bs : List Block}
      (hb : b.FoundIn text origin index) (hplace : b.ClosedBy text place)
      (hrest : Found text place (index + 1) bs) : Found text origin index (b :: bs)

/-- What is found from a place on is found from an earlier place on. -/
theorem Found.mono {text : List Char} {origin place index : Nat} {bs : List Block}
    (h : Found text place index bs) (hle : origin ≤ place) : Found text origin index bs := by
  cases h with
  | done => exact .done
  | block hb hplace hrest =>
      obtain ⟨at', hat, hopened⟩ := hb.opened
      exact .block { hb with opened := ⟨at', Nat.le_trans hle hat, hopened⟩ } hplace hrest

/-- A scan that has passed the front of a text finds blocks in what it has not skipped. -/
theorem found_blocksFrom {text front cs : List Char} {offset index skip : Nat}
    (htext : text = front ++ cs) (hfront : byteLength front = offset) :
    Found text (offset + byteLength (cs.take skip)) index (blocksFrom offset index skip cs) := by
  fun_induction blocksFrom offset index skip cs generalizing front with
  | case1 => exact .done
  | case2 offset index skip c cs ih =>
      have hrest := @ih (front ++ [c]) (by simpa using htext) (by simp [hfront])
      rwa [Nat.add_assoc, ← byteLength_cons, ← List.take_succ_cons] at hrest
  | case3 => exact .done
  | case4 offset index cs length _ ih =>
      have hrest := @ih (front ++ ['<']) (by simpa using htext) (by simp [hfront])
      exact hrest.mono (by simp; omega)
  | case5 offset index cs tag content stop length _ _ ih =>
      have hrest := @ih (front ++ ['<']) (by simpa using htext) (by simp [hfront])
      exact hrest.mono (by simp; omega)
  | case6 offset index cs tag content stop length hcustom hmarkup ih =>
      obtain ⟨hraw, hnotStandard⟩ := not_standard (Bool.eq_false_iff.mpr hcustom)
      obtain ⟨attributes, body, margin, rest, hcs, rfl, rfl, rfl, htag, hbody⟩ :=
        markup?_element hmarkup hraw
      have hsplit : text = front ++ (openingTag tag attributes ++
          (body ++ (closingTag tag margin ++ rest))) := by rw [htext, hcs]
      have hrest := @ih (front ++ ['<']) (by simpa using htext) (by simp [hfront])
      have hpos : 0 < (openingTag tag attributes).length + body.length
          + (closingTag tag margin).length := by
        rw [openingTag, List.cons_append, List.cons_append, List.length_cons]
        omega
      -- the scan goes on behind the closing tag
      have hskipped : offset + ('<').utf8Size + byteLength (cs.take
            ((openingTag tag attributes).length + body.length
              + (closingTag tag margin).length - 1)) =
          byteLength (front ++ openingTag tag attributes ++ body ++ closingTag tag margin) := by
        rw [Nat.add_assoc, ← byteLength_cons, ← List.take_cons hpos, hcs,
          ← List.append_assoc, ← List.append_assoc, ← List.length_append, ← List.length_append,
          List.take_left]
        simp [hfront]
      rw [hskipped, ← hfront] at hrest
      have hcontent : (('<' :: cs).take ((openingTag tag attributes).length + body.length)).drop
          (openingTag tag attributes).length = body := by
        rw [hcs, ← List.append_assoc, ← List.length_append, List.take_left, List.drop_left]
      have hopening : ('<' :: cs).take (openingTag tag attributes).length =
          openingTag tag attributes := by rw [hcs, List.take_left]
      obtain ⟨hfound, hclosed⟩ := foundIn_of_closedBody hsplit htag hnotStandard hbody index rfl
      rw [hcontent, hopening, List.take_zero, byteLength_nil, Nat.add_zero, ← hfront,
        ← byteLength_append]
      exact .block hfound hclosed hrest
  | case7 offset index c cs _ ih =>
      have hrest := @ih (front ++ [c]) (by simpa using htext) (by simp [hfront])
      exact hrest.mono (by simp)

/-! ### The whole scan -/

/-- A closing tag ends with the first angle, so there is one place where it ends. -/
theorem closedBy_unique {text : List Char} {b : Block} {place other : Nat}
    (h : b.ClosedBy text place) (hother : b.ClosedBy text other) : place = other := by
  obtain ⟨margin, hangle, ⟨before, after, hsplit, hbefore⟩, rfl⟩ := h
  obtain ⟨margin', hangle', ⟨before', after', hsplit', hbefore'⟩, rfl⟩ := hother
  have hcuts : before ++ (closingTag b.type.toList margin ++ after) =
      before' ++ (closingTag b.type.toList margin' ++ after') := by
    rw [← List.append_assoc, ← hsplit, hsplit', List.append_assoc]
  obtain ⟨rfl, hm⟩ := cut_unique hcuts (hbefore.trans hbefore'.symm)
  have hmargins : margin ++ '>' :: after = margin' ++ '>' :: after' := by
    simpa [closingTag] using hm
  have hlength : some margin.length = some margin'.length := by
    rw [← find?_append_cons hangle after, hmargins, find?_append_cons hangle' after']
  obtain ⟨rfl, -⟩ := List.append_inj hmargins (Option.some.inj hlength)
  rfl

theorem stop_le_of_closedBy {text : List Char} {b : Block} {place : Nat}
    (h : b.ClosedBy text place) : b.stop ≤ place := by
  obtain ⟨margin, -, -, rfl⟩ := h
  exact Nat.le_add_right _ _

theorem origin_le_of_closedBy {text : List Char} {b : Block} {origin index place : Nat}
    (hb : b.FoundIn text origin index) (h : b.ClosedBy text place) : origin ≤ place := by
  obtain ⟨opened, hopened, -, hbefore⟩ := hb.opened
  have hstop := stop_le_of_closedBy h
  rw [Block.stop] at hstop
  omega

/-- Among blocks found one after the other, each is looked for from behind all the earlier ones. -/
theorem Found.getElem? {text : List Char} {origin index : Nat} {bs : List Block}
    (h : Found text origin index bs) {i : Nat} {b : Block} (hb : bs[i]? = some b) :
    ∃ start, origin ≤ start ∧ b.FoundIn text start (index + i) ∧
      ∀ j < i, ∀ p, bs[j]? = some p → ∀ place, p.ClosedBy text place → place ≤ start := by
  induction h generalizing i with
  | done => simp at hb
  | @block origin index place c bs hc hplace hrest ih =>
      cases i with
      | zero =>
          obtain rfl : c = b := by simpa using hb
          exact ⟨origin, Nat.le_refl _, hc, fun j hj => absurd hj (Nat.not_lt_zero j)⟩
      | succ i =>
          obtain ⟨start, hle, hfound, hearlier⟩ := ih (by simpa using hb)
          refine ⟨start, (origin_le_of_closedBy hc hplace).trans hle, ?_, ?_⟩
          · rwa [Nat.add_right_comm] at hfound
          · intro j hj p hp stop hstop
            cases j with
            | zero =>
                obtain rfl : c = p := by simpa using hp
                rwa [closedBy_unique hstop hplace]
            | succ j => exact hearlier j (by omega) p (by simpa using hp) stop hstop

/-- Every block of a scan is what its place in the text says, its closing tag is the first one
behind its opening tag, and it is opened behind the closing tags of all the blocks before. -/
theorem scan_sound (text : String) {i : Nat} {b : Block} (hb : (scan text).blocks[i]? = some b) :
    ∃ origin, b.FoundIn text.toList origin i ∧
      ∀ j < i, ∀ p, (scan text).blocks[j]? = some p →
        p.stop < b.start ∧ ∀ place, p.ClosedBy text.toList place → place ≤ origin := by
  have hfound : Found text.toList 0 0 (scan text).blocks :=
    @found_blocksFrom text.toList [] text.toList 0 0 0 rfl rfl
  obtain ⟨origin, -, hb, hearlier⟩ := hfound.getElem? hb
  rw [Nat.zero_add] at hb
  refine ⟨origin, hb, fun j hj p hp => ⟨?_, hearlier j hj p hp⟩⟩
  obtain ⟨_, -, hp', -⟩ := hfound.getElem? hp
  obtain ⟨place, hplace⟩ := hp'.closed
  have hbehind := hearlier j hj p hp place hplace
  have hstop := stop_le_of_closedBy hplace
  obtain ⟨opened, hopened, -, hbefore⟩ := hb.opened
  omega

/-- A block between other markup, part of which is never closed. -/
theorem scan_sound_unfinished :
    ∃ origin, 78 ≤ origin ∧
      ({ name := "customBlock_1", type := "i18n", content := "é", start := 84 } : Block).FoundIn
        ("é < 3 <!-- <php> --><br/><template><p></template><php a='>'>1</phpx>é</php >" ++
          "<i18n>é</i18n><docs>x").toList origin 1 := by
  let text := "é < 3 <!-- <php> --><br/><template><p></template><php a='>'>1</phpx>é</php >" ++
    "<i18n>é</i18n><docs>x"
  let first : Block :=
    { name := "customBlock_0", type := "php", content := "1</phpx>é", start := 61 }
  let second : Block := { name := "customBlock_1", type := "i18n", content := "é", start := 84 }
  have hblocks : (scan text).blocks = [first, second] := by decide
  have hclosed : first.ClosedBy text.toList 78 := by
    refine ⟨[' '], by decide, ⟨text.toList.take 69, text.toList.drop 76, ?_, ?_⟩, ?_⟩
    all_goals decide
  obtain ⟨origin, hsecond, hearlier⟩ :=
    scan_sound text (by rw [hblocks]; rfl : (scan text).blocks[1]? = some second)
  have hfirst : (scan text).blocks[0]? = some first := by rw [hblocks]; rfl
  exact ⟨origin, (hearlier 0 (by decide) first hfirst).2 78 hclosed, hsecond⟩

end Component

end BlockExports
