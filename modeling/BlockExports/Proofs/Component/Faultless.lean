import BlockExports.Proofs.Component.Offsets

/-!
The scan with byte offsets comes to an end and finds what the scan over characters finds.

Each kind of turn is followed once, from a place to a place (`countTurn_placeOf`,
`closingTurn_placeOf`, `scanTurn_placeOf`). What it does there is what the search over characters
does, so the loop computes what that search finds (`computes_countTurn`, `computes_closingTurn`,
`computes_scanTurn`). `scan_by_offsets` puts the loops together.
-/

namespace BlockExports.Component

open Text

/-! ### Openings -/

section Count

variable (text : String) {tag : List Char} (htag : tag ≠ [])
include htag

/-- A tag that is found in a part of the text stands in the text and ends within the part. -/
theorem find?_slice {k m n : Nat} (hkm : k ≤ m)
    (h : find? tag ((text.toList.drop k).take (m - k)) = some n) :
    tag <+: text.toList.drop (k + n) ∧ k + n + tag.length ≤ m := by
  have hroom := add_length_le_of_find? htag h
  obtain ⟨hat, -⟩ := (find?_eq_some_iff htag _ n).mp h
  rw [List.length_take] at hroom
  rw [List.drop_take, List.drop_drop] at hat
  exact ⟨hat.trans (List.take_prefix _ _), by omega⟩

theorem countTurn_placeOf {k m : Nat} (hkm : k ≤ m) (depth : Nat) :
    countTurn text tag (placeOf text m) (placeOf text k, depth) =
      .ok (match find? tag ((text.toList.drop k).take (m - k)) with
        | none => .done depth
        | some n => .again (placeOf text (k + n + tag.length),
            if atBoundary (text.toList.drop (k + n + tag.length)) then depth + 1 else depth)) := by
  rw [countTurn, slice_placeOf text hkm, ok_bind, findByte?_ofList]
  cases hfind : find? tag ((text.toList.drop k).take (m - k)) with
  | none => rfl
  | some n =>
      obtain ⟨hat, hroom⟩ := find?_slice text htag hkm hfind
      have hpart : ((text.toList.drop k).take (m - k)).take n = (text.toList.drop k).take n := by
        rw [List.take_take, Nat.min_eq_left (by omega)]
      simp only [Option.map_some, hpart, ← placeOf_add, placeOf_add_mark hat,
        endsNameAt_placeOf, ok_bind]
      rfl

/-- The turns over a part of the text count the openings in it. -/
theorem computes_countTurn (m : Nat) :
    Computes text m (countTurn text tag (placeOf text m)) fun k depth =>
      depth + openings tag 0 (m - k) (text.toList.drop k) := by
  intro k hkm depth
  beta_reduce
  rw [countTurn_placeOf text htag hkm, openings_eq htag]
  cases hfind : find? tag ((text.toList.drop k).take (m - k)) with
  | none => exact Or.inl rfl
  | some n =>
      have hpos : 0 < tag.length := List.length_pos_iff.mpr htag
      refine Or.inr ⟨_, _, rfl, by omega, (find?_slice text htag hkm hfind).2, ?_⟩
      simp only [List.drop_drop, ← Nat.add_assoc, Nat.sub_sub]
      split
      · rfl
      · rfl

end Count

/-! ### Closing tags -/

/-- What the search for a closing tag does next in a text, from the character `k` on. -/
def closingJump (name cs : List Char) (k depth : Nat) : Turn (Nat × Nat) (Option (Nat × Nat)) :=
  match find? ('<' :: '/' :: name) (cs.drop k) with
  | none => .done none
  | some n =>
    let inner :=
      if name = nestingName then depth + openings ('<' :: name) 0 n (cs.drop k) else depth
    let behind := k + n + (name.length + 2)
    if atBoundary (cs.drop behind) then
      match find? ['>'] (cs.drop behind) with
      | none => .done none
      | some distance =>
        let stop := behind + distance + 1
        match inner with
        | 0 => .done (some (k + n, stop))
        | depth + 1 => .again (stop, depth)
    else .again (behind, inner)

/-- The search goes on where a jump ends. -/
theorem closingFrom?_jump (name cs : List Char) (k depth : Nat) :
    closingFrom? name depth k 0 (cs.drop k) =
      match closingJump name cs k depth with
      | .done found => found
      | .again (next, depth) => closingFrom? name depth next 0 (cs.drop next) := by
  have hbehind (n : Nat) :
      (cs.drop k).drop (n + 2 + name.length) = cs.drop (k + n + (name.length + 2)) := by
    rw [List.drop_drop]
    congr 1
    omega
  rw [closingJump]
  cases hds : cs.drop k with
  | nil => simp [closingFrom?, find?]
  | cons c ds =>
      -- a jump of the search counts from the character behind the one at which it starts
      have hskip (depth : Nat) {m : Nat} (hm : m ≤ ds.length) :
          closingFrom? name depth (k + 1) m ds =
            closingFrom? name depth (k + 1 + m) 0 (cs.drop (k + 1 + m)) := by
        rw [closingFrom?_drop depth (k + 1) hm, ← List.drop_drop, ← List.drop_drop, hds]
        rfl
      rw [hds] at hbehind
      rw [closingFrom?]
      cases hmark : find? ('<' :: '/' :: name) (c :: ds) with
      | none => rfl
      | some n =>
          have hroom : n + (name.length + 2) ≤ ds.length + 1 :=
            add_length_le_of_find? (by simp) hmark
          simp only [hbehind]
          generalize (if name = nestingName then _ else _ : Nat) = inner
          generalize hrest : cs.drop (k + n + (name.length + 2)) = rest
          split
          · cases hangle : find? ['>'] rest with
            | none => rfl
            | some distance =>
                have hroom' : distance + 1 ≤ rest.length := add_length_le_of_find? (by simp) hangle
                have hlength : rest.length + (n + (name.length + 2)) = ds.length + 1 := by
                  have hall := congrArg List.length hds
                  rw [← hrest]
                  simp only [List.length_drop, List.length_cons] at hall ⊢
                  omega
                cases inner with
                | zero =>
                    simp only [Option.some.injEq, Prod.mk.injEq, true_and]
                    omega
                | succ inner =>
                    have hfits : n + 2 + name.length + distance + 1 - 1 ≤ ds.length := by omega
                    have hnext : k + 1 + (n + 2 + name.length + distance + 1 - 1) =
                        k + n + (name.length + 2) + distance + 1 := by omega
                    simp only
                    rw [hskip inner hfits, hnext]
          · have hfits : n + 2 + name.length - 1 ≤ ds.length := by omega
            have hnext : k + 1 + (n + 2 + name.length - 1) = k + n + (name.length + 2) := by omega
            rw [hskip inner hfits, hnext]

/-- A jump leads on to a later character. -/
theorem closingJump_ahead {name cs : List Char} {k depth next depth' : Nat}
    (h : closingJump name cs k depth = .again (next, depth')) : k < next ∧ next ≤ cs.length := by
  unfold closingJump at h
  split at h
  · simp at h
  · next n hmark =>
    have hroom : n + (name.length + 2) ≤ cs.length - k := by
      simpa using add_length_le_of_find? (by simp) hmark
    simp only at h
    split at h
    · split at h
      · simp at h
      · next distance hangle =>
        have hroom' : distance + 1 ≤ cs.length - (k + n + (name.length + 2)) := by
          simpa using add_length_le_of_find? (by simp) hangle
        split at h
        · simp at h
        · cases h
          omega
    · cases h
      omega

/-- The turn of a search, with byte offsets for the numbers of the characters. -/
def Turn.placed (text : String) :
    Turn (Nat × Nat) (Option (Nat × Nat)) → Turn (Nat × Nat) (Option (Nat × Nat))
  | .again (k, depth) => .again (placeOf text k, depth)
  | .done found => .done (found.map fun (a, b) => (placeOf text a, placeOf text b))

theorem levelsAt_placeOf (text : String) (name : List Char) {k n : Nat} (depth : Nat)
    (hfits : k + n ≤ text.toList.length) :
    levelsAt text name (placeOf text (k + n)) (placeOf text k, depth) =
      .ok (if name = nestingName then depth + openings ('<' :: name) 0 n (text.toList.drop k)
        else depth) := by
  rw [levelsAt]
  split
  · have hcount := computes_countTurn text (List.cons_ne_nil '<' name) (k + n)
    rw [hcount.loop_eq hfits (Nat.le_add_right k n), Nat.add_sub_cancel_left]
  · rfl

theorem closingTurn_placeOf (text : String) (name : List Char) (k depth : Nat) :
    closingTurn text name (placeOf text k, depth) =
      .ok ((closingJump name text.toList k depth).placed text) := by
  rw [closingTurn, sliceFrom_placeOf, ok_bind, findByte?_ofList, closingJump]
  cases hmark : find? ('<' :: '/' :: name) (text.toList.drop k) with
  | none => rfl
  | some n =>
      have hbehind : placeOf text (k + n) + byteLength ('<' :: '/' :: name) =
          placeOf text (k + n + (name.length + 2)) := placeOf_behind_mark (by simp) hmark
      have hfits : k + n ≤ text.toList.length := by
        have hroom : n + (name.length + 2) ≤ text.toList.length - k := by
          simpa using add_length_le_of_find? (by simp) hmark
        omega
      simp only [Option.map_some, ← placeOf_add, levelsAt_placeOf text name depth hfits, ok_bind,
        hbehind, endsNameAt_placeOf]
      generalize (if name = nestingName then _ else _ : Nat) = inner
      split
      · simp only [sliceFrom_placeOf, ok_bind, findByte?_ofList]
        cases hangle : find? ['>'] (text.toList.drop (k + n + (name.length + 2))) with
        | none => rfl
        | some distance =>
            have hstop : placeOf text (k + n + (name.length + 2) + distance) + 1 =
                placeOf text (k + n + (name.length + 2) + distance + 1) :=
              placeOf_behind_mark (by simp) hangle
            simp only [Option.map_some, ← placeOf_add, hstop]
            cases inner with
            | zero => rfl
            | succ inner => rfl
      · rfl

/-- The turns from a place on look for the closing tag of a block whose content goes on there. -/
theorem computes_closingTurn (text : String) (name : List Char) :
    Computes text text.toList.length (closingTurn text name) fun k depth =>
      (closingFrom? name depth k 0 (text.toList.drop k)).map
        fun (a, b) => (placeOf text a, placeOf text b) := by
  intro k _ depth
  beta_reduce
  rw [closingTurn_placeOf, closingFrom?_jump]
  cases hjump : closingJump name text.toList k depth with
  | done found => exact Or.inl rfl
  | again state =>
      obtain ⟨next, depth⟩ := state
      obtain ⟨hlater, hle⟩ := closingJump_ahead hjump
      exact Or.inr ⟨next, depth, rfl, hlater, hle, rfl⟩

theorem closingAt_placeOf (text : String) (name : List Char) {k : Nat}
    (hk : k ≤ text.toList.length) :
    closingAt text name (placeOf text k) =
      .ok ((closing? name (text.toList.drop k)).map
        fun (a, b) => (placeOf text (k + a), placeOf text (k + b))) := by
  have hloop := (computes_closingTurn text name).loop_eq (Nat.le_refl _) hk 0
  have hmoved := @closingFrom?_add name k 0 0 0 (text.toList.drop k)
  rw [placeOf_of_length_le text (Nat.le_refl _)] at hloop
  rw [Nat.add_zero] at hmoved
  rw [closingAt, hloop, hmoved, Option.map_map]
  rfl

/-! ### Markup -/

/-- What a scan does with the markup at an angle. -/
def markupTurn (text : String) (k : Nat) (blocks : List Block) :
    Option Markup → Turn (Nat × List Block) (List Block)
  | none => .done blocks
  | some m =>
    .again (placeOf text (k + m.length),
      blocks ++ m.blocks (placeOf text k) blocks.length (text.toList.drop k))

/-- A tag has room for a slash and an angle, so that only its own characters decide whether it ends
with them. -/
theorem elementTurn_placeOf (text : String) (name : List Char) (k : Nat) {content : Nat}
    (blocks : List Block) (hcontent : 2 ≤ content) (hfits : k + content ≤ text.toList.length) :
    elementTurn text (String.ofList name) (placeOf text (k + content)) blocks =
      .ok (markupTurn text k blocks <|
        if "/>".toList.isSuffixOf ((text.toList.drop k).take content) then some (.passed content)
        else
          (closing? name ((text.toList.drop k).drop content)).map fun (stop, length) =>
            .element name content (content + stop) (content + length)) := by
  have hbefore : slice text 0 (placeOf text (k + content)) =
      .ok (String.ofList (text.toList.take (k + content))) := by
    rw [← placeOf_zero text, slice_placeOf text (Nat.zero_le _)]
    rfl
  have htag : ((text.toList.drop k).take content).length = content := by
    rw [List.length_take, List.length_drop]
    omega
  have hslash : "/>".toList.isSuffixOf (text.toList.take (k + content)) =
      "/>".toList.isSuffixOf ((text.toList.drop k).take content) := by
    rw [List.take_add, isSuffixOf_append (by rw [htag]; exact hcontent)]
  rw [elementTurn, hbefore, ok_bind, @String.toList_ofList (text.toList.take _), hslash]
  split
  · rw [markupTurn, Markup.blocks, List.append_nil]
    rfl
  · rw [List.drop_drop, String.toList_ofList, closingAt_placeOf text name hfits, ok_bind]
    cases closing? name (text.toList.drop (k + content)) with
    | none => rfl
    | some found =>
        obtain ⟨stop, length⟩ := found
        have hbody : ((text.toList.drop k).take (content + stop)).drop content =
            (text.toList.drop (k + content)).take stop := by
          rw [List.drop_take, List.drop_drop, Nat.add_sub_cancel_left]
        simp only [Option.map_some, markupTurn, Markup.length, Markup.blocks, Nat.add_assoc]
        split
        · rw [List.append_nil]
          rfl
        · rw [← Nat.add_assoc, slice_placeOf text (Nat.le_add_right _ stop),
            Nat.add_sub_cancel_left, ok_bind, hbody, ← placeOf_add]
          rfl

theorem tagTurn_placeOf (text : String) {k : Nat} {cs : List Char}
    (hk : text.toList.drop k = '<' :: cs)
    (hcomment : ¬"<!--".toList.isPrefixOf ('<' :: cs) = true) (blocks : List Block) :
    tagTurn text (String.ofList ('<' :: cs)) (placeOf text k) blocks =
      .ok (markupTurn text k blocks (markup? ('<' :: cs))) := by
  have hone : sliceFrom (String.ofList ('<' :: cs)) 1 = .ok (String.ofList cs) := by
    have hplace : placeOf (String.ofList ('<' :: cs)) 1 = 1 := by
      rw [placeOf, String.toList_ofList]
      rfl
    have hslice := sliceFrom_placeOf (String.ofList ('<' :: cs)) 1
    rwa [hplace, String.toList_ofList] at hslice
  rw [tagTurn, markup?, if_neg hcomment, hone, ok_bind, nameOf_ofList, ok_bind,
    List.drop_succ_cons, List.drop_zero]
  cases hname : tagName? cs with
  | none =>
      have hstop : placeOf text k + 1 = placeOf text (k + 1) :=
        @placeOf_add_mark text k ['<'] ⟨cs, by rw [hk]; rfl⟩
      simp only [Option.map_none, hstop, markupTurn, Markup.blocks, List.append_nil,
        Markup.length]
      rfl
  | some name =>
      obtain ⟨htag, rest, rfl⟩ := tagName?_eq_some hname
      have hname : placeOf text k + 1 + (String.ofList name).utf8ByteSize =
          placeOf text (k + (1 + name.length)) := by
        have hat : '<' :: name <+: text.toList.drop k := ⟨rest, by rw [hk]; rfl⟩
        have hlength : ('<' :: name).length = 1 + name.length := Nat.add_comm _ _
        rw [← byteLength_eq_size, Nat.add_assoc, ← hlength]
        exact placeOf_add_mark hat
      have hbehind : text.toList.drop (k + (1 + name.length)) =
          ('<' :: (name ++ rest)).drop (1 + name.length) := by
        rw [← List.drop_drop, hk]
      simp only [Option.map_some, hname, openingEnd_placeOf, hbehind, ok_bind]
      cases hend : tagEnd? none (('<' :: (name ++ rest)).drop (1 + name.length)) with
      | none => rfl
      | some distance =>
          obtain ⟨attributes, ys, hrest, rfl⟩ := tagEnd?_eq_some hend
          have hlength := congrArg List.length (hbehind.trans hrest)
          rw [List.length_drop, List.length_append, List.length_cons] at hlength
          have hcontent : 2 ≤ 1 + name.length + (attributes.length + 1) := by omega
          have hfits : k + (1 + name.length + (attributes.length + 1)) ≤ text.toList.length := by
            omega
          have helement := elementTurn_placeOf text name k blocks hcontent hfits
          rw [hk] at helement
          simp only [Option.map_some, Nat.add_assoc] at helement ⊢
          exact helement

theorem angleTurn_placeOf (text : String) {k : Nat} {cs : List Char}
    (hk : text.toList.drop k = '<' :: cs) (blocks : List Block) :
    angleTurn text (placeOf text k) blocks =
      .ok (markupTurn text k blocks (markup? ('<' :: cs))) := by
  rw [angleTurn, sliceFrom_placeOf, ok_bind, hk, @String.toList_ofList ('<' :: cs)]
  split
  · next hcomment =>
    rw [markup?, if_pos hcomment, findByte?_ofList]
    cases hend : find? "-->".toList ('<' :: cs) with
    | none => rfl
    | some n =>
        have hstop : placeOf text (k + n) + 3 = placeOf text (k + n + 3) :=
          placeOf_behind_mark (List.cons_ne_nil '-' "->".toList) (by rwa [hk])
        simp only [Option.map_some, ← hk, ← placeOf_add, hstop, markupTurn, Markup.blocks,
          List.append_nil, Markup.length, Nat.add_assoc]
        rfl
  · next hcomment => exact tagTurn_placeOf text hk hcomment blocks

/-! ### The scan -/

/-- The text from the first angle on, and the text before it. -/
theorem drop_find?_angle {cs : List Char} {n : Nat} (h : find? ['<'] cs = some n) :
    ∃ ws, cs.drop n = '<' :: ws ∧ '<' ∉ cs.take n := by
  obtain ⟨margin, ws, rfl, rfl, hmargin⟩ := find?_char_eq_some h
  exact ⟨ws, List.drop_left, by rwa [List.take_left]⟩

theorem scanTurn_placeOf (text : String) (k : Nat) (blocks : List Block) :
    scanTurn text (placeOf text k, blocks) =
      .ok (match find? ['<'] (text.toList.drop k) with
        | none => .done blocks
        | some n => markupTurn text (k + n) blocks (markup? (text.toList.drop (k + n)))) := by
  rw [scanTurn, sliceFrom_placeOf, ok_bind, findByte?_ofList]
  cases hangle : find? ['<'] (text.toList.drop k) with
  | none => rfl
  | some n =>
      obtain ⟨ws, hws, -⟩ := drop_find?_angle hangle
      rw [List.drop_drop] at hws
      simp only [Option.map_some, ← placeOf_add, angleTurn_placeOf text hws, hws]

/-- There are no blocks in front of the first angle. -/
theorem blocksFrom_at_angle (text : String) {k n : Nat}
    (hangle : find? ['<'] (text.toList.drop k) = some n) (index : Nat) :
    blocksFrom (placeOf text k) index 0 (text.toList.drop k) =
      blocksFrom (placeOf text (k + n)) index 0 (text.toList.drop (k + n)) := by
  obtain ⟨ws, hws, hfree⟩ := drop_find?_angle hangle
  have hsplit : text.toList.drop k = (text.toList.drop k).take n ++ '<' :: ws := by
    rw [← hws, List.take_append_drop]
  have hskip := blocksFrom_text hfree (placeOf text k) index ('<' :: ws)
  rwa [← hsplit, ← placeOf_add, ← hws, List.drop_drop] at hskip

/-- The blocks at an angle are those of its markup and those behind it. -/
theorem blocksFrom_behind (text : String) {k : Nat} {cs : List Char}
    (hk : text.toList.drop k = '<' :: cs) {m : Markup} (hm : markup? ('<' :: cs) = some m)
    (index : Nat) :
    let found := m.blocks (placeOf text k) index ('<' :: cs)
    blocksFrom (placeOf text k) index 0 ('<' :: cs) =
      found ++ blocksFrom (placeOf text (k + m.length)) (index + found.length) 0
        (text.toList.drop (k + m.length)) := by
  obtain ⟨rest, hlength⟩ := Nat.exists_eq_add_of_le' (markup?_length_pos hm)
  have hfits : rest ≤ cs.length := by
    have hle := markup?_length_le hm
    rw [hlength, List.length_cons] at hle
    omega
  have hplace : placeOf text k + ('<').utf8Size + byteLength (cs.take rest) =
      placeOf text (k + (rest + 1)) := by
    rw [placeOf_add text k, hk, List.take_succ_cons, byteLength_cons, Nat.add_assoc]
  have hbehind : text.toList.drop (k + (rest + 1)) = cs.drop rest := by
    rw [← List.drop_drop, hk, List.drop_succ_cons]
  simp only [hlength, hbehind]
  rw [blocksFrom_markup hm, hlength, Nat.add_sub_cancel, blocksFrom_drop _ _ hfits, hplace]

theorem markup?_ahead {cs ds : List Char} {k : Nat} (hk : cs.drop k = '<' :: ds) {m : Markup}
    (hm : markup? ('<' :: ds) = some m) : k < k + m.length ∧ k + m.length ≤ cs.length := by
  have hlength := congrArg List.length hk
  have hle := markup?_length_le hm
  have hpos := markup?_length_pos hm
  rw [List.length_drop, List.length_cons] at hlength
  rw [List.length_cons] at hle
  omega

/-- The turns from a place on find the blocks there, behind those that are known. -/
theorem computes_scanTurn (text : String) :
    Computes text text.toList.length (scanTurn text) fun k blocks =>
      blocks ++ blocksFrom (placeOf text k) blocks.length 0 (text.toList.drop k) := by
  intro k _ blocks
  beta_reduce
  rw [scanTurn_placeOf]
  cases hangle : find? ['<'] (text.toList.drop k) with
  | none =>
      have hfree := notMem_of_find?_eq_none hangle
      have hnone := blocksFrom_text hfree (placeOf text k) blocks.length []
      rw [List.append_nil] at hnone
      rw [hnone, blocksFrom, List.append_nil]
      exact Or.inl rfl
  | some n =>
      obtain ⟨ws, hws, -⟩ := drop_find?_angle hangle
      rw [List.drop_drop] at hws
      simp only
      rw [blocksFrom_at_angle text hangle, hws]
      cases hm : markup? ('<' :: ws) with
      | none =>
          rw [blocksFrom_unfinished hm, List.append_nil]
          exact Or.inl rfl
      | some m =>
          obtain ⟨hlater, hle⟩ := markup?_ahead hws hm
          refine Or.inr ⟨k + n + m.length, _, rfl, by omega, hle, ?_⟩
          rw [blocksFrom_behind text hws hm, hws, List.append_assoc, List.length_append]

/-! ### The whole text -/

theorem scanBytes_eq (text : String) : scanBytes text = .ok (scan text).blocks := by
  have hloop := (computes_scanTurn text).loop_eq (Nat.le_refl _) (Nat.zero_le _) []
  rw [placeOf_of_length_le text (Nat.le_refl _), placeOf_zero] at hloop
  exact hloop

/-- The scan by byte offsets goes through every text without a fault and finds the blocks of it. Its
turns are at later and later places; so are those of the search for a closing tag from any place
that the text can be cut at, and those of the count of openings, which do not pass the place that
they are to stop at. -/
theorem scan_by_offsets (text : String) :
    scanBytes text = .ok (scan text).blocks ∧
      KeepsAhead text.utf8ByteSize (scanTurn text) (0, []) ∧
      (∀ name place depth, CutsAt text place →
        KeepsAhead text.utf8ByteSize (closingTurn text name) (place, depth)) ∧
      (∀ name place stop depth, CutsAt text place → CutsAt text stop → place ≤ stop →
        KeepsAhead stop (countTurn text ('<' :: name) stop) (place, depth)) := by
  have hall : placeOf text text.toList.length = text.utf8ByteSize :=
    placeOf_of_length_le text (Nat.le_refl _)
  refine ⟨scanBytes_eq text, ?_, ?_, ?_⟩
  · rw [← hall, ← placeOf_zero text]
    exact (computes_scanTurn text).keepsAhead (Nat.le_refl _) (Nat.zero_le _) []
  · intro name place depth hplace
    obtain ⟨k, hk, rfl⟩ := cutsAt_iff_exists_placeOf.mp hplace
    rw [← hall]
    exact (computes_closingTurn text name).keepsAhead (Nat.le_refl _) hk depth
  · intro name place stop depth hplace hstop hle
    obtain ⟨k, hk, rfl⟩ := cutsAt_iff_exists_placeOf.mp hplace
    obtain ⟨m, hm, rfl⟩ := cutsAt_iff_exists_placeOf.mp hstop
    have hkm : k ≤ m := by
      by_contra hlt
      exact absurd (placeOf_lt text (Nat.lt_of_not_le hlt) hk) (Nat.not_lt.mpr hle)
    exact (computes_countTurn text (List.cons_ne_nil '<' name) m).keepsAhead hm hkm depth

/-- Characters of two bytes stand in an attribute, at the start of a template, and in front of what
only looks like its closing tag. The search for the closing tag passes the look-alike with an inner
template counted, and the end of the inner template with a level left. -/
theorem scan_by_offsets_multibyte :
    let text := "<template a='é>'>ü<template>ü</templates></template ></template>\n" ++
      "<php>$é = '</phpx>';</php>"
    scanBytes text = .ok
        [{ name := "customBlock_0", type := "php", content := "$é = '</phpx>';", start := 73 }] ∧
      (CutsAt text 18 ∧ ¬CutsAt text 19 ∧ CutsAt text 32) ∧
      (Reaches (closingTurn text nestingName) (18, 0) (56, 0) ∧
        GetsAhead text.utf8ByteSize (closingTurn text nestingName) (56, 0)) ∧
      Reaches (countTurn text ('<' :: nestingName) 32) (18, 0) (29, 1) ∧
        GetsAhead 32 (countTurn text ('<' :: nestingName) 32) (29, 1) := by
  intro text
  obtain ⟨hblocks, -, hclosing, hcount⟩ := scan_by_offsets text
  have hscan : (scan text).blocks =
      [{ name := "customBlock_0", type := "php", content := "$é = '</phpx>';", start := 73 }] := by
    decide
  have hcuts : CutsAt text 18 ∧ ¬CutsAt text 19 ∧ CutsAt text 32 := by decide
  obtain ⟨hcontent, hmark, hbehind⟩ :
      placeOf text 17 = 18 ∧ placeOf text 29 = 32 ∧ placeOf text 39 = 42 := by decide
  have hfirst : closingTurn text nestingName (18, 0) = .ok (.again (42, 1)) := by
    rw [← hcontent, closingTurn_placeOf]
    exact congrArg Except.ok (by decide)
  have hsecond : closingTurn text nestingName (42, 1) = .ok (.again (56, 0)) := by
    rw [← hbehind, closingTurn_placeOf]
    exact congrArg Except.ok (by decide)
  have hopening : countTurn text ('<' :: nestingName) 32 (18, 0) = .ok (.again (29, 1)) := by
    rw [← hcontent, ← hmark, countTurn_placeOf text (by decide) (by decide)]
    exact congrArg Except.ok (by decide)
  have hclosings : Reaches (closingTurn text nestingName) (18, 0) (56, 0) :=
    .turn hfirst (.turn hsecond (.start _))
  have hopenings : Reaches (countTurn text ('<' :: nestingName) 32) (18, 0) (29, 1) :=
    .turn hopening (.start _)
  refine ⟨by rw [hblocks, hscan], hcuts, ⟨hclosings, ?_⟩, hopenings, ?_⟩
  · exact hclosing nestingName 18 0 hcuts.1 _ hclosings
  · exact hcount nestingName 18 32 0 hcuts.1 hcuts.2.2 (by decide) _ hopenings

end BlockExports.Component
