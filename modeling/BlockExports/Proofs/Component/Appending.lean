import BlockExports.Proofs.Component.Markup

/-!
Scanning a text that goes on.

What a scan has read to its end it reads in the same way when more text follows, so the blocks of a
text are the first blocks of every longer text (`scan_blocks_prefix`). Where a scan gets through the
whole text and nothing is left open, it starts anew at the seam, and the blocks of the longer text
are those of its two parts (`scan_append`).
-/

namespace BlockExports

open Text

/-- The block as it is in a file with so many bytes more in front, under another number. -/
def Block.moved (b : Block) (bytes index : Nat) : Block :=
  { b with name := Component.blockName index, start := b.start + bytes }

namespace Component

/-! ### The blocks of a longer text -/

/-- Where a text can stop within the mark that opens a comment. -/
theorem eq_of_comment_start {cs : List Char} (h : ('<' :: cs) <+: "<!-".toList) :
    cs = [] ∨ cs = ['!'] ∨ cs = ['!', '-'] := by
  have hcs : '<' :: cs ∈ [[], ['<'], ['<', '!'], ['<', '!', '-']] := (List.mem_inits _ _).mpr h
  simpa only [List.mem_cons, reduceCtorEq, List.cons.injEq, true_and, List.not_mem_nil, or_false,
    false_or] using hcs

/-- Nothing is found in a text that stops where a comment may be about to open. -/
theorem blocksFrom_comment_start {cs : List Char} (h : ('<' :: cs) <+: "<!-".toList)
    (offset index : Nat) : blocksFrom offset index 0 ('<' :: cs) = [] := by
  rcases eq_of_comment_start h with rfl | rfl | rfl <;> rfl

/-- The blocks of a text are the first blocks of every longer text. -/
theorem blocksFrom_prefix (offset index skip : Nat) (cs ts : List Char) :
    blocksFrom offset index skip cs <+: blocksFrom offset index skip (cs ++ ts) := by
  induction cs generalizing offset index skip with
  | nil => exact List.nil_prefix
  | cons c cs ih =>
      cases skip with
      | succ skip => exact ih _ _ _
      | zero =>
          by_cases hangle : c = '<'
          · subst hangle
            rw [List.cons_append]
            cases hmarkup : markup? ('<' :: cs) with
            | none =>
                rw [blocksFrom_unfinished hmarkup]
                exact List.nil_prefix
            | some m =>
                by_cases hstart : ('<' :: cs) <+: "<!-".toList
                · rw [blocksFrom_comment_start hstart]
                  exact List.nil_prefix
                · rw [blocksFrom_markup hmarkup,
                    blocksFrom_markup (markup?_append_of_some hmarkup hstart ts),
                    blocks_append hmarkup]
                  exact List.prefix_append_right_inj _ |>.mpr (ih _ _ _)
          · rw [List.cons_append, blocksFrom_text_cons hangle, blocksFrom_text_cons hangle]
            exact ih _ _ _

theorem scan_blocks_prefix (s t : String) : (scan s).blocks <+: (scan (s ++ t)).blocks := by
  rw [scan, scan, String.toList_append]
  exact blocksFrom_prefix 0 0 0 s.toList t.toList

/-! ### The blocks of two texts -/

/-- Whether a scan gets through a text: all that it meets at an angle is finished, so that it stops
because there are no more angles. `skip` characters were dealt with already. -/
def readsThrough : Nat → List Char → Bool
  | _, [] => true
  | skip + 1, _ :: cs => readsThrough skip cs
  | 0, c :: cs =>
    if c = '<' then
      match markup? (c :: cs) with
      | none => false
      | some m => readsThrough (m.length - 1) cs
    else readsThrough 0 cs

theorem newline_mem {c : Char} {cs : List Char} (h : ∀ d ∈ (c :: cs).getLast?, d = '\n') :
    '\n' ∈ c :: cs := by
  have hlast : (c :: cs).getLast? = some ((c :: cs).getLast (by simp)) :=
    List.getLast?_eq_some_getLast (by simp)
  rw [← h _ hlast]
  exact List.getLast_mem _

/-- What stands at the angles of a text still stands there when a second text follows. -/
def Seam (cs ts : List Char) : Prop :=
  ∀ ds m, '<' :: ds <:+ cs → markup? ('<' :: ds) = some m → markup? ('<' :: (ds ++ ts)) = some m

theorem Seam.tail {c : Char} {cs ts : List Char} (h : Seam (c :: cs) ts) : Seam cs ts :=
  fun ds m hsuffix => h ds m (hsuffix.trans (List.suffix_cons c cs))

theorem seam_of_newline {cs : List Char} (hlast : ∀ c ∈ cs.getLast?, c = '\n') (ts : List Char) :
    Seam cs ts := by
  rintro ds m ⟨front, rfl⟩ hmarkup
  rw [List.getLast?_append_cons] at hlast
  exact markup?_append_of_some hmarkup
    -- the newline at the end is no part of the mark
    (fun hpre => absurd (hpre.subset (newline_mem hlast)) (by decide)) ts

/-- No angle is part of the mark that opens a comment, but for its first letter. -/
theorem seam_angle (cs ts : List Char) : Seam cs ('<' :: ts) := by
  intro ds m _ hmarkup
  by_cases hstart : ('<' :: ds) <+: "<!-".toList
  · rcases eq_of_comment_start hstart with rfl | rfl | rfl
    all_goals
      obtain rfl : Markup.passed 1 = m := Option.some.inj hmarkup
      rfl
  · exact markup?_append_of_some hmarkup hstart _

section Seam

variable {skip : Nat} {cs ts : List Char}

/-- A scan gets through two texts in a row if it gets through both. -/
theorem readsThrough_append (h : readsThrough skip cs = true) (hskip : skip ≤ cs.length)
    (hseam : Seam cs ts) : readsThrough skip (cs ++ ts) = readsThrough 0 ts := by
  induction cs generalizing skip with
  | nil =>
      obtain rfl : skip = 0 := by simpa using hskip
      rfl
  | cons c cs ih =>
      cases skip with
      | succ skip => exact ih h (by simpa using hskip) hseam.tail
      | zero =>
          rw [readsThrough] at h
          rw [List.cons_append, readsThrough]
          split at h
          · next hangle =>
            subst hangle
            cases hmarkup : markup? ('<' :: cs) with
            | none => simp [hmarkup] at h
            | some m =>
                have hfits := markup?_length_le hmarkup
                rw [List.length_cons] at hfits
                rw [hmarkup] at h
                rw [if_pos rfl, hseam cs m List.suffix_rfl hmarkup]
                exact ih h (by omega) hseam.tail
          · next hangle =>
            rw [if_neg hangle]
            exact ih h (Nat.zero_le _) hseam.tail

/-- A scan of two texts in a row finds the blocks of the first, and then those of the second as if
there were nothing in front. -/
theorem blocksFrom_append_of_seam (h : readsThrough skip cs = true) (hskip : skip ≤ cs.length)
    (hseam : Seam cs ts) (offset index : Nat) :
    blocksFrom offset index skip (cs ++ ts) =
      blocksFrom offset index skip cs ++
        blocksFrom (offset + byteLength cs)
          (index + (blocksFrom offset index skip cs).length) 0 ts := by
  induction cs generalizing offset index skip with
  | nil =>
      obtain rfl : skip = 0 := by simpa using hskip
      rfl
  | cons c cs ih =>
      rw [byteLength_cons, ← Nat.add_assoc]
      cases skip with
      | succ skip => exact ih h (by simpa using hskip) hseam.tail _ _
      | zero =>
          by_cases hangle : c = '<'
          · subst hangle
            rw [readsThrough, if_pos rfl] at h
            cases hmarkup : markup? ('<' :: cs) with
            | none => simp [hmarkup] at h
            | some m =>
                have hfits := markup?_length_le hmarkup
                rw [List.length_cons] at hfits
                rw [hmarkup] at h
                rw [List.cons_append, blocksFrom_markup hmarkup,
                  blocksFrom_markup (hseam cs m List.suffix_rfl hmarkup),
                  blocks_append hmarkup, ih h (by omega) hseam.tail, List.length_append,
                  List.append_assoc, Nat.add_assoc index]
          · rw [List.cons_append, blocksFrom_text_cons hangle, blocksFrom_text_cons hangle]
            rw [readsThrough, if_neg hangle] at h
            exact ih h (Nat.zero_le _) hseam.tail _ _

end Seam

theorem blocksFrom_append {skip : Nat} {cs : List Char} (h : readsThrough skip cs = true)
    (hskip : skip ≤ cs.length) (hlast : ∀ c ∈ cs.getLast?, c = '\n') (offset index : Nat)
    (ts : List Char) :
    blocksFrom offset index skip (cs ++ ts) =
      blocksFrom offset index skip cs ++
        blocksFrom (offset + byteLength cs)
          (index + (blocksFrom offset index skip cs).length) 0 ts :=
  blocksFrom_append_of_seam h hskip (seam_of_newline hlast ts) offset index

/-- Where the text starts and which number comes first matters for places and names alone. -/
theorem blocks_moved (m : Markup) (offset index bytes number : Nat) (cs : List Char) :
    m.blocks (offset + bytes) (index + number) cs =
      (m.blocks offset index cs).mapIdx fun i b => b.moved bytes (index + i + number) := by
  cases m with
  | passed length => rfl
  | element tag content stop length =>
      rw [Markup.blocks, Markup.blocks]
      split
      · rfl
      · simp [Block.moved, Nat.add_right_comm]

theorem blocksFrom_moved (offset index skip bytes number : Nat) (cs : List Char) :
    blocksFrom (offset + bytes) (index + number) skip cs =
      (blocksFrom offset index skip cs).mapIdx
        fun i b => b.moved bytes (index + i + number) := by
  induction cs generalizing offset index skip with
  | nil => rfl
  | cons c cs ih =>
      cases skip with
      | succ skip =>
          rw [blocksFrom, blocksFrom, Nat.add_right_comm, ih]
      | zero =>
          by_cases hangle : c = '<'
          · subst hangle
            cases hmarkup : markup? ('<' :: cs) with
            | none => rw [blocksFrom_unfinished hmarkup, blocksFrom_unfinished hmarkup]; rfl
            | some m =>
                rw [blocksFrom_markup hmarkup, blocksFrom_markup hmarkup, blocks_moved,
                  List.mapIdx_append, List.length_mapIdx, Nat.add_right_comm offset,
                  Nat.add_right_comm index, ih]
                simp only [Nat.add_comm, Nat.add_left_comm]
          · rw [blocksFrom_text_cons hangle, blocksFrom_text_cons hangle, Nat.add_right_comm, ih]

theorem scan_append {s : String} (hlast : s = "" ∨ s.toList.getLast? = some '\n')
    (hs : readsThrough 0 s.toList = true) (t : String) :
    (scan (s ++ t)).blocks = (scan s).blocks ++
      (scan t).blocks.mapIdx fun i b => b.moved s.utf8ByteSize (i + (scan s).blocks.length) := by
  have hnewline : ∀ c ∈ s.toList.getLast?, c = '\n' := by
    rcases hlast with rfl | hlast
    · simp
    · simp [hlast]
  have hmoved := blocksFrom_moved 0 0 0 s.utf8ByteSize (scan s).blocks.length t.toList
  simp only [Nat.zero_add] at hmoved
  rw [scan, String.toList_append, blocksFrom_append hs (Nat.zero_le _) hnewline,
    byteLength_toList, Nat.zero_add, Nat.zero_add]
  exact congrArg ((scan s).blocks ++ ·) hmoved

/-- A file with an empty element, nested templates and a block in front of text that is left open. -/
theorem scan_append_left_open :
    let s := "<br/><!-- <php> -->\n<template><template>é</template></template>< <php>$a;</php>é\n"
    let t := "--></php>é<i18n lang='>'>é</i18n><php>$b;</php ><docs a='>x</docs>"
    s.toList.getLast? = some '\n' ∧ readsThrough 0 s.toList = true ∧
      (scan (s ++ t)).blocks =
        [{ name := "customBlock_0", type := "php", content := "$a;", start := 71 },
          { name := "customBlock_1", type := "i18n", content := "é", start := 109 },
          { name := "customBlock_2", type := "php", content := "$b;", start := 123 }] := by
  intro s t
  have hlast : s.toList.getLast? = some '\n' := by decide
  have hs : readsThrough 0 s.toList = true := by decide
  refine ⟨hlast, hs, ?_⟩
  rw [scan_append (Or.inr hlast) hs t]
  decide

end Component

end BlockExports
