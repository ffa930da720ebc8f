import BlockExports.Component
import Mathlib.Data.List.Nodup

/-!
Blocks in their file.

Every block that a scan finds is a part of the file, at the byte offset that the block has, and no
two blocks have the same name.
-/

namespace BlockExports

open Text

/-- The text of a block stands in a file at the place of the block. -/
def Block.StandsIn (b : Block) (text : String) : Prop :=
  ∃ before after, text.toList = before ++ b.content.toList ++ after ∧ byteLength before = b.start

namespace Component

/-! ### Places -/

theorem content_eq (cs : List Char) (content stop : Nat) :
    cs = cs.take content ++ (cs.take stop).drop content ++ cs.drop (max content stop) := by
  rcases Nat.le_total content stop with hle | hle
  · have htake : cs.take content = (cs.take stop).take content := by
      rw [List.take_take, Nat.min_eq_left hle]
    rw [Nat.max_eq_right hle, htake, List.take_append_drop, List.take_append_drop]
  · -- a body that stops before it starts is empty
    have hempty : (cs.take stop).drop content = [] := by
      rw [List.drop_eq_nil_iff, List.length_take]
      omega
    rw [Nat.max_eq_left hle, hempty, List.append_nil, List.take_append_drop]

/-- The blocks of a text that starts at a byte offset are parts of it. -/
theorem mem_blocksFrom_place {b : Block} {offset index skip : Nat} {cs : List Char}
    (h : b ∈ blocksFrom offset index skip cs) :
    ∃ before after, cs = before ++ b.content.toList ++ after ∧
      offset + byteLength before = b.start := by
  -- a part of what follows a character is a part of the whole
  have hlater {c : Char} {cs : List Char} {offset : Nat}
      (hrest : ∃ before after, cs = before ++ b.content.toList ++ after ∧
        offset + c.utf8Size + byteLength before = b.start) :
      ∃ before after, c :: cs = before ++ b.content.toList ++ after ∧
        offset + byteLength before = b.start := by
    obtain ⟨before, after, rfl, hstart⟩ := hrest
    exact ⟨c :: before, after, rfl, by rw [byteLength_cons, ← Nat.add_assoc, hstart]⟩
  fun_induction blocksFrom offset index skip cs with
  | case1 => simp at h
  | case2 offset index skip c cs ih => exact hlater (ih h)
  | case3 => simp at h
  | case4 offset index cs length _ ih => exact hlater (ih h)
  | case5 offset index cs tag content stop length _ _ ih => exact hlater (ih h)
  | case6 offset index cs tag content stop length _ _ ih =>
      rcases List.mem_cons.mp h with rfl | h
      · exact ⟨_, _, by simpa using content_eq _ content stop, rfl⟩
      · exact hlater (ih h)
  | case7 offset index c cs _ ih => exact hlater (ih h)

theorem standsIn_of_mem_scan {b : Block} {text : String} (h : b ∈ (scan text).blocks) :
    b.StandsIn text := by
  obtain ⟨before, after, htext, hstart⟩ := mem_blocksFrom_place h
  exact ⟨before, after, htext, by simpa using hstart⟩

/-! ### Names -/

theorem blockName_injective {i j : Nat} (h : blockName i = blockName j) : i = j := by
  rw [blockName, blockName, String.append_right_inj] at h
  have hdigits : Nat.toDigits 10 i = Nat.toDigits 10 j := by
    rw [← Nat.toList_repr, ← Nat.toList_repr]
    exact congrArg String.toList h
  rw [← @Nat.ofDigitChars_ten_toDigits i, hdigits, Nat.ofDigitChars_ten_toDigits]

/-- Blocks are numbered from `index` on. -/
theorem map_name_blocksFrom (offset index skip : Nat) (cs : List Char) :
    (blocksFrom offset index skip cs).map (·.name) =
      (List.range' index (blocksFrom offset index skip cs).length).map blockName := by
  fun_induction blocksFrom offset index skip cs with
  | case6 offset index cs tag content stop length _ _ ih =>
      rw [List.map_cons, ih, List.length_cons, List.range'_succ, List.map_cons]
  | case1 => rfl
  | case3 => rfl
  | _ => assumption

/-- Where a property tells the members of a list apart, each of them is the only one of its kind. -/
theorem filter_eq_singleton {α β : Type} [DecidableEq β] {f : α → β} {l : List α}
    (hl : (l.map f).Nodup) {a : α} (ha : a ∈ l) : l.filter (f · = f a) = [a] := by
  induction l with
  | nil => simp at ha
  | cons x l ih =>
      rw [List.map_cons, List.nodup_cons] at hl
      rcases List.mem_cons.mp ha with rfl | ha
      · have hrest : l.filter (f · = f a) = [] := by
          refine List.filter_eq_nil_iff.mpr fun y hy => ?_
          have hne : f y ≠ f a := fun hya => hl.1 (hya ▸ List.mem_map_of_mem hy)
          simpa using hne
        rw [List.filter_cons_of_pos (by simp), hrest]
      · have hne : f x ≠ f a := fun hxa => hl.1 (hxa ▸ List.mem_map_of_mem ha)
        rw [List.filter_cons_of_neg (by simpa using hne), ih hl.2 ha]

theorem nodup_name_scan (text : String) : ((scan text).blocks.map (·.name)).Nodup := by
  rw [scan, map_name_blocksFrom]
  exact List.Nodup.map (fun _ _ => blockName_injective) (List.nodup_range' 1)

theorem filter_name_scan {b : Block} {text : String} (h : b ∈ (scan text).blocks) :
    (scan text).blocks.filter (·.name = b.name) = [b] :=
  filter_eq_singleton (nodup_name_scan text) h

end Component

end BlockExports
