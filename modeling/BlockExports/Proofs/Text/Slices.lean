import BlockExports.Text.Basic

/-!
A part of a text and its bytes.

Offsets count the bytes in front of a part. What holds of the characters around it gives the bytes
at its place.
-/

namespace BlockExports.Text

theorem byteLength_eq_size (cs : List Char) : byteLength cs = (String.ofList cs).utf8ByteSize := by
  rw [← byteLength_toList, String.toList_ofList]

theorem extract_middle (xs ys zs : ByteArray) :
    (xs ++ (ys ++ zs)).extract xs.size (xs.size + ys.size) = ys := by
  have hdrop := @ByteArray.extract_append_size_add xs (ys ++ zs) 0 ys.size
  rw [Nat.add_zero] at hdrop
  rw [hdrop, ByteArray.extract_append_eq_left rfl]

/-- The bytes at the place of a part are its own. -/
theorem extract_part {text part : String} {before after : List Char}
    (h : text.toList = before ++ part.toList ++ after) :
    text.toByteArray.extract (byteLength before) (byteLength before + part.utf8ByteSize) =
      part.toByteArray := by
  have htext : text = String.ofList before ++ (part ++ String.ofList after) := by
    rw [← String.toList_inj, h]
    simp
  rw [htext, byteLength_eq_size, String.toByteArray_append, String.toByteArray_append]
  exact extract_middle _ _ _

/-- A part stands in a text at a byte offset. -/
def StandsAt (text part : List Char) (place : Nat) : Prop :=
  ∃ before after, text = before ++ part ++ after ∧ byteLength before = place

/-- Of two cuts through a text, the earlier one leaves a part of what is before the later one. -/
theorem exists_between {xs ys zs ws : List Char} (h : xs ++ ys = zs ++ ws)
    (hle : byteLength xs ≤ byteLength zs) : ∃ m, zs = xs ++ m ∧ ys = m ++ ws := by
  rcases List.append_eq_append_iff.mp h with ⟨m, hzs, hys⟩ | ⟨m, hxs, hws⟩
  · exact ⟨m, hzs, hys⟩
  · have hnil : m = [] := by
      rw [hxs, byteLength_append] at hle
      exact byteLength_eq_zero.mp (by omega)
    subst hnil
    exact ⟨[], by simpa using hxs.symm, by simpa using hws.symm⟩

/-- There is one cut at each byte offset. -/
theorem cut_unique {xs ys zs ws : List Char} (h : xs ++ ys = zs ++ ws)
    (hplace : byteLength xs = byteLength zs) : xs = zs ∧ ys = ws := by
  obtain ⟨m, rfl, rfl⟩ := exists_between h (Nat.le_of_eq hplace)
  rw [byteLength_append] at hplace
  obtain rfl : m = [] := byteLength_eq_zero.mp (by omega)
  exact ⟨(List.append_nil xs).symm, rfl⟩

end BlockExports.Text
