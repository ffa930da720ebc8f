import BlockExports.Text.Raw

/-!
Bytes that are shown as text.

The bytes of a text are decoded to the text (`decode_toByteArray`). So a name from the system is shown
by decoding its bytes, whether they are UTF-8 or not (`shown_ofBytes`). The cases follow the number of
bytes of a character: the first byte tells how many are owed and how the next one is bound, and every
later one adds six bits.
-/

namespace BlockExports

namespace Text

theorem Unfinished.ofFirst?_ofNat {n : Nat} (h : n < 256) :
    ofFirst? (.ofNat n) =
      if n ≤ 0x7F then some ⟨n, 0, 0x80, 0xBF⟩
      else if n < 0xC2 then none
      else if n ≤ 0xDF then some ⟨n % 32, 1, 0x80, 0xBF⟩
      else if n = 0xE0 then some ⟨0, 2, 0xA0, 0xBF⟩
      else if n = 0xED then some ⟨13, 2, 0x80, 0x9F⟩
      else if n ≤ 0xEF then some ⟨n % 16, 2, 0x80, 0xBF⟩
      else if n = 0xF0 then some ⟨0, 3, 0x90, 0xBF⟩
      else if n ≤ 0xF3 then some ⟨n % 8, 3, 0x80, 0xBF⟩
      else if n = 0xF4 then some ⟨4, 3, 0x80, 0x8F⟩
      else none := by
  have hn : (UInt8.ofNat n).toNat = n := by simpa using h
  simp only [ofFirst?, UInt8.le_iff_toNat_le, UInt8.lt_iff_toNat_lt, ← UInt8.toNat_inj, hn,
    UInt8.reduceToNat]

/-! ### Bytes of a character -/

theorem decodeFrom_one {n bits : Nat} {least greatest : UInt8}
    (h : Unfinished.ofFirst? (.ofNat n) = some ⟨bits, 0, least, greatest⟩) (bs : List UInt8) :
    decodeFrom none (.ofNat n :: bs) = Char.ofNat bits :: decodeFrom none bs := by
  rw [decodeFrom, decodeByte, decodeByte.ofFirst, h]
  rfl

theorem decodeFrom_first {n bits owed : Nat} {least greatest : UInt8}
    (h : Unfinished.ofFirst? (.ofNat n) = some ⟨bits, owed + 1, least, greatest⟩)
    (bs : List UInt8) :
    decodeFrom none (.ofNat n :: bs) = decodeFrom (some ⟨bits, owed + 1, least, greatest⟩) bs := by
  rw [decodeFrom, decodeByte, decodeByte.ofFirst, h]
  rfl

section Next

variable {n bits : Nat} {least greatest : UInt8} (hleast : least.toNat ≤ n)
  (hgreatest : n ≤ greatest.toNat)

include hleast hgreatest

theorem decodeByte_next (owed : Nat) :
    decodeByte (some ⟨bits, owed, least, greatest⟩) (.ofNat n) =
      decodeByte.settle [] ⟨64 * bits + n % 64, owed - 1, 0x80, 0xBF⟩ := by
  have hn : (UInt8.ofNat n).toNat = n := by
    have := greatest.toNat_lt
    simp only [UInt8.toNat_ofNat']
    omega
  have h : least ≤ .ofNat n ∧ .ofNat n ≤ greatest := by
    rw [UInt8.le_iff_toNat_le, UInt8.le_iff_toNat_le, hn]
    exact ⟨hleast, hgreatest⟩
  rw [decodeByte, if_pos h, Unfinished.add, hn]

theorem decodeFrom_last (bs : List UInt8) :
    decodeFrom (some ⟨bits, 1, least, greatest⟩) (.ofNat n :: bs) =
      Char.ofNat (64 * bits + n % 64) :: decodeFrom none bs := by
  rw [decodeFrom, decodeByte_next hleast hgreatest]
  rfl

theorem decodeFrom_next (owed : Nat) (bs : List UInt8) :
    decodeFrom (some ⟨bits, owed + 2, least, greatest⟩) (.ofNat n :: bs) =
      decodeFrom (some ⟨64 * bits + n % 64, owed + 1, 0x80, 0xBF⟩) bs := by
  rw [decodeFrom, decodeByte_next hleast hgreatest]
  rfl

end Next

/-! ### Characters -/

/-- The bounds of the byte behind the first one, in a character of three bytes. -/
theorem exists_ofFirst?_of_three {v : Nat} (hleast : 0x800 ≤ v) (hgreatest : v ≤ 0xFFFF)
    (hvalid : v < 0xD800 ∨ 0xDFFF < v) :
    ∃ least greatest, Unfinished.ofFirst? (.ofNat (v / 4096 % 16 + 224)) =
        some ⟨v / 4096, 2, least, greatest⟩ ∧
      least.toNat ≤ v / 64 % 64 + 128 ∧ v / 64 % 64 + 128 ≤ greatest.toNat := by
  rw [Unfinished.ofFirst?_ofNat (by omega), if_neg (by omega), if_neg (by omega), if_neg (by omega)]
  have hlead : (v / 4096 % 16 + 224) % 16 = v / 4096 := by omega
  rcases Nat.lt_or_ge v 0x1000 with hfirst | hfirst
  · refine ⟨0xA0, 0xBF, ?_, ?_, ?_⟩
    · rw [if_pos (by omega), Nat.div_eq_of_lt hfirst]
    all_goals simp; omega
  rw [if_neg (by omega)]
  by_cases hsurrogate : 0xD000 ≤ v ∧ v < 0xE000
  · refine ⟨0x80, 0x9F, ?_, ?_, ?_⟩
    · rw [if_pos (by omega), show v / 4096 = 13 by omega]
    · simp
    · simp
      omega
  · refine ⟨0x80, 0xBF, ?_, ?_, ?_⟩
    · rw [if_neg (by omega), if_pos (by omega), hlead]
    · simp
    · simp
      omega

/-- The bounds of the byte behind the first one, in a character of four bytes. -/
theorem exists_ofFirst?_of_four {v : Nat} (hleast : 0x10000 ≤ v) (hgreatest : v < 0x110000) :
    ∃ least greatest, Unfinished.ofFirst? (.ofNat (v / 262144 % 8 + 240)) =
        some ⟨v / 262144, 3, least, greatest⟩ ∧
      least.toNat ≤ v / 4096 % 64 + 128 ∧ v / 4096 % 64 + 128 ≤ greatest.toNat := by
  rw [Unfinished.ofFirst?_ofNat (by omega), if_neg (by omega), if_neg (by omega), if_neg (by omega),
    if_neg (by omega), if_neg (by omega), if_neg (by omega)]
  have hlead : (v / 262144 % 8 + 240) % 8 = v / 262144 := by omega
  rcases Nat.lt_or_ge v 0x40000 with hfirst | hfirst
  · refine ⟨0x90, 0xBF, ?_, ?_, ?_⟩
    · rw [if_pos (by omega), Nat.div_eq_of_lt hfirst]
    all_goals simp; omega
  rw [if_neg (by omega)]
  rcases Nat.lt_or_ge v 0x100000 with hlast | hlast
  · refine ⟨0x80, 0xBF, ?_, ?_, ?_⟩
    · rw [if_pos (by omega), hlead]
    · simp
    · simp
      omega
  · refine ⟨0x80, 0x8F, ?_, ?_, ?_⟩
    · rw [if_neg (by omega), if_pos (by omega), show v / 262144 = 4 by omega]
    · simp
    · simp
      omega

theorem decodeFrom_encode (c : Char) (bs : List UInt8) :
    decodeFrom none (String.utf8EncodeChar c ++ bs) = c :: decodeFrom none bs := by
  have hc : Char.ofNat c.val.toNat = c := Char.ofNat_toNat c
  have hvalid : c.val.toNat < 0xD800 ∨ 0xDFFF < c.val.toNat ∧ c.val.toNat < 0x110000 := c.valid
  rw [String.utf8EncodeChar]
  conv => rhs; rw [← hc]
  generalize c.val.toNat = v at hvalid ⊢
  rcases Nat.lt_or_ge v 0x80 with hone | hone
  · have hfirst : Unfinished.ofFirst? (.ofNat v) = some ⟨v, 0, 0x80, 0xBF⟩ := by
      rw [Unfinished.ofFirst?_ofNat (by omega), if_pos (by omega)]
    rw [if_pos (by omega)]
    exact decodeFrom_one hfirst bs
  rw [if_neg (by omega)]
  rcases Nat.lt_or_ge v 0x800 with htwo | htwo
  · have hfirst : Unfinished.ofFirst? (.ofNat (v / 64 % 32 + 192)) =
        some ⟨v / 64, 1, 0x80, 0xBF⟩ := by
      rw [Unfinished.ofFirst?_ofNat (by omega), if_neg (by omega), if_neg (by omega),
        if_pos (by omega), show (v / 64 % 32 + 192) % 32 = v / 64 by omega]
    rw [if_pos (by omega)]
    show decodeFrom none (.ofNat _ :: .ofNat _ :: bs) = _
    rw [decodeFrom_first hfirst, decodeFrom_last (by simp) (by simp; omega)]
    congr 2
    omega
  rw [if_neg (by omega)]
  rcases Nat.lt_or_ge v 0x10000 with hthree | hthree
  · obtain ⟨least, greatest, hfirst, hl, hg⟩ :=
      exists_ofFirst?_of_three htwo (by omega) (by omega)
    rw [if_pos (by omega)]
    show decodeFrom none (.ofNat _ :: .ofNat _ :: .ofNat _ :: bs) = _
    rw [decodeFrom_first hfirst, decodeFrom_next hl hg,
      decodeFrom_last (by simp) (by simp; omega)]
    congr 2
    omega
  · obtain ⟨least, greatest, hfirst, hl, hg⟩ := exists_ofFirst?_of_four hthree (by omega)
    rw [if_neg (by omega)]
    show decodeFrom none (.ofNat _ :: .ofNat _ :: .ofNat _ :: .ofNat _ :: bs) = _
    rw [decodeFrom_first hfirst, decodeFrom_next hl hg,
      decodeFrom_next (by simp) (by simp; omega), decodeFrom_last (by simp) (by simp; omega)]
    congr 2
    omega

/-- The bytes of a text are decoded to the text. -/
theorem decode_toByteArray (s : String) : decode s.toByteArray.data.toList = s := by
  have h (cs : List Char) : decodeFrom none (cs.flatMap String.utf8EncodeChar) = cs := by
    induction cs with
    | nil => rfl
    | cons c cs ih => rw [List.flatMap_cons, decodeFrom_encode, ih]
  have hbytes : s.toByteArray.data.toList = s.toList.flatMap String.utf8EncodeChar := by
    rw [← String.utf8Encode_toList, List.utf8Encode]
    simp
  rw [decode, hbytes, h, String.ofList_toList]

end Text

/-- What is shown for bytes is what they decode to. -/
theorem RawText.shown_ofBytes (b : ByteArray) : (ofBytes b).shown = Text.decode b.data.toList := by
  by_cases hb : b.IsValidUTF8
  · rw [ofBytes, dif_pos hb, shown]
    exact (Text.decode_toByteArray (.ofByteArray b hb)).symm
  · rw [ofBytes, dif_neg hb, shown]

/-- Three bytes of a character that needs four, and a byte that starts none. -/
example : (RawText.ofByteList [0x48, 0xF0, 0x90, 0x80, 0x57, 0xFF]).shown = "H\uFFFDW\uFFFD" := by
  decide +kernel

end BlockExports
