import BlockExports.Code.Wire
import Mathlib.Data.List.Forall2

/-!
Which JSON values are code, and which code they are.

`Spells` says what a value has to look like to stand for a piece of code, without a reader or a
writer: a string is text, and an array of four is a mapped piece. The reader of one piece gives the
piece that a value spells and refuses every value that spells none (`ofJson?_eq_some_iff`), and the
writer spells each piece (`spells_toJson`). Both facts carry over to lists, so that reading what was
written gives it back, and writing what was read changes no more than the spelling of the features.
-/

namespace BlockExports

namespace Code

/-- A value that sets the navigation feature: an object by its last field of that name, whatever
other fields it has, or an array of the flag alone. -/
inductive SetsNavigation : Json → Bool → Prop where
  | object (before after : List (String × Json)) (flag : Bool)
      (hafter : ∀ field ∈ after, field.1 ≠ "navigation") :
      SetsNavigation (.object (before ++ ("navigation", .boolean flag) :: after)) flag
  | array (flag : Bool) : SetsNavigation (.array [.boolean flag]) flag

/-- A value that stands for a piece of code. -/
inductive Spells : Json → Code → Prop where
  | text (t : String) : Spells (.string t) (.text t)
  | mapped (t source : String) (offset : UInt32) {features : Json} {flag : Bool}
      (hflag : SetsNavigation features flag) :
      Spells (.array [.string t, .string source, .integer offset.toNat, features])
        (.mapped t source offset ⟨flag⟩)

/-- A value of the shape of a piece: a string, or an array of two strings, a whole number of at most
32 bits and features. -/
inductive IsPiece : Json → Prop where
  | text (t : String) : IsPiece (.string t)
  | mapped (t source : String) {i : Int} (hlow : 0 ≤ i) (hhigh : i ≤ 0xFFFFFFFF) {features : Json}
      {flag : Bool} (hflag : SetsNavigation features flag) :
      IsPiece (.array [.string t, .string source, .integer i, features])

/-! ### The parts of a mapped piece -/

theorem field?_eq_some_iff {fields : List (String × Json)} {name : String} {value : Json} :
    Json.field? fields name = some value ↔
      ∃ before after, fields = before ++ (name, value) :: after ∧
        ∀ field ∈ after, field.1 ≠ name := by
  unfold Json.field?
  constructor
  · intro h
    obtain ⟨⟨found, v⟩, hfound, rfl⟩ := Option.map_eq_some_iff.mp h
    obtain ⟨hname, after, before, hfields, hafter⟩ := List.find?_eq_some_iff_append.mp hfound
    obtain rfl : found = name := by simpa using hname
    refine ⟨before.reverse, after.reverse, ?_, fun field hfield => ?_⟩
    · rw [← List.reverse_reverse fields, hfields]
      simp
    · simpa using hafter field (List.mem_reverse.mp hfield)
  · rintro ⟨before, after, rfl, hafter⟩
    refine Option.map_eq_some_iff.mpr ⟨(name, value), ?_, rfl⟩
    refine List.find?_eq_some_iff_append.mpr ⟨by simp, after.reverse, before.reverse, by simp, ?_⟩
    intro field hfield
    simpa using hafter field (List.mem_reverse.mp hfield)

theorem features?_eq_some_iff {value : Json} {features : Features} :
    features? value = some features ↔ SetsNavigation value features.navigation := by
  obtain ⟨flag⟩ := features
  constructor
  · intro h
    unfold features? at h
    split at h
    · next fields =>
      split at h
      · next found hfield =>
        obtain rfl : found = flag := by simpa using h
        obtain ⟨before, after, rfl, hafter⟩ := field?_eq_some_iff.mp hfield
        exact .object before after found hafter
      · simp at h
    · next found =>
      obtain rfl : found = flag := by simpa using h
      exact .array found
    · simp at h
  · rintro (⟨before, after, _, hafter⟩ | _)
    · have hfield : Json.field? (before ++ ("navigation", .boolean flag) :: after) "navigation" =
          some (.boolean flag) := field?_eq_some_iff.mpr ⟨before, after, rfl, hafter⟩
      rw [features?, hfield]
    · rfl

theorem offset?_eq_some_iff {value : Json} {offset : UInt32} :
    offset? value = some offset ↔ value = .integer offset.toNat := by
  constructor
  · intro h
    unfold offset? at h
    split at h
    · next i =>
      split at h
      · next hrange =>
        obtain rfl : UInt32.ofNat i.toNat = offset := by simpa using h
        have hsmall : i.toNat < UInt32.size := by
          have := hrange.2
          simp only [UInt32.size]
          omega
        rw [UInt32.toNat_ofNat_of_lt' hsmall, Int.toNat_of_nonneg hrange.1]
      · simp at h
    · simp at h
  · rintro rfl
    have hsmall : offset.toNat < 4294967296 := offset.toNat_lt
    rw [offset?, if_pos ⟨Int.natCast_nonneg _, by omega⟩, Int.toNat_natCast, UInt32.ofNat_toNat]

/-! ### One piece -/

theorem ofJson?_eq_some_iff {value : Json} {code : Code} :
    ofJson? value = some code ↔ Spells value code := by
  constructor
  · intro h
    unfold ofJson? at h
    split at h
    · next t =>
      obtain rfl : Code.text t = code := by simpa using h
      exact .text t
    · next t source place features =>
      obtain ⟨offset, hoffset, h⟩ := Option.bind_eq_some_iff.mp h
      obtain ⟨found, hfeatures, h⟩ := Option.bind_eq_some_iff.mp h
      obtain rfl : Code.mapped t source offset found = code := by simpa using h
      obtain rfl := offset?_eq_some_iff.mp hoffset
      exact .mapped t source offset (features?_eq_some_iff.mp hfeatures)
    · simp at h
  · rintro (_ | ⟨t, source, offset, hflag⟩)
    · rfl
    · rw [ofJson?, offset?_eq_some_iff.mpr rfl,
        (@features?_eq_some_iff _ ⟨_⟩).mpr hflag]
      rfl

theorem isPiece_iff {value : Json} : IsPiece value ↔ ∃ code, Spells value code := by
  constructor
  · rintro (t | ⟨t, source, hlow, hhigh, hflag⟩)
    · exact ⟨_, .text t⟩
    · next i _ _ =>
      have hsmall : i.toNat < UInt32.size := by
        simp only [UInt32.size]
        omega
      have hoffset : i = (UInt32.ofNat i.toNat).toNat := by
        rw [UInt32.toNat_ofNat_of_lt' hsmall, Int.toNat_of_nonneg hlow]
      rw [hoffset]
      exact ⟨_, .mapped t source _ hflag⟩
  · rintro ⟨code, t | ⟨t, source, offset, hflag⟩⟩
    · exact .text t
    · have hsmall : offset.toNat < 4294967296 := offset.toNat_lt
      exact .mapped t source (Int.natCast_nonneg _) (by omega) hflag

theorem spells_toJson (code : Code) : Spells code.toJson code := by
  cases code with
  | text t => exact .text t
  | mapped t source offset features =>
      exact .mapped t source offset (.object [] [] features.navigation (by simp))

/-! ### Lists -/

theorem mapM_ofJson?_eq_some_iff {items : List Json} {codes : List Code} :
    items.mapM ofJson? = some codes ↔ List.Forall₂ Spells items codes := by
  induction items generalizing codes with
  | nil =>
      simp only [List.mapM_nil, List.forall₂_nil_left_iff]
      exact ⟨fun h => (Option.some.inj h).symm, fun h => h ▸ rfl⟩
  | cons item items ih =>
      rw [List.mapM_cons, List.forall₂_cons_left_iff]
      constructor
      · intro h
        obtain ⟨code, hcode, h⟩ := Option.bind_eq_some_iff.mp h
        obtain ⟨rest, hrest, h⟩ := Option.bind_eq_some_iff.mp h
        obtain rfl : code :: rest = codes := by simpa using h
        exact ⟨code, rest, ofJson?_eq_some_iff.mp hcode, ih.mp hrest, rfl⟩
      · rintro ⟨code, rest, hcode, hrest, rfl⟩
        rw [ofJson?_eq_some_iff.mpr hcode, ih.mpr hrest]
        rfl

theorem decode_eq_ok_iff {value : Json} {codes : List Code} :
    decode value = .ok codes ↔
      ∃ items, value = .array items ∧ List.Forall₂ Spells items codes := by
  constructor
  · intro h
    unfold decode at h
    split at h
    · next items =>
      split at h
      · next found hfound =>
        obtain rfl : found = codes := by simpa using h
        exact ⟨items, rfl, mapM_ofJson?_eq_some_iff.mp hfound⟩
      · simp at h
    · simp at h
  · rintro ⟨items, rfl, hspells⟩
    rw [decode, mapM_ofJson?_eq_some_iff.mpr hspells]

theorem forall₂_spells_toJson (codes : List Code) :
    List.Forall₂ Spells (codes.map toJson) codes := by
  rw [List.forall₂_map_left_iff]
  exact List.forall₂_same.mpr fun code _ => spells_toJson code

theorem decode_encode (codes : List Code) : decode (encode codes) = .ok codes :=
  decode_eq_ok_iff.mpr ⟨_, rfl, forall₂_spells_toJson codes⟩

theorem exists_forall₂_spells_iff {items : List Json} :
    (∃ codes, List.Forall₂ Spells items codes) ↔ ∀ item ∈ items, IsPiece item := by
  induction items with
  | nil => simp
  | cons item items ih =>
      rw [List.forall_mem_cons, ← ih, isPiece_iff]
      constructor
      · rintro ⟨codes, h⟩
        obtain ⟨code, rest, hcode, hrest, rfl⟩ := List.forall₂_cons_left_iff.mp h
        exact ⟨⟨code, hcode⟩, rest, hrest⟩
      · rintro ⟨⟨code, hcode⟩, rest, hrest⟩
        exact ⟨code :: rest, .cons hcode hrest⟩

/-- An array with an element that is no piece is refused as a whole. -/
theorem decode_array_of_not_isPiece {items : List Json} {item : Json} (hitem : item ∈ items)
    (h : ¬IsPiece item) : decode (.array items) = .error .noVariant := by
  have hnone : items.mapM ofJson? = none := by
    refine Option.eq_none_iff_forall_ne_some.mpr fun codes hcodes => h ?_
    exact exists_forall₂_spells_iff.mp ⟨codes, mapM_ofJson?_eq_some_iff.mp hcodes⟩ item hitem
  rw [decode, hnone]

/-- Lists of code survive being written and read. A value is read exactly when it is an array of
pieces, and an array with anything else in it is refused as a whole. What is read says at each place
what the value says there, and so does what is written of it again. -/
theorem decode_wire (value : Json) :
    (∀ codes, decode (encode codes) = .ok codes) ∧
      ((∃ codes, decode value = .ok codes) ↔
        ∃ items, value = .array items ∧ ∀ item ∈ items, IsPiece item) ∧
      (∀ items, value = .array items → (∃ item ∈ items, ¬IsPiece item) →
        decode value = .error .noVariant) ∧
      ∀ codes, decode value = .ok codes →
        ∃ items again, value = .array items ∧ encode codes = .array again ∧
          List.Forall₂ Spells items codes ∧ List.Forall₂ Spells again codes ∧
          decode (.array again) = .ok codes := by
  refine ⟨decode_encode, ?_, ?_, ?_⟩
  · constructor
    · rintro ⟨codes, hcodes⟩
      obtain ⟨items, rfl, hspells⟩ := decode_eq_ok_iff.mp hcodes
      exact ⟨items, rfl, exists_forall₂_spells_iff.mp ⟨codes, hspells⟩⟩
    · rintro ⟨items, rfl, hpieces⟩
      obtain ⟨codes, hspells⟩ := exists_forall₂_spells_iff.mpr hpieces
      exact ⟨codes, decode_eq_ok_iff.mpr ⟨items, rfl, hspells⟩⟩
  · rintro items rfl ⟨item, hitem, hbad⟩
    exact decode_array_of_not_isPiece hitem hbad
  · intro codes hcodes
    obtain ⟨items, rfl, hspells⟩ := decode_eq_ok_iff.mp hcodes
    exact ⟨items, codes.map toJson, rfl, rfl, hspells, forall₂_spells_toJson codes,
      decode_encode codes⟩

/-- The largest offset with the short form of features, and the smallest with other fields and a
flag that comes up twice, in front of an offset that is one too large. -/
theorem decode_wire_edges :
    let short : Json := .array [.string "a", .string "b", .integer 4294967295,
      .array [.boolean true]]
    let long : Json := .array [.string "", .string "", .integer 0,
      .object [("navigation", .boolean true), ("rename", .null), ("navigation", .boolean false)]]
    let large : Json := .array [.string "a", .string "b", .integer 4294967296,
      .array [.boolean true]]
    let codes : List Code := [.mapped "a" "b" 4294967295 ⟨true⟩, .text "t", .mapped "" "" 0 ⟨false⟩]
    decode (.array [short, .string "t", long]) = .ok codes ∧
      (∃ items again, Json.array [short, .string "t", long] = .array items ∧
        encode codes = .array again ∧ List.Forall₂ Spells items codes ∧
        List.Forall₂ Spells again codes ∧ decode (.array again) = .ok codes) ∧
      ¬IsPiece large ∧ decode (.array [short, .string "t", long, large]) = .error .noVariant := by
  intro short long large codes
  have hcodes : decode (.array [short, .string "t", long]) = .ok codes := rfl
  have hlarge : ¬IsPiece large := by
    show ¬IsPiece (.array [.string "a", .string "b", .integer 4294967296, .array [.boolean true]])
    rintro (_ | ⟨_, _, _, hhigh, _⟩)
    exact absurd hhigh (by decide)
  obtain ⟨-, -, -, hwritten⟩ := decode_wire (.array [short, .string "t", long])
  obtain ⟨-, -, hrefused, -⟩ := decode_wire (.array [short, .string "t", long, large])
  exact ⟨hcodes, hwritten codes hcodes, hlarge, hrefused _ rfl ⟨large, by simp, hlarge⟩⟩

end Code

end BlockExports
