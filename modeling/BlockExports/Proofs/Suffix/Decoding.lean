import BlockExports.Proofs.Suffix.Shape

/-!
What can be told from generated code.

A suffix ends with its closing brace. Where no name holds any of the signs that a suffix is put
together with, that brace is no part of a member, so a text tells its first suffix from the rest
(`text_append_inj`), and the suffixes of several blocks stay apart. The pieces themselves tell more
than their text: the places too, and the block if there is a member at all. Both are in
`suffixes_decodable`.
-/

namespace BlockExports.Suffix

/-! ### Several suffixes -/

/-- A name that holds nothing of what stands around names in a suffix. -/
def Plain (name : String) : Prop :=
  name ≠ "" ∧ ∀ c ∈ name.toList, c ≠ ':' ∧ c ≠ ';' ∧ c ≠ '\x7b' ∧ c ≠ '\x7d' ∧ c ≠ ' '

/-- A member with such a name and one of the six types. -/
def Separable (m : String × String) : Prop := Plain m.1 ∧ m.2 ∈ memberTypes

theorem Separable.readable {m : String × String} (h : Separable m) : Readable m :=
  ⟨fun hcolon => (h.1.2 ':' hcolon).1 rfl, h.2⟩

/-- A member does not begin like the end of a suffix. -/
theorem Separable.closing_ne {m : String × String} (h : Separable m) (rest rest' : List Char) :
    closing.toList ++ rest ≠ (memberText m).toList ++ rest' := by
  intro heq
  cases hname : m.1.toList with
  | nil => exact h.1.1 (String.toList_eq_nil_iff.mp hname)
  | cons c cs =>
      have hclosing : closing.toList = ['\x7d'] := rfl
      rw [toList_memberText, hname, hclosing] at heq
      obtain ⟨-, -, -, hc, -⟩ := h.1.2 c (by simp [hname])
      exact hc (List.cons.inj heq).1.symm

/-- A suffix in front of some text gives the members and the text. -/
theorem text_append_inj {ms ns : List (String × String)} (hms : ∀ m ∈ ms, Separable m)
    (hns : ∀ n ∈ ns, Separable n) {rest rest' : List Char}
    (h : (text ms).toList ++ rest = (text ns).toList ++ rest') : ms = ns ∧ rest = rest' := by
  simp only [toList_text, List.append_assoc, List.append_cancel_left_eq] at h
  induction ms generalizing ns with
  | nil =>
      cases ns with
      | nil => exact ⟨rfl, List.append_cancel_left h⟩
      | cons n ns =>
          rw [List.flatMap_cons, List.append_assoc] at h
          exact absurd h ((hns n (by simp)).closing_ne _ _)
  | cons m ms ih =>
      rw [List.flatMap_cons, List.append_assoc] at h
      cases ns with
      | nil => exact absurd h.symm ((hms m (by simp)).closing_ne _ _)
      | cons n ns =>
          rw [List.flatMap_cons, List.append_assoc] at h
          obtain ⟨rfl, hbody⟩ := memberText_append_inj (hms m (by simp)).readable
            (hns n (by simp)).readable h
          obtain ⟨rfl, hrest⟩ := ih (fun k hk => hms k (by simp [hk]))
            (fun k hk => hns k (by simp [hk])) hbody
          exact ⟨rfl, hrest⟩

/-- Suffixes in a row give the members of each. -/
theorem texts_unique {bs ds : List (List (String × String))} (hbs : ∀ b ∈ bs, ∀ m ∈ b, Separable m)
    (hds : ∀ d ∈ ds, ∀ m ∈ d, Separable m)
    (h : String.join (bs.map text) = String.join (ds.map text)) : bs = ds := by
  have hne (ms : List (String × String)) (rest : List Char) : [] ≠ (text ms).toList ++ rest := by
    simp [toList_text, opening]
  rw [← String.toList_inj, String.toList_join, String.toList_join] at h
  induction bs generalizing ds with
  | nil =>
      cases ds with
      | nil => rfl
      | cons d ds => exact absurd h (hne d _)
  | cons b bs ih =>
      cases ds with
      | nil => exact absurd h.symm (hne b _)
      | cons d ds =>
          obtain ⟨rfl, hrest⟩ := text_append_inj (hbs b (by simp)) (hds d (by simp)) h
          rw [ih (fun k hk => hbs k (by simp [hk])) (fun k hk => hds k (by simp [hk])) hrest]

/-! ### Pieces -/

theorem typeText_inj {type type' : String} (h : typeText type = typeText type') : type = type' := by
  simpa [typeText] using h

theorem flatMap_member_inj {source source' : String} {vs vs' : List Binding}
    (h : vs.flatMap (member source) = vs'.flatMap (member source')) :
    vs = vs' ∧ (vs ≠ [] → source = source') := by
  induction vs generalizing vs' with
  | nil =>
      cases vs' with
      | nil => simp
      | cons v' vs' => simp [member] at h
  | cons v vs ih =>
      cases vs' with
      | nil => simp [member] at h
      | cons v' vs' =>
          simp only [List.flatMap_cons, member, List.cons_append, List.nil_append,
            List.cons.injEq, Code.mapped.injEq, Code.text.injEq] at h
          obtain ⟨⟨hname, hsource, hoffset, -⟩, htype, hrest⟩ := h
          obtain ⟨name, offset, type⟩ := v
          obtain ⟨name', offset', type'⟩ := v'
          obtain rfl : type = type' := typeText_inj htype
          obtain rfl : name = name' := hname
          obtain rfl : offset = offset' := hoffset
          exact ⟨by rw [(ih hrest).1], fun _ => hsource⟩

/-- A suffix without members does not tell its block, every other one does. -/
theorem render_eq_render_iff {source source' : String} {vs vs' : List Binding} :
    render source vs = render source' vs' ↔ vs = vs' ∧ (vs ≠ [] → source = source') := by
  constructor
  · intro h
    exact flatMap_member_inj (List.append_cancel_right (List.cons.inj h).2)
  · rintro ⟨rfl, hsource⟩
    cases vs with
    | nil => rfl
    | cons v vs => rw [hsource (by simp)]

/-! ### Blocks -/

/-- The text of the suffixes of some blocks, each a name with bindings, tells how many blocks there
are and the names and types of the members of each. The pieces of one suffix tell its bindings and,
if there are any, its block. -/
theorem suffixes_decodable :
    (∀ bs ds : List (String × List Binding),
      (∀ b ∈ bs, ∀ v ∈ b.2, Plain v.name ∧ v.type ∈ memberTypes) →
      (∀ d ∈ ds, ∀ v ∈ d.2, Plain v.name ∧ v.type ∈ memberTypes) →
      String.join (bs.map fun b => Code.source (render b.1 b.2)) =
        String.join (ds.map fun d => Code.source (render d.1 d.2)) →
      bs.map (fun b => b.2.map fun v => (v.name, v.type)) =
        ds.map fun d => d.2.map fun v => (v.name, v.type)) ∧
      ∀ (source source' : String) (vs vs' : List Binding),
        render source vs = render source' vs' ↔ vs = vs' ∧ (vs ≠ [] → source = source') := by
  refine ⟨fun bs ds hbs hds h => ?_, fun _ _ _ _ => render_eq_render_iff⟩
  have hseparable {blocks : List (String × List Binding)}
      (hblocks : ∀ b ∈ blocks, ∀ v ∈ b.2, Plain v.name ∧ v.type ∈ memberTypes) :
      ∀ ms ∈ blocks.map fun b => b.2.map fun v => (v.name, v.type), ∀ m ∈ ms, Separable m := by
    simp only [List.forall_mem_map]
    exact hblocks
  simp only [source_render] at h
  refine texts_unique (hseparable hbs) (hseparable hds) ?_
  rw [List.map_map, List.map_map]
  exact h

/-- An empty block between two others, and a type that begins like another one. -/
theorem suffixes_decodable_empty_block :
    let bs : List (String × List Binding) := [("a", [⟨"x", 1, "unknown[]"⟩, ⟨"y", 4, "unknown"⟩]),
      ("b", []), ("c", [⟨"x", 1, "null"⟩])]
    let ds : List (String × List Binding) := [("d", [⟨"x", 7, "unknown[]"⟩, ⟨"y", 1, "unknown"⟩]),
      ("d", []), ("d", [⟨"x", 3, "null"⟩])]
    let source (blocks : List (String × List Binding)) :=
      String.join (blocks.map fun b => Code.source (render b.1 b.2))
    (∀ b ∈ bs, ∀ v ∈ b.2, Plain v.name ∧ v.type ∈ memberTypes) ∧
      (∀ d ∈ ds, ∀ v ∈ d.2, Plain v.name ∧ v.type ∈ memberTypes) ∧
      source bs = " & \x7b x: unknown[]; y: unknown; \x7d & \x7b \x7d & \x7b x: null; \x7d" ∧
      source bs = source ds ∧
      bs.map (fun b => b.2.map fun v => (v.name, v.type)) =
        ds.map (fun d => d.2.map fun v => (v.name, v.type)) ∧
      render "b" [] = render "d" [] ∧
      render "c" [⟨"x", 1, "null"⟩] ≠ render "d" [⟨"x", 1, "null"⟩] := by
  intro bs ds source
  have hplain : Plain "x" ∧ Plain "y" := by simp [Plain]
  have hbs : ∀ b ∈ bs, ∀ v ∈ b.2, Plain v.name ∧ v.type ∈ memberTypes := by
    simp [bs, hplain, memberTypes]
  have hds : ∀ d ∈ ds, ∀ v ∈ d.2, Plain v.name ∧ v.type ∈ memberTypes := by
    simp [ds, hplain, memberTypes]
  have hsame : source bs = source ds := rfl
  obtain ⟨htexts, hpieces⟩ := suffixes_decodable
  refine ⟨hbs, hds, rfl, hsame, htexts bs ds hbs hds hsame, ?_, fun h => ?_⟩
  · exact (hpieces "b" "d" [] []).mpr (by simp)
  · exact absurd (((hpieces _ _ _ _).mp h).2 (by simp)) (by decide)

end BlockExports.Suffix
