import BlockExports.Sink

/-!
Pieces that go into embedded code list by list.

The end of the context type moves along, so every list lands directly behind the one before it
(`inject_inject`). Injecting several lists is therefore injecting all of their pieces at once
(`inject_repeated`). This needs a first list, an empty one at least: it is what moves an end of the
context type that lies beyond the pieces to where they end.
-/

namespace BlockExports.Sink

/-! ### One list -/

/-- Where new pieces go: an index into the pieces there are. -/
def place (s : Sink) : Nat :=
  match s.contextEnd with
  | some index => min index s.content.length
  | none => s.content.length

theorem place_le_length (s : Sink) : s.place ≤ s.content.length := by
  unfold place
  split
  · exact Nat.min_le_right _ _
  · exact Nat.le_refl _

theorem inject_eq (s : Sink) (codes : List Code) :
    s.inject codes = ⟨s.id, s.content.take s.place ++ codes ++ s.content.drop s.place,
      s.contextEnd.map fun _ => s.place + codes.length⟩ := by
  obtain ⟨id, content, contextEnd⟩ := s
  cases contextEnd with
  | some index => rfl
  | none => simp [inject, place]

theorem length_take_place (s : Sink) (codes : List Code) :
    (s.content.take s.place ++ codes).length = s.place + codes.length := by
  rw [List.length_append, List.length_take, Nat.min_eq_left s.place_le_length]

/-- The next pieces go directly behind the ones that were injected last. -/
theorem place_inject (s : Sink) (codes : List Code) :
    (s.inject codes).place = s.place + codes.length := by
  rw [inject_eq]
  cases hend : s.contextEnd with
  | some index =>
      -- the end is stored behind pieces that are there, so it is not cut down once more
      show min (s.place + codes.length) _ = _
      rw [List.length_append, length_take_place]
      exact Nat.min_eq_left (Nat.le_add_right _ _)
  | none =>
      have hplace : s.place = s.content.length := by rw [place, hend]
      show List.length _ = _
      rw [List.length_append, length_take_place, hplace, List.drop_length]
      rfl

/-! ### Several lists -/

theorem inject_inject (s : Sink) (first second : List Code) :
    (s.inject first).inject second = s.inject (first ++ second) := by
  have hlength := s.length_take_place first
  rw [inject_eq (s.inject first), place_inject, s.inject_eq first, s.inject_eq (first ++ second),
    List.take_left' hlength, List.drop_left' hlength, Option.map_map, List.length_append,
    List.append_assoc _ first second, Nat.add_assoc]
  rfl

theorem foldl_inject (s : Sink) (first : List Code) (lists : List (List Code)) :
    lists.foldl inject (s.inject first) = s.inject (first ++ lists.flatten) := by
  induction lists generalizing first with
  | nil => simp
  | cons codes lists ih =>
      rw [List.foldl_cons, inject_inject, ih, List.flatten_cons, List.append_assoc]

/-- Injecting lists one after the other is injecting their pieces at once. Their texts come in order
between what stands in front of the place and what stands behind it, and an end of the context type
is the end of the pieces that were injected. -/
theorem inject_repeated (s : Sink) {lists : List (List Code)} (h : lists ≠ []) :
    let pieces := lists.flatten
    let result := lists.foldl inject s
    let front := s.content.take s.place
    let back := s.content.drop s.place
    result = s.inject pieces ∧ s.source = Code.source front ++ Code.source back ∧
      result.source = Code.source front ++ String.join (lists.map Code.source) ++ Code.source back ∧
      result.contextEnd.isSome = s.contextEnd.isSome ∧
      ∀ last, result.contextEnd = some last → last ≤ result.content.length ∧
        result.content.take last = front ++ pieces ∧ result.content.drop last = back := by
  intro pieces result front back
  have hresult : result = s.inject pieces := by
    obtain ⟨first, rest, rfl⟩ := List.exists_cons_of_ne_nil h
    exact s.foldl_inject first rest
  have hcontent : result.content = front ++ pieces ++ back := by rw [hresult, inject_eq]
  have hend : result.contextEnd = s.contextEnd.map fun _ => s.place + pieces.length := by
    rw [hresult, inject_eq]
  refine ⟨hresult, ?_, ?_, by rw [hend, Option.isSome_map], fun last hlast => ?_⟩
  · rw [← Code.source_append, List.take_append_drop]
    rfl
  · rw [source, hcontent, Code.source_append, Code.source_append, Code.source_flatten]
  · have hlength : (front ++ pieces).length = last := by
      obtain ⟨-, -, hplace⟩ := Option.map_eq_some_iff.mp (hend ▸ hlast)
      rw [length_take_place, hplace]
    rw [hcontent, List.take_left' hlength, List.drop_left' hlength, List.length_append, hlength]
    exact ⟨Nat.le_add_right _ _, rfl, rfl⟩

/-- Three lists for an end of the context type that lies beyond all pieces, the first one empty. -/
theorem inject_repeated_beyond_end :
    let s : Sink := ⟨"script_ts", [.text "type Ctx = X", .text ";"], some 7⟩
    let a : Code := .mapped "a" "customBlock_0" 1 ⟨true⟩
    let lists : List (List Code) := [[], [.text " & \x7b ", a], [.text ": null; \x7d"]]
    lists ≠ [] ∧ lists.foldl inject s = s.inject lists.flatten ∧
      (lists.foldl inject s).source = "type Ctx = X; & \x7b a: null; \x7d" ∧
      (lists.foldl inject s).contextEnd = some 5 ∧
      (lists.foldl inject s).content.take 5 = s.content ++ lists.flatten := by
  intro s a lists
  have hlists : lists ≠ [] := by simp [lists]
  obtain ⟨hresult, -, -, -, hend⟩ := inject_repeated s hlists
  exact ⟨hlists, hresult, by decide, rfl, (hend 5 rfl).2.1⟩

end BlockExports.Sink
