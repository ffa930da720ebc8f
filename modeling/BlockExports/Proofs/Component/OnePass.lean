import BlockExports.Proofs.Component.Faultless

/-!
The search for a closing tag in one pass.

`closingFrom?` jumps from one closing tag to the next and counts afterwards what opens in between. A
walk goes through the text from left to right instead, keeps count of the inner blocks that are open,
and looks at nothing twice. `closing_in_one_pass` says that both find the same tag, from every place
and for every name. It rests on one lemma about a turn of the walk (`closingFrom?_walkTurn`): the
search from a place is the search from where the walk goes next.
-/

namespace BlockExports.Component

open Text

/-- What a walk does at the front of a text while `depth` inner blocks are open. It ends, with the
length of the closing tag if that is there, or it passes some characters and goes on at a depth. -/
def walkTurn (nests : Bool) (name : List Char) (depth : Nat) (cs : List Char) :
    Turn (Nat × Nat) (Option Nat) :=
  if ('<' :: '/' :: name).isPrefixOf cs then
    let rest := cs.drop (name.length + 2)
    if atBoundary rest then
      match find? ['>'] rest with
      | none => .done none
      | some distance =>
        let length := name.length + distance + 3
        match depth with
        | 0 => .done (some length)
        | depth + 1 => .again (length, depth)
    else .again (name.length + 2, depth)
  else if nests && (('<' :: name).isPrefixOf cs && atBoundary (cs.drop (name.length + 1))) then
    .again (name.length + 1, depth + 1)
  else .again (1, depth)

/-- Walks through a text that starts at the byte offset `place`; `skip` characters were passed
already. The result is where the closing tag starts and the place behind it. -/
def walk? (nests : Bool) (name : List Char) : Nat → Nat → Nat → List Char → Option (Nat × Nat)
  | _, _, _, [] => none
  | depth, place, skip + 1, c :: cs => walk? nests name depth (place + c.utf8Size) skip cs
  | depth, place, 0, c :: cs =>
    match walkTurn nests name depth (c :: cs) with
    | .done found => found.map fun length => (place, place + byteLength ((c :: cs).take length))
    | .again (length, depth) => walk? nests name depth (place + c.utf8Size) (length - 1) cs

section Turn

variable {name : List Char}

/-! ### One turn -/

theorem walkTurn_mark (nests : Bool) (depth : Nat) (rest : List Char) :
    walkTurn nests name depth ('<' :: '/' :: name ++ rest) =
      if atBoundary rest then
        match find? ['>'] rest with
        | none => .done none
        | some distance =>
          match depth with
          | 0 => .done (some (name.length + distance + 3))
          | depth + 1 => .again (name.length + distance + 3, depth)
      else .again (name.length + 2, depth) := by
  have hmark : ('<' :: '/' :: name).isPrefixOf ('<' :: '/' :: name ++ rest) = true :=
    List.isPrefixOf_iff_prefix.mpr (List.prefix_append _ _)
  rw [walkTurn, if_pos hmark, List.drop_left' (by simp)]

theorem walkTurn_of_no_mark {cs : List Char} (hmark : ¬('<' :: '/' :: name) <+: cs) (depth : Nat) :
    walkTurn (name = nestingName) name depth cs =
      if opensAt name cs then .again (name.length + 1, depth + 1) else .again (1, depth) := by
  rw [walkTurn, if_neg (by rwa [List.isPrefixOf_iff_prefix])]
  rfl

/-- A turn that goes on gets ahead and stays within the text. -/
theorem walkTurn_ahead {nests : Bool} {depth : Nat} {cs : List Char} (hcs : cs ≠ [])
    {length depth' : Nat} (h : walkTurn nests name depth cs = .again (length, depth')) :
    0 < length ∧ length ≤ cs.length := by
  by_cases hmark : ('<' :: '/' :: name) <+: cs
  · obtain ⟨rest, rfl⟩ := hmark
    have hfits : ('<' :: '/' :: name ++ rest).length = name.length + 2 + rest.length := by
      rw [List.length_append]
      rfl
    rw [walkTurn_mark] at h
    split at h
    · cases hangle : find? ['>'] rest with
      | none => simp [hangle] at h
      | some distance =>
          have hroom : distance + 1 ≤ rest.length := add_length_le_of_find? (by simp) hangle
          cases depth with
          | zero => simp [hangle] at h
          | succ depth =>
              obtain ⟨rfl, -⟩ : name.length + distance + 3 = length ∧ depth = depth' := by
                simpa [hangle] using h
              omega
    · obtain ⟨rfl, -⟩ : name.length + 2 = length ∧ depth = depth' := by simpa using h
      omega
  · rw [walkTurn, if_neg (by rwa [List.isPrefixOf_iff_prefix])] at h
    split at h
    · next hopens =>
      obtain ⟨rfl, -⟩ : name.length + 1 = length ∧ depth + 1 = depth' := by simpa using h
      simp only [Bool.and_eq_true, List.isPrefixOf_iff_prefix] at hopens
      have hfits : ('<' :: name).length ≤ cs.length := hopens.2.1.length_le
      exact ⟨Nat.succ_pos _, hfits⟩
    · obtain ⟨rfl, -⟩ : 1 = length ∧ depth = depth' := by simpa using h
      exact ⟨Nat.one_pos, List.length_pos_iff.mpr hcs⟩

/-- The search goes on from where a turn of the walk leads to. -/
theorem closingFrom?_walkTurn (depth here : Nat) {cs : List Char} (hcs : cs ≠ []) :
    closingFrom? name depth here 0 cs =
      match walkTurn (name = nestingName) name depth cs with
      | .done found => found.map fun length => (here, here + length)
      | .again (length, depth) => closingFrom? name depth (here + length) 0 (cs.drop length) := by
  by_cases hmark : ('<' :: '/' :: name) <+: cs
  · obtain ⟨rest, rfl⟩ := hmark
    have hdrop (n : Nat) : ('<' :: '/' :: name ++ rest).drop (name.length + 2 + n) = rest.drop n := by
      rw [← List.drop_drop, List.drop_left' (by simp)]
    rw [closingFrom?_mark, walkTurn_mark]
    split
    · cases find? ['>'] rest with
      | none => rfl
      | some distance =>
          cases depth with
          | zero => rfl
          | succ depth =>
              have hlength : name.length + distance + 3 = name.length + 2 + (distance + 1) := by omega
              simp only
              rw [hlength, hdrop]
    · simp only
      rw [← Nat.add_zero (name.length + 2), hdrop, List.drop_zero]
  · obtain ⟨c, cs, rfl⟩ := List.exists_cons_of_ne_nil hcs
    rw [closingFrom?_cons_of_no_mark depth here hmark, walkTurn_of_no_mark hmark]
    cases hopens : opensAt name (c :: cs) with
    | false => rfl
    | true =>
        -- the letters behind the angle of an opening have no angle among them
        obtain ⟨hnesting, rest, hrest, -⟩ := eq_of_opensAt hopens
        obtain ⟨rfl, rfl⟩ : c = '<' ∧ cs = name ++ rest := by simpa using hrest
        have hname : '<' ∉ name := hnesting ▸ nestingName_angle
        simp only [if_true, List.drop_succ_cons, List.drop_left]
        rw [closingFrom?_append_of_notMem _ _ hname, Nat.add_assoc, Nat.add_comm 1]

end Turn

/-! ### The whole walk -/

/-- A walk through the rest of a text finds what the search finds there, at its byte offsets. -/
theorem walk?_eq_closingFrom? (text : String) (name : List Char) {k : Nat} {cs : List Char}
    (hcs : text.toList.drop k = cs) (depth skip : Nat) :
    walk? (name = nestingName) name depth (placeOf text k) skip cs =
      (closingFrom? name depth k skip cs).map fun (a, b) => (placeOf text a, placeOf text b) := by
  induction cs generalizing k depth skip with
  | nil => rfl
  | cons c cs ih =>
      have hnext : text.toList.drop (k + 1) = cs := by
        rw [← List.drop_drop, hcs, List.drop_succ_cons, List.drop_zero]
      have hplace : placeOf text k + c.utf8Size = placeOf text (k + 1) := by
        rw [placeOf_add, hcs]
        rfl
      cases skip with
      | succ skip => rw [walk?, closingFrom?, hplace, ih hnext]
      | zero =>
          rw [walk?, closingFrom?_walkTurn depth k (List.cons_ne_nil c cs)]
          cases hturn : walkTurn (name = nestingName) name depth (c :: cs) with
          | done found =>
              simp only [Option.map_map]
              refine Option.map_congr fun length _ => ?_
              rw [← hcs, ← placeOf_add]
              rfl
          | again state =>
              obtain ⟨length, depth'⟩ := state
              obtain ⟨hpos, hfits⟩ := walkTurn_ahead (List.cons_ne_nil c cs) hturn
              obtain ⟨rest, rfl⟩ := Nat.exists_eq_add_of_le' hpos
              rw [List.length_cons, Nat.add_le_add_iff_right] at hfits
              simp only [Nat.add_sub_cancel, List.drop_succ_cons]
              rw [hplace, ih hnext, closingFrom?_drop depth' (k + 1) hfits, Nat.add_assoc,
                Nat.add_comm 1]

/-- The search for a closing tag from a place of a text, by jumps and counts, and a walk from there
find the same tag: for templates a walk that counts the blocks that are open, for all other names one
that does not. -/
theorem closing_in_one_pass {text : String} {front rest : List Char}
    (h : text.toList = front ++ rest) (name : List Char) :
    let start := byteLength front
    let found := walk? (name = nestingName) name 0 start 0 rest
    closingAt text name start = .ok found ∧
      (closing? name rest).map (fun (stop, length) =>
        (start + byteLength (rest.take stop), start + byteLength (rest.take length))) = found := by
  intro start found
  have hrest : text.toList.drop front.length = rest := by rw [h, List.drop_left]
  have hstart : placeOf text front.length = start := by rw [placeOf, h, List.take_left]
  have hplace (n : Nat) : placeOf text (front.length + n) = start + byteLength (rest.take n) := by
    rw [placeOf_add, hstart, hrest]
  have hfound : (closing? name rest).map (fun (stop, length) =>
      (start + byteLength (rest.take stop), start + byteLength (rest.take length))) = found := by
    have hwalk := walk?_eq_closingFrom? text name hrest 0 0
    have hmoved := @closingFrom?_add name front.length 0 0 0 rest
    rw [Nat.add_zero] at hmoved
    rw [hstart, hmoved, Option.map_map] at hwalk
    rw [show found = _ from hwalk]
    refine Option.map_congr fun tag _ => ?_
    exact Prod.ext (hplace tag.1).symm (hplace tag.2).symm
  have hfits : front.length ≤ text.toList.length := by
    rw [h, List.length_append]
    exact Nat.le_add_right _ _
  refine ⟨?_, hfound⟩
  rw [← hfound, ← hstart, closingAt_placeOf text name hfits, hrest, hstart]
  simp only [hplace]

/-- In the content of a template a look-alike of its closing tag, a look-alike of an opening, and one
more opening within the closing tag of an inner template. The letters of another closing tag stand
where the text ends, so that no angle follows them. -/
theorem closing_in_one_pass_nested :
    let front := "é<template>".toList
    let rest :=
      "<template ü></templates><templatex></template <template>></template\n></php".toList
    let text := String.ofList (front ++ rest)
    text.toList = front ++ rest ∧ byteLength front = 12 ∧
      closingAt text nestingName 12 = .ok (some (70, 82)) ∧
      closing? nestingName rest = some (57, 69) ∧ closingAt text "php".toList 12 = .ok none := by
  intro front rest text
  have htext : text.toList = front ++ rest := String.toList_ofList
  have hstart : byteLength front = 12 := by decide
  obtain ⟨htemplate, -⟩ := closing_in_one_pass htext nestingName
  obtain ⟨hother, -⟩ := closing_in_one_pass htext "php".toList
  rw [hstart] at htemplate hother
  refine ⟨htext, hstart, ?_, by decide, ?_⟩
  · rw [htemplate]
    exact congrArg Except.ok (by decide)
  · rw [hother]
    exact congrArg Except.ok (by decide)

end BlockExports.Component
