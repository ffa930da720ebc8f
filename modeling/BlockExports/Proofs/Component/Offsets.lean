import BlockExports.Proofs.Component.Markup
import BlockExports.Proofs.Text.Slices

/-!
The scan with byte offsets.

`scan` walks over the characters of a file. This is the same scan as it works on bytes: it keeps
offsets into the text, cuts out the parts between them, looks for marks in those parts, and goes on
at sums of offsets. A `Fault` says what can go wrong on the way.

`placeOf` is the byte offset of a character that is given by its number. A part between two such
places can be cut out (`slice_placeOf`), and what is found in it is at such a place again
(`placeOf_add`, `placeOf_behind_mark`). A loop that goes from place to place is described by what it
computes there (`Computes`), from which it follows that it ends (`Computes.loop_eq`) and that each
of its turns gets ahead (`Computes.keepsAhead`).
-/

namespace BlockExports.Component

open Text

/-! ### What can go wrong -/

/-- A scan that cannot go on. -/
inductive Fault where
  /-- a part whose ends are in the wrong order, behind the text, or inside of a character -/
  | part (start stop : Nat)
  /-- a level left where none was entered -/
  | level
  /-- a loop that does not get ahead from a place, or gets ahead too far -/
  | standstill (place : Nat)
  deriving DecidableEq, Repr

/-- Whether a text can be cut at a byte offset. -/
def CutsAt (text : String) (place : Nat) : Prop := String.Pos.Raw.IsValid text ⟨place⟩

instance (text : String) (place : Nat) : Decidable (CutsAt text place) :=
  inferInstanceAs (Decidable (String.Pos.Raw.IsValid text ⟨place⟩))

/-- The part of a text between two byte offsets. -/
def slice (text : String) (start stop : Nat) : Except Fault String :=
  if h : CutsAt text start ∧ CutsAt text stop ∧ start ≤ stop then
    .ok (String.extract (text.pos ⟨start⟩ h.1) (text.pos ⟨stop⟩ h.2.1))
  else .error (.part start stop)

/-- The part of a text from a byte offset on. -/
def sliceFrom (text : String) (start : Nat) : Except Fault String :=
  slice text start text.utf8ByteSize

/-- One level less. -/
def leave : Nat → Except Fault Nat
  | 0 => .error .level
  | depth + 1 => .ok depth

/-! ### Loops -/

/-- How one turn of a loop ends. -/
inductive Turn (σ β : Type) where
  | again (state : σ)
  | done (result : β)
  deriving DecidableEq, Repr

/-- Takes turns, each at a later place of the text than the one before and none of them behind
`limit`. -/
def loop {σ β : Type} (limit : Nat) (turn : Nat × σ → Except Fault (Turn (Nat × σ) β))
    (state : Nat × σ) : Except Fault β :=
  match turn state with
  | .error fault => .error fault
  | .ok (.done result) => .ok result
  | .ok (.again next) =>
    if state.1 < next.1 ∧ next.1 ≤ limit then loop limit turn next
    else .error (.standstill state.1)
termination_by limit - state.1

/-! ### The scan -/

/-- The byte offset of a mark in a part of a text. -/
def findByte? (mark : List Char) (part : String) : Option Nat :=
  (find? mark part.toList).map fun n => byteLength (part.toList.take n)

/-- Whether the name of a tag ends at a place. -/
def endsNameAt (text : String) (place : Nat) : Except Fault Bool := do
  let rest ← sliceFrom text place
  return atBoundary rest.toList

/-- The tag name at the start of a part. -/
def nameOf (part : String) : Except Fault (Option String) := do
  let name ← slice part 0 (byteLength (part.toList.takeWhile isNameChar))
  return if name.toList.head?.any Char.isAlpha then some name else none

/-- The place just behind the angle of an opening tag whose name ends at a place. -/
def openingEnd (text : String) (place : Nat) : Except Fault (Option Nat) := do
  let rest ← sliceFrom text place
  return (tagEnd? none rest.toList).map fun n => place + byteLength (rest.toList.take (n - 1)) + 1

/-- Looks for one more opening of a tag before the place `limit`, and counts it. -/
def countTurn (text : String) (tag : List Char) (limit : Nat) :
    Nat × Nat → Except Fault (Turn (Nat × Nat) Nat)
  | (place, depth) => do
    let part ← slice text place limit
    match findByte? tag part with
    | none => return .done depth
    | some distance =>
      let behind := place + distance + byteLength tag
      let counts ← endsNameAt text behind
      return .again (behind, if counts then depth + 1 else depth)

/-- The levels that are open at a closing tag. -/
def levelsAt (text : String) (name : List Char) (mark : Nat) (state : Nat × Nat) :
    Except Fault Nat :=
  if name = nestingName then loop mark (countTurn text ('<' :: name) mark) state else .ok state.2

/-- Looks for the next closing tag. The result is where it starts and the place behind it. -/
def closingTurn (text : String) (name : List Char) :
    Nat × Nat → Except Fault (Turn (Nat × Nat) (Option (Nat × Nat)))
  | (place, depth) => do
    let rest ← sliceFrom text place
    match findByte? ('<' :: '/' :: name) rest with
    | none => return .done none
    | some distance =>
      let mark := place + distance
      let depth ← levelsAt text name mark (place, depth)
      let behind := mark + byteLength ('<' :: '/' :: name)
      if ← endsNameAt text behind then
        let rest ← sliceFrom text behind
        match findByte? ['>'] rest with
        | none => return .done none
        | some distance =>
          let stop := behind + distance + 1
          if depth = 0 then return .done (some (mark, stop))
          else return .again (stop, ← leave depth)
      else return .again (behind, depth)

/-- The closing tag of a block whose content starts at a place. -/
def closingAt (text : String) (name : List Char) (place : Nat) :
    Except Fault (Option (Nat × Nat)) :=
  loop text.utf8ByteSize (closingTurn text name) (place, 0)

/-- What becomes of the blocks so far with the block or the empty element at a place, whose opening
tag ends at the place `content`. -/
def elementTurn (text name : String) (content : Nat) (blocks : List Block) :
    Except Fault (Turn (Nat × List Block) (List Block)) := do
  let before ← slice text 0 content
  if "/>".toList.isSuffixOf before.toList then return .again (content, blocks)
  else
    match ← closingAt text name.toList content with
    | none => return .done blocks
    | some (stop, behind) =>
      if standardTags.contains name.toList then return .again (behind, blocks)
      else
        let body ← slice text content stop
        let b : Block :=
          { name := blockName blocks.length, type := name, content := body, start := content }
        return .again (behind, blocks ++ [b])

/-- What becomes of the blocks so far at the tag at a place, with which the part `rest` begins. -/
def tagTurn (text rest : String) (start : Nat) (blocks : List Block) :
    Except Fault (Turn (Nat × List Block) (List Block)) := do
  match ← nameOf (← sliceFrom rest 1) with
  | none => return .again (start + 1, blocks)
  | some name =>
    match ← openingEnd text (start + 1 + name.utf8ByteSize) with
    | none => return .done blocks
    | some content => elementTurn text name content blocks

/-- What becomes of the blocks so far at the angle at a place. -/
def angleTurn (text : String) (start : Nat) (blocks : List Block) :
    Except Fault (Turn (Nat × List Block) (List Block)) := do
  let rest ← sliceFrom text start
  if "<!--".toList.isPrefixOf rest.toList then
    match findByte? "-->".toList rest with
    | none => return .done blocks
    | some distance => return .again (start + distance + 3, blocks)
  else tagTurn text rest start blocks

/-- Looks for the next angle. -/
def scanTurn (text : String) :
    Nat × List Block → Except Fault (Turn (Nat × List Block) (List Block))
  | (place, blocks) => do
    let rest ← sliceFrom text place
    match findByte? ['<'] rest with
    | none => return .done blocks
    | some distance => angleTurn text (place + distance) blocks

/-- The custom blocks of a text, by byte offsets. -/
def scanBytes (text : String) : Except Fault (List Block) :=
  loop text.utf8ByteSize (scanTurn text) (0, [])

/-! ### Places -/

/-- A text can be cut where it falls apart into two runs of characters. -/
theorem cutsAt_iff {text : String} {place : Nat} :
    CutsAt text place ↔ ∃ xs ys, text.toList = xs ++ ys ∧ place = byteLength xs := by
  rw [CutsAt, String.Pos.Raw.isValid_iff_exists_append]
  constructor
  · rintro ⟨s, t, rfl, hplace⟩
    refine ⟨s.toList, t.toList, String.toList_append, ?_⟩
    rw [byteLength_toList]
    exact congrArg String.Pos.Raw.byteIdx hplace
  · rintro ⟨xs, ys, htext, rfl⟩
    refine ⟨String.ofList xs, String.ofList ys, ?_, ?_⟩
    · rw [← String.ofList_append, ← htext, String.ofList_toList]
    · rw [byteLength_eq_size]
      rfl

theorem slice_eq {text : String} {xs ys zs : List Char} (h : text.toList = xs ++ ys ++ zs) :
    slice text (byteLength xs) (byteLength (xs ++ ys)) = .ok (String.ofList ys) := by
  have hstart : CutsAt text (byteLength xs) := cutsAt_iff.mpr ⟨xs, ys ++ zs, by simp [h], rfl⟩
  have hstop : CutsAt text (byteLength (xs ++ ys)) := cutsAt_iff.mpr ⟨xs ++ ys, zs, h, rfl⟩
  have hle : byteLength xs ≤ byteLength (xs ++ ys) := by simp
  rw [slice, dif_pos ⟨hstart, hstop, hle⟩]
  refine congrArg Except.ok (String.toByteArray_inj.mp ?_)
  have hbytes := @extract_part text (String.ofList ys) xs zs (by rw [String.toList_ofList, h])
  rw [← byteLength_eq_size, ← byteLength_append] at hbytes
  exact hbytes

/-- The byte offset of a character, given by its number. -/
def placeOf (text : String) (k : Nat) : Nat := byteLength (text.toList.take k)

section Places

variable (text : String)

theorem placeOf_zero : placeOf text 0 = 0 := by simp [placeOf]

theorem placeOf_of_length_le {k : Nat} (h : text.toList.length ≤ k) :
    placeOf text k = text.utf8ByteSize := by
  rw [placeOf, List.take_of_length_le h, byteLength_toList]

theorem placeOf_add (k n : Nat) :
    placeOf text (k + n) = placeOf text k + byteLength ((text.toList.drop k).take n) := by
  rw [placeOf, List.take_add, byteLength_append, placeOf]

theorem placeOf_mono {j k : Nat} (h : j ≤ k) : placeOf text j ≤ placeOf text k := by
  obtain ⟨n, rfl⟩ := Nat.exists_eq_add_of_le h
  rw [placeOf_add]
  exact Nat.le_add_right _ _

theorem placeOf_lt {j k : Nat} (h : j < k) (hk : k ≤ text.toList.length) :
    placeOf text j < placeOf text k := by
  obtain ⟨n, rfl⟩ := Nat.exists_eq_add_of_le (Nat.le_of_lt h)
  have hpart : 0 < ((text.toList.drop j).take n).length := by
    rw [List.length_take, List.length_drop]
    omega
  have hbytes := length_le_byteLength ((text.toList.drop j).take n)
  rw [placeOf_add]
  omega

variable {text}

/-- The place behind a mark. -/
theorem placeOf_add_mark {k : Nat} {mark : List Char} (h : mark <+: text.toList.drop k) :
    placeOf text k + byteLength mark = placeOf text (k + mark.length) := by
  rw [placeOf_add, ← List.prefix_iff_eq_take.mp h]

theorem placeOf_behind_mark {k n : Nat} {mark : List Char} (hmark : mark ≠ [])
    (h : find? mark (text.toList.drop k) = some n) :
    placeOf text (k + n) + byteLength mark = placeOf text (k + n + mark.length) := by
  obtain ⟨hat, -⟩ := (find?_eq_some_iff hmark _ n).mp h
  rw [List.drop_drop] at hat
  exact placeOf_add_mark hat

theorem cutsAt_iff_exists_placeOf {place : Nat} :
    CutsAt text place ↔ ∃ k ≤ text.toList.length, place = placeOf text k := by
  rw [cutsAt_iff]
  constructor
  · rintro ⟨xs, ys, htext, rfl⟩
    exact ⟨xs.length, by simp [htext], by rw [placeOf, htext, List.take_left]⟩
  · rintro ⟨k, -, rfl⟩
    exact ⟨_, _, (List.take_append_drop k _).symm, rfl⟩

theorem slice_placeOf (text : String) {j k : Nat} (h : j ≤ k) :
    slice text (placeOf text j) (placeOf text k) =
      .ok (String.ofList ((text.toList.drop j).take (k - j))) := by
  obtain ⟨n, rfl⟩ := Nat.exists_eq_add_of_le h
  have hsplit : text.toList =
      text.toList.take j ++ (text.toList.drop j).take n ++ text.toList.drop (j + n) := by
    rw [← List.take_add, List.take_append_drop]
  have hslice := slice_eq hsplit
  rw [Nat.add_sub_cancel_left]
  rwa [← List.take_add] at hslice

theorem sliceFrom_placeOf (text : String) (k : Nat) :
    sliceFrom text (placeOf text k) = .ok (String.ofList (text.toList.drop k)) := by
  have hend : placeOf text (max text.toList.length k) = text.utf8ByteSize :=
    placeOf_of_length_le text (Nat.le_max_left _ _)
  have hall : (text.toList.drop k).take (max text.toList.length k - k) = text.toList.drop k := by
    rw [List.take_of_length_le]
    rw [List.length_drop]
    omega
  rw [sliceFrom, ← hend, slice_placeOf text (Nat.le_max_right _ _), hall]

theorem findByte?_ofList (mark cs : List Char) :
    findByte? mark (String.ofList cs) = (find? mark cs).map fun n => byteLength (cs.take n) := by
  rw [findByte?, String.toList_ofList]

end Places

/-! ### Turns -/

section Loop

variable {σ β : Type} {limit : Nat} {turn : Nat × σ → Except Fault (Turn (Nat × σ) β)}

theorem loop_done {s : Nat × σ} {b : β} (h : turn s = .ok (.done b)) :
    loop limit turn s = .ok b := by
  rw [loop, h]

theorem loop_again {s t : Nat × σ} (h : turn s = .ok (.again t)) (hlt : s.1 < t.1)
    (hle : t.1 ≤ limit) : loop limit turn s = loop limit turn t := by
  rw [loop, h]
  exact if_pos ⟨hlt, hle⟩

/-- The states that a loop comes to. -/
inductive Reaches (turn : Nat × σ → Except Fault (Turn (Nat × σ) β)) :
    Nat × σ → Nat × σ → Prop where
  | start (s : Nat × σ) : Reaches turn s s
  | turn {s t u : Nat × σ} (h : turn s = .ok (.again t)) (hrest : Reaches turn t u) :
      Reaches turn s u

/-- A turn comes to an end, and if there is another one, it is at a later place that is not behind
the limit. -/
def GetsAhead (limit : Nat) (turn : Nat × σ → Except Fault (Turn (Nat × σ) β)) (s : Nat × σ) :
    Prop :=
  ∃ result, turn s = .ok result ∧ ∀ t, result = .again t → s.1 < t.1 ∧ t.1 ≤ limit

/-- All turns of a loop get ahead. -/
def KeepsAhead (limit : Nat) (turn : Nat × σ → Except Fault (Turn (Nat × σ) β)) (s : Nat × σ) :
    Prop :=
  ∀ t, Reaches turn s t → GetsAhead limit turn t

/-- At the first `m` characters of a text a loop computes `value`: each turn ends with it, or leaves
it the same and goes on at a later character. -/
def Computes (text : String) (m : Nat) (turn : Nat × σ → Except Fault (Turn (Nat × σ) β))
    (value : Nat → σ → β) : Prop :=
  ∀ k ≤ m, ∀ a,
    turn (placeOf text k, a) = .ok (.done (value k a)) ∨
      ∃ next b, turn (placeOf text k, a) = .ok (.again (placeOf text next, b)) ∧
        k < next ∧ next ≤ m ∧ value k a = value next b

section Computes

variable {text : String} {m : Nat} {value : Nat → σ → β}

theorem Computes.loop_eq (h : Computes text m turn value) (hm : m ≤ text.toList.length) {k : Nat}
    (hk : k ≤ m) (a : σ) : loop (placeOf text m) turn (placeOf text k, a) = .ok (value k a) := by
  induction hroom : m - k using Nat.strong_induction_on generalizing k a with
  | _ room ih =>
      rcases h k hk a with hdone | ⟨next, b, hagain, hlt, hle, hvalue⟩
      · exact loop_done hdone
      · have hlater : placeOf text k < placeOf text next :=
          placeOf_lt text hlt (Nat.le_trans hle hm)
        rw [loop_again hagain hlater (placeOf_mono text hle), hvalue,
          ih (m - next) (by omega) hle b rfl]

theorem Computes.keepsAhead (h : Computes text m turn value) (hm : m ≤ text.toList.length)
    {k : Nat} (hk : k ≤ m) (a : σ) : KeepsAhead (placeOf text m) turn (placeOf text k, a) := by
  suffices hplaces : ∀ s t, Reaches turn s t → (∃ k ≤ m, ∃ a, s = (placeOf text k, a)) →
      GetsAhead (placeOf text m) turn t from
    fun t ht => hplaces _ t ht ⟨k, hk, a, rfl⟩
  intro s t hreaches
  induction hreaches with
  | start s =>
      rintro ⟨k, hk, a, rfl⟩
      rcases h k hk a with hdone | ⟨next, b, hagain, hlt, hle, -⟩
      · exact ⟨_, hdone, by simp⟩
      · refine ⟨_, hagain, fun t ht => ?_⟩
        obtain rfl := Turn.again.inj ht
        exact ⟨placeOf_lt text hlt (Nat.le_trans hle hm), placeOf_mono text hle⟩
  | @turn s t u hturn _ ih =>
      rintro ⟨k, hk, a, rfl⟩
      rcases h k hk a with hdone | ⟨next, b, hagain, -, hle, -⟩
      · simp [hdone] at hturn
      · rw [hagain] at hturn
        obtain rfl := Turn.again.inj (Except.ok.inj hturn)
        exact ih ⟨next, hle, b, rfl⟩

end Computes

end Loop

/-! ### Readers -/

theorem ok_bind {α β : Type} (a : α) (f : α → Except Fault β) :
    (Except.ok a >>= f) = f a := rfl

section Turns

variable (text : String)

theorem endsNameAt_placeOf (k : Nat) :
    endsNameAt text (placeOf text k) = .ok (atBoundary (text.toList.drop k)) := by
  rw [endsNameAt, sliceFrom_placeOf, ok_bind, String.toList_ofList]
  rfl

theorem nameOf_ofList (cs : List Char) :
    nameOf (String.ofList cs) = .ok ((tagName? cs).map String.ofList) := by
  have hsplit : (String.ofList cs).toList =
      [] ++ cs.takeWhile isNameChar ++ cs.dropWhile isNameChar := by simp
  have hslice := slice_eq hsplit
  rw [byteLength_nil, List.nil_append] at hslice
  rw [nameOf, String.toList_ofList, hslice, ok_bind, String.toList_ofList, tagName?]
  split
  · rfl
  · rfl

theorem openingEnd_placeOf (k : Nat) :
    openingEnd text (placeOf text k) =
      .ok ((tagEnd? none (text.toList.drop k)).map fun n => placeOf text (k + n)) := by
  rw [openingEnd, sliceFrom_placeOf, ok_bind, String.toList_ofList]
  refine congrArg Except.ok (Option.map_congr fun n hn => ?_)
  obtain ⟨xs, ys, hcs, rfl⟩ := tagEnd?_eq_some hn
  have hangle : ['>'] <+: text.toList.drop (k + xs.length) :=
    ⟨ys, by rw [← List.drop_drop, hcs, List.drop_left]; rfl⟩
  have hone : byteLength ['>'] = 1 := rfl
  rw [Nat.add_sub_cancel, ← placeOf_add, ← hone, placeOf_add_mark hangle]
  rfl

end Turns

end BlockExports.Component
