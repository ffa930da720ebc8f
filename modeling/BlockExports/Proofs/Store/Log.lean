import BlockExports.Proofs.Store.View
import Mathlib.Data.List.DropRight
import Mathlib.Data.List.Nodup

/-!
The store as a log.

What a store says about a key can be read off the list of steps that led to it, without running
them: all that counts are the requests for the key since it was last removed. The last of them gives
the text that is noted, those whose text differs from the one before are computed, and the last
computation that did not break off gives the code. `get?_after` says that the store keeps exactly
this, by induction over the steps, the latest one last; `request_after` is what a caller sees.
-/

namespace BlockExports.Store

/-- Something that may be done with a store. -/
inductive Step where
  | request (key : Key) (content : String) (compute : String → Option (List Code))
  | invalidate (file : String)
  | clear
  | size

/-- The store that a step leaves behind. -/
def step (s : Store) : Step → Store
  | .request key content compute => (s.request key content compute).2
  | .invalidate file => s.invalidate file
  | .clear => s.clear
  | .size => s

/-- The store behind a list of steps. -/
def after (steps : List Step) : Store := steps.foldl step empty

/-- What a request hands over for its key. -/
structure Inquiry where
  content : String
  compute : String → Option (List Code)

/-- The code of an inquiry, unless its computation breaks off. -/
def Inquiry.result? (i : Inquiry) : Option (List Code) := i.compute i.content

namespace Step

/-- Whether a step removes a key. -/
def removes (key : Key) : Step → Bool
  | invalidate file => key.file = file
  | clear => true
  | _ => false

/-- What a step asks about a key. -/
def inquiry? (key : Key) : Step → Option Inquiry
  | request k content compute => if k = key then some ⟨content, compute⟩ else none
  | _ => none

/-- Whether a step asks about a key or removes it. -/
def concerns (key : Key) (t : Step) : Bool := t.removes key || (t.inquiry? key).isSome

end Step

/-- The inquiries about a key since it was last removed, the oldest first. -/
def inquiries (key : Key) (steps : List Step) : List Inquiry :=
  (steps.rtakeWhile (!·.removes key)).filterMap (·.inquiry? key)

/-- The text of the latest inquiry. -/
def latestText (l : List Inquiry) : String := (l.map (·.content)).getLastD ""

/-- The inquiries that are computed: those whose text is not the one of the inquiry before, which is
`noted` for the first. -/
def computed (noted : String) : List Inquiry → List Inquiry
  | [] => []
  | i :: l => if i.content = noted then computed i.content l else i :: computed i.content l

/-- The code of the latest computation that did not break off. -/
def latestCodes (l : List Inquiry) : List Code :=
  ((computed "" l).filterMap Inquiry.result?).getLastD []

/-! ### One more inquiry -/

@[simp] theorem latestText_concat (l : List Inquiry) (i : Inquiry) :
    latestText (l ++ [i]) = i.content := by
  simp [latestText]

theorem computed_concat (noted : String) (l : List Inquiry) (i : Inquiry) :
    computed noted (l ++ [i]) =
      computed noted l ++ if i.content = (l.map (·.content)).getLastD noted then [] else [i] := by
  induction l generalizing noted with
  | nil =>
      simp only [List.nil_append, computed, List.map_nil, List.getLastD_nil]
  | cons j l ih =>
      simp only [List.cons_append, computed, ih, List.map_cons, List.getLastD_cons]
      split <;> rfl

theorem latestCodes_concat (l : List Inquiry) (i : Inquiry) :
    latestCodes (l ++ [i]) =
      if i.content = latestText l then latestCodes l else i.result?.getD (latestCodes l) := by
  rw [latestCodes, computed_concat, ← latestText]
  split
  · rw [List.append_nil]
    rfl
  · rw [List.filterMap_append]
    cases hresult : i.result? with
    | none => simp [latestCodes, hresult]
    | some codes => simp [hresult]

theorem latestText_eq_empty {l : List Inquiry} (h : ∀ i ∈ l, i.content = "") :
    latestText l = "" := by
  induction l using List.reverseRecOn with
  | nil => rfl
  | append_singleton l i _ =>
      rw [latestText_concat]
      exact h i (by simp)

/-- Where all computations are those of one function, the latest code is the function's value at the
latest text, unless no inquiry had a text. -/
theorem latestCodes_of_function {l : List Inquiry} {codes : String → List Code}
    (h : ∀ i ∈ l, i.result? = some (codes i.content)) :
    latestCodes l = if ∀ i ∈ l, i.content = "" then [] else codes (latestText l) := by
  induction l using List.reverseRecOn with
  | nil => rfl
  | append_singleton l i ih =>
      have hall : (∀ j ∈ l ++ [i], j.content = "") ↔
          (∀ j ∈ l, j.content = "") ∧ i.content = "" := by
        simp only [List.forall_mem_append, List.forall_mem_singleton]
      rw [latestCodes_concat, latestText_concat, ih fun j hj => h j (by simp [hj]),
        h i (by simp), Option.getD_some, if_congr hall rfl rfl]
      by_cases hempty : ∀ j ∈ l, j.content = ""
      · rw [latestText_eq_empty hempty, if_pos hempty, if_congr (and_iff_right hempty) rfl rfl]
      · rw [if_neg hempty, @if_neg (_ ∧ _) _ fun hboth => hempty hboth.1]
        by_cases hsame : i.content = latestText l
        · rw [if_pos hsame, hsame]
        · rw [if_neg hsame]

/-! ### One more step -/

theorem inquiries_concat (key : Key) (steps : List Step) (t : Step) :
    inquiries key (steps ++ [t]) =
      if t.removes key then [] else inquiries key steps ++ (t.inquiry? key).toList := by
  unfold inquiries
  cases hremoves : t.removes key with
  | true => rw [List.rtakeWhile_concat_neg _ _ _ (by simp [hremoves])]; rfl
  | false =>
      rw [List.rtakeWhile_concat_pos _ _ _ (by simp [hremoves]), List.filterMap_append]
      cases hinquiry : t.inquiry? key <;> simp [hinquiry]

/-- A request changes the entry of its key alone. -/
theorem request_snd (s : Store) (key : Key) (content : String)
    (compute : String → Option (List Code)) :
    ∃ entry, (s.request key content compute).2 = s.insert key entry := by
  unfold request
  simp only
  split
  · exact ⟨_, rfl⟩
  · exact ⟨_, rfl⟩

theorem after_concat (steps : List Step) (t : Step) :
    after (steps ++ [t]) = (after steps).step t := by
  rw [after, List.foldl_append]
  rfl

theorem inquiries_request (key : Key) (steps : List Step) (k : Key) (content : String)
    (compute : String → Option (List Code)) :
    inquiries key (steps ++ [.request k content compute]) =
      if key = k then inquiries key steps ++ [⟨content, compute⟩] else inquiries key steps := by
  rw [inquiries_concat]
  by_cases hk : key = k
  · simp [Step.removes, Step.inquiry?, hk]
  · simp [Step.removes, Step.inquiry?, hk, Ne.symm hk]

theorem exists_of_mem_inquiries {key : Key} {steps : List Step} {i : Inquiry}
    (h : i ∈ inquiries key steps) : ∃ t ∈ steps, t.inquiry? key = some i := by
  obtain ⟨t, ht, hi⟩ := List.mem_filterMap.mp h
  exact ⟨t, (List.rtakeWhile_suffix _ _).subset ht, hi⟩

/-- Steps that neither ask about a key nor remove it do not count for it. -/
theorem inquiries_filter (key : Key) (steps : List Step) :
    inquiries key (steps.filter (·.concerns key)) = inquiries key steps := by
  induction steps using List.reverseRecOn with
  | nil => rfl
  | append_singleton steps t ih =>
      rw [List.filter_append, inquiries_concat]
      by_cases hconcerns : t.concerns key = true
      · rw [List.filter_cons_of_pos hconcerns, List.filter_nil, inquiries_concat, ih]
      · obtain ⟨hremoves, hinquiry⟩ : t.removes key = false ∧ t.inquiry? key = none := by
          simpa [Step.concerns] using hconcerns
        rw [List.filter_cons_of_neg hconcerns, List.filter_nil, List.append_nil, ih, hremoves,
          hinquiry]
        simp

/-! ### What the store keeps -/

/-- The entry that inquiries lead to. -/
def entryOf (l : List Inquiry) : Entry := ⟨latestText l, latestCodes l⟩

/-- One request, on a store that keeps for its key what some inquiries lead to. Text and code of the
new entry are those of the inquiries with this request behind them. -/
theorem request_of_entry {s : Store} {key : Key} {l : List Inquiry}
    (h : (s.get? key).getD .blank = entryOf l) (content : String)
    (compute : String → Option (List Code)) :
    s.request key content compute =
      (⟨if content = latestText l then none else some content,
        if content ≠ latestText l ∧ compute content = none then none
        else some (latestCodes (l ++ [⟨content, compute⟩]))⟩,
      s.insert key (entryOf (l ++ [⟨content, compute⟩]))) := by
  have hnew : entryOf (l ++ [⟨content, compute⟩]) =
      ⟨content, if content = latestText l then latestCodes l
        else (compute content).getD (latestCodes l)⟩ := by
    rw [entryOf, latestText_concat, latestCodes_concat]
    rfl
  rw [request, h, hnew, latestCodes_concat]
  by_cases hsame : content = latestText l
  · simp [entryOf, hsame]
  · have hother : ¬latestText l = content := Ne.symm hsame
    cases hresult : compute content <;>
      simp [entryOf, hsame, hother, hresult, Inquiry.result?]

/-- A request that does not break off is answered with the latest code. -/
theorem request_codes_of_entry {s : Store} {key : Key} {l : List Inquiry}
    (h : (s.get? key).getD .blank = entryOf l) {i : Inquiry} (hi : i.result? ≠ none) :
    (s.request key i.content i.compute).1.codes = some (latestCodes (l ++ [i])) := by
  have hdone : ¬(i.content ≠ latestText l ∧ i.compute i.content = none) := fun hbroken =>
    hi hbroken.2
  rw [request_of_entry h, if_neg hdone]

/-- For each key the store keeps what the inquiries about it lead to. -/
theorem get?_after (steps : List Step) (key : Key) :
    (after steps).get? key =
      if inquiries key steps = [] then none else some (entryOf (inquiries key steps)) := by
  induction steps using List.reverseRecOn with
  | nil => rfl
  | append_singleton steps t ih =>
      rw [after_concat]
      cases t with
      | request k content compute =>
          rw [inquiries_request]
          by_cases hk : key = k
          · subst hk
            have hentry : ((after steps).get? key).getD .blank = entryOf (inquiries key steps) := by
              rw [ih]
              split
              · next hnone => rw [hnone]; rfl
              · rfl
            rw [step, request_of_entry hentry, get?_insert, if_pos rfl, if_pos rfl,
              if_neg (List.concat_ne_nil _ _)]
          · obtain ⟨entry, hinsert⟩ := request_snd (after steps) k content compute
            rw [step, hinsert, get?_insert, if_neg hk, if_neg hk, ih]
      | invalidate file =>
          rw [step, get?_invalidate, inquiries_concat, ih]
          by_cases hfile : key.file = file <;>
            simp [Step.removes, Step.inquiry?, hfile]
      | clear => simp [step, inquiries_concat, Step.removes]
      | size => simpa [step, inquiries_concat, Step.removes, Step.inquiry?] using ih

/-- A key without an entry counts as one without inquiries. -/
theorem getD_after (steps : List Step) (key : Key) :
    ((after steps).get? key).getD .blank = entryOf (inquiries key steps) := by
  rw [get?_after]
  split
  · next hnone => rw [hnone]; rfl
  · rfl

/-! ### How many keys the store has -/

/-- The keys of the store. -/
def keys (s : Store) : List Key := s.entries.map (·.1)

theorem mem_keys_iff (s : Store) (key : Key) : key ∈ s.keys ↔ s.get? key ≠ none := by
  obtain ⟨entries⟩ := s
  simp only [keys, get?]
  induction entries with
  | nil => simp
  | cons pair rest ih =>
      obtain ⟨first, e⟩ := pair
      rw [List.map_cons, List.mem_cons, lookup_cons_eq_ite, ih]
      split <;> simp_all

theorem map_fst_put (key : Key) (entry : Entry) (entries : List (Key × Entry)) :
    (put key entry entries).map (·.1) =
      if key ∈ entries.map (·.1) then entries.map (·.1) else entries.map (·.1) ++ [key] := by
  induction entries with
  | nil => rfl
  | cons pair rest ih =>
      obtain ⟨first, e⟩ := pair
      rw [put]
      by_cases hfirst : first = key
      · simp [hfirst]
      · have hmem : key ∈ ((first, e) :: rest).map (·.1) ↔ key ∈ rest.map (·.1) := by
          rw [List.map_cons, List.mem_cons, or_iff_right (Ne.symm hfirst)]
        rw [if_neg hfirst, List.map_cons, ih, if_congr hmem rfl rfl]
        split
        · rfl
        · rfl

theorem keys_insert (s : Store) (key : Key) (entry : Entry) :
    (s.insert key entry).keys = if key ∈ s.keys then s.keys else s.keys ++ [key] :=
  map_fst_put key entry s.entries

/-- No step brings a key in twice. -/
theorem nodup_keys_step {s : Store} (hs : s.keys.Nodup) (t : Step) : (s.step t).keys.Nodup := by
  cases t with
  | request key content compute =>
      obtain ⟨entry, hinsert⟩ := request_snd s key content compute
      rw [step, hinsert, keys_insert]
      split
      · exact hs
      · next hnew =>
        rw [← List.concat_eq_append]
        exact List.Nodup.concat hnew hs
  | invalidate file => exact hs.sublist (List.filter_sublist.map _)
  | clear => exact List.nodup_nil
  | size => exact hs

theorem nodup_keys_after (steps : List Step) : (after steps).keys.Nodup := by
  induction steps using List.reverseRecOn with
  | nil => exact List.nodup_nil
  | append_singleton steps t ih =>
      rw [after_concat]
      exact nodup_keys_step ih t

theorem mem_keys_after_iff (steps : List Step) (key : Key) :
    key ∈ (after steps).keys ↔ inquiries key steps ≠ [] := by
  rw [mem_keys_iff, get?_after]
  split <;> simp_all

/-! ### What a caller sees -/

/-- A request behind a list of steps is computed, from its own text, when this text differs from the
latest one; unless that breaks off, the answer is the latest code, this computation included. The
size is the number of keys with inquiries. None of this depends on steps that concern other keys. -/
theorem request_after (steps : List Step) (key : Key) (content : String)
    (compute : String → Option (List Code)) :
    let asked := inquiries key steps
    let answer := ((after steps).request key content compute).1
    answer.computed = (if content = latestText asked then none else some content) ∧
      answer.codes =
        (if content ≠ latestText asked ∧ compute content = none then none
        else some (latestCodes (asked ++ [⟨content, compute⟩]))) ∧
      (∃ keys : List Key, keys.Nodup ∧ (∀ k, k ∈ keys ↔ inquiries k steps ≠ []) ∧
        (after steps).size = keys.length) ∧
      ∀ others : List Step, others.filter (·.concerns key) = steps.filter (·.concerns key) →
        ((after others).request key content compute).1 = answer := by
  intro asked answer
  have hanswer : answer = _ :=
    congrArg Prod.fst (request_of_entry (getD_after steps key) content compute)
  refine ⟨congrArg Response.computed hanswer, congrArg Response.codes hanswer,
    ⟨(after steps).keys, nodup_keys_after steps, mem_keys_after_iff steps, ?_⟩, ?_⟩
  · exact (List.length_map _).symm
  · intro others hothers
    have hasked : inquiries key others = asked := by
      rw [← inquiries_filter key others, hothers, inquiries_filter]
    rw [hanswer, request_of_entry (getD_after others key), hasked]

/-- A computation that broke off leaves its text behind, so that the same text is answered with the
code from before; a request for another file and its removal make no difference. -/
theorem request_after_broken_off :
    let a : Key := ⟨"A.vue", "customBlock_0"⟩
    let b : Key := ⟨"B.vue", "customBlock_0"⟩
    let compute (content : String) : Option (List Code) := some [.text content]
    let others : List Step := [.request a "x" compute, .request a "y" fun _ => none]
    let steps : List Step := [.request a "x" compute, .request b "z" compute,
      .request a "y" fun _ => none, .size, .invalidate "B.vue"]
    let answer := ((after steps).request a "y" compute).1
    others.filter (·.concerns a) = steps.filter (·.concerns a) ∧
      answer.computed = none ∧ answer.codes = some [.text "x"] ∧
      ((after others).request a "y" compute).1 = answer := by
  intro a b compute others steps answer
  obtain ⟨hcomputed, hcodes, -, hothers⟩ := request_after steps a "y" compute
  have hsame : others.filter (·.concerns a) = steps.filter (·.concerns a) := rfl
  exact ⟨hsame, hcomputed.trans (by decide), hcodes.trans (by decide), hothers others hsame⟩

end BlockExports.Store
