import BlockExports.Proofs.Store.Log

/-!
What a computation that breaks off leaves behind.

A request notes its text before the code is computed and the code afterwards. When the computation
breaks off in between, the new text stands with the code of an old one, just as if the new text had
given that code: the next request for it is answered with code that was never computed from it, and
only a request for some other text sets the key right. `responses_eq_iff` compares two stores that
differ in the text of one key by the responses they give later on, by induction over the steps; the
key's next inquiry decides. `responses_after_break` says what this means for a request that broke
off.
-/

namespace BlockExports

namespace Entry

/-- The entry that an inquiry leaves. -/
def renewed (e : Entry) (i : Store.Inquiry) : Entry :=
  if e.content = i.content then e else ⟨i.content, i.result?.getD e.codes⟩

/-- The response to an inquiry. -/
def response (e : Entry) (i : Store.Inquiry) : Response :=
  if e.content = i.content then ⟨none, some e.codes⟩ else ⟨some i.content, i.result?⟩

variable {e e' : Entry} {i : Store.Inquiry}

/-- Entries with one code and two texts respond alike to an inquiry about a third text. -/
theorem response_eq_iff (hcontent : e.content ≠ e'.content) :
    e.response i = e'.response i ↔ i.content ≠ e.content ∧ i.content ≠ e'.content := by
  unfold response
  by_cases hleft : e.content = i.content
  · have hright : e'.content ≠ i.content := fun h => hcontent (hleft.trans h.symm)
    simp [hleft, hright]
  · by_cases hright : e'.content = i.content
    · simp [hleft, hright]
    · simp [hleft, hright, Ne.symm hleft, Ne.symm hright]

/-- Such an inquiry leaves them alike. -/
theorem renewed_congr (hcodes : e.codes = e'.codes) (hleft : i.content ≠ e.content)
    (hright : i.content ≠ e'.content) : e.renewed i = e'.renewed i := by
  rw [renewed, renewed, if_neg (Ne.symm hleft), if_neg (Ne.symm hright), hcodes]

/-- An inquiry that breaks off leaves its text and the code from before. -/
theorem renewed_of_break (h : (e.response i).codes = none) :
    e.renewed i = ⟨i.content, e.codes⟩ ∧ e.content ≠ i.content := by
  unfold response at h
  split at h
  · simp at h
  · next hother =>
    have hresult : i.result? = none := h
    rw [renewed, if_neg hother, hresult]
    exact ⟨rfl, hother⟩

end Entry

namespace Store

/-! ### One step -/

theorem request_eq_entry (s : Store) (key : Key) (i : Inquiry) :
    s.request key i.content i.compute =
      ((s.entry key).response i, s.insert key ((s.entry key).renewed i)) := by
  unfold request Entry.response Entry.renewed entry
  simp only
  split <;> rfl

/-- A step removes a key, renews its entry or leaves it alone. -/
theorem entry_step (s : Store) (t : Step) (key : Key) :
    (s.step t).entry key =
      if t.removes key then .blank
      else (t.inquiry? key).elim (s.entry key) (s.entry key).renewed := by
  cases t with
  | request k content compute =>
      rw [step, request_eq_entry s k ⟨content, compute⟩, entry_insert]
      by_cases hk : key = k
      · simp [Step.removes, Step.inquiry?, hk]
      · simp [Step.removes, Step.inquiry?, hk, Ne.symm hk]
  | invalidate file => simp [step, Step.removes, Step.inquiry?]
  | clear => simp [step, Step.removes]
  | size => simp [step, Step.removes, Step.inquiry?]

/-- The response to a step, if it is a request. -/
def response? (s : Store) : Step → Option Response
  | .request key content compute => some (s.request key content compute).1
  | _ => none

theorem response?_of_inquiry? {s : Store} {t : Step} {key : Key} {i : Inquiry}
    (h : t.inquiry? key = some i) : s.response? t = some ((s.entry key).response i) := by
  cases t with
  | request k content compute =>
      obtain ⟨rfl, rfl⟩ : k = key ∧ (⟨content, compute⟩ : Inquiry) = i := by
        simpa [Step.inquiry?] using h
      exact congrArg some (congrArg Prod.fst (request_eq_entry s k ⟨content, compute⟩))
  | invalidate => simp [Step.inquiry?] at h
  | clear => simp [Step.inquiry?] at h
  | size => simp [Step.inquiry?] at h

/-- A response depends on the entry of the request's key alone. -/
theorem response?_congr {s s' : Store} {t : Step}
    (h : ∀ key i, t.inquiry? key = some i → s.entry key = s'.entry key) :
    s.response? t = s'.response? t := by
  cases t with
  | request key content compute =>
      have hinquiry : (Step.request key content compute).inquiry? key =
          some ⟨content, compute⟩ := if_pos rfl
      rw [response?_of_inquiry? hinquiry, response?_of_inquiry? hinquiry, h key _ hinquiry]
  | invalidate => rfl
  | clear => rfl
  | size => rfl

/-! ### Later steps -/

/-- The responses to the requests among some steps. -/
def responses (s : Store) : List Step → List Response
  | [] => []
  | t :: later => (s.response? t).toList ++ responses (s.step t) later

/-- The next inquiry about a key, unless the key is removed before. -/
def nextInquiry? (key : Key) (later : List Step) : Option Inquiry :=
  (later.find? (·.concerns key)).bind (·.inquiry? key)

theorem responses_congr {s s' : Store} (h : ∀ key, s.entry key = s'.entry key)
    (later : List Step) : s.responses later = s'.responses later := by
  induction later generalizing s s' with
  | nil => rfl
  | cons t later ih =>
      have hstep : ∀ key, (s.step t).entry key = (s'.step t).entry key := by
        intro key
        rw [entry_step, entry_step, h key]
      rw [responses, responses, ih hstep, response?_congr fun key _ _ => h key]

/-- Two stores that differ only in the text of one key give the same responses until the key is asked
about, and for good if that is about neither of the texts. -/
theorem responses_eq_iff {s s' : Store} {key : Key}
    (hothers : ∀ k, k ≠ key → s.entry k = s'.entry k)
    (hcodes : (s.entry key).codes = (s'.entry key).codes)
    (hcontent : (s.entry key).content ≠ (s'.entry key).content) (later : List Step) :
    s.responses later = s'.responses later ↔
      ∀ i, nextInquiry? key later = some i →
        i.content ≠ (s.entry key).content ∧ i.content ≠ (s'.entry key).content := by
  induction later generalizing s s' with
  | nil => simp [responses, nextInquiry?]
  | cons t later ih =>
      rw [responses, responses]
      -- all other keys stay as they are in both stores
      have hsteps : ∀ k, k ≠ key → (s.step t).entry k = (s'.step t).entry k := by
        intro k hk
        rw [entry_step, entry_step, hothers k hk]
      by_cases hconcerns : t.concerns key = true
      · have hnext : nextInquiry? key (t :: later) = t.inquiry? key := by
          rw [nextInquiry?, List.find?_cons_of_pos hconcerns]
          rfl
        rw [hnext]
        cases hinquiry : t.inquiry? key with
        | none =>
            -- the key is removed, and with it the difference
            have hremoves : t.removes key = true := by
              simpa [Step.concerns, hinquiry] using hconcerns
            have hsame : ∀ k, (s.step t).entry k = (s'.step t).entry k := by
              intro k
              by_cases hk : k = key
              · rw [hk, entry_step, entry_step, if_pos hremoves, if_pos hremoves]
              · exact hsteps k hk
            have hresponse : s.response? t = s'.response? t := by
              refine response?_congr fun k i hi => hothers k fun hk => ?_
              rw [hk, hinquiry] at hi
              simp at hi
            rw [hresponse, responses_congr hsame]
            simp
        | some i =>
            have hkept : t.removes key = false := by
              cases t <;> simp_all [Step.removes, Step.inquiry?]
            have hfirst := Entry.response_eq_iff (i := i) hcontent
            rw [response?_of_inquiry? hinquiry, response?_of_inquiry? hinquiry]
            simp only [Option.toList_some, List.singleton_append, List.cons.injEq,
              Option.some.injEq, forall_eq', hfirst]
            refine and_iff_left_of_imp fun hthird => responses_congr (fun k => ?_) later
            by_cases hk : k = key
            · rw [hk, entry_step, entry_step, hkept, hinquiry]
              exact Entry.renewed_congr hcodes hthird.1 hthird.2
            · exact hsteps k hk
      · obtain ⟨hremoves, hinquiry⟩ : t.removes key = false ∧ t.inquiry? key = none := by
          simpa [Step.concerns] using hconcerns
        have hkept (u : Store) : (u.step t).entry key = u.entry key := by
          rw [entry_step, hremoves, hinquiry]
          rfl
        have hnext : nextInquiry? key (t :: later) = nextInquiry? key later := by
          rw [nextInquiry?, List.find?_cons_of_neg hconcerns]
          rfl
        have hresponse : s.response? t = s'.response? t := by
          refine response?_congr fun k i hi => hothers k fun hk => ?_
          rw [hk, hinquiry] at hi
          simp at hi
        have hrest := ih hsteps (by rw [hkept, hkept, hcodes]) (by rwa [hkept, hkept])
        rw [hkept, hkept] at hrest
        rw [hresponse, List.append_cancel_left_eq, hrest, hnext]

/-! ### Behind a request that broke off -/

theorem entry_after (steps : List Step) (key : Key) :
    (after steps).entry key = entryOf (inquiries key steps) :=
  getD_after steps key

/-- A request that breaks off leaves the store that it would have left if its text had given the
code from before. From then on the same text is answered with that code and computed no more; all
responses are those of a store without the request exactly if the key is removed first or asked
about a third text. -/
theorem responses_after_break (steps : List Step) (key : Key) (content : String)
    (compute : String → Option (List Code))
    (hbroken : ((after steps).request key content compute).1.codes = none) :
    let asked := inquiries key steps
    let broken := ((after steps).request key content compute).2
    broken = ((after steps).request key content fun _ => some (latestCodes asked)).2 ∧
      (∀ again, (broken.request key content again).1 = ⟨none, some (latestCodes asked)⟩) ∧
      ∀ later, broken.responses later = (after steps).responses later ↔
        ∀ i, nextInquiry? key later = some i →
          i.content ≠ content ∧ i.content ≠ latestText asked := by
  intro asked broken
  have hentry : (after steps).entry key = entryOf asked := entry_after steps key
  have hrequest := request_eq_entry (after steps) key ⟨content, compute⟩
  rw [hentry] at hrequest
  rw [hrequest] at hbroken
  obtain ⟨hrenewed, hother⟩ := Entry.renewed_of_break hbroken
  have hleft : broken = (after steps).insert key ⟨content, latestCodes asked⟩ := by
    rw [hrenewed] at hrequest
    exact congrArg Prod.snd hrequest
  have hkey : broken.entry key = ⟨content, latestCodes asked⟩ := by
    rw [hleft, entry_insert, if_pos rfl]
  refine ⟨?_, fun again => ?_, fun later => ?_⟩
  · have hcomputed := request_eq_entry (after steps) key
      ⟨content, fun _ => some (latestCodes asked)⟩
    rw [hleft, congrArg Prod.snd hcomputed, hentry, Entry.renewed, if_neg hother]
    rfl
  · rw [request_eq_entry broken key ⟨content, again⟩, hkey, Entry.response, if_pos rfl]
  · have hothers : ∀ k, k ≠ key → broken.entry k = (after steps).entry k := by
      intro k hk
      rw [hleft, entry_insert, if_neg hk]
    have hcodes : (broken.entry key).codes = ((after steps).entry key).codes := by
      rw [hkey, hentry]
      rfl
    have hcontent : (broken.entry key).content ≠ ((after steps).entry key).content := by
      rw [hkey, hentry]
      exact Ne.symm hother
    have hlater := responses_eq_iff hothers hcodes hcontent later
    rw [hkey, hentry] at hlater
    exact hlater

/-- Behind a request that broke off, a third text sets the key right; the texts of the two requests
before it are asked about only then. -/
theorem responses_after_break_third_text :
    let a : Key := ⟨"A.vue", "customBlock_0"⟩
    let compute (content : String) : Option (List Code) := some [.text content]
    let steps : List Step := [.request ⟨"B.vue", "customBlock_0"⟩ "x" compute,
      .request a "x" compute]
    let later : List Step := [.invalidate "B.vue", .request a "z" compute,
      .request a "y" compute, .request a "x" compute]
    ((after steps).request a "y" fun _ => none).1.codes = none ∧
      ((after steps).request a "y" fun _ => none).2.responses later =
        (after steps).responses later := by
  intro a compute steps later
  have hbroken : ((after steps).request a "y" fun _ => none).1.codes = none := by decide
  refine ⟨hbroken, ((responses_after_break steps a "y" _ hbroken).2.2 later).mpr ?_⟩
  intro i hi
  obtain rfl : (⟨"z", compute⟩ : Inquiry) = i := Option.some.inj hi
  decide

/-- The text of a request that broke off is answered with the code of the text before, where a store
without that request computes it. -/
theorem responses_after_break_same_text :
    let a : Key := ⟨"A.vue", "customBlock_0"⟩
    let compute (content : String) : Option (List Code) := some [.text content]
    let steps : List Step := [.request a "x" compute]
    let later : List Step := [.request a "y" compute]
    ((after steps).request a "y" fun _ => none).1.codes = none ∧
      ((after steps).request a "y" fun _ => none).2.responses later =
        [⟨none, some [.text "x"]⟩] ∧
      (after steps).responses later = [⟨some "y", some [.text "y"]⟩] ∧
      ((after steps).request a "y" fun _ => none).2.responses later ≠
        (after steps).responses later := by
  decide

end Store

end BlockExports
