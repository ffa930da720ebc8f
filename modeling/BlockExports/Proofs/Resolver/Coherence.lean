import BlockExports.Resolver
import BlockExports.Proofs.Store.View
import Mathlib.Data.List.Forall2

/-!
What the store of a resolver can hold.

Whatever was asked for before, an entry either is blank or holds the code that its own text gives
under the block name of its key. One request keeps that up and answers with the code of the text it
was asked about; passes and whole histories inherit both from the single request. Only the empty
text has two answers, because a fresh key counts as having it already. None of this depends on the
reader of PHP, as long as it finds no exports in the empty text.
-/

namespace BlockExports

/-- The empty text exports nothing. -/
theorem analyze_empty : analyze "" = [] := by decide +kernel

variable [Php.Reader]

/-- The entry says nothing, or its code is what its text gives. -/
def Entry.Coherent (key : Key) (e : Entry) : Prop :=
  e = .blank ∨ e.codes = Suffix.render key.block (analyze e.content)

namespace Store

def Coherent (s : Store) : Prop := ∀ key e, s.get? key = some e → e.Coherent key

theorem coherent_empty : empty.Coherent := by
  intro key e h
  simp at h

theorem Coherent.insert {s : Store} (hs : s.Coherent) {key : Key} {entry : Entry}
    (hentry : entry.Coherent key) : (s.insert key entry).Coherent := by
  intro k e h
  rw [get?_insert] at h
  split at h
  · next hk =>
    obtain rfl : entry = e := by simpa using h
    exact hk ▸ hentry
  · exact hs k e h

theorem Coherent.invalidate {s : Store} (hs : s.Coherent) (file : String) :
    (s.invalidate file).Coherent := by
  intro k e h
  rw [get?_invalidate] at h
  split at h
  · simp at h
  · exact hs k e h

/-- A key without an entry counts as blank. -/
theorem Coherent.getD {s : Store} (hs : s.Coherent) (key : Key) :
    ((s.get? key).getD .blank).Coherent key := by
  cases h : s.get? key with
  | none => exact Or.inl rfl
  | some e => exact hs key e h

end Store

namespace Resolver

/-- The code that a request for a block may be answered with. -/
def Answers (b : Block) (codes : List Code) : Prop :=
  if b.content = "" then codes = [] ∨ codes = Suffix.render b.name []
  else codes = Suffix.render b.name (analyze b.content)

/-! ### One request -/

section Answers

variable (hnone : analyze "" = [])

include hnone

theorem answers_render (b : Block) : Answers b (Suffix.render b.name (analyze b.content)) := by
  unfold Answers
  split
  · next hempty => exact Or.inr (by rw [hempty, hnone])
  · rfl

theorem answers_of_coherent {file : String} {b : Block} {e : Entry}
    (he : e.Coherent ⟨file, b.name⟩) (hcontent : e.content = b.content) : Answers b e.codes := by
  rcases he with rfl | hcodes
  · -- the blank entry was never computed, and it only matches the empty text
    have hempty : b.content = "" := hcontent.symm
    exact (if_pos hempty).mpr (Or.inl rfl)
  · rw [hcodes, hcontent]
    exact answers_render hnone b

theorem request_answers (file : String) {s : Store} (hs : s.Coherent) (b : Block) :
    ∃ codes, (request file s b).1.codes = some codes ∧ Answers b codes := by
  have hentry := hs.getD ⟨file, b.name⟩
  unfold request Store.request
  simp only
  split
  · next hcontent => exact ⟨_, rfl, answers_of_coherent hnone hentry hcontent⟩
  · exact ⟨_, rfl, answers_render hnone b⟩

end Answers

theorem request_coherent (file : String) {s : Store} (hs : s.Coherent) (b : Block) :
    (request file s b).2.Coherent := by
  have hentry := hs.getD ⟨file, b.name⟩
  unfold request Store.request
  simp only
  split
  · exact hs.insert hentry
  · exact hs.insert (Or.inr rfl)

/-! ### A pass -/

theorem requests_coherent (file : String) {s : Store} (hs : s.Coherent) (blocks : List Block) :
    (requests file s blocks).2.Coherent := by
  induction blocks generalizing s with
  | nil => exact hs
  | cons b blocks ih => exact ih (request_coherent file hs b)

theorem requests_answers (hnone : analyze "" = []) (file : String) {s : Store} (hs : s.Coherent)
    (blocks : List Block) :
    ∃ answers, List.Forall₂ Answers blocks answers ∧
      (requests file s blocks).1.flatMap (fun response => response.codes.getD []) =
        answers.flatten := by
  induction blocks generalizing s with
  | nil => exact ⟨[], .nil, rfl⟩
  | cons b blocks ih =>
      obtain ⟨codes, hcodes, hb⟩ := request_answers hnone file hs b
      obtain ⟨answers, hblocks, hflat⟩ := ih (request_coherent file hs b)
      refine ⟨codes :: answers, .cons hb hblocks, ?_⟩
      simp only [requests, List.flatMap_cons, List.flatten_cons, hcodes, Option.getD_some, hflat]

variable (r : Resolver)

theorem generate_answers (hnone : analyze "" = []) (hr : r.store.Coherent) (file : String)
    (c : Component) :
    ∃ answers, List.Forall₂ Answers (c.blocks.filter (matching r.options)) answers ∧
      (r.generate file c).1 = answers.flatten :=
  requests_answers hnone file hr _

theorem generate_coherent (hr : r.store.Coherent) (file : String) (c : Component) :
    (r.generate file c).2.store.Coherent :=
  requests_coherent file hr _

@[simp] theorem generate_options (file : String) (c : Component) :
    (r.generate file c).2.options = r.options := rfl

theorem injection_coherent (hr : r.store.Coherent) (file : String) (c : Component) (sink : Sink) :
    (r.injection file c sink).2.store.Coherent := by
  unfold injection
  split
  · exact r.generate_coherent hr file c
  · exact hr

@[simp] theorem injection_options (file : String) (c : Component) (sink : Sink) :
    (r.injection file c sink).2.options = r.options := by
  unfold injection
  split <;> rfl

@[simp] theorem resolve_snd (file : String) (c : Component) (sink : Sink) :
    (r.resolve file c sink).2 = (r.injection file c sink).2 := by
  unfold resolve
  split <;> simp_all

/-! ### Histories -/

/-- Something that a host may do with a resolver. -/
inductive Action where
  | resolve (file : String) (c : Component) (sink : Sink)
  | generate (file : String) (c : Component)
  | invalidate (file : String)
  | clear

/-- The resolver that an action leaves behind. -/
def act : Action → Resolver
  | .resolve file c sink => (r.resolve file c sink).2
  | .generate file c => (r.generate file c).2
  | .invalidate file => r.invalidate file
  | .clear => r.clear

/-- The resolver behind a history of actions. -/
def after (options : Options) (history : List Action) : Resolver :=
  history.foldl act (.ofOptions options)

theorem act_coherent (hr : r.store.Coherent) (a : Action) : (r.act a).store.Coherent := by
  cases a with
  | resolve file c sink =>
      rw [act, resolve_snd]
      exact r.injection_coherent hr file c sink
  | generate file c => exact r.generate_coherent hr file c
  | invalidate file => exact Store.Coherent.invalidate hr file
  | clear => exact Store.coherent_empty

@[simp] theorem act_options (a : Action) : (r.act a).options = r.options := by
  cases a with
  | resolve file c sink => rw [act, resolve_snd, injection_options]
  | generate file c => rfl
  | invalidate file => rfl
  | clear => rfl

theorem after_coherent (options : Options) (history : List Action) :
    (after options history).store.Coherent := by
  have hrun (r : Resolver) (hr : r.store.Coherent) : (history.foldl act r).store.Coherent := by
    induction history generalizing r with
    | nil => exact hr
    | cons a history ih => exact ih _ (r.act_coherent hr a)
  exact hrun _ Store.coherent_empty

@[simp] theorem after_options (options : Options) (history : List Action) :
    (after options history).options = options := by
  have hrun (r : Resolver) : (history.foldl act r).options = r.options := by
    induction history generalizing r with
    | nil => rfl
    | cons a history ih => rw [List.foldl_cons, ih, act_options]
  exact hrun _

end Resolver

end BlockExports
