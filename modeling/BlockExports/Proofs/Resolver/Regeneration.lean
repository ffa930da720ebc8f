import BlockExports.Proofs.Component.Slices
import BlockExports.Proofs.Resolver.Coherence

/-!
Which blocks a pass analyses.

A request renews the entry of its key and leaves the others alone. So where the blocks of a pass have
names of their own, no request of the pass sees what another one did: a pass analyses the blocks whose
text is not the one that is noted, each of them once (`analysed_eq`), and notes the text of all. What
happens to other files changes nothing about that, and `regenerate_after_edit` puts it together: behind
a pass over a file, the next pass over it analyses what has been edited.
-/

namespace BlockExports

namespace Resolver

/-- The blocks of a component that a pass is about. -/
def blocksOf (options : Options) (c : Component) : List Block := c.blocks.filter (matching options)

theorem key_ne_of_nodup {file : String} {b : Block} {blocks : List Block}
    (h : ((b :: blocks).map (·.name)).Nodup) :
    ∀ d ∈ blocks, (⟨file, b.name⟩ : Key) ≠ ⟨file, d.name⟩ := by
  rw [List.map_cons, List.nodup_cons] at h
  intro d hd hkey
  obtain ⟨-, hname⟩ := Key.mk.inj hkey
  exact h.1 (hname ▸ List.mem_map_of_mem hd)

/-- An action that is about other files than this one. -/
def Action.Elsewhere (file : String) : Action → Prop
  | .resolve other _ _ => other ≠ file
  | .generate other _ => other ≠ file
  | .invalidate other => other ≠ file
  | .clear => False

section Reader

variable [Php.Reader]

/-! ### One request -/

/-- The entry of a block's key behind a request for the block. -/
def renewed (b : Block) (e : Entry) : Entry :=
  if e.content = b.content then e else ⟨b.content, blockCodes b b.content⟩

@[simp] theorem renewed_content (b : Block) (e : Entry) : (renewed b e).content = b.content := by
  unfold renewed
  split
  · assumption
  · rfl

theorem renewed_of_content {b : Block} {e : Entry} (h : e.content = b.content) :
    renewed b e = e := if_pos h

/-- The answer to a request for a block. -/
def answer (b : Block) (e : Entry) : Response :=
  ⟨if e.content = b.content then none else some b.content, some (renewed b e).codes⟩

theorem request_fst (file : String) (s : Store) (b : Block) :
    (request file s b).1 = answer b (s.entry ⟨file, b.name⟩) := by
  unfold request Store.request answer renewed Store.entry
  simp only
  split <;> rfl

theorem entry_request (file : String) (s : Store) (b : Block) (key : Key) :
    (request file s b).2.entry key =
      if key = ⟨file, b.name⟩ then renewed b (s.entry key) else s.entry key := by
  have hstore : (request file s b).2 =
      s.insert ⟨file, b.name⟩ (renewed b (s.entry ⟨file, b.name⟩)) := by
    unfold request Store.request renewed Store.entry
    simp only
    split <;> rfl
  rw [hstore, Store.entry_insert]
  split
  · next hkey => rw [hkey]
  · rfl

/-- An answer with a computed text holds the code that analysing the text gives. -/
theorem codes_of_computed {file : String} {s : Store} {b : Block} {text : String}
    (h : (request file s b).1.computed = some text) :
    (request file s b).1.codes = some (Suffix.render b.name (analyze text)) := by
  rw [request_fst] at h ⊢
  by_cases hsame : (s.entry ⟨file, b.name⟩).content = b.content
  · simp [answer, hsame] at h
  · obtain rfl : b.content = text := by simpa [answer, hsame] using h
    simp [answer, renewed, hsame, blockCodes]

/-! ### A pass -/

/-- So does every answer of a pass. -/
theorem codes_of_computed_of_mem {file : String} {blocks : List Block} {s : Store} {b : Block}
    {response : Response} {text : String}
    (hmem : (b, response) ∈ blocks.zip (requests file s blocks).1)
    (h : response.computed = some text) :
    response.codes = some (Suffix.render b.name (analyze text)) := by
  induction blocks generalizing s with
  | nil => simp at hmem
  | cons d blocks ih =>
      rcases List.mem_cons.mp hmem with heq | hmem
      · obtain ⟨rfl, rfl⟩ := Prod.mk.inj heq
        exact codes_of_computed h
      · exact ih hmem

/-- A key that none of the blocks has keeps its entry. -/
theorem entry_requests_of_notMem {file : String} {blocks : List Block} {key : Key}
    (h : ∀ b ∈ blocks, key ≠ ⟨file, b.name⟩) (s : Store) :
    (requests file s blocks).2.entry key = s.entry key := by
  induction blocks generalizing s with
  | nil => rfl
  | cons b blocks ih =>
      have hrest := ih (fun d hd => h d (by simp [hd])) (request file s b).2
      rw [entry_request, if_neg (h b (by simp))] at hrest
      exact hrest

section Names

variable {file : String} {blocks : List Block}

/-- Blocks with names of their own are answered as if each were the only one. -/
theorem requests_fst (h : (blocks.map (·.name)).Nodup) (s : Store) :
    (requests file s blocks).1 = blocks.map fun b => answer b (s.entry ⟨file, b.name⟩) := by
  induction blocks generalizing s with
  | nil => rfl
  | cons b blocks ih =>
      have hother : ∀ d ∈ blocks, (request file s b).2.entry ⟨file, d.name⟩ =
          s.entry ⟨file, d.name⟩ := by
        intro d hd
        rw [entry_request, if_neg (Ne.symm (key_ne_of_nodup h d hd))]
      have hrest : (requests file (request file s b).2 blocks).1 =
          blocks.map fun d => answer d (s.entry ⟨file, d.name⟩) := by
        rw [ih (List.nodup_cons.mp h).2]
        exact List.map_congr_left fun d hd => by rw [hother d hd]
      rw [requests, List.map_cons, ← hrest, ← request_fst]

/-- Behind a pass the key of each of its blocks has been renewed. -/
theorem entry_requests_of_mem (h : (blocks.map (·.name)).Nodup) (s : Store) {b : Block}
    (hb : b ∈ blocks) :
    (requests file s blocks).2.entry ⟨file, b.name⟩ = renewed b (s.entry ⟨file, b.name⟩) := by
  induction blocks generalizing s with
  | nil => simp at hb
  | cons c blocks ih =>
      have hkeys := @key_ne_of_nodup file _ _ h
      rw [requests]
      rcases List.mem_cons.mp hb with rfl | hb
      · exact (entry_requests_of_notMem hkeys _).trans (by rw [entry_request, if_pos rfl])
      · refine (ih (List.nodup_cons.mp h).2 _ hb).trans ?_
        rw [entry_request, if_neg (Ne.symm (hkeys b hb))]

end Names

variable (r : Resolver) {file : String}

/-- The blocks that a pass analyses, in order, each with the text that is analysed. -/
def analysed (file : String) (c : Component) : List (Block × String) :=
  ((blocksOf r.options c).zip (requests file r.store (blocksOf r.options c)).1).filterMap
    fun (b, response) => response.computed.map (b, ·)

/-- A pass analyses the blocks whose text is not the one that is noted, each of them once. -/
theorem analysed_eq {c : Component} (h : ((blocksOf r.options c).map (·.name)).Nodup) :
    r.analysed file c =
      ((blocksOf r.options c).filter fun b =>
        (r.store.entry ⟨file, b.name⟩).content ≠ b.content).map fun b => (b, b.content) := by
  rw [analysed, requests_fst h]
  generalize blocksOf r.options c = blocks
  clear h
  induction blocks with
  | nil => rfl
  | cons b blocks ih =>
      rw [List.map_cons, List.zip_cons_cons, List.filterMap_cons, ih, List.filter_cons]
      by_cases hsame : (r.store.entry ⟨file, b.name⟩).content = b.content
      · simp [answer, hsame]
      · simp [answer, hsame]

/-- A block with a text that is not noted is analysed once, any other not at all. -/
theorem analysed_filter_name {c : Component} (h : ((blocksOf r.options c).map (·.name)).Nodup)
    {b : Block} (hb : b ∈ blocksOf r.options c) :
    (r.analysed file c).filter (·.1.name = b.name) =
      if (r.store.entry ⟨file, b.name⟩).content = b.content then [] else [(b, b.content)] := by
  have hblock : ((blocksOf r.options c).filter fun d =>
        (r.store.entry ⟨file, d.name⟩).content ≠ d.content).filter (·.name = b.name) =
      [b].filter fun d => (r.store.entry ⟨file, d.name⟩).content ≠ d.content := by
    rw [List.filter_comm, Component.filter_eq_singleton h hb]
  rw [r.analysed_eq h, List.filter_map]
  refine (congrArg _ hblock).trans ?_
  by_cases hsame : (r.store.entry ⟨file, b.name⟩).content = b.content
  · simp [hsame]
  · simp [hsame]

/-- The code of a pass is what its blocks' entries hold once they are renewed. -/
theorem generate_fst {c : Component} (h : ((blocksOf r.options c).map (·.name)).Nodup) :
    (r.generate file c).1 =
      (blocksOf r.options c).flatMap fun b =>
        (renewed b (r.store.entry ⟨file, b.name⟩)).codes := by
  have hanswers := @requests_fst _ file _ h r.store
  rw [blocksOf] at hanswers ⊢
  rw [generate]
  simp only [hanswers, List.flatMap_map]
  rfl

theorem entry_generate {c : Component} (h : ((blocksOf r.options c).map (·.name)).Nodup) {b : Block}
    (hb : b ∈ blocksOf r.options c) :
    (r.generate file c).2.store.entry ⟨file, b.name⟩ =
      renewed b (r.store.entry ⟨file, b.name⟩) :=
  entry_requests_of_mem h r.store hb

/-- A pass that is repeated analyses nothing and gives the same code. -/
theorem generate_again {c : Component} (h : ((blocksOf r.options c).map (·.name)).Nodup) :
    (r.generate file c).2.analysed file c = [] ∧
      ((r.generate file c).2.generate file c).1 = (r.generate file c).1 := by
  let r' := (r.generate file c).2
  have hnoted : ∀ b ∈ blocksOf r'.options c,
      (r'.store.entry ⟨file, b.name⟩).content = b.content := by
    intro b hb
    rw [r.entry_generate h hb, renewed_content]
  constructor
  · rw [r'.analysed_eq h, List.map_eq_nil_iff, List.filter_eq_nil_iff]
    intro b hb
    simp [hnoted b hb]
  · rw [r'.generate_fst h, r.generate_fst h]
    refine congrArg List.flatten (List.map_congr_left fun b hb => ?_)
    rw [renewed_of_content (hnoted b hb), r.entry_generate h hb]

/-! ### Other files -/

/-- What happens to other files leaves the entries of a file alone. -/
theorem entry_act {a : Action} (h : a.Elsewhere file) (name : String) :
    (r.act a).store.entry ⟨file, name⟩ = r.store.entry ⟨file, name⟩ := by
  have hpass {other : String} (hother : other ≠ file) (c : Component) :
      (r.generate other c).2.store.entry ⟨file, name⟩ = r.store.entry ⟨file, name⟩ :=
    entry_requests_of_notMem (fun b _ hkey => hother (Key.mk.inj hkey).1.symm) r.store
  cases a with
  | resolve other c sink =>
      rw [act, resolve_snd, injection]
      split
      · exact hpass h c
      · rfl
  | generate other c => exact hpass h c
  | invalidate other => exact (r.store.entry_invalidate other _).trans (if_neg (Ne.symm h))
  | clear => exact absurd h id

theorem entry_foldl_act {actions : List Action} (h : ∀ a ∈ actions, a.Elsewhere file)
    (name : String) :
    (actions.foldl act r).store.entry ⟨file, name⟩ = r.store.entry ⟨file, name⟩ := by
  induction actions generalizing r with
  | nil => rfl
  | cons a actions ih =>
      rw [List.foldl_cons, ih _ fun b hb => h b (by simp [hb]), entry_act _ (h a (by simp))]

/-- After a pass over a file and anything that happens to other files, the next pass over the file
analyses a block that was there before if its text has changed, once and with the new text, and not
otherwise. Where the pass says that it computed a text, its answer is the code of that text. The same
pass once more analyses nothing and gives the same code. -/
theorem regenerate_after_edit (options : Options) (history others : List Action) (file : String)
    {c c' : Component} (hnames : ((blocksOf options c).map (·.name)).Nodup)
    (hnames' : ((blocksOf options c').map (·.name)).Nodup)
    (hothers : ∀ a ∈ others, a.Elsewhere file) :
    let r := after options (history ++ .generate file c :: others)
    (∀ b ∈ blocksOf options c, ∀ b' ∈ blocksOf options c', b.name = b'.name →
      (r.analysed file c').filter (·.1.name = b'.name) =
        if b.content = b'.content then [] else [(b', b'.content)]) ∧
      (∀ b' response, (b', response) ∈
          (blocksOf options c').zip (requests file r.store (blocksOf options c')).1 →
        ∀ text, response.computed = some text →
          response.codes = some (Suffix.render b'.name (analyze text))) ∧
      (r.generate file c').2.analysed file c' = [] ∧
      ((r.generate file c').2.generate file c').1 = (r.generate file c').1 := by
  intro r
  have hoptions : r.options = options := after_options _ _
  have hnext : ((blocksOf r.options c').map (·.name)).Nodup := by rwa [hoptions]
  refine ⟨?_, fun _ _ hmem _ => codes_of_computed_of_mem hmem, r.generate_again hnext⟩
  intro b hb b' hb' hname
  let before := after options history
  have hbefore : before.options = options := after_options _ _
  -- the text of the earlier pass is still noted
  have hnoted : (r.store.entry ⟨file, b.name⟩).content = b.content := by
    have hlater : r = others.foldl act (before.generate file c).2 := by
      simp only [r, before, after, List.foldl_append, List.foldl_cons]
      rfl
    rw [hlater, entry_foldl_act _ hothers, entry_generate, renewed_content]
    · rwa [hbefore]
    · rwa [hbefore]
  rw [r.analysed_filter_name hnext (by rwa [hoptions]), ← hname, hnoted]

end Reader

/-- A block that is put in takes the number of an empty one, and only the new text is analysed; another
file had the same texts in the meantime. -/
theorem regenerate_after_edit_inserted :
    let c : Component := ⟨[⟨"customBlock_0", "php", "$a;", 5⟩, ⟨"customBlock_1", "php", "", 19⟩]⟩
    let inserted : Block := ⟨"customBlock_1", "php", "$n;", 19⟩
    let c' : Component :=
      ⟨[⟨"customBlock_0", "php", "$a;", 5⟩, inserted, ⟨"customBlock_2", "php", "", 33⟩]⟩
    let others : List Action := [.generate "B.vue" c', .invalidate "C.vue"]
    let r := after .standard ([.clear] ++ .generate "A.vue" c :: others)
    ((blocksOf .standard c).map (·.name)).Nodup ∧ ((blocksOf .standard c').map (·.name)).Nodup ∧
      (∀ a ∈ others, a.Elsewhere "A.vue") ∧
      (r.analysed "A.vue" c').filter (·.1.name = "customBlock_0") = [] ∧
      (r.analysed "A.vue" c').filter (·.1.name = "customBlock_1") = [(inserted, "$n;")] := by
  intro c inserted c' others r
  have hnames : ((blocksOf .standard c).map (·.name)).Nodup := by decide
  have hnames' : ((blocksOf .standard c').map (·.name)).Nodup := by decide
  have hothers : ∀ a ∈ others, a.Elsewhere "A.vue" := by simp [others, Action.Elsewhere]
  obtain ⟨hblocks, -⟩ := regenerate_after_edit .standard [.clear] others "A.vue" hnames hnames' hothers
  have hfirst := hblocks ⟨"customBlock_0", "php", "$a;", 5⟩ (by decide)
    ⟨"customBlock_0", "php", "$a;", 5⟩ (by decide) rfl
  have hsecond := hblocks ⟨"customBlock_1", "php", "", 19⟩ (by decide) inserted (by decide) rfl
  exact ⟨hnames, hnames', hothers, hfirst, hsecond⟩

end Resolver

end BlockExports
