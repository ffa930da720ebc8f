import BlockExports.Proofs.Resolver.Coherence
import BlockExports.Proofs.Store.Log

/-!
What a history leaves behind in the code that a pass generates.

For its store, a history is a log of requests and removals. In it every request is computed by the
code of its text, so a block with text gets the same code behind any history. A block without text
gets no code as long as its key held none either, and a suffix without members once it did:
`generate_after_congr` says that nothing else of a history shows, and `generate_after_emptied` that
this much does. All of it holds for any reader of PHP.
-/

namespace BlockExports.Resolver

open Store

/-- A key has held some text since it was last removed. -/
def Held (key : Key) (steps : List Step) : Prop := ∃ i ∈ inquiries key steps, i.content ≠ ""

instance (key : Key) (steps : List Step) : Decidable (Held key steps) :=
  List.decidableBEx _ _

section Reader

variable [Php.Reader]

/-! ### Histories as logs -/

/-- What a pass asks about a block. -/
def inquiry (b : Block) : Inquiry := ⟨b.content, fun content => some (blockCodes b content)⟩

@[simp] theorem inquiry_content (b : Block) : (inquiry b).content = b.content := rfl

theorem inquiry_result? (b : Block) :
    (inquiry b).result? = some (blockCodes b (inquiry b).content) := by
  rw [inquiry_content]
  rfl

/-- The request that a pass makes for a block of a file. -/
def inquire (file : String) (b : Block) : Step :=
  .request ⟨file, b.name⟩ (inquiry b).content (inquiry b).compute

theorem request_eq (file : String) (s : Store) (b : Block) :
    request file s b = s.request ⟨file, b.name⟩ (inquiry b).content (inquiry b).compute := rfl

/-- What an action does to the store. -/
def Action.steps (options : Options) : Action → List Step
  | .resolve file c sink =>
    if (ofOptions options).applies c sink then
      (c.blocks.filter (matching options)).map (inquire file)
    else []
  | .generate file c => (c.blocks.filter (matching options)).map (inquire file)
  | .invalidate file => [.invalidate file]
  | .clear => [.clear]

/-- What a history does to the store. -/
def log (options : Options) (history : List Action) : List Step :=
  history.flatMap (Action.steps options)

theorem requests_snd (file : String) (s : Store) (blocks : List Block) :
    (requests file s blocks).2 = (blocks.map (inquire file)).foldl Store.step s := by
  induction blocks generalizing s with
  | nil => rfl
  | cons b blocks ih => exact ih _

theorem act_store (r : Resolver) (a : Action) :
    (r.act a).store = (a.steps r.options).foldl Store.step r.store := by
  cases a with
  | resolve file c sink =>
      have happlies : r.applies c sink = (ofOptions r.options).applies c sink := rfl
      rw [act, resolve_snd, injection, Action.steps, happlies]
      split
      · exact requests_snd file r.store _
      · rfl
  | generate file c => exact requests_snd file r.store _
  | invalidate file => rfl
  | clear => rfl

theorem store_after (options : Options) (history : List Action) :
    (after options history).store = Store.after (log options history) := by
  have hrun (r : Resolver) (hr : r.options = options) :
      (history.foldl act r).store = (log options history).foldl Store.step r.store := by
    induction history generalizing r with
    | nil => rfl
    | cons a history ih =>
        have hlog : log options (a :: history) = a.steps options ++ log options history :=
          List.flatMap_cons
        rw [List.foldl_cons, ih _ ((r.act_options a).trans hr), act_store, hr, hlog,
          List.foldl_append]
  exact hrun _ rfl

/-- A request of this step is computed by the code of its text, under the block name of its key. -/
def Generates (t : Step) : Prop :=
  ∀ key i, t.inquiry? key = some i → i.result? = some (Suffix.render key.block (analyze i.content))

theorem generates_inquire (file : String) (b : Block) : Generates (inquire file b) := by
  intro key i hi
  obtain ⟨rfl, rfl⟩ : (⟨file, b.name⟩ : Key) = key ∧ _ = i := by
    simpa [inquire, Step.inquiry?] using hi
  rfl

theorem generates_of_mem_log {options : Options} {history : List Action} {t : Step}
    (h : t ∈ log options history) : Generates t := by
  have hblocks {file : String} {blocks : List Block} (ht : t ∈ blocks.map (inquire file)) :
      Generates t := by
    obtain ⟨b, -, rfl⟩ := List.mem_map.mp ht
    exact generates_inquire file b
  have hremoval (hnone : ∀ key, t.inquiry? key = none) : Generates t := by
    intro key i hi
    rw [hnone] at hi
    simp at hi
  obtain ⟨a, -, ht⟩ := List.mem_flatMap.mp h
  cases a with
  | resolve file c sink =>
      rw [Action.steps] at ht
      split at ht
      · exact hblocks ht
      · simp at ht
  | generate file c => exact hblocks ht
  | invalidate file =>
      obtain rfl : t = .invalidate file := by simpa [Action.steps] using ht
      exact hremoval fun _ => rfl
  | clear =>
      obtain rfl : t = .clear := by simpa [Action.steps] using ht
      exact hremoval fun _ => rfl

/-! ### The answer to one request -/

theorem held_inquire (key : Key) (steps : List Step) (file : String) (b : Block) :
    Held key (steps ++ [inquire file b]) ↔
      Held key steps ∨ (key = ⟨file, b.name⟩ ∧ b.content ≠ "") := by
  rw [Held, inquire, inquiries_request]
  split
  · next hkey => simp [Held, hkey, or_and_right, exists_or]
  · next hkey => simp [Held, hkey]

/-- A block with text gets the code of its text. A block without text gets some only if its key has
held text. -/
theorem request_codes {steps : List Step} (h : ∀ t ∈ steps, Generates t) (file : String)
    (b : Block) :
    (request file (Store.after steps) b).1.codes =
      some (if b.content = "" ∧ ¬Held ⟨file, b.name⟩ steps then [] else blockCodes b b.content) := by
  have hresult : ∀ j ∈ inquiries ⟨file, b.name⟩ steps ++ [inquiry b],
      j.result? = some (blockCodes b j.content) := by
    rw [List.forall_mem_append, List.forall_mem_singleton]
    refine ⟨fun j hj => ?_, inquiry_result? b⟩
    obtain ⟨t, ht, hinquiry⟩ := exists_of_mem_inquiries hj
    exact h t ht ⟨file, b.name⟩ j hinquiry
  have hheld : (∀ j ∈ inquiries ⟨file, b.name⟩ steps ++ [inquiry b], j.content = "") ↔
      b.content = "" ∧ ¬Held ⟨file, b.name⟩ steps := by
    rw [List.forall_mem_append, List.forall_mem_singleton, and_comm]
    simp [Held]
  have hcodes : (request file (Store.after steps) b).1.codes =
      some (latestCodes (inquiries ⟨file, b.name⟩ steps ++ [inquiry b])) := by
    have hdone : (inquiry b).result? ≠ none := by
      rw [inquiry_result?]
      exact Option.some_ne_none _
    rw [request_eq]
    exact request_codes_of_entry (getD_after steps _) hdone
  rw [hcodes, latestCodes_of_function hresult, if_congr hheld rfl rfl, latestText_concat,
    inquiry_content]

/-! ### A pass -/

/-- Two logs that agree on which of the blocks without text have held some give a pass the same
answers. -/
theorem requests_congr {steps₁ steps₂ : List Step} (h₁ : ∀ t ∈ steps₁, Generates t)
    (h₂ : ∀ t ∈ steps₂, Generates t) (file : String) {blocks : List Block}
    (hheld : ∀ b ∈ blocks, b.content = "" →
      (Held ⟨file, b.name⟩ steps₁ ↔ Held ⟨file, b.name⟩ steps₂)) :
    (requests file (Store.after steps₁) blocks).1.flatMap (fun response => response.codes.getD []) =
      (requests file (Store.after steps₂) blocks).1.flatMap
        (fun response => response.codes.getD []) := by
  induction blocks generalizing steps₁ steps₂ with
  | nil => rfl
  | cons b blocks ih =>
      have hnext {steps : List Step} (h : ∀ t ∈ steps, Generates t) :
          (∀ t ∈ steps ++ [inquire file b], Generates t) ∧
            (request file (Store.after steps) b).2 = Store.after (steps ++ [inquire file b]) := by
        rw [List.forall_mem_append, List.forall_mem_singleton, after_concat]
        exact ⟨⟨h, generates_inquire file b⟩, rfl⟩
      obtain ⟨hnext₁, hstore₁⟩ := hnext h₁
      obtain ⟨hnext₂, hstore₂⟩ := hnext h₂
      have hfirst : (request file (Store.after steps₁) b).1.codes =
          (request file (Store.after steps₂) b).1.codes := by
        have hblock : b.content = "" ∧ ¬Held ⟨file, b.name⟩ steps₁ ↔
            b.content = "" ∧ ¬Held ⟨file, b.name⟩ steps₂ :=
          and_congr_right fun hempty => not_congr (hheld b (by simp) hempty)
        rw [request_codes h₁, request_codes h₂, if_congr hblock rfl rfl]
      have hrest := ih hnext₁ hnext₂ fun d hd hempty => by
        rw [held_inquire, held_inquire, hheld d (by simp [hd]) hempty]
      simp only [requests, List.flatMap_cons, hfirst, hstore₁, hstore₂, hrest]

/-- Behind two histories a pass gives the same code if they agree on which blocks without text have
held some. In particular, the code of blocks with text does not depend on the history. -/
theorem generate_after_congr (options : Options) (history₁ history₂ : List Action) (file : String)
    (c : Component)
    (hheld : ∀ b ∈ c.blocks, b.type = options.blockType → b.content = "" →
      (Held ⟨file, b.name⟩ (log options history₁) ↔ Held ⟨file, b.name⟩ (log options history₂))) :
    ((after options history₁).generate file c).1 = ((after options history₂).generate file c).1 := by
  rw [generate, generate, after_options, after_options, store_after, store_after]
  refine requests_congr (fun t => generates_of_mem_log) (fun t => generates_of_mem_log) file ?_
  intro b hb hempty
  obtain ⟨hblock, htype⟩ := List.mem_filter.mp hb
  exact hheld b hblock (by simpa [matching] using htype) hempty

end Reader

/-- A block that held text in both histories and is empty now, behind one that never was empty. The
histories differ in the texts, the passes and the removals. -/
theorem generate_after_congr_two_blocks :
    let text (first second : String) : Component :=
      ⟨[⟨"customBlock_0", "php", first, 5⟩, ⟨"customBlock_1", "php", second, 40⟩]⟩
    let history₁ : List Action :=
      [.clear, .generate "A.vue" (text "" "$b = 1;"), .resolve "A.vue" (text "" "") (.ofId "css")]
    let history₂ : List Action :=
      [.resolve "A.vue" (text "$a;" "$c;") (.ofId "script_ts"), .invalidate "B.vue",
        .generate "A.vue" (text "" "")]
    let c := text "$t = 'x'; export($t);" ""
    (∀ b ∈ c.blocks, b.type = Options.standard.blockType → b.content = "" →
      (Held ⟨"A.vue", b.name⟩ (log .standard history₁) ↔
        Held ⟨"A.vue", b.name⟩ (log .standard history₂))) ∧
      ((after .standard history₁).generate "A.vue" c).1 =
        ((after .standard history₂).generate "A.vue" c).1 := by
  intro text history₁ history₂ c
  have hheld : ∀ b ∈ c.blocks, b.type = Options.standard.blockType → b.content = "" →
      (Held ⟨"A.vue", b.name⟩ (log .standard history₁) ↔
        Held ⟨"A.vue", b.name⟩ (log .standard history₂)) := by decide
  exact ⟨hheld, generate_after_congr .standard history₁ history₂ "A.vue" c hheld⟩

/-- A block that is empty gets no code in a fresh resolver, and a suffix without members in one that
has seen text in it. -/
theorem generate_after_emptied :
    let text (content : String) : Component := ⟨[⟨"customBlock_0", "php", content, 5⟩]⟩
    ((after .standard []).generate "A.vue" (text "")).1 = [] ∧
      ((after .standard [.generate "A.vue" (text "$a;")]).generate "A.vue" (text "")).1 =
        Suffix.render "customBlock_0" [] ∧
      ((after .standard []).generate "A.vue" (text "")).1 ≠
        ((after .standard [.generate "A.vue" (text "$a;")]).generate "A.vue" (text "")).1 := by
  intro text
  have hfresh : ((after .standard []).generate "A.vue" (text "")).1 = [] := by decide
  have hemptied :
      ((after .standard [.generate "A.vue" (text "$a;")]).generate "A.vue" (text "")).1 =
        Suffix.render "customBlock_0" [] := by decide +kernel
  refine ⟨hfresh, hemptied, ?_⟩
  rw [hfresh, hemptied]
  decide

end BlockExports.Resolver
