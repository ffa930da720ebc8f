import BlockExports.Proofs.Resolver.Independence
import BlockExports.Proofs.Sink.Injection

/-!
What a pass changes.

A pass touches two things. The sink takes in the code of the pass, all of it at one place; the store
gains the keys of the blocks that hold PHP. Every other entry stays as it is, and a pass that does
not apply changes nothing at all (`resolve_effect`).
-/

namespace BlockExports

/-! ### The store -/

/-- What requests for some keys make of a store: the keys are in it now, none of them twice, and the
entry of every other key is the one from before. -/
structure Store.Touched (asked : List Key) (s s' : Store) : Prop where
  mem_keys (key : Key) : key ∈ s'.keys ↔ key ∈ s.keys ∨ key ∈ asked
  nodup_keys (h : s.keys.Nodup) : s'.keys.Nodup
  get?_eq {key : Key} (h : key ∉ asked) : s'.get? key = s.get? key

namespace Store

theorem Touched.refl (s : Store) : Touched [] s s where
  mem_keys key := by simp
  nodup_keys h := h
  get?_eq _ := rfl

theorem Touched.trans {asked asked' : List Key} {s s' s'' : Store} (h : Touched asked s s')
    (h' : Touched asked' s' s'') : Touched (asked ++ asked') s s'' where
  mem_keys key := by rw [h'.mem_keys, h.mem_keys, List.mem_append, or_assoc]
  nodup_keys hs := h'.nodup_keys (h.nodup_keys hs)
  get?_eq {key} hkey := by
    rw [List.mem_append, not_or] at hkey
    rw [h'.get?_eq hkey.2, h.get?_eq hkey.1]

theorem touched_request (s : Store) (key : Key) (content : String)
    (compute : String → Option (List Code)) :
    Touched [key] s (s.request key content compute).2 := by
  obtain ⟨entry, hentry⟩ := s.request_snd key content compute
  refine ⟨fun k => ?_, fun hs => nodup_keys_step hs (.request key content compute), fun {k} hk => ?_⟩
  · rw [hentry, mem_keys_iff, mem_keys_iff, get?_insert, List.mem_singleton]
    split
    · next hkey => simp [hkey]
    · next hkey => simp [hkey]
  · rw [hentry, get?_insert, if_neg (fun hkey => hk (List.mem_singleton.mpr hkey))]

end Store

namespace Resolver

/-! ### A pass -/

theorem touched_requests [Php.Reader] (file : String) (s : Store) (blocks : List Block) :
    Store.Touched (blocks.map fun b => ⟨file, b.name⟩) s (requests file s blocks).2 := by
  induction blocks generalizing s with
  | nil => exact .refl s
  | cons b blocks ih =>
      have hfirst : Store.Touched [⟨file, b.name⟩] s (request file s b).2 :=
        s.touched_request ⟨file, b.name⟩ b.content _
      exact hfirst.trans (ih _)

theorem mem_map_matching_iff {options : Options} {file : String} {blocks : List Block} {key : Key} :
    key ∈ (blocks.filter (matching options)).map (fun b => (⟨file, b.name⟩ : Key)) ↔
      ∃ b ∈ blocks, b.type = options.blockType ∧ key = ⟨file, b.name⟩ := by
  simp only [List.mem_map, List.mem_filter, matching, decide_eq_true_eq, and_assoc,
    @eq_comm _ key]

variable (r : Resolver) (file : String) (c : Component) (sink : Sink)

theorem applies_iff :
    r.applies c sink = true ↔ r.options.embeddedStart.toList <+: sink.id.toList ∧
      ∃ b ∈ c.blocks, b.type = r.options.blockType := by
  simp [applies, matching, List.isPrefixOf_iff_prefix]

theorem touched_generate [Php.Reader] :
    Store.Touched ((c.blocks.filter (matching r.options)).map fun b => ⟨file, b.name⟩) r.store
      (r.generate file c).2.store :=
  touched_requests file r.store _

/-- A pass that applies puts the code of all blocks into the sink at once, at the end of the context
type, and adds the keys of these blocks to the store. A pass that does not apply changes neither. -/
theorem resolve_effect [Php.Reader] :
    let applies := r.options.embeddedStart.toList <+: sink.id.toList ∧
      ∃ b ∈ c.blocks, b.type = r.options.blockType
    let touches (key : Key) := ∃ b ∈ c.blocks, b.type = r.options.blockType ∧ key = ⟨file, b.name⟩
    let codes := (r.generate file c).1
    let pass := r.resolve file c sink
    (¬applies → (r.injection file c sink).1 = none ∧ pass = (sink, r)) ∧
      (applies → (r.injection file c sink).1 = some codes ∧
        pass.1 = ⟨sink.id, sink.content.take sink.place ++ codes ++ sink.content.drop sink.place,
          sink.contextEnd.map fun _ => sink.place + codes.length⟩ ∧
        pass.2.options = r.options ∧
        (∀ key, key ∈ pass.2.store.keys ↔ key ∈ r.store.keys ∨ touches key) ∧
        (r.store.keys.Nodup → pass.2.store.keys.Nodup) ∧
        ∀ key, ¬touches key → pass.2.store.get? key = r.store.get? key) := by
  intro applies touches codes pass
  constructor
  · intro happlies
    have hinjection : r.injection file c sink = (none, r) :=
      if_neg fun h => happlies ((r.applies_iff c sink).mp h)
    have hpass : pass = (sink, r) := by simp only [pass, resolve, hinjection]
    exact ⟨congrArg Prod.fst hinjection, hpass⟩
  · intro happlies
    have hinjection : r.injection file c sink = (some codes, (r.generate file c).2) :=
      if_pos ((r.applies_iff c sink).mpr happlies)
    have hpass : pass = (sink.inject codes, (r.generate file c).2) := by
      simp only [pass, resolve, hinjection]
    have htouched := r.touched_generate file c
    rw [hpass]
    refine ⟨congrArg Prod.fst hinjection, sink.inject_eq codes, r.generate_options file c, ?_,
      htouched.nodup_keys, ?_⟩
    · intro key
      rw [htouched.mem_keys, mem_map_matching_iff]
    · intro key hkey
      exact htouched.get?_eq fun hmem => hkey (mem_map_matching_iff.mp hmem)

/-- A pass over a block that is unchanged, one that is no PHP and one without text, into the end of a
context type and into a sink that is not meant for it. -/
theorem resolve_effect_known_block :
    let codes := Suffix.render "customBlock_0" []
    let a : Key × Entry := (⟨"A.vue", "customBlock_0"⟩, ⟨"$a;", codes⟩)
    let b : Key × Entry := (⟨"B.vue", "customBlock_0"⟩, ⟨"$b;", codes⟩)
    let r : Resolver := ⟨.standard, ⟨[a, b]⟩⟩
    let c : Component := ⟨[⟨"customBlock_0", "php", "$a;", 5⟩, ⟨"customBlock_1", "i18n", "{}", 20⟩,
      ⟨"customBlock_2", "php", "", 40⟩]⟩
    let sink : Sink := ⟨"script_ts", [.text "type Ctx = X", .text ";"], some 1⟩
    let pass := r.resolve "A.vue" c sink
    pass.1 = ⟨"script_ts", .text "type Ctx = X" :: codes ++ [.text ";"], some 3⟩ ∧
      pass.2.store.keys = [a.1, b.1, ⟨"A.vue", "customBlock_2"⟩] ∧
      pass.2.store.get? b.1 = r.store.get? b.1 ∧
      r.resolve "A.vue" c (.ofId "style") = (.ofId "style", r) := by
  intro codes a b r c sink pass
  have happlies : r.options.embeddedStart.toList <+: sink.id.toList ∧
      ∃ b ∈ c.blocks, b.type = r.options.blockType := by decide
  have hother : ¬∃ d ∈ c.blocks, d.type = r.options.blockType ∧ b.1 = ⟨"A.vue", d.name⟩ := by decide
  have hstyle : ¬(r.options.embeddedStart.toList <+: (Sink.ofId "style").id.toList ∧
      ∃ b ∈ c.blocks, b.type = r.options.blockType) := by decide
  obtain ⟨-, heffect⟩ := resolve_effect r "A.vue" c sink
  obtain ⟨-, hsink, -, -, -, hframe⟩ := heffect happlies
  obtain ⟨hleft, -⟩ := resolve_effect r "A.vue" c (.ofId "style")
  exact ⟨hsink.trans (by decide), by decide, hframe b.1 hother, (hleft hstyle).2⟩

end Resolver

end BlockExports
