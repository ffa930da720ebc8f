import BlockExports.Proofs.Component.Slices
import BlockExports.Proofs.Exports.Places
import BlockExports.Proofs.Resolver.Coherence
import BlockExports.Proofs.Text.Slices

/-!
From generated code back to the file.

A mapped piece names a block and a byte offset in it. Whatever was resolved before, the block is one
of the file that the piece was injected for, and at its offset the file has the name of the piece,
with a dollar sign in front. Three lengths are added up on the way: from the start of the file to
the block, from the start of the block to the name, and the prologue that is there only while the
block is read.
-/

namespace BlockExports

open Text

/-- Only members are mapped, each to its own binding. -/
theorem Suffix.mapped_mem_render {block name source : String} {bindings : List Binding}
    {offset : UInt32} {features : Features}
    (h : .mapped name source offset features ∈ render block bindings) :
    source = block ∧ features = ⟨true⟩ ∧ ∃ b ∈ bindings, b.name = name ∧ b.offset = offset := by
  simp only [render, member, List.cons_append, List.mem_cons, reduceCtorEq, false_or,
    List.mem_append, List.mem_flatMap, List.not_mem_nil, or_false] at h
  obtain ⟨b, hb, hpiece⟩ := h
  rw [Code.mapped.injEq] at hpiece
  obtain ⟨rfl, rfl, rfl, rfl⟩ := hpiece
  exact ⟨rfl, rfl, b, hb, rfl, rfl⟩

namespace Resolver

/-- The mapped pieces of an answer are exported variables of the block, as it is now. -/
theorem Answers.mapped_mem {b : Block} {codes : List Code} (h : Answers b codes)
    {name source : String} {offset : UInt32} {features : Features}
    (hmapped : .mapped name source offset features ∈ codes) :
    source = b.name ∧ features = ⟨true⟩ ∧
      ∃ binding ∈ analyze b.content, binding.name = name ∧ binding.offset = offset := by
  unfold Answers at h
  split at h
  · next hempty =>
    rcases h with rfl | rfl
    · simp at hmapped
    · -- the code of the empty text has no members
      obtain ⟨-, -, binding, hbinding, -⟩ := Suffix.mapped_mem_render hmapped
      simp at hbinding
  · rw [h] at hmapped
    exact Suffix.mapped_mem_render hmapped

theorem exists_answered {blocks : List Block} {answers : List (List Code)}
    (h : List.Forall₂ Answers blocks answers) {codes : List Code} (hcodes : codes ∈ answers) :
    ∃ b ∈ blocks, Answers b codes := by
  induction h with
  | nil => simp at hcodes
  | cons hanswer _ ih =>
      rcases List.mem_cons.mp hcodes with rfl | hcodes
      · exact ⟨_, by simp, hanswer⟩
      · obtain ⟨b, hb, hanswer⟩ := ih hcodes
        exact ⟨b, by simp [hb], hanswer⟩

/-- The mapped pieces of a pass come from the blocks of its component that hold PHP. -/
theorem mapped_mem_generate {r : Resolver} (hr : r.store.Coherent) {file : String} {c : Component}
    {name source : String} {offset : UInt32} {features : Features}
    (hmapped : .mapped name source offset features ∈ (r.generate file c).1) :
    ∃ b ∈ c.blocks, b.type = r.options.blockType ∧ source = b.name ∧ features = ⟨true⟩ ∧
      ∃ binding ∈ analyze b.content, binding.name = name ∧ binding.offset = offset := by
  obtain ⟨answers, hanswers, hcodes⟩ := r.generate_answers analyze_empty hr file c
  rw [hcodes, List.mem_flatten] at hmapped
  obtain ⟨codes, hmem, hpiece⟩ := hmapped
  obtain ⟨b, hb, hanswer⟩ := exists_answered hanswers hmem
  obtain ⟨hblock, htype⟩ := List.mem_filter.mp hb
  exact ⟨b, hblock, by simpa [matching] using htype, hanswer.mapped_mem hpiece⟩

theorem injection_eq_some {r : Resolver} {file : String} {c : Component} {sink : Sink}
    {codes : List Code} (h : (r.injection file c sink).1 = some codes) :
    (r.generate file c).1 = codes := by
  unfold injection at h
  split at h
  · simpa using h
  · simp at h

/-- Exported variables of a block stand in its file. -/
theorem place_of_mem_analyze {text : String} {b : Block} (hb : b.StandsIn text) {binding : Binding}
    (hbinding : binding ∈ analyze b.content)
    (hsize : (prologue ++ b.content).utf8ByteSize < UInt32.size) :
    1 ≤ binding.offset.toNat ∧
      binding.offset.toNat + binding.name.utf8ByteSize ≤ b.content.utf8ByteSize ∧
      ∃ before after, text.toList = before ++ '$' :: binding.name.toList ++ after ∧
        byteLength before + 1 = b.start + binding.offset.toNat := by
  obtain ⟨front, back, htext, hstart⟩ := hb
  obtain ⟨-, before, after, hcontent, hoffset⟩ := mem_analyze_place hbinding hsize
  have hdollar : '$'.utf8Size = 1 := by decide
  have hbytes := byteLength_toList b.content
  rw [hcontent] at hbytes
  simp only [byteLength_append, byteLength_cons, byteLength_toList, hdollar] at hbytes
  refine ⟨by omega, by omega, front ++ before, after ++ back, ?_, ?_⟩
  · rw [htext, hcontent]
    simp
  · rw [byteLength_append]
    omega

/-- A mapped piece leads to its name in the file that it was injected for. -/
theorem injection_navigates (options : Options) (history : List Action) (file text : String)
    (sink : Sink) {codes : List Code} {name source : String} {offset : UInt32} {features : Features}
    (hcodes : ((after options history).injection file (Component.scan text) sink).1 = some codes)
    (hmapped : .mapped name source offset features ∈ codes)
    (hsize : ∀ b ∈ (Component.scan text).blocks, b.name = source →
      (prologue ++ b.content).utf8ByteSize < UInt32.size) :
    ∃ b, (Component.scan text).blocks.filter (·.name = source) = [b] ∧
      b.type = options.blockType ∧ features.navigation = true ∧ name ≠ "" ∧ 1 ≤ offset.toNat ∧
      text.toByteArray.extract (b.start + offset.toNat)
        (b.start + offset.toNat + name.utf8ByteSize) = name.toByteArray ∧
      text.toByteArray.extract (b.start + offset.toNat - 1) (b.start + offset.toNat) =
        "$".toByteArray ∧
      b.start + offset.toNat + name.utf8ByteSize ≤ b.start + b.content.utf8ByteSize := by
  rw [← injection_eq_some hcodes] at hmapped
  obtain ⟨b, hb, htype, rfl, rfl, binding, hbinding, rfl, rfl⟩ :=
    mapped_mem_generate (after_coherent options history) hmapped
  have hroom := hsize b hb rfl
  obtain ⟨hfirst, hwithin, before, after', htext, hplace⟩ :=
    place_of_mem_analyze (Component.standsIn_of_mem_scan hb) hbinding hroom
  -- the name and the dollar sign are parts of the file, one right behind the other
  have hname : text.toList = (before ++ "$".toList) ++ binding.name.toList ++ after' := by
    rw [htext]
    simp
  have hdollar : text.toList = before ++ "$".toList ++ (binding.name.toList ++ after') := by
    rw [htext]
    simp
  have hnameBytes := extract_part hname
  have hdollarBytes := extract_part hdollar
  have hone : "$".utf8ByteSize = 1 := by decide
  rw [byteLength_append, byteLength_toList, hone, hplace] at hnameBytes
  rw [hone, hplace, ← Nat.add_sub_cancel (byteLength before) 1, hplace] at hdollarBytes
  exact ⟨b, Component.filter_name_scan hb, by simpa using htype, rfl,
    (mem_analyze_place hbinding hroom).1, hfirst, hnameBytes, hdollarBytes, by omega⟩

/-- The second block of a file that had another second block when it was resolved before. -/
theorem injection_navigates_second_block :
    let sink := Sink.ofId "script_ts"
    let old := "<php>$t; export($t);</php><php>$u; export($u);</php>"
    let text := "<php>$t; export($t);</php>é<php>/* ü */ export($title); $title = 'x';</php>"
    let r := after .standard [.resolve "A.vue" (Component.scan old) sink, .invalidate "B.vue"]
    ∃ codes, (r.injection "A.vue" (Component.scan text) sink).1 = some codes ∧
      .mapped "title" "customBlock_1" 26 ⟨true⟩ ∈ codes ∧
      text.toByteArray.extract 59 64 = "title".toByteArray := by
  intro sink old text r
  have hcodes : (r.injection "A.vue" (Component.scan text) sink).1 =
      some (Suffix.render "customBlock_0" [⟨"t", 1, "unknown"⟩] ++
        Suffix.render "customBlock_1" [⟨"title", 26, "string"⟩]) := by decide +kernel
  have hmapped : .mapped "title" "customBlock_1" 26 ⟨true⟩ ∈
      Suffix.render "customBlock_0" [⟨"t", 1, "unknown"⟩] ++
        Suffix.render "customBlock_1" [⟨"title", 26, "string"⟩] := by decide
  have hsize : ∀ b ∈ (Component.scan text).blocks, b.name = "customBlock_1" →
      (prologue ++ b.content).utf8ByteSize < UInt32.size := by decide
  have hstart : ((Component.scan text).blocks.filter (·.name = "customBlock_1")).map (·.start) =
      [33] := by decide
  obtain ⟨b, hb, -, -, -, -, hname, -⟩ := injection_navigates _ _ _ _ _ hcodes hmapped hsize
  rw [hb] at hstart
  have hplace : b.start + (26 : UInt32).toNat = 59 := by
    rw [show b.start = 33 by simpa using hstart]
    rfl
  rw [hplace] at hname
  exact ⟨_, hcodes, hmapped, hname⟩

end Resolver

end BlockExports
