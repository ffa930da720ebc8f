import BlockExports.Proofs.Command.Session
import BlockExports.Proofs.Component.Slices
import BlockExports.Proofs.Json.Reading
import BlockExports.Proofs.Resolver.Independence

/-!
Runs over several files.

All files of a run share one resolver, and so one store. What a file leaves there shows in the code
of a later one only where a block without text has held some under the same key, and this cannot
happen while the files stay as they are: the key names the file, and within a file the block. So
every file of a run gets the code that it gets in a run of its own, and what is printed is put
together from these codes (`run_reports_alone`). In JSON this is an array that a reader gets back.
-/

namespace BlockExports

theorem Files.text_of_bytes {files : Files} {path : RawText} {text : String}
    (h : files.bytes path = .ok text.toByteArray) : files.text path = .ok text := by
  rw [Files.text, h]
  simp only [String.fromUTF8?, dif_pos text.isValidUTF8]
  rfl

namespace Command

open Resolver

/-! ### The passes of a run -/

/-- The pass that a run makes for a file whose path is text. -/
def pass (path text : String) : Action := .resolve path (Component.scan text) (.ofId sinkId)

/-- All that was done so far are passes over files as they are now. -/
def PassesOver (files : Files) (history : List Action) : Prop :=
  ∀ a ∈ history, ∃ path text, files.text (.text path) = .ok text ∧ a = pass path text

section Passes

variable {files : Files} {options : Options} {history : List Action} {path text : String}

theorem PassesOver.concat (h : PassesOver files history)
    (htext : files.text (.text path) = .ok text) :
    PassesOver files (history ++ [pass path text]) := by
  intro a ha
  rcases List.mem_append.mp ha with ha | ha
  · exact h a ha
  · exact ⟨path, text, htext, List.mem_singleton.mp ha⟩

variable [Php.Reader]

/-- A pass asks about blocks of its file. -/
theorem exists_of_mem_steps_pass {t : Store.Step} (h : t ∈ (pass path text).steps options) :
    ∃ b ∈ (Component.scan text).blocks, t = inquire path b := by
  rw [pass, Action.steps] at h
  split at h
  · obtain ⟨b, hb, rfl⟩ := List.mem_map.mp h
    exact ⟨b, List.mem_of_mem_filter hb, rfl⟩
  · simp at h

/-- A block that is empty in its file has not held text. -/
theorem PassesOver.not_held (h : PassesOver files history)
    (htext : files.text (.text path) = .ok text) {b : Block} (hb : b ∈ (Component.scan text).blocks) (hempty : b.content = "") :
    ¬Held ⟨path, b.name⟩ (log options history) := by
  rintro ⟨i, hi, hcontent⟩
  obtain ⟨t, ht, hinquiry⟩ := Store.exists_of_mem_inquiries hi
  obtain ⟨a, ha, hsteps⟩ := List.mem_flatMap.mp ht
  obtain ⟨path', text', htext', rfl⟩ := h a ha
  obtain ⟨b', hb', rfl⟩ := exists_of_mem_steps_pass hsteps
  obtain ⟨⟨rfl, hname⟩, rfl⟩ : (path' = path ∧ b'.name = b.name) ∧
      ⟨b'.content, (inquiry b').compute⟩ = i := by
    simpa [inquire, Store.Step.inquiry?] using hinquiry
  -- the same file holds the same text, and in it only one block has the name
  obtain rfl : text' = text := by simpa [htext'] using htext
  obtain rfl : b' = b :=
    List.inj_on_of_nodup_map (Component.nodup_name_scan text') hb' hb hname
  exact hcontent hempty

/-- The code of a file in a run: that of a pass into embedded code without any pieces. -/
theorem resolveText_fst (r : Resolver) (path text : String) :
    (resolveText r (.text path) text).1 =
      ⟨.text path, if r.applies (Component.scan text) (.ofId sinkId)
        then (r.generate path (Component.scan text)).1 else []⟩ := by
  rw [resolveText, RawText.shown, resolve, injection]
  cases r.applies (Component.scan text) (.ofId sinkId) <;> rfl

theorem resolveText_snd (r : Resolver) (path text : String) :
    (resolveText r (.text path) text).2 = r.act (pass path text) := rfl

theorem after_concat (options : Options) (history : List Action) (a : Action) :
    after options (history ++ [a]) = (after options history).act a := by
  rw [after, List.foldl_append]
  rfl

/-- Behind passes over the files a file gets the code that it gets in a fresh resolver. -/
theorem resolveText_after (h : PassesOver files history)
    (htext : files.text (.text path) = .ok text) :
    (resolveText (after options history) (.text path) text).1 =
      (resolveText (.ofOptions options) (.text path) text).1 := by
  have happlies : (after options history).applies (Component.scan text) (.ofId sinkId) =
      (ofOptions options).applies (Component.scan text) (.ofId sinkId) := by
    rw [applies, after_options]
    rfl
  have hcodes : ((after options history).generate path (Component.scan text)).1 =
      ((after options []).generate path (Component.scan text)).1 := by
    rw [generate, generate, after_options, after_options, store_after, store_after]
    refine requests_congr (fun t => generates_of_mem_log) (fun t => generates_of_mem_log) path ?_
    intro b hb hempty
    have hblock := List.mem_of_mem_filter hb
    have hnone : PassesOver files [] := by simp [PassesOver]
    exact iff_of_false (h.not_held htext hblock hempty) (hnone.not_held htext hblock hempty)
  rw [resolveText_fst, resolveText_fst, happlies, hcodes]
  rfl

end Passes

/-! ### The files of a run -/

section Files

variable [Php.Reader] {files : Files}

theorem reported_of_discover {home : RawText} {arguments : Arguments}
    {options : Options} (h : Options.discover files arguments.config home = .ok options) :
    reported files home arguments = resolveAll files (.ofOptions options) arguments.files := by
  rw [reported, h]
  rfl

theorem resolveAll_cons {path : RawText} {text : String}
    (htext : files.text path = .ok text) (r : Resolver) (paths : List RawText) :
    resolveAll files r (path :: paths) =
      ((resolveText r path text).1 :: ·) <$> resolveAll files (resolveText r path text).2 paths := by
  rw [resolveAll, htext, ← bind_pure_comp]
  rfl

theorem resolveAll_cons_of_error {path : RawText} {cause : FileFault}
    (htext : files.text path = .error cause) (r : Resolver) (paths : List RawText) :
    resolveAll files r (path :: paths) = .error (.unreadable path cause) := by
  rw [resolveAll, htext]
  rfl

/-- A file that is resolved in a fresh resolver. -/
theorem resolveAll_singleton {path : RawText} {text : String}
    (htext : files.text path = .ok text) (r : Resolver) :
    resolveAll files r [path] = .ok [(resolveText r path text).1] := by
  rw [resolveAll_cons htext]
  rfl

/-- Behind passes over the files, resolving some of them gives for each what resolving it alone
gives. -/
theorem resolveAll_after {options : Options} {history : List Action}
    (h : PassesOver files history) {paths : List String}
    (hpaths : ∀ path ∈ paths, ∃ text, files.text (.text path) = .ok text) :
    ∃ outputs, resolveAll files (after options history) (paths.map .text) = .ok outputs ∧
      List.Forall₂ (fun path output => output.path = .text path ∧
        resolveAll files (.ofOptions options) [.text path] = .ok [output]) paths outputs := by
  induction paths generalizing history with
  | nil => exact ⟨[], rfl, .nil⟩
  | cons path paths ih =>
      obtain ⟨text, htext⟩ := hpaths path (by simp)
      obtain ⟨outputs, hrest, halone⟩ :=
        ih (h.concat htext) fun later hlater => hpaths later (by simp [hlater])
      refine ⟨(resolveText (.ofOptions options) (.text path) text).1 :: outputs, ?_,
        .cons ⟨?_, ?_⟩ halone⟩
      · rw [List.map_cons, resolveAll_cons htext, resolveText_snd, ← after_concat, hrest,
          resolveText_after h htext]
        rfl
      · rw [resolveText_fst]
      · exact resolveAll_singleton htext _

end Files

/-! ### What is printed -/

theorem exact_toJson (c : Code) : (Code.toJson c).Exact := by
  cases c with
  | text t => exact .string t
  | mapped t source offset features =>
      apply Json.Exact.array
      simp only [List.forall_mem_cons]
      refine ⟨.string t, .string source, .integer _, .object ?_, by simp⟩
      simpa using Json.Exact.boolean features.navigation

theorem exact_entry (f : FileCode) : (entry f).Exact := by
  apply Json.Exact.object
  simp only [List.forall_mem_cons]
  refine ⟨.string _, .array fun item hitem => ?_, by simp⟩
  obtain ⟨c, -, rfl⟩ := List.mem_map.mp hitem
  exact exact_toJson c

/-- What is printed for entries is read as the array of them. -/
theorem read?_entries (outputs : List FileCode) :
    Json.read? ((Json.array (outputs.map entry)).pretty ++ "\n") =
      some (.array (outputs.map entry)) := by
  apply Json.read?_pretty
  · refine .array fun item hitem => ?_
    obtain ⟨f, -, rfl⟩ := List.mem_map.mp hitem
    exact exact_entry f
  · simp [Json.isBlank]

section Named

variable {paths : List String} {outputs : List FileCode}

theorem forall_text_of_named
    (h : List.Forall₂ (fun path output => output.path = RawText.text path) paths outputs) :
    ∀ f ∈ outputs, ∃ path, f.path = .text path := by
  induction h with
  | nil => simp
  | cons hpath _ ih => exact List.forall_mem_cons.mpr ⟨⟨_, hpath⟩, ih⟩

/-- What is made of paths and the code of their files can be made of the code alone. -/
theorem zipWith_eq_map {α : Type}
    (h : List.Forall₂ (fun path output => output.path = RawText.text path) paths outputs)
    (make : String → FileCode → α) :
    List.zipWith make paths outputs = outputs.map fun output => make output.path.shown output := by
  induction h with
  | nil => rfl
  | cons hpath _ ih => rw [List.zipWith_cons_cons, List.map_cons, ih, hpath, RawText.shown]

end Named

/-- A run over readable files, whose paths are texts, succeeds, and reports for each what a run over
this file alone reports, whatever reads the PHP. It prints these codes in the order of the files. The
printed JSON text is read as one entry for each file, with its path and its codes. -/
theorem run_reports_alone [Php.Reader] {files : Files} {home : RawText} {arguments : Arguments}
    {options : Options} {paths : List String} (hpaths : arguments.files = paths.map .text)
    (hoptions : Options.discover files arguments.config home = .ok options)
    (hfiles : ∀ path ∈ paths, ∃ text, files.text (.text path) = .ok text) :
    ∃ outputs, reported files home arguments = .ok outputs ∧
      List.Forall₂ (fun path output => output.path = .text path ∧
        reported files home { arguments with files := [.text path] } = .ok [output])
        paths outputs ∧
      ∃ printed, (run files home arguments).run.run "" = (.ok (), printed) ∧
        match arguments.format with
        | .json =>
          let entries := Json.array (List.zipWith (fun path output =>
            .object [("file", .string path), ("codes", Code.encode output.codes)]) paths outputs)
          printed = entries.pretty ++ "\n" ∧ Json.read? printed = some entries
        | .text =>
          printed = String.join (List.zipWith (fun path output =>
            (if 1 < paths.length then path ++ ": " else "")
              ++ String.join (output.codes.map Code.content) ++ "\n") paths outputs) := by
  have hnone : PassesOver files [] := by simp [PassesOver]
  obtain ⟨outputs, hall, halone⟩ := @resolveAll_after _ files options [] hnone _ hfiles
  have hreported : reported files home arguments = .ok outputs := by
    rw [reported_of_discover hoptions, hpaths]
    exact hall
  have hsingle {path : String} {output : FileCode}
      (h : resolveAll files (.ofOptions options) [.text path] = .ok [output]) :
      reported files home { arguments with files := [.text path] } = .ok [output] := by
    have hsame : Options.discover files { arguments with files := [.text path] }.config home =
        .ok options := hoptions
    rw [reported_of_discover hsame, h]
  have hnamed : List.Forall₂ (fun path output => output.path = .text path) paths outputs :=
    halone.imp fun _ _ h => h.1
  have htexts := forall_text_of_named hnamed
  refine ⟨outputs, hreported, halone.imp fun _ _ h => ⟨h.1, hsingle h.2⟩, ?_⟩
  cases hformat : arguments.format with
  | json =>
      refine ⟨_, run_json hreported hformat htexts, ?_, ?_⟩
      · rw [zipWith_eq_map hnamed]
        rfl
      · rw [zipWith_eq_map hnamed]
        exact read?_entries outputs
  | text =>
      refine ⟨_, run_text hreported hformat, ?_⟩
      have hline : textLine (1 < paths.length) = fun output =>
          (if 1 < paths.length then output.path.shown ++ ": " else "")
            ++ String.join (output.codes.map Code.content) ++ "\n" := by
        funext output
        simp [textLine, Code.source]
      simp only [zipWith_eq_map hnamed, hpaths, List.length_map, hline]

/-- Two files, one of them twice, with an empty block in front of another one. -/
theorem run_reports_alone_repeated :
    let files := Files.ofAnswers
      [("A.vue", .ok "<php></php><php>$a = 1; export($a);</php>".toByteArray),
        ("B.vue", .ok "<php>$b; export($b);</php>".toByteArray)]
    let arguments : Arguments := ⟨["A.vue", "B.vue", "A.vue"], none, .text, none⟩
    let inJson : Arguments := ⟨["A.vue", "B.vue"], none, .json, none⟩
    Options.discover files none "/" = .ok .standard ∧
      (∀ path ∈ ["A.vue", "B.vue"], ∃ text, files.text (.text path) = .ok text) ∧
      (run files "/" arguments).run.run "" = (.ok (), String.join
        ["A.vue:  & \x7b a: number; \x7d\n", "B.vue:  & \x7b b: unknown; \x7d\n",
          "A.vue:  & \x7b a: number; \x7d\n"]) ∧
      (run files "/" inJson).run.run "" = (.ok (), String.join
        ["[\n  \x7b\n    \x22file\x22: \x22A.vue\x22,\n    \x22codes\x22: [\n",
          "      \x22 & \x7b \x22,\n",
          "      [\n        \x22a\x22,\n        \x22customBlock_1\x22,\n        1,\n",
          "        \x7b\n          \x22navigation\x22: true\n        \x7d\n      ],\n",
          "      \x22: number; \x22,\n      \x22\x7d\x22\n    ]\n  \x7d,\n",
          "  \x7b\n    \x22file\x22: \x22B.vue\x22,\n    \x22codes\x22: [\n",
          "      \x22 & \x7b \x22,\n",
          "      [\n        \x22b\x22,\n        \x22customBlock_0\x22,\n        1,\n",
          "        \x7b\n          \x22navigation\x22: true\n        \x7d\n      ],\n",
          "      \x22: unknown; \x22,\n      \x22\x7d\x22\n    ]\n  \x7d\n]\n"]) := by
  intro files arguments inJson
  have hoptions : Options.discover files none "/" = .ok .standard := by
    rfl
  have hfirst : files.text "A.vue" = .ok "<php></php><php>$a = 1; export($a);</php>" :=
    Files.text_of_bytes rfl
  have hsecond : files.text "B.vue" = .ok "<php>$b; export($b);</php>" := Files.text_of_bytes rfl
  have hfiles : ∀ path ∈ ["A.vue", "B.vue"], ∃ text, files.text (.text path) = .ok text := by
    simp only [List.forall_mem_cons]
    exact ⟨⟨_, hfirst⟩, ⟨_, hsecond⟩, by simp⟩
  have hthree : ∀ path ∈ ["A.vue", "B.vue", "A.vue"],
      ∃ text, files.text (.text path) = .ok text := by
    simp only [List.forall_mem_cons]
    exact ⟨⟨_, hfirst⟩, ⟨_, hsecond⟩, ⟨_, hfirst⟩, by simp⟩
  -- what a run over one file reports is what a fresh resolver makes of it
  have hcodes {format : Format} {path : RawText} {text : String} {output : FileCode}
      (htext : files.text path = .ok text)
      (h : reported files "/" ⟨[path], none, format, none⟩ = .ok [output]) :
      (resolveText (.ofOptions .standard) path text).1 = output := by
    rw [reported_of_discover hoptions, resolveAll_singleton htext] at h
    simpa using h
  refine ⟨hoptions, hfiles, ?_, ?_⟩
  · obtain ⟨outputs, -, halone, printed, hrun, rfl⟩ :=
      @run_reports_alone _ files "/" arguments .standard ["A.vue", "B.vue", "A.vue"] rfl hoptions
        hthree
    obtain ⟨_, _, ⟨-, h₁⟩, hrest, rfl⟩ := List.forall₂_cons_left_iff.mp halone
    obtain ⟨_, _, ⟨-, h₂⟩, hlast, rfl⟩ := List.forall₂_cons_left_iff.mp hrest
    obtain ⟨_, _, ⟨-, h₃⟩, hend, rfl⟩ := List.forall₂_cons_left_iff.mp hlast
    obtain rfl := List.forall₂_nil_left_iff.mp hend
    rw [hrun, ← hcodes hfirst h₁, ← hcodes hsecond h₂, ← hcodes hfirst h₃]
    refine congrArg (Except.ok (), ·) ?_
    decide +kernel
  · obtain ⟨outputs, -, halone, printed, hrun, rfl, -⟩ :=
      @run_reports_alone _ files "/" inJson .standard ["A.vue", "B.vue"] rfl hoptions hfiles
    obtain ⟨_, _, ⟨-, h₁⟩, hrest, rfl⟩ := List.forall₂_cons_left_iff.mp halone
    obtain ⟨_, _, ⟨-, h₂⟩, hend, rfl⟩ := List.forall₂_cons_left_iff.mp hrest
    obtain rfl := List.forall₂_nil_left_iff.mp hend
    rw [hrun, ← hcodes hfirst h₁, ← hcodes hsecond h₂]
    refine congrArg (Except.ok (), ·) ?_
    decide +kernel

end Command

end BlockExports
