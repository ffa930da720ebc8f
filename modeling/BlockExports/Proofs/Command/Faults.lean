import BlockExports.Proofs.Command.Batch

/-!
Runs that fail.

A run has no output before all of its files are read. So a run that stops at its configuration or at a
file without a text has printed nothing, and its error is the first one that it meets: that of the
configuration, or else that of the first file without a text (`run_first_fault`). When all is read, a
run can still fail in one way: JSON has no form for a path that is not text. The array breaks off
there, with the entries of the files before it written.
-/

namespace BlockExports

/-! ### Files without a text -/

/-- A path that has no text, and the cause: it cannot be read, or what it holds is not UTF-8. -/
inductive Files.Refuses (files : Files) : RawText → FileFault → Prop where
  | unreadable {path : RawText} {cause : FileFault} (h : files.bytes path = .error cause) :
      Refuses files path cause
  | notText {path : RawText} {bytes : ByteArray} (h : files.bytes path = .ok bytes)
      (hbytes : ¬bytes.IsValidUTF8) : Refuses files path .notText

theorem Files.text_eq_error_iff {files : Files} {path : RawText} {cause : FileFault} :
    files.text path = .error cause ↔ files.Refuses path cause := by
  constructor
  · intro h
    rw [Files.text] at h
    split at h
    · next fault hbytes =>
      obtain rfl : fault = cause := Except.error.inj h
      exact .unreadable hbytes
    · next bytes hbytes =>
      split at h
      · simp at h
      · next hnone =>
        obtain rfl : FileFault.notText = cause := Except.error.inj h
        refine .notText hbytes fun hvalid => ?_
        simp [String.fromUTF8?, hvalid] at hnone
  · rintro (h | ⟨h, hbytes⟩)
    · rw [Files.text, h]
    · simp only [Files.text, h, String.fromUTF8?, dif_neg hbytes]

namespace Command

/-! ### The first fault -/

section Files

variable [Php.Reader] {files : Files}

/-- A path without a text stops the files, the first one with its cause. -/
theorem resolveAll_refused {paths : List RawText}
    (h : ∃ path ∈ paths, ∃ cause, files.Refuses path cause) (r : Resolver) :
    ∃ before path after cause, paths = before ++ path :: after ∧
      (∀ p ∈ before, ¬∃ cause, files.Refuses p cause) ∧ files.Refuses path cause ∧
      resolveAll files r paths = .error (.unreadable path cause) := by
  induction paths generalizing r with
  | nil => simp at h
  | cons path paths ih =>
      cases htext : files.text path with
      | error cause =>
          exact ⟨[], path, paths, cause, rfl, by simp, Files.text_eq_error_iff.mp htext,
            resolveAll_cons_of_error htext r paths⟩
      | ok text =>
          have hpath : ¬∃ cause, files.Refuses path cause := by
            rintro ⟨cause, hrefuses⟩
            rw [Files.text_eq_error_iff.mpr hrefuses] at htext
            cases htext
          have hlater : ∃ later ∈ paths, ∃ cause, files.Refuses later cause := by
            simpa [hpath] using h
          obtain ⟨before, first, after, cause, rfl, hbefore, hfirst, hall⟩ :=
            ih hlater (resolveText r path text).2
          refine ⟨path :: before, first, after, cause, rfl, ?_, hfirst, ?_⟩
          · exact List.forall_mem_cons.mpr ⟨hpath, hbefore⟩
          · rw [resolveAll_cons htext, hall]
            rfl

/-- Paths that all have a text are all resolved. -/
theorem exists_resolveAll {paths : List RawText}
    (h : ∀ path ∈ paths, ¬∃ cause, files.Refuses path cause) (r : Resolver) :
    ∃ outputs, resolveAll files r paths = .ok outputs := by
  induction paths generalizing r with
  | nil => exact ⟨[], rfl⟩
  | cons path paths ih =>
      obtain ⟨hpath, hpaths⟩ := List.forall_mem_cons.mp h
      cases htext : files.text path with
      | error cause => exact absurd ⟨cause, Files.text_eq_error_iff.mp htext⟩ hpath
      | ok text =>
          obtain ⟨outputs, hall⟩ := ih hpaths (resolveText r path text).2
          refine ⟨(resolveText r path text).1 :: outputs, ?_⟩
          rw [resolveAll_cons htext, hall]
          rfl

/-- Files that were all resolved: the first one, and the others behind it. -/
theorem resolveAll_cons_eq_ok {path : RawText} {paths : List RawText}
    {outputs : List FileCode} {r : Resolver} (h : resolveAll files r (path :: paths) = .ok outputs) :
    ∃ text others, files.text path = .ok text ∧
      resolveAll files (resolveText r path text).2 paths = .ok others ∧
      outputs = (resolveText r path text).1 :: others := by
  cases htext : files.text path with
  | error cause =>
      rw [resolveAll_cons_of_error htext] at h
      cases h
  | ok text =>
      rw [resolveAll_cons htext] at h
      cases hrest : resolveAll files (resolveText r path text).2 paths with
      | error e =>
          rw [hrest] at h
          cases h
      | ok others =>
          rw [hrest] at h
          exact ⟨text, others, rfl, hrest, (Except.ok.inj h).symm⟩

theorem map_path_of_resolveAll {paths : List RawText} {outputs : List FileCode}
    {r : Resolver} (h : resolveAll files r paths = .ok outputs) : outputs.map (·.path) = paths := by
  induction paths generalizing r outputs with
  | nil =>
      obtain rfl := Except.ok.inj h
      rfl
  | cons path paths ih =>
      obtain ⟨text, others, -, hothers, rfl⟩ := resolveAll_cons_eq_ok h
      rw [List.map_cons, ih hothers]
      rfl

/-- The first of some files are resolved as they are without the others. -/
theorem resolveAll_append {before after : List RawText} {outputs : List FileCode}
    {r : Resolver} (h : resolveAll files r (before ++ after) = .ok outputs) :
    ∃ first later, resolveAll files r before = .ok first ∧ outputs = first ++ later := by
  induction before generalizing r outputs with
  | nil => exact ⟨[], outputs, rfl, rfl⟩
  | cons path before ih =>
      obtain ⟨text, others, htext, hothers, rfl⟩ := resolveAll_cons_eq_ok h
      obtain ⟨first, later, hfirst, rfl⟩ := ih hothers
      refine ⟨(resolveText r path text).1 :: first, later, ?_, rfl⟩
      rw [resolveAll_cons htext, hfirst]
      rfl

end Files

/-! ### What a run leaves -/

section Run

variable {files : Files} {home : RawText} {arguments : Arguments} {outputs : List FileCode}

theorem exists_text_of_text? {path : RawText} (h : path.text? ≠ none) : ∃ s, path = .text s := by
  cases path with
  | text s => exact ⟨s, rfl⟩
  | bytes b hb => exact absurd rfl h

theorem forall_text {paths : List RawText} (hpaths : ∀ p ∈ paths, p.text? ≠ none)
    (hnames : outputs.map (·.path) = paths) : ∀ f ∈ outputs, ∃ path, f.path = .text path := by
  intro f hf
  apply exists_text_of_text?
  apply hpaths
  rw [← hnames]
  exact List.mem_map_of_mem hf

variable [Php.Reader]

theorem left_of_badConfig {e : Error}
    (h : Options.discover files arguments.config home = .error e) :
    (run files home arguments).run.run "" = (.error e, "") := by
  apply run_of_reported_error
  rw [reported, h]
  rfl

theorem left_of_refused {options : Options}
    (hoptions : Options.discover files arguments.config home = .ok options)
    (h : ∃ path ∈ arguments.files, ∃ cause, files.Refuses path cause) :
    ∃ before path after cause, arguments.files = before ++ path :: after ∧
      (∀ p ∈ before, ¬∃ cause, files.Refuses p cause) ∧ files.Refuses path cause ∧
      (run files home arguments).run.run "" = (.error (.unreadable path cause), "") := by
  obtain ⟨before, path, after, cause, hsplit, hbefore, hfirst, hall⟩ :=
    resolveAll_refused h (.ofOptions options)
  refine ⟨before, path, after, cause, hsplit, hbefore, hfirst, ?_⟩
  apply run_of_reported_error
  rw [reported_of_discover hoptions, hall]

variable {options : Options}
  (hoptions : Options.discover files arguments.config home = .ok options)

include hoptions

theorem exists_reported (h : ∀ path ∈ arguments.files, ¬∃ cause, files.Refuses path cause) :
    ∃ outputs, reported files home arguments = .ok outputs := by
  rw [reported_of_discover hoptions]
  exact exists_resolveAll h _

theorem map_path_of_reported (h : reported files home arguments = .ok outputs) :
    outputs.map (·.path) = arguments.files := by
  rw [reported_of_discover hoptions] at h
  exact map_path_of_resolveAll h

/-- In JSON the code of the files in front of the first path that is no text is written, and then the
run ends. -/
theorem left_of_notText (h : reported files home arguments = .ok outputs)
    (hformat : arguments.format = .json) (hraw : ∃ path ∈ arguments.files, path.text? = none) :
    ∃ before path after first, arguments.files = before ++ path :: after ∧
      (∀ p ∈ before, p.text? ≠ none) ∧ path.text? = none ∧
      reported files home { arguments with files := before } = .ok first ∧
      (run files home arguments).run.run "" =
        (.error (.json .pathNotText), "[" ++ unfinished (first.map entry)) := by
  obtain ⟨path, hpath, before, after, hsplit, hbefore⟩ : ∃ path, path.text? = none ∧
      ∃ before after, arguments.files = before ++ path :: after ∧
        ∀ p ∈ before, p.text? ≠ none := by
    obtain ⟨path, hfind⟩ := Option.isSome_iff_exists.mp
      (List.find?_isSome (p := fun path : RawText => path.text?.isNone) |>.mpr (by simpa using hraw))
    refine ⟨path, ?_⟩
    simpa [Option.isNone_iff_eq_none, Option.isSome_iff_ne_none] using
      List.find?_eq_some_iff_append.mp hfind
  have hnames := map_path_of_reported hoptions h
  have hall := h
  rw [reported_of_discover hoptions, hsplit] at hall
  obtain ⟨first, later, hfirst, rfl⟩ := resolveAll_append hall
  have hfront := map_path_of_resolveAll hfirst
  rw [List.map_append, hfront, hsplit] at hnames
  obtain ⟨f, rest, rfl, hname, -⟩ := List.map_eq_cons_iff.mp (List.append_cancel_left hnames)
  refine ⟨before, path, after, first, hsplit, hbefore, hpath, ?_, ?_⟩
  · have hsame : Options.discover files { arguments with files := before }.config home =
        .ok options := hoptions
    rw [reported_of_discover hsame, hfirst]
  · have hnone : f.path.text? = none := by rw [hname, hpath]
    exact run_json_notText h hformat rfl (forall_text hbefore hfront) hnone

theorem left_of_reported (h : reported files home arguments = .ok outputs)
    (htexts : arguments.format = .text ∨ ∀ path ∈ arguments.files, path.text? ≠ none) :
    ((run files home arguments).run.run "").1 = .ok () := by
  cases hformat : arguments.format with
  | text => rw [run_text h hformat]
  | json =>
      have hpaths : ∀ path ∈ arguments.files, path.text? ≠ none := by simpa [hformat] using htexts
      rw [run_json h hformat (forall_text hpaths (map_path_of_reported hoptions h))]

/-- A run over some files writes something when it has got all of its code. -/
theorem left_ne_empty (h : reported files home arguments = .ok outputs)
    (hfiles : arguments.files ≠ []) : ((run files home arguments).run.run "").2 ≠ "" := by
  cases hformat : arguments.format with
  | text =>
      have hnames := map_path_of_reported hoptions h
      cases outputs with
      | nil => exact absurd hnames.symm hfiles
      | cons f outputs =>
          rw [run_text h hformat, List.map_cons, String.join_cons, textLine]
          simp
  | json =>
      by_cases hpaths : ∀ path ∈ arguments.files, path.text? ≠ none
      · rw [run_json h hformat (forall_text hpaths (map_path_of_reported hoptions h))]
        simp
      · have hraw : ∃ path ∈ arguments.files, path.text? = none := by simpa using hpaths
        obtain ⟨_, _, _, _, _, _, _, _, hleft⟩ := left_of_notText hoptions h hformat hraw
        rw [hleft]
        simp

end Run

/-- A run whose configuration has a fault ends with it, whatever the files are; another run ends
with the first file without a text, if there is one. Neither has written anything then, in whatever
format: a run over some files writes exactly if the configuration and all files are there. Such a run
succeeds, but for the one in JSON with a path that is not text: it ends where the first of these
should stand, behind what a run over the files before it reports. The outcome of the program is what
a run leaves. -/
theorem run_first_fault [Php.Reader] (files : Files) (home : RawText) (arguments : Arguments) :
    let options := Options.discover files arguments.config home
    let refused path := ∃ cause, files.Refuses path cause
    let left := (run files home arguments).run.run ""
    (∀ e, options = .error e → left = (.error e, "")) ∧
      (∀ o, options = .ok o → (∃ path ∈ arguments.files, refused path) →
        ∃ before path after cause, arguments.files = before ++ path :: after ∧
          (∀ p ∈ before, ¬refused p) ∧ files.Refuses path cause ∧
          left = (.error (.unreadable path cause), "")) ∧
      (left.2 ≠ "" → (∃ o, options = .ok o) ∧ ∀ path ∈ arguments.files, ¬refused path) ∧
      (∀ o, options = .ok o → (∀ path ∈ arguments.files, ¬refused path) →
        (arguments.files ≠ [] → left.2 ≠ "") ∧
          (arguments.format = .text ∨ (∀ path ∈ arguments.files, path.text? ≠ none) →
            left.1 = .ok ()) ∧
          (arguments.format = .json → (∃ path ∈ arguments.files, path.text? = none) →
            ∃ before path after outputs, arguments.files = before ++ path :: after ∧
              (∀ p ∈ before, p.text? ≠ none) ∧ path.text? = none ∧
              reported files home { arguments with files := before } = .ok outputs ∧
              left = (.error (.json .pathNotText), "[" ++ unfinished (outputs.map entry)))) ∧
      ∀ given, parse given = .ok (.run arguments) → execute files home given =
        match left with
        | (.ok _, text) => ⟨0, text, ""⟩
        | (.error e, text) => ⟨1, text, name ++ ": " ++ e.report ++ "\n"⟩ := by
  intro options refused left
  refine ⟨fun e h => left_of_badConfig h, fun o h hrefused => left_of_refused h hrefused,
    fun hwritten => ?_, fun o h hreadable => ?_, fun given hgiven => ?_⟩
  · have hsilent {e : Error} (hleft : left = (.error e, "")) : False :=
      hwritten (congrArg Prod.snd hleft)
    cases hoptions : options with
    | error e => exact (hsilent (left_of_badConfig hoptions)).elim
    | ok o =>
        refine ⟨⟨o, rfl⟩, fun path hpath hrefused => ?_⟩
        obtain ⟨_, _, _, _, _, _, _, hleft⟩ := left_of_refused hoptions ⟨path, hpath, hrefused⟩
        exact hsilent hleft
  · obtain ⟨outputs, hreported⟩ := exists_reported h hreadable
    exact ⟨left_ne_empty h hreported, left_of_reported h hreported,
      left_of_notText h hreported⟩
  · have hexecute : execute files home given = outcome left := by rw [execute, hgiven]
    rw [hexecute]
    rcases left with ⟨e | _, text⟩ <;> rfl

/-- Of three files the second is no text and the third is missing, and a configuration that is
missing too comes before all of them. A name that is no text ends a run in JSON. -/
theorem run_first_fault_notText :
    let raw := RawText.ofByteList [0x42, 0xFF, 0x2E]
    let files := Files.ofAnswers
      [("A.vue", .ok "<php>$a; export($a);</php>".toByteArray), ("B.vue", .ok ⟨#[0xFF]⟩),
        (raw, .ok "".toByteArray)]
    let arguments : Arguments := ⟨["A.vue", "B.vue", "C.vue"], none, .json, none⟩
    let configured : Arguments := { arguments with config := some "x.toml" }
    (run files "/" arguments).run.run "" = (.error (.unreadable "B.vue" .notText), "") ∧
      (run files "/" configured).run.run "" = (.error (.unreadable "x.toml" .missing), "") ∧
      execute files "/" ["--format=json", "A.vue", "B.vue", "C.vue"] =
        ⟨1, "", "php-sfc-types: failed to read B.vue: stream did not contain valid UTF-8\n"⟩ ∧
      execute files "/" ["--format", "json", raw] =
        ⟨1, "[\n  \x7b\n    \x22file\x22: ",
          "php-sfc-types: path contains invalid UTF-8 characters\n"⟩ := by
  intro raw files arguments configured
  have hoptions : Options.discover files arguments.config "/" = .ok .standard := rfl
  have hmissing : Options.discover files configured.config "/" =
      .error (.unreadable "x.toml" .missing) := rfl
  have hgiven : parse ["--format=json", "A.vue", "B.vue", "C.vue"] = .ok (.run arguments) := by
    decide +kernel
  have hsecond : files.Refuses "B.vue" .notText := .notText rfl (by decide)
  have hfirst : ¬∃ cause, files.Refuses "A.vue" cause := by
    rintro ⟨cause, hrefuses⟩
    have htext : files.text "A.vue" = .ok _ := Files.text_of_bytes rfl
    rw [Files.text_eq_error_iff.mpr hrefuses] at htext
    cases htext
  obtain ⟨-, hfile, -, -, houtcome⟩ := run_first_fault files "/" arguments
  obtain ⟨before, path, after, cause, hsplit, hbefore, hrefuses, hleft⟩ :=
    hfile .standard hoptions ⟨"B.vue", by simp [arguments], .notText, hsecond⟩
  -- the first path without a text is the second one
  obtain ⟨rfl, rfl⟩ : path = "B.vue" ∧ cause = .notText := by
    rcases before with _ | ⟨a, _ | ⟨b, before⟩⟩
    · obtain ⟨rfl, -⟩ := List.cons.inj hsplit
      exact absurd ⟨cause, hrefuses⟩ hfirst
    · obtain ⟨-, hrest⟩ := List.cons.inj hsplit
      obtain ⟨rfl, -⟩ := List.cons.inj hrest
      rw [← Files.text_eq_error_iff] at hrefuses hsecond
      exact ⟨rfl, Except.error.inj (hrefuses.symm.trans hsecond)⟩
    · obtain ⟨-, hrest⟩ := List.cons.inj hsplit
      obtain ⟨rfl, -⟩ := List.cons.inj hrest
      exact absurd ⟨_, hsecond⟩ (hbefore "B.vue" (by simp))
  refine ⟨hleft, (run_first_fault files "/" configured).1 _ hmissing, ?_, ?_⟩
  · rw [houtcome _ hgiven, hleft]
    rfl
  · have hraw : raw.text? = none := by decide +kernel
    have hgiven : parse ["--format", "json", raw] = .ok (.run ⟨[raw], none, .json, none⟩) := by
      decide +kernel
    have hreadable : ∀ path ∈ [raw], ¬∃ cause, files.Refuses path cause := by
      have htext : files.text raw = .ok "" := Files.text_of_bytes (by rfl)
      simp [← Files.text_eq_error_iff, htext]
    obtain ⟨-, -, -, hwritten, hended⟩ := run_first_fault files "/" ⟨[raw], none, .json, none⟩
    obtain ⟨-, -, hstopped⟩ := hwritten .standard hoptions hreadable
    obtain ⟨before, path, after, outputs, hsplit, -, -, hreported, hleft⟩ :=
      hstopped rfl ⟨raw, by simp, hraw⟩
    obtain rfl : before = [] := by
      rcases before with _ | ⟨a, before⟩
      · rfl
      · obtain ⟨-, hrest⟩ := List.cons.inj hsplit
        simp at hrest
    obtain rfl := Except.ok.inj hreported
    rw [hended _ hgiven, hleft]
    rfl

end Command

end BlockExports
