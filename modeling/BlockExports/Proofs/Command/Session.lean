import BlockExports.Command

/-!
What a run writes.

A run makes the code of all of its files before it writes anything (`reported`). Its lines of text are
then written whatever they are. The JSON form of an array is written piece by piece; if all paths are
text this is the indented form of the array (`writeJson_text`), and otherwise it breaks off where the
first of the other paths should stand (`writeJson_notText`).
-/

namespace BlockExports.Command

/-! ### Writing -/

theorem write_write (first second : String) :
    (do write first; write second) = write (first ++ second) := by
  funext out
  show (Except.ok (), out ++ first ++ second) = (Except.ok (), out ++ (first ++ second))
  rw [String.append_assoc]

/-- Two texts are written one behind the other, whatever comes next. -/
theorem write_bind_write (first second : String) (next : Session Unit) :
    (do write first; write second; next) = (do write (first ++ second); next) := by
  rw [← write_write, bind_assoc]

theorem run_write (text out : String) : (write text).run.run out = (.ok (), out ++ text) := rfl

theorem run_write_throw (text out : String) (e : Error) :
    (do write text; throw e : Session Unit).run.run out = (.error e, out ++ text) := rfl

theorem throw_bind (e : Error) (next : Unit → Session Unit) :
    (throw e : Session Unit) >>= next = throw e := rfl

theorem forM_write {α : Type} (line : α → String) (items : List α) :
    (items.forM fun item => write (line item)) = write (String.join (items.map line)) := by
  induction items with
  | nil =>
      funext out
      show (Except.ok (), out) = (Except.ok (), out ++ "")
      rw [String.append_empty]
  | cons item items ih =>
      show (do write (line item); items.forM fun item => write (line item)) = _
      rw [ih, write_write, List.map_cons, String.join_cons]

/-! ### The JSON report -/

/-- The JSON form of the code of a file. -/
def entry (f : FileCode) : Json :=
  .object [("file", .string f.path.shown), ("codes", Code.encode f.codes)]

/-- What stands in front of the path in an entry. -/
def entryOpening : String := "\x7b" ++ Json.newline 2 ++ Json.quoted "file" ++ ": "

/-- An array up to the path in the entry behind some others, without the bracket that opens it. -/
def unfinished : List Json → String
  | [] => Json.newline 1 ++ entryOpening
  | e :: before => Json.newline 1 ++ e.prettyAt 1 ++ "," ++ unfinished before

section Report

variable {f : FileCode} {outputs : List FileCode}

theorem writeEntry_text {path : String} (h : f.path = .text path) :
    writeEntry f = write ((entry f).prettyAt 1) := by
  have hform : (entry f).prettyAt 1 =
      entryOpening ++ (Json.quoted path ++ ("," ++ Json.newline 2 ++ Json.quoted "codes" ++ ": " ++
        (Code.encode f.codes).prettyAt 2 ++ (Json.newline 1 ++ "\x7d"))) := by
    simp only [entry, h, RawText.shown, Json.prettyAt, Json.prettyFields, entryOpening,
      String.append_assoc, String.empty_append]
  rw [hform, writeEntry, h]
  simp only [RawText.text?, write_write]
  rfl

theorem writeEntry_notText (h : f.path.text? = none) :
    writeEntry f = (do write entryOpening; throw (.json .pathNotText)) := by
  rw [writeEntry, h]
  rfl

/-- The entries behind the first one. -/
def writeFurther (outputs : List FileCode) : Session Unit :=
  outputs.forM fun f => do
    write ("," ++ Json.newline 1)
    writeEntry f

theorem writeFurther_cons (f : FileCode) (outputs : List FileCode) :
    writeFurther (f :: outputs) =
      (do write ("," ++ Json.newline 1); writeEntry f; writeFurther outputs) := by
  show (do (do write ("," ++ Json.newline 1); writeEntry f); writeFurther outputs) = _
  rw [bind_assoc]

theorem writeFurther_text (h : ∀ f ∈ outputs, ∃ path, f.path = .text path) :
    writeFurther outputs = write (Json.prettyItems 1 (outputs.map entry)) := by
  induction outputs with
  | nil =>
      funext out
      show (Except.ok (), out) = (Except.ok (), out ++ "")
      rw [String.append_empty]
  | cons f outputs ih =>
      obtain ⟨⟨path, hpath⟩, houtputs⟩ := List.forall_mem_cons.mp h
      rw [writeFurther_cons, writeEntry_text hpath, ih houtputs, write_write, write_write,
        List.map_cons, Json.prettyItems]
      simp only [String.append_assoc]

/-- Where all paths are text the JSON form of the array of all entries is written. -/
theorem writeJson_text (h : ∀ f ∈ outputs, ∃ path, f.path = .text path) :
    writeJson outputs = write (Json.array (outputs.map entry)).pretty := by
  cases outputs with
  | nil => rfl
  | cons f outputs =>
      obtain ⟨⟨path, hpath⟩, houtputs⟩ := List.forall_mem_cons.mp h
      show (do
        write ("[" ++ Json.newline 1)
        writeEntry f
        writeFurther outputs
        write (Json.newline 0 ++ "]")) = _
      rw [writeEntry_text hpath, writeFurther_text houtputs, write_write, write_write, write_write,
        List.map_cons, Json.pretty, Json.prettyAt]
      simp only [String.append_assoc]

theorem writeFurther_notText {before after : List FileCode} {first : FileCode}
    (hsplit : first :: outputs = before ++ f :: after)
    (hbefore : ∀ f ∈ before, ∃ path, f.path = .text path) (h : f.path.text? = none) :
    (do write (Json.newline 1); writeEntry first; writeFurther outputs) =
      (do write (unfinished (before.map entry)); throw (.json .pathNotText)) := by
  induction before generalizing first outputs with
  | nil =>
      obtain ⟨rfl, -⟩ := List.cons.inj hsplit
      rw [writeEntry_notText h, bind_assoc, throw_bind, write_bind_write]
      rfl
  | cons e before ih =>
      obtain ⟨rfl, hrest⟩ := List.cons.inj hsplit
      obtain ⟨⟨path, hpath⟩, hbefore⟩ := List.forall_mem_cons.mp hbefore
      cases outputs with
      | nil => simp at hrest
      | cons next outputs =>
          rw [writeFurther_cons, ← write_bind_write, ih hrest hbefore, writeEntry_text hpath,
            write_bind_write, write_bind_write, write_bind_write, List.map_cons, unfinished]

/-- The JSON form breaks off where the first path that is no text should stand. -/
theorem writeJson_notText {before after : List FileCode} (hsplit : outputs = before ++ f :: after)
    (hbefore : ∀ f ∈ before, ∃ path, f.path = .text path) (h : f.path.text? = none) :
    writeJson outputs =
      (do write ("[" ++ unfinished (before.map entry)); throw (.json .pathNotText)) := by
  cases outputs with
  | nil => simp at hsplit
  | cons first outputs =>
      have hrest := writeFurther_notText hsplit hbefore h
      calc
        writeJson (first :: outputs) =
            (do
              write "["
              (do write (Json.newline 1); writeEntry first; writeFurther outputs)
              write (Json.newline 0 ++ "]")) := by
          rw [bind_assoc, bind_assoc, write_bind_write]
          rfl
        _ = (do write ("[" ++ unfinished (before.map entry)); throw (.json .pathNotText)) := by
          rw [hrest, bind_assoc, throw_bind, write_bind_write]

end Report

/-! ### Runs -/

section Runs

variable [Php.Reader] {files : Files} {home : RawText} {arguments : Arguments}
  {outputs : List FileCode}

/-- The code that a run reports, before it is written. -/
def reported (files : Files) (home : RawText) (arguments : Arguments) :
    Except Error (List FileCode) := do
  let options ← Options.discover files arguments.config home
  resolveAll files (.ofOptions options) arguments.files

theorem run_eq (files : Files) (home : RawText) (arguments : Arguments) :
    run files home arguments =
      (do let outputs ← ofExcept (reported files home arguments); report arguments outputs) := by
  rw [run, reported]
  cases Options.discover files arguments.config home <;> rfl

/-- A run without all of its code writes nothing. -/
theorem run_of_reported_error {e : Error} (h : reported files home arguments = .error e) :
    (run files home arguments).run.run "" = (.error e, "") := by
  rw [run_eq, h]
  rfl

theorem run_of_reported (h : reported files home arguments = .ok outputs) :
    run files home arguments = report arguments outputs := by
  rw [run_eq, h]
  rfl

theorem run_text (h : reported files home arguments = .ok outputs)
    (hformat : arguments.format = .text) :
    (run files home arguments).run.run "" =
      (.ok (), String.join (outputs.map (textLine (1 < arguments.files.length)))) := by
  rw [run_of_reported h, report, hformat]
  simp only [forM_write]
  rw [run_write, String.empty_append]

theorem run_json (h : reported files home arguments = .ok outputs)
    (hformat : arguments.format = .json) (htexts : ∀ f ∈ outputs, ∃ path, f.path = .text path) :
    (run files home arguments).run.run "" =
      (.ok (), (Json.array (outputs.map entry)).pretty ++ "\n") := by
  rw [run_of_reported h, report, hformat]
  simp only [writeJson_text htexts, write_write]
  rw [run_write, String.empty_append]

theorem run_json_notText (h : reported files home arguments = .ok outputs)
    (hformat : arguments.format = .json) {before after : List FileCode} {f : FileCode}
    (hsplit : outputs = before ++ f :: after) (hbefore : ∀ f ∈ before, ∃ path, f.path = .text path)
    (hpath : f.path.text? = none) :
    (run files home arguments).run.run "" =
      (.error (.json .pathNotText), "[" ++ unfinished (before.map entry)) := by
  rw [run_of_reported h, report, hformat]
  simp only [writeJson_notText hsplit hbefore hpath, bind_assoc, throw_bind]
  rw [run_write_throw, String.empty_append]

end Runs

end BlockExports.Command
