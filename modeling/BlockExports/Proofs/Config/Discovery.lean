import BlockExports.Proofs.Command.Faults
import BlockExports.Proofs.Toml.Keys
import Mathlib.Data.String.Basic

/-!
Where the options of a run come from.

Options are taken from one file or from none. Without a file they are standard, and with a file they
are what its table says, or else the run stops with an error about this file: a file that was chosen
is never passed over (`discover_selected`). A table is read as a set of fields. Each of its keys is
there once, so the order of the keys makes no difference, neither to the options nor to the fault
that is reported.
-/

namespace BlockExports

theorem Files.text_eq_ok_iff {files : Files} {path : RawText} {text : String} :
    files.text path = .ok text ↔ files.bytes path = .ok text.toByteArray := by
  refine ⟨fun h => ?_, Files.text_of_bytes⟩
  rw [Files.text] at h
  split at h
  · simp at h
  · next bytes hbytes =>
    rw [hbytes]
    split at h
    · next held hheld =>
      obtain rfl := Except.ok.inj h
      rw [String.fromUTF8?] at hheld
      split at hheld
      · obtain rfl := Option.some.inj hheld
        rfl
      · simp at hheld
    · simp at h

namespace Options

open Toml

/-! ### Tables -/

/-- The fields of a configuration are its two options, and both of them are texts. -/
def Allowed (t : Table) : Prop :=
  ∀ field ∈ t, (field.1 = blockTypeKey ∨ field.1 = embeddedStartKey) ∧
    ∃ s, field.2 = .string s

/-- A text is the one under a key, or what is standard where the key is missing. -/
def Takes (t : Table) (key standard text : String) : Prop :=
  (key, .string text) ∈ t ∨ key ∉ t.map (·.1) ∧ text = standard

/-- Options with the values of a table, and the standard ones where the table says nothing. -/
structure TakenFrom (o : Options) (t : Table) : Prop where
  blockType : Takes t blockTypeKey standard.blockType o.blockType
  embeddedStart : Takes t embeddedStartKey standard.embeddedStart o.embeddedStart

/-- The fault of the field with the least key among those that have one. -/
structure LeastFault (t : Table) (key : String) (fault : ConfigFault) : Prop where
  found : ∃ value, (key, value) ∈ t ∧ fault? (key, value) = some fault
  least : ∀ field ∈ t, fault? field ≠ none → key ≤ field.1

theorem fault?_eq_none_iff (field : String × Value) :
    fault? field = none ↔
      (field.1 = blockTypeKey ∨ field.1 = embeddedStartKey) ∧ ∃ s, field.2 = .string s := by
  rw [fault?]
  by_cases hkey : field.1 = blockTypeKey ∨ field.1 = embeddedStartKey
  · rw [if_pos (by simpa using hkey)]
    cases field.2 <;> simp [hkey]
  · rw [if_neg (by simpa using hkey)]
    simp [hkey]

theorem tableFault?_eq_none_iff (t : Table) : tableFault? t = none ↔ Allowed t := by
  induction t with
  | nil => simp [tableFault?, Allowed]
  | cons field t ih =>
      rw [Allowed, List.forall_mem_cons, ← fault?_eq_none_iff, tableFault?]
      cases fault? field with
      | none => exact ih.trans (and_iff_right rfl).symm
      | some fault =>
          cases tableFault? t with
          | none => simp
          | some later =>
              simp only
              split <;> simp

section Fault

variable {t : Table} {field : String × Value} {key : String} {fault : ConfigFault}

theorem LeastFault.cons (h : LeastFault t key fault)
    (hfield : fault? field ≠ none → key ≤ field.1) : LeastFault (field :: t) key fault where
  found := by
    obtain ⟨value, hvalue, hfault⟩ := h.found
    exact ⟨value, List.mem_cons_of_mem _ hvalue, hfault⟩
  least := List.forall_mem_cons.mpr ⟨hfield, h.least⟩

theorem leastFault_head (hfield : fault? field = some fault)
    (hlater : ∀ other ∈ t, fault? other ≠ none → field.1 ≤ other.1) :
    LeastFault (field :: t) field.1 fault where
  found := ⟨field.2, List.mem_cons_self, hfield⟩
  least := List.forall_mem_cons.mpr ⟨fun _ => le_rfl, hlater⟩

/-- Of the faults of a table the least one counts. -/
theorem leastFault_of_tableFault? (h : tableFault? t = some (key, fault)) :
    LeastFault t key fault := by
  induction t generalizing key fault with
  | nil => simp [tableFault?] at h
  | cons field t ih =>
      rw [tableFault?] at h
      cases hfield : fault? field with
      | none =>
          rw [hfield] at h
          exact (ih h).cons fun hne => absurd hfield hne
      | some first =>
          cases hlater : tableFault? t with
          | none =>
              rw [hfield, hlater] at h
              obtain ⟨rfl, rfl⟩ := Prod.mk.inj (Option.some.inj h)
              refine leastFault_head hfield fun other hother hne => absurd ?_ hne
              exact (fault?_eq_none_iff other).mpr
                ((tableFault?_eq_none_iff t).mp hlater other hother)
          | some later =>
              have hleast := ih hlater
              rw [hfield, hlater] at h
              simp only at h
              split at h
              · next hlt =>
                obtain rfl := Option.some.inj h
                exact hleast.cons fun _ => hlt.le
              · next hle =>
                obtain ⟨rfl, rfl⟩ := Prod.mk.inj (Option.some.inj h)
                exact leastFault_head hfield fun other hother hne =>
                  (not_lt.mp hle).trans (hleast.least other hother hne)

end Fault

section Table

variable {t : Table} {o : Options} {key : String} {fault : ConfigFault}

theorem LeastFault.not_allowed (h : LeastFault t key fault) : ¬Allowed t := by
  intro hallowed
  obtain ⟨value, hvalue, hfault⟩ := h.found
  rw [(fault?_eq_none_iff _).mpr (hallowed _ hvalue)] at hfault
  simp at hfault

/-- Each key is there once, so a table has one least fault. -/
theorem LeastFault.unique (ht : t.UniqueKeys) (h : LeastFault t key fault) {key' : String}
    {fault' : ConfigFault} (h' : LeastFault t key' fault') : key = key' ∧ fault = fault' := by
  obtain ⟨value, hvalue, hfault⟩ := h.found
  obtain ⟨value', hvalue', hfault'⟩ := h'.found
  obtain rfl : key = key' :=
    le_antisymm (h.least _ hvalue' (by simp [hfault'])) (h'.least _ hvalue (by simp [hfault]))
  obtain rfl := ht.eq_of_mem hvalue hvalue'
  exact ⟨rfl, Option.some.inj (hfault.symm.trans hfault')⟩

theorem tableFault?_eq_some_iff (ht : t.UniqueKeys) :
    tableFault? t = some (key, fault) ↔ LeastFault t key fault := by
  refine ⟨leastFault_of_tableFault?, fun h => ?_⟩
  cases hfault : tableFault? t with
  | none => exact absurd ((tableFault?_eq_none_iff t).mp hfault) h.not_allowed
  | some later =>
      obtain ⟨rfl, rfl⟩ := h.unique ht (leastFault_of_tableFault? hfault)
      rfl

theorem takes_textOf (ht : Allowed t) (key standard : String) :
    Takes t key standard (textOf t key standard) := by
  rw [textOf]
  cases hlookup : t.lookup key with
  | none => exact Or.inr ⟨Table.lookup_eq_none_iff.mp hlookup, rfl⟩
  | some value =>
      have hmem := Table.mem_of_lookup hlookup
      obtain ⟨-, s, rfl⟩ := ht _ hmem
      exact Or.inl hmem

theorem takenFrom_textOf (ht : Allowed t) :
    TakenFrom ⟨textOf t blockTypeKey standard.blockType,
      textOf t embeddedStartKey standard.embeddedStart⟩ t :=
  ⟨takes_textOf ht _ _, takes_textOf ht _ _⟩

theorem Takes.unique (ht : t.UniqueKeys) {standard text text' : String}
    (h : Takes t key standard text) (h' : Takes t key standard text') : text = text' := by
  rcases h with h | ⟨hmissing, rfl⟩ <;> rcases h' with h' | ⟨hmissing', rfl⟩
  · exact Value.string.inj (ht.eq_of_mem h h')
  · exact absurd (List.mem_map_of_mem h) hmissing'
  · exact absurd (List.mem_map_of_mem h') hmissing
  · rfl

theorem TakenFrom.unique (ht : t.UniqueKeys) {o' : Options} (h : o.TakenFrom t)
    (h' : o'.TakenFrom t) : o = o' := by
  have htype := h.blockType.unique ht h'.blockType
  have hstart := h.embeddedStart.unique ht h'.embeddedStart
  cases o
  cases o'
  simp_all

theorem ofTable_eq_ok_iff (ht : t.UniqueKeys) :
    ofTable t = .ok o ↔ Allowed t ∧ o.TakenFrom t := by
  rw [ofTable]
  cases hfault : tableFault? t with
  | none =>
      have hallowed := (tableFault?_eq_none_iff t).mp hfault
      have htaken := takenFrom_textOf hallowed
      constructor
      · intro h
        obtain rfl := Except.ok.inj h
        exact ⟨hallowed, htaken⟩
      · rintro ⟨-, h⟩
        exact congrArg Except.ok (htaken.unique ht h)
  | some later =>
      have hfaulty := (leastFault_of_tableFault? hfault).not_allowed
      simp [hfaulty]

theorem ofTable_eq_error_iff (ht : t.UniqueKeys) :
    ofTable t = .error fault ↔ ∃ key, LeastFault t key fault := by
  simp only [← tableFault?_eq_some_iff ht, ofTable]
  cases tableFault? t with
  | none => simp
  | some later => simp [Prod.ext_iff]

/-- The order of the keys makes no difference to what is read from a table. -/
theorem ofTable_perm (ht : t.UniqueKeys) {t' : Table} (hperm : t.Perm t') :
    ofTable t = ofTable t' := by
  have ht' : t'.UniqueKeys := ((hperm.map _).nodup_iff).mp ht
  have hkeys (key : String) : key ∈ t.map (·.1) ↔ key ∈ t'.map (·.1) := (hperm.map _).mem_iff
  cases h : ofTable t' with
  | ok o =>
      obtain ⟨hallowed, htype, hstart⟩ := (ofTable_eq_ok_iff ht').mp h
      refine (ofTable_eq_ok_iff ht).mpr ⟨fun field hfield => hallowed field ?_, ?_, ?_⟩
      · exact hperm.mem_iff.mp hfield
      · rwa [Takes, hperm.mem_iff, hkeys]
      · rwa [Takes, hperm.mem_iff, hkeys]
  | error fault =>
      obtain ⟨key, ⟨value, hvalue, hfault⟩, hleast⟩ := (ofTable_eq_error_iff ht').mp h
      refine (ofTable_eq_error_iff ht).mpr ⟨key, ⟨value, hperm.mem_iff.mpr hvalue, hfault⟩, ?_⟩
      exact fun field hfield => hleast field (hperm.mem_iff.mp hfield)

end Table

/-! ### Files -/

/-- What is wrong with a text as a configuration. -/
inductive Rejects (text : String) : ConfigFault → Prop where
  | malformed (h : Toml.parse? text = none) : Rejects text .malformed
  | fault {t : Table} {key : String} {fault : ConfigFault} (h : Toml.parse? text = some t)
      (hkey : LeastFault t key fault) : Rejects text fault

/-- The errors about a file that options are to be taken from. -/
inductive Fails (files : Files) (path : RawText) : Error → Prop where
  | unreadable {cause : FileFault} (h : files.Refuses path cause) :
      Fails files path (.unreadable path cause)
  | badConfig {text : String} {fault : ConfigFault}
      (htext : files.bytes path = .ok text.toByteArray) (h : Rejects text fault) :
      Fails files path (.badConfig path fault)

theorem infix_toList_append (front path mark back : String) :
    path.toList <:+: (front ++ path ++ mark ++ back).toList := by
  rw [String.toList_append, String.toList_append, String.toList_append, List.append_assoc]
  exact List.infix_append _ _ _

theorem Fails.infix_message {files : Files} {path : RawText} {e : Error} (h : Fails files path e) :
    path.shown.toList <:+: e.message.toList := by
  cases h with
  | unreadable h => exact infix_toList_append _ _ _ _
  | badConfig htext h => exact infix_toList_append _ _ _ _

theorem ofText_eq_ok_iff {text : String} {o : Options} :
    ofText text = .ok o ↔ ∃ t, Toml.parse? text = some t ∧ Allowed t ∧ o.TakenFrom t := by
  rw [ofText]
  cases hparse : Toml.parse? text with
  | none => simp
  | some t => simp [ofTable_eq_ok_iff (uniqueKeys_parse? hparse)]

theorem ofText_eq_error_iff {text : String} {fault : ConfigFault} :
    ofText text = .error fault ↔ Rejects text fault := by
  rw [ofText]
  cases hparse : Toml.parse? text with
  | none =>
      constructor
      · intro h
        obtain rfl : ConfigFault.malformed = fault := Except.error.inj h
        exact .malformed hparse
      · rintro (_ | ⟨hsome, -⟩)
        · rfl
        · simp [hparse] at hsome
  | some t =>
      rw [ofTable_eq_error_iff (uniqueKeys_parse? hparse)]
      constructor
      · rintro ⟨key, hkey⟩
        exact .fault hparse hkey
      · rintro (hnone | ⟨hsome, hkey⟩)
        · simp [hparse] at hnone
        · obtain rfl := Option.some.inj (hparse.symm.trans hsome)
          exact ⟨_, hkey⟩

theorem load_of_text {files : Files} {path : RawText} {text : String}
    (h : files.text path = .ok text) : load files path = (ofText text).mapError (.badConfig path) := by
  rw [load, h]
  rfl

theorem load_of_error {files : Files} {path : RawText} {cause : FileFault}
    (h : files.text path = .error cause) : load files path = .error (.unreadable path cause) := by
  rw [load, h]
  rfl

theorem load_eq_ok_iff {files : Files} {path : RawText} {o : Options} :
    load files path = .ok o ↔
      ∃ text t, files.bytes path = .ok text.toByteArray ∧ Toml.parse? text = some t ∧
        Allowed t ∧ o.TakenFrom t := by
  simp only [← Files.text_eq_ok_iff]
  cases htext : files.text path with
  | error cause => simp [load_of_error htext]
  | ok text =>
      simp only [load_of_text htext, Except.ok.injEq, exists_and_left, exists_eq_left',
        ← ofText_eq_ok_iff]
      cases ofText text <;> simp [Except.mapError]

theorem load_eq_error_iff {files : Files} {path : RawText} {e : Error} :
    load files path = .error e ↔ Fails files path e := by
  cases htext : files.text path with
  | error cause =>
      rw [load_of_error htext]
      constructor
      · intro h
        obtain rfl := Except.error.inj h
        exact .unreadable (Files.text_eq_error_iff.mp htext)
      · rintro (h | ⟨hbytes, -⟩)
        · rw [Except.error.inj (htext.symm.trans (Files.text_eq_error_iff.mpr h))]
        · simp [Files.text_of_bytes hbytes] at htext
  | ok text =>
      rw [load_of_text htext]
      constructor
      · intro h
        cases hfault : ofText text with
        | ok o => simp [hfault, Except.mapError] at h
        | error fault =>
            rw [hfault] at h
            obtain rfl := Except.error.inj h
            exact .badConfig (Files.text_eq_ok_iff.mp htext) (ofText_eq_error_iff.mp hfault)
      · rintro (h | ⟨hbytes, h⟩)
        · simp [Files.text_eq_error_iff.mpr h] at htext
        · obtain rfl := Except.ok.inj (htext.symm.trans (Files.text_of_bytes hbytes))
          rw [ofText_eq_error_iff.mpr h]
          rfl

/-! ### The choice of a file -/

/-- The file that options are taken from. -/
inductive Selects (files : Files) : Option RawText → RawText → Option RawText → Prop where
  | explicit (path dir : RawText) : Selects files (some path) dir (some path)
  | default {dir : RawText} (h : files.isFile (Files.join dir defaultFile) = true) :
      Selects files none dir (some (Files.join dir defaultFile))
  | nothing {dir : RawText} (h : files.isFile (Files.join dir defaultFile) = false) :
      Selects files none dir none

theorem selected?_eq_iff {files : Files} {explicit selection : Option RawText} {dir : RawText} :
    selected? files explicit dir = selection ↔ Selects files explicit dir selection := by
  constructor
  · rintro rfl
    cases explicit with
    | some path => exact .explicit path dir
    | none =>
        rw [selected?]
        cases h : files.isFile (Files.join dir defaultFile) with
        | true => exact .default h
        | false => exact .nothing h
  · rintro (_ | h | h)
    · rfl
    · simp [selected?, h]
    · simp [selected?, h]

/-- Two states of a file system in which a path holds the same, but for the order of the keys in a
configuration. -/
inductive Alike (files others : Files) (path : RawText) : Prop where
  | same (h : others.bytes path = files.bytes path)
  | reordered {text text' : String} {t t' : Table}
      (htext : files.bytes path = .ok text.toByteArray)
      (htext' : others.bytes path = .ok text'.toByteArray) (ht : Toml.parse? text = some t)
      (ht' : Toml.parse? text' = some t') (hperm : t.Perm t')

theorem load_congr {files others : Files} {path : RawText} (h : Alike files others path) :
    load others path = load files path := by
  cases h with
  | same h => rw [load, load, Files.text, Files.text, h]
  | reordered htext htext' ht ht' hperm =>
      rw [load_of_text (Files.text_of_bytes htext), load_of_text (Files.text_of_bytes htext'),
        ofText, ofText, ht, ht']
      simp only [ofTable_perm (uniqueKeys_parse? ht) hperm]

/-- Options come from the file that is selected, if one is: they are there if and only if the file
holds a table of options, and are those of the table; in all other cases there is an error about
this file. What other files hold, and the order of the keys, make no difference. -/
theorem discover_selected (files : Files) (explicit : Option RawText) (dir : RawText) :
    ∃ selection, Selects files explicit dir selection ∧
      (selection = none → discover files explicit dir = .ok standard) ∧
      ∀ path, selection = some path →
        ((∃ o, discover files explicit dir = .ok o) ↔
          ∃ text t, files.bytes path = .ok text.toByteArray ∧ Toml.parse? text = some t ∧
            Allowed t) ∧
        (∀ o text t, discover files explicit dir = .ok o →
          files.bytes path = .ok text.toByteArray → Toml.parse? text = some t → o.TakenFrom t) ∧
        (∀ e, discover files explicit dir = .error e ↔ Fails files path e) ∧
        (∀ e, discover files explicit dir = .error e → path.shown.toList <:+: e.message.toList) ∧
        ∀ others, Selects others explicit dir (some path) → Alike files others path →
          discover others explicit dir = discover files explicit dir := by
  refine ⟨selected? files explicit dir, selected?_eq_iff.mp rfl, fun hnone => ?_,
    fun path hpath => ?_⟩
  · rw [discover, hnone]
  · have hload : discover files explicit dir = load files path := by rw [discover, hpath]
    rw [hload]
    refine ⟨⟨?_, ?_⟩, ?_, fun e => load_eq_error_iff, ?_, ?_⟩
    · rintro ⟨o, ho⟩
      obtain ⟨text, t, htext, ht, hallowed, -⟩ := load_eq_ok_iff.mp ho
      exact ⟨text, t, htext, ht, hallowed⟩
    · rintro ⟨text, t, htext, ht, hallowed⟩
      exact ⟨_, load_eq_ok_iff.mpr ⟨text, t, htext, ht, hallowed, takenFrom_textOf hallowed⟩⟩
    · intro o text t ho htext ht
      obtain ⟨held, t', hheld, ht', -, htaken⟩ := load_eq_ok_iff.mp ho
      obtain rfl := String.toByteArray_inj.mp (Except.ok.inj (hheld.symm.trans htext))
      obtain rfl := Option.some.inj (ht'.symm.trans ht)
      exact htaken
    · exact fun e he => (load_eq_error_iff.mp he).infix_message
    · intro others hselects halike
      rw [discover, selected?_eq_iff.mpr hselects]
      exact load_congr halike

/-- A bad file that is asked for is not replaced by the good one that is there for a directory. -/
theorem discover_selected_next_to_good :
    let good := "embedded_prefix = \x27\x27\nblock_type = \x27é\x27"
    let bad := "block_type = \x27é\x27\nmarker = \x27\x27"
    let files := Files.ofAnswers
      [("d/php-sfc.toml", .ok good.toByteArray), ("x.toml", .ok bad.toByteArray)]
    discover files none "d" = .ok ⟨"é", ""⟩ ∧
      discover files (some "x.toml") "d" =
        .error (.badConfig "x.toml" (.unknownField "marker")) := by
  intro good bad files
  have hgood : (ofText good).toOption = some ⟨"é", ""⟩ := by decide +kernel
  have hbad : (Toml.parse? bad).bind tableFault? = some ("marker", .unknownField "marker") := by
    decide +kernel
  constructor
  · obtain ⟨selection, hselects, -, hselected⟩ := discover_selected files none "d"
    have hselection : selected? files none "d" = some "d/php-sfc.toml" := by decide
    obtain rfl := hselection.symm.trans (selected?_eq_iff.mpr hselects)
    obtain ⟨hok, htaken, -⟩ := hselected "d/php-sfc.toml" rfl
    cases htext : ofText good with
    | error fault => simp [htext, Except.toOption] at hgood
    | ok found =>
        obtain rfl : found = ⟨"é", ""⟩ := by simpa [htext, Except.toOption] using hgood
        obtain ⟨t, hparse, hallowed, hfound⟩ := ofText_eq_ok_iff.mp htext
        obtain ⟨o, ho⟩ := hok.mpr ⟨good, t, rfl, hparse, hallowed⟩
        rw [ho, (htaken o good t ho rfl hparse).unique (uniqueKeys_parse? hparse) hfound]
  · obtain ⟨selection, hselects, -, hselected⟩ := discover_selected files (some "x.toml") "d"
    obtain rfl : some (.text "x.toml") = selection := selected?_eq_iff.mpr hselects
    obtain ⟨-, -, herror, -⟩ := hselected "x.toml" rfl
    obtain ⟨t, hparse, hfault⟩ := Option.bind_eq_some_iff.mp hbad
    exact (herror _).mpr (.badConfig rfl (.fault hparse (leastFault_of_tableFault? hfault)))

end Options

end BlockExports
