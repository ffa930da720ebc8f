import BlockExports.Proofs.Exports.Members
import BlockExports.Resolver

/-!
The shape of a suffix.

A suffix reads ` & `, an opening brace, its members with their types, and a closing brace. The text
can be taken apart again, because a member's name has no colon and its type no semicolon
(`members_unique`). So whether a text is a suffix whose members are single TypeScript tokens is up
to the names that it was made of, and `suffix_members` says when they are: PHP takes every character
beyond ASCII for a letter, the blanks among them too, and those are all that can break a name.
-/

namespace BlockExports.Suffix

open Php

/-! ### Texts of the form of a suffix -/

/-- A member with its type. -/
def memberText (member : String × String) : String := member.1 ++ typeText member.2

/-- The text of a suffix with some members. -/
def text (members : List (String × String)) : String :=
  opening ++ String.join (members.map memberText) ++ closing

/-- A text is a suffix whose members have different names, all of them of a certain kind. -/
def IsSuffix (kind : String → Prop) (source : String) : Prop :=
  ∃ members, source = text members ∧ (members.map (·.1)).Nodup ∧
    ∀ m ∈ members, kind m.1 ∧ m.2 ∈ memberTypes

theorem join_members (bindings : List Binding) :
    String.join (bindings.flatMap fun b => [b.name, typeText b.type]) =
      String.join ((bindings.map fun b => (b.name, b.type)).map memberText) := by
  induction bindings with
  | nil => rfl
  | cons b bindings ih =>
      rw [List.flatMap_cons, List.map_cons, List.map_cons, String.join_cons, ← ih]
      simp [memberText, String.append_assoc]

theorem source_render (name : String) (bindings : List Binding) :
    Code.source (render name bindings) = text (bindings.map fun b => (b.name, b.type)) := by
  have hmembers : (bindings.flatMap (member name)).map Code.content =
      bindings.flatMap fun b => [b.name, typeText b.type] := by
    rw [List.map_flatMap]
    rfl
  rw [render, Code.source, List.map_append, List.map_cons, hmembers, text, ← join_members]
  simp [← String.toList_inj, String.toList_join, Code.content]

/-! ### Taking a suffix apart -/

/-- A character parts a text in one way, where it stands for the first time. -/
theorem append_cons_inj {c : Char} {xs ys as bs : List Char} (hxs : c ∉ xs) (hys : c ∉ ys)
    (h : xs ++ c :: as = ys ++ c :: bs) : xs = ys ∧ as = bs := by
  rcases List.append_eq_append_iff.mp h with ⟨m, rfl, hm⟩ | ⟨m, rfl, hm⟩
  · cases m with
    | nil => simpa using hm
    | cons d m =>
        obtain ⟨rfl, -⟩ : c = d ∧ _ := by simpa using hm
        simp at hys
  · cases m with
    | nil => simpa [eq_comm] using hm
    | cons d m =>
        obtain ⟨rfl, -⟩ : c = d ∧ _ := by simpa using hm
        simp at hxs

theorem toList_memberText (m : String × String) :
    (memberText m).toList = m.1.toList ++ ':' :: ' ' :: (m.2.toList ++ [';', ' ']) := by
  simp [memberText, typeText]

/-- A member can be read off the text: its name holds no colon, and its type is one of six. -/
def Readable (m : String × String) : Prop := ':' ∉ m.1.toList ∧ m.2 ∈ memberTypes

theorem semicolon_notMem {type : String} (h : type ∈ memberTypes) : ';' ∉ type.toList := by
  have hall : ∀ t ∈ memberTypes, ';' ∉ t.toList := by decide
  exact hall type h

/-- A member in front of some text gives the member and the text. -/
theorem memberText_append_inj {m n : String × String} (hm : Readable m) (hn : Readable n)
    {rest rest' : List Char}
    (h : (memberText m).toList ++ rest = (memberText n).toList ++ rest') : m = n ∧ rest = rest' := by
  simp only [toList_memberText, List.append_assoc, List.cons_append, List.nil_append] at h
  obtain ⟨hname, h⟩ := append_cons_inj hm.1 hn.1 h
  obtain ⟨htype, h⟩ := append_cons_inj (semicolon_notMem hm.2) (semicolon_notMem hn.2)
    (List.cons.inj h).2
  exact ⟨Prod.ext (String.toList_inj.mp hname) (String.toList_inj.mp htype), (List.cons.inj h).2⟩

theorem toList_text (members : List (String × String)) :
    (text members).toList =
      opening.toList ++ (members.flatMap fun m => (memberText m).toList) ++ closing.toList := by
  simp [text, String.toList_join, List.flatMap_map]

/-- The text of a suffix gives its members. -/
theorem members_unique {ms ns : List (String × String)} (hms : ∀ m ∈ ms, Readable m)
    (hns : ∀ n ∈ ns, Readable n) (h : text ms = text ns) : ms = ns := by
  rw [← String.toList_inj, toList_text, toList_text, List.append_cancel_right_eq,
    List.append_cancel_left_eq] at h
  -- no member is empty
  have hlong (m : String × String) (rest : List Char) : [] ≠ (memberText m).toList ++ rest := by
    simp [toList_memberText]
  induction ms generalizing ns with
  | nil =>
      cases ns with
      | nil => rfl
      | cons n ns => exact absurd h (hlong n _)
  | cons m ms ih =>
      cases ns with
      | nil => exact absurd h.symm (hlong m _)
      | cons n ns =>
          obtain ⟨rfl, hrest⟩ := memberText_append_inj (hms m (by simp)) (hns n (by simp)) h
          rw [ih (fun k hk => hms k (by simp [hk])) (fun k hk => hns k (by simp [hk])) hrest]

/-! ### Tokens -/

/-- The white space and the line ends of ECMAScript. -/
def isScriptBlank (c : Char) : Bool :=
  c.toNat = 0x9 || c.toNat = 0xA || c.toNat = 0xB || c.toNat = 0xC || c.toNat = 0xD
    || c.toNat = 0x20 || c.toNat = 0xA0 || c.toNat = 0x1680
    || (0x2000 ≤ c.toNat && c.toNat ≤ 0x200A) || c.toNat = 0x2028 || c.toNat = 0x2029
    || c.toNat = 0x202F || c.toNat = 0x205F || c.toNat = 0x3000 || c.toNat = 0xFEFF

/-- The characters that end a member's name: blanks, and what a suffix is put together with. -/
def endsToken (c : Char) : Bool :=
  isScriptBlank c || c = ':' || c = ';' || c = '\x7b' || c = '\x7d'

/-- A text that TypeScript reads as one token. -/
def SingleToken (s : String) : Prop := s ≠ "" ∧ ∀ c ∈ s.toList, endsToken c = false

theorem SingleToken.colon_notMem {s : String} (h : SingleToken s) : ':' ∉ s.toList := by
  intro hmem
  have hends := h.2 ':' hmem
  simp [endsToken] at hends

/-- No character of ASCII that continues a name ends a token. -/
theorem not_endsToken_of_continuesName {c : Char} (h : Quote.continuesName c = true)
    (hascii : c.toNat < 128) : endsToken c = false := by
  have hall : ∀ n < 128, Quote.continuesName (Char.ofNat n) = true →
      endsToken (Char.ofNat n) = false := by decide
  have hc := hall c.toNat hascii
  rw [Char.ofNat_toNat] at hc
  exact hc h

/-- Beyond ASCII only blanks end a token. -/
theorem isScriptBlank_of_endsToken {c : Char} (hwide : 128 ≤ c.toNat) (h : endsToken c = true) :
    isScriptBlank c = true := by
  have hsigns : c ≠ ':' ∧ c ≠ ';' ∧ c ≠ '\x7b' ∧ c ≠ '\x7d' := by
    refine ⟨?_, ?_, ?_, ?_⟩ <;> rintro rfl <;> exact absurd hwide (by decide)
  simpa [endsToken, hsigns] using h

theorem le_of_mem_isName {s : String} (h : IsName s) {c : Char} (hc : c ∈ s.toList)
    (hends : endsToken c = true) : 128 ≤ c.toNat := by
  by_contra hascii
  have hplain := not_endsToken_of_continuesName (h.continuesName_of_mem hc) (by omega)
  rw [hplain] at hends
  simp at hends

/-- A PHP name is a single token unless it has a blank beyond ASCII. -/
theorem singleToken_iff_of_isName {s : String} (h : IsName s) :
    SingleToken s ↔ ∀ c ∈ s.toList, isScriptBlank c = true → c.toNat < 128 := by
  constructor
  · rintro ⟨-, htoken⟩ c hc hblank
    have hends : endsToken c = true := by simp [endsToken, hblank]
    rw [htoken c hc] at hends
    simp at hends
  · intro hblanks
    refine ⟨h.ne_empty, fun c hc => Bool.eq_false_iff.mpr fun hends => ?_⟩
    have hwide : 128 ≤ c.toNat := le_of_mem_isName h hc hends
    have hplain := hblanks c hc (isScriptBlank_of_endsToken hwide hends)
    omega

/-- The members of a suffix that is made of PHP names can only be what it was made of. -/
theorem isSuffix_singleToken_iff {members : List (String × String)}
    (hmembers : ∀ m ∈ members, IsName m.1 ∧ m.2 ∈ memberTypes)
    (hnodup : (members.map (·.1)).Nodup) :
    IsSuffix SingleToken (text members) ↔ ∀ m ∈ members, SingleToken m.1 := by
  constructor
  · rintro ⟨others, htext, -, hothers⟩
    have hreadable : ∀ m ∈ members, Readable m := by
      intro m hm
      obtain ⟨hname, htype⟩ := hmembers m hm
      refine ⟨fun hcolon => ?_, htype⟩
      exact absurd (le_of_mem_isName hname hcolon (by decide)) (by decide)
    have hothersReadable : ∀ m ∈ others, Readable m := fun m hm =>
      ⟨(hothers m hm).1.colon_notMem, (hothers m hm).2⟩
    rw [members_unique hreadable hothersReadable htext]
    exact fun m hm => (hothers m hm).1
  · intro htokens
    exact ⟨members, rfl, hnodup, fun m hm => ⟨htokens m hm, (hmembers m hm).2⟩⟩

/-! ### The suffix of a fragment -/

/-- The members that a fragment gives. -/
def membersOf (fragment : String) : List (String × String) :=
  (analyze fragment).map fun b => (b.name, b.type)

theorem mem_membersOf {fragment : String} {m : String × String} (h : m ∈ membersOf fragment) :
    IsName m.1 ∧ m.2 ∈ memberTypes := by
  obtain ⟨b, hb, rfl⟩ := List.mem_map.mp h
  exact ⟨isName_of_mem_analyze hb, type_mem_of_mem_collect hb⟩

theorem nodup_membersOf (fragment : String) : ((membersOf fragment).map (·.1)).Nodup := by
  rw [membersOf, List.map_map]
  exact nodup_name_collect _ _

/-- Whatever a fragment holds, it gives a suffix with different members, all of them PHP names with
one of six types, and no character of ASCII in a name ends a token. The members are single tokens
exactly if no name that is exported has a blank beyond ASCII. -/
theorem suffix_members (name fragment : String) :
    IsSuffix (fun member => IsName member ∧
        ∀ c ∈ member.toList, endsToken c = true → 128 ≤ c.toNat)
      (Code.source (render name (analyze fragment))) ∧
      (IsSuffix SingleToken (Code.source (render name (analyze fragment))) ↔
        ∀ b ∈ analyze fragment, ∀ c ∈ b.name.toList, isScriptBlank c = true → c.toNat < 128) := by
  have hsource : Code.source (render name (analyze fragment)) = text (membersOf fragment) :=
    source_render name (analyze fragment)
  rw [hsource]
  constructor
  · refine ⟨membersOf fragment, rfl, nodup_membersOf fragment, fun m hm => ?_⟩
    obtain ⟨hname, htype⟩ := mem_membersOf hm
    exact ⟨⟨hname, fun c hc => le_of_mem_isName hname hc⟩, htype⟩
  · rw [isSuffix_singleToken_iff (fun m => mem_membersOf) (nodup_membersOf fragment), membersOf,
      List.forall_mem_map]
    exact forall₂_congr fun b hb => singleToken_iff_of_isName (isName_of_mem_analyze hb)

/-- A fragment that stops in the middle of a call, behind other mistakes. -/
theorem suffix_members_malformed :
    let fragment := "\x7d\x7d $é = [1; export($é; $b = ; export($b); export($c"
    (∀ b ∈ analyze fragment, ∀ c ∈ b.name.toList, isScriptBlank c = true → c.toNat < 128) ∧
      IsSuffix SingleToken (Code.source (render "customBlock_1" (analyze fragment))) ∧
      Code.source (render "customBlock_1" (analyze fragment)) =
        " & \x7b é: unknown[]; b: unknown; \x7d" := by
  intro fragment
  have hanalyze : analyze fragment = [⟨"é", 4, "unknown[]"⟩, ⟨"b", 26, "unknown"⟩] := by
    decide +kernel
  have hnames : ∀ b ∈ analyze fragment, ∀ c ∈ b.name.toList,
      isScriptBlank c = true → c.toNat < 128 := by
    rw [hanalyze]
    simp [isScriptBlank]
  refine ⟨hnames, (suffix_members "customBlock_1" fragment).2.mpr hnames, ?_⟩
  rw [hanalyze]
  rfl

/-- A variable with a no-break space in its name gives a suffix that is none of single tokens. -/
theorem suffix_members_noBreakSpace :
    let fragment := "$a\u00a0b = 1; export($a\u00a0b);"
    Code.source (render "customBlock_0" (analyze fragment)) = " & \x7b a\u00a0b: number; \x7d" ∧
      ¬IsSuffix SingleToken (Code.source (render "customBlock_0" (analyze fragment))) := by
  intro fragment
  have hmembers : membersOf fragment = [("a\u00a0b", "number")] := by decide +kernel
  have hsource : Code.source (render "customBlock_0" (analyze fragment)) =
      text [("a\u00a0b", "number")] := by
    rw [← hmembers]
    exact source_render _ _
  refine ⟨hsource, fun hsuffix => ?_⟩
  rw [hsource, ← hmembers,
    isSuffix_singleToken_iff (fun m => mem_membersOf) (nodup_membersOf fragment), hmembers] at hsuffix
  have hblank := (hsuffix ("a\u00a0b", "number") (by simp)).2 '\u00a0' (by decide)
  simp [endsToken, isScriptBlank] at hblank

end BlockExports.Suffix
