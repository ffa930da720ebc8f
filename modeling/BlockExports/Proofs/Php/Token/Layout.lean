import BlockExports.Php.Token.Stream
import Mathlib.Data.List.TakeWhile

/-!
Where the tokens of a text stand.

The tokens of a text lie one behind another in it: each covers the characters from its start on, and
what is covered by a variable is spelled like one. `Layout` says this of a list of tokens, and
`layout_tokenize` of all tokens that a text has.
-/

namespace BlockExports.Php

open Text Quote

/-- A dollar sign with a name behind it. -/
def SpellsVariable (cs : List Char) : Prop :=
  ∃ c name, cs = '$' :: c :: name ∧ startsName c = true ∧ ∀ d ∈ name, continuesName d = true

/-- Tokens that lie in this order in a text that starts at a byte offset. -/
inductive Layout : Nat → List Char → List Token → Prop where
  | done {offset : Nat} {cs : List Char} : Layout offset cs []
  | pass {offset : Nat} {c : Char} {cs : List Char} {ts : List Token}
      (hts : Layout (offset + c.utf8Size) cs ts) : Layout offset (c :: cs) ts
  | token {offset : Nat} {kind : Kind} {xs cs : List Char} {ts : List Token}
      (hspelled : kind = .variable → SpellsVariable xs)
      (hts : Layout (offset + byteLength xs) cs ts) :
      Layout offset (xs ++ cs) (⟨kind, offset, String.ofList xs⟩ :: ts)

/-- The tokens of a stream. -/
def tokens (items : List Item) : List Token :=
  items.filterMap fun
    | .token t => some t
    | _ => none

/-! ### Layouts -/

namespace Layout

theorem passAll {offset : Nat} (xs : List Char) {cs : List Char} {ts : List Token}
    (hts : Layout (offset + byteLength xs) cs ts) : Layout offset (xs ++ cs) ts := by
  induction xs generalizing offset with
  | nil => exact hts
  | cons x xs ih =>
      rw [byteLength_cons, ← Nat.add_assoc] at hts
      exact .pass (ih hts)

theorem sublist {offset : Nat} {cs : List Char} {ts us : List Token} (h : Layout offset cs ts)
    (hus : us.Sublist ts) : Layout offset cs us := by
  induction h generalizing us with
  | done =>
      rw [List.sublist_nil.mp hus]
      exact .done
  | pass _ ih => exact .pass (ih hus)
  | token hspelled _ ih =>
      cases hus with
      | cons _ hus => exact passAll _ (ih hus)
      | cons_cons _ hus => exact .token hspelled (ih hus)

theorem empty {offset : Nat} {cs : List Char} {ts : List Token} (hts : Layout offset cs ts) :
    Layout offset cs (⟨.stringPart, offset, ""⟩ :: ts) :=
  @token offset .stringPart [] cs ts nofun hts

/-- A token covers the text from its start on. -/
theorem covers {offset : Nat} {cs : List Char} {ts : List Token} (h : Layout offset cs ts)
    {t : Token} (ht : t ∈ ts) :
    ∃ before after,
      cs = before ++ t.text.toList ++ after ∧ offset + byteLength before = t.start := by
  induction h with
  | done => simp at ht
  | @pass offset c cs ts _ ih =>
      obtain ⟨before, after, rfl, hstart⟩ := ih ht
      exact ⟨c :: before, after, rfl, by rw [byteLength_cons]; omega⟩
  | @token offset kind xs cs ts _ _ ih =>
      rcases List.mem_cons.mp ht with rfl | ht
      · exact ⟨[], cs, by simp, by simp⟩
      · obtain ⟨before, after, rfl, hstart⟩ := ih ht
        exact ⟨xs ++ before, after, by simp, by rw [byteLength_append]; omega⟩

/-- Every token ends before the next one starts. -/
theorem ordered {offset : Nat} {cs : List Char} {ts : List Token} (h : Layout offset cs ts) :
    ts.Pairwise fun t u => t.stop ≤ u.start := by
  induction h with
  | done => exact .nil
  | pass _ ih => exact ih
  | @token offset kind xs cs ts _ hts ih =>
      refine .cons (fun u hu => ?_) ih
      obtain ⟨before, after, -, hstart⟩ := hts.covers hu
      have hbytes := byteLength_toList (String.ofList xs)
      rw [String.toList_ofList] at hbytes
      rw [Token.stop, ← hbytes, ← hstart]
      exact Nat.le_add_right _ _

theorem spelled {offset : Nat} {cs : List Char} {ts : List Token} (h : Layout offset cs ts)
    {t : Token} (ht : t ∈ ts) (hkind : t.kind = .variable) : SpellsVariable t.text.toList := by
  induction h with
  | done => simp at ht
  | pass _ ih => exact ih ht
  | token hspelled _ ih =>
      rcases List.mem_cons.mp ht with rfl | ht
      · simpa using hspelled hkind
      · exact ih ht

end Layout

/-! ### Readings of variables -/

@[simp, grind =] theorem Reading.ofKind_shape (kind : Kind) (length : Nat) :
    (Reading.ofKind kind length).shape = .token kind := rfl

@[simp] theorem Reading.ofKind_length (kind : Kind) (length : Nat) :
    (Reading.ofKind kind length).length = length := rfl

@[grind .] theorem readWord_shape (cs : List Char) : (readWord cs).shape ≠ .token .variable := by
  unfold readWord readWord.wordReading Reading.ofKind
  grind

@[grind .] theorem readString_shape (quote : Char) (before : Nat) (inner : List Char) :
    (readString quote before inner).shape ≠ .token .variable := by
  unfold readString Reading.ofKind
  grind

/-- No sign is a variable. -/
@[grind →] theorem kind_of_sign? {cs : List Char} {text : String} {kind : Kind}
    (h : sign? cs = some (text, kind)) : kind ≠ .variable := by
  have hmem : (text, kind) ∈ signs := List.mem_of_find?_eq_some h
  have hall : ∀ s ∈ signs, s.2 ≠ .variable := by decide
  exact hall _ hmem

theorem take_nameLength (cs : List Char) :
    cs.take (nameLength cs) = cs.takeWhile continuesName :=
  (List.prefix_iff_eq_take.mp (List.takeWhile_prefix _)).symm

theorem readScript_variable (cs : List Char) :
    (readScript cs).shape = .token .variable →
      SpellsVariable (cs.take (readScript cs).length) := by
  fun_cases readScript cs with
  | case8 c rest _ _ _ _ _ hdollar =>
      intro _
      obtain ⟨rfl, hname⟩ : c = '$' ∧ rest.head?.any startsName = true := by simpa using hdollar
      cases rest with
      | nil => simp at hname
      | cons d rest =>
          have hd : startsName d = true := by simpa using hname
          have hcontinues : continuesName d = true := by simp [continuesName, hd]
          refine ⟨d, rest.takeWhile continuesName, ?_, hd, fun e he => ?_⟩
          · rw [Reading.ofKind_length, Nat.add_comm, List.take_succ_cons, take_nameLength,
              List.takeWhile_cons_of_pos hcontinues]
          · exact List.mem_takeWhile_imp he
  | _ => grind [Reading.ofBlank, Reading.ofUnreadable, readOpening]

theorem read_variable {mode : Mode} {first : Bool} {cs : List Char}
    (h : (read mode first cs).shape = .token .variable) :
    SpellsVariable (cs.take (read mode first cs).length) := by
  cases mode with
  | inline =>
      simp only [read, readInline, Reading.ofKind] at h
      grind
  | script => exact readScript_variable cs h
  | quoted delimiter =>
      simp only [read, readQuoted] at h
      grind
  | document label raw =>
      simp only [read, readDocument] at h
      grind
  | halting seen =>
      simp only [read, readHalting] at h
      grind
  | halted => simp [read] at h

/-! ### The stream -/

@[simp] theorem tokens_nil : tokens [] = [] := rfl

@[simp] theorem tokens_cons_token (t : Token) (items : List Item) :
    tokens (.token t :: items) = t :: tokens items := rfl

@[simp] theorem tokens_cons_unreadable (items : List Item) :
    tokens (.unreadable :: items) = tokens items := rfl

@[simp] theorem tokens_cons_gap (items : List Item) : tokens (.gap :: items) = tokens items := rfl

@[simp] theorem tokens_reverse (items : List Item) :
    tokens items.reverse = (tokens items).reverse :=
  List.filterMap_reverse

@[simp] theorem tokens_append (items rest : List Item) :
    tokens (items ++ rest) = tokens items ++ tokens rest :=
  List.filterMap_append

@[simp] theorem tokens_map_token (ts : List Token) : tokens (ts.map Item.token) = ts :=
  List.filterMap_map.trans List.filterMap_some

namespace Lexer

/-- Outside of strings nothing is held back. -/
def Settled (l : Lexer) : Prop := l.embeddings = [] → l.held = []

@[simp] theorem enter_offset (l : Lexer) (cs : List Char) : (l.enter cs).2.offset = l.offset := by
  unfold enter addEmptyText
  grind

/-- At most an empty stretch of text joins before an embedded expression. -/
theorem enter_tokens {l : Lexer} (hl : l.Settled) (cs : List Char) :
    (l.enter cs).2.Settled ∧
      (tokens (l.enter cs).1 ++ (l.enter cs).2.held.reverse).Sublist
        (l.held.reverse ++ [⟨.stringPart, l.offset, ""⟩]) := by
  unfold enter
  split
  · refine ⟨fun h => by simp at h, ?_⟩
    cases l.behindText with
    | true => exact List.sublist_append_left _ _
    | false =>
        unfold addEmptyText
        cases hembeddings : l.embeddings with
        | nil => simp [hl hembeddings]
        | cons e outer => simp
  · exact ⟨hl, List.sublist_append_left _ _⟩

/-- What a reading finds. -/
def found (l : Lexer) (reading : Reading) (text : List Char) : List Token :=
  match reading.shape with
  | .token kind => [⟨kind, l.offset, String.ofList text⟩]
  | _ => []

/-- Whether it joins the stream or is held back, what is found comes behind all that was held. -/
theorem advance_tokens {l : Lexer} (hl : l.Settled) (reading : Reading) (text : List Char) :
    (l.advance reading text).2.Settled ∧
      (tokens (l.advance reading text).1 ++ (l.advance reading text).2.held.reverse).Sublist
        (l.held.reverse ++ l.found reading text) := by
  unfold advance
  cases hembeddings : l.embeddings with
  | nil =>
      have hheld := hl hembeddings
      cases hshape : reading.shape with
      | token kind => simp [Settled, found, hshape, hheld]
      | blank => simp [Settled, found, hshape, hheld]
      | unreadable => simp [Settled, found, hshape, hheld]
  | cons e outer =>
      -- what is held back joins behind the outermost embedding, or is lost on the way
      cases hshape : reading.shape with
      | unreadable => simp [Settled, found, hshape]
      | token | blank =>
          simp only
          split
          · cases outer with
            | nil => cases l.derailed <;> simp [Settled, found, hshape]
            | cons => simp [Settled, found, hshape]
          · simp [Settled, found, hshape]

theorem layout_found (l : Lexer) {reading : Reading} {text cs : List Char} {ts : List Token}
    (hspelled : reading.shape = .token .variable → SpellsVariable text)
    (hts : Layout (l.offset + byteLength text) cs ts) :
    Layout l.offset (text ++ cs) (l.found reading text ++ ts) := by
  unfold found
  split
  · next kind hshape => exact .token (fun hkind => hspelled (hkind ▸ hshape)) hts
  · exact Layout.passAll text hts

theorem layout_items {l : Lexer} (hl : l.Settled) (skip : Nat) (cs : List Char) :
    ∃ ts, Layout (l.offset + byteLength (cs.take skip)) (cs.drop skip) ts ∧
      (tokens (l.items skip cs)).Sublist (l.held.reverse ++ ts) := by
  induction cs generalizing l skip with
  | nil => exact ⟨[], .done, List.nil_sublist _⟩
  | cons c cs ih =>
      cases skip with
      | succ skip =>
          obtain ⟨ts, hts, htokens⟩ := @ih { l with offset := l.offset + c.utf8Size } hl skip
          refine ⟨ts, ?_, htokens⟩
          rwa [List.take_succ_cons, List.drop_succ_cons, byteLength_cons, ← Nat.add_assoc]
      | zero =>
          obtain ⟨hentered, henter⟩ := enter_tokens hl (c :: cs)
          have hoffset := enter_offset l (c :: cs)
          rw [items]
          generalize l.enter (c :: cs) = entry at hentered henter hoffset
          obtain ⟨entered, l'⟩ := entry
          simp only at hentered henter hoffset ⊢
          generalize hreading : read l'.mode (l'.offset = 0) (c :: cs) = reading
          obtain ⟨hadvanced, hadvance⟩ :=
            advance_tokens hentered reading ((c :: cs).take reading.length)
          generalize l'.advance reading ((c :: cs).take reading.length) = progress
            at hadvanced hadvance
          obtain ⟨found, next⟩ := progress
          simp only at hadvanced hadvance ⊢
          obtain ⟨ts, hts, hrest⟩ :=
            @ih { next with offset := l'.offset + c.utf8Size } hadvanced (reading.length - 1)
          -- the empty stretch is laid out in any case, and left out again by `Sublist`
          refine ⟨[⟨.stringPart, l.offset, ""⟩]
            ++ l'.found reading ((c :: cs).take reading.length) ++ ts, ?_, ?_⟩
          · refine Layout.empty ?_
            rw [← hoffset]
            have hspelled : reading.shape = .token .variable →
                SpellsVariable ((c :: cs).take reading.length) := by
              rw [← hreading]
              exact read_variable
            cases hlength : reading.length with
            | zero =>
                -- a reading of nothing passes one character all the same
                rw [hlength] at hts hspelled
                exact layout_found l' hspelled (.pass hts)
            | succ n =>
                rw [hlength, Nat.add_sub_cancel] at hts
                rw [hlength, List.take_succ_cons] at hspelled
                have hlayout := layout_found l' hspelled (by
                  rwa [byteLength_cons, ← Nat.add_assoc])
                rwa [List.cons_append, List.take_append_drop] at hlayout
          · have hbehind := (hrest.append_left (tokens found)).trans
              (List.append_assoc _ _ _ ▸ hadvance.append_right ts)
            have hall := (hbehind.append_left (tokens entered)).trans
              (by simpa using henter.append_right (l'.found reading _ ++ ts))
            simpa using hall

end Lexer

/-- The tokens of a text lie in it in the order of the stream. -/
theorem layout_tokenize (text : String) : Layout 0 text.toList (tokens (tokenize text)) := by
  have hstart : Lexer.start.Settled := fun _ => rfl
  obtain ⟨ts, hts, htokens⟩ := Lexer.layout_items hstart 0 text.toList
  exact hts.sublist htokens

end BlockExports.Php
