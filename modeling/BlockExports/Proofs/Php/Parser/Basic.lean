import BlockExports.Php.Parser.Basic
import BlockExports.Proofs.Php.Outline

/-!
No parser makes up a variable.

The variables of a result, followed by those that are still ahead, are found in this order among the
variables that were ahead before. `Keeps` says this of a parser, with the variables of what was read
before it; `Advances` is all that matters of a parser whose result has no variables. Both hold after
a failure too, because whoever recovers goes on from there.

There is one lemma for each parser, named after it.
-/

namespace BlockExports.Php

/-- The variable that a place in the stream holds. -/
def Item.asVariable? : Item → Option Variable
  | .token t => if t.kind = .variable then some ⟨t.text, t.start⟩ else none
  | _ => none

/-- The variables ahead. -/
def variablesIn (items : List Item) : List Variable := items.filterMap Item.asVariable?

theorem variablesIn_token (t : Token) (items : List Item) :
    variablesIn (.token t :: items) =
      (if t.kind = .variable then [⟨t.text, t.start⟩] else []) ++ variablesIn items := by
  by_cases h : t.kind = .variable <;> simp [variablesIn, Item.asVariable?, h]

theorem variablesIn_tail (items : List Item) :
    (variablesIn items.tail).Sublist (variablesIn items) :=
  (List.tail_sublist items).filterMap _

/-- Looking ahead drops only what is no token. -/
theorem variablesIn_look (n : Nat) (items : List Item) :
    (variablesIn (look n items).2).Sublist (variablesIn items) := by
  fun_induction look n items with
  | case1 => exact List.Sublist.refl _
  | case2 => exact List.Sublist.refl _
  | case3 => exact List.Sublist.refl _
  | case4 => exact List.Sublist.refl _
  | case5 n t rest ih =>
      rw [variablesIn_token, variablesIn_token]
      exact List.Sublist.append_left ih _

namespace Parser

variable {α β : Type}

/-- The second parser goes on from the cursor that the first one leaves. -/
theorem bind_apply (p : Parser α) (f : α → Parser β) (c : Cursor) :
    (p >>= f) c = match p c with
      | (some a, c) => f a c
      | (none, c) => (none, c) := by
  simp only [bind, OptionT.bind, OptionT.mk, StateT.bind]
  rcases p c with ⟨_ | a, c'⟩ <;> rfl

/-- The variables ahead after a parser were ahead before it. -/
def Advances (p : Parser α) : Prop := ∀ c, (variablesIn (p c).2.items).Sublist (variablesIn c.items)

/-- With the variables `before` read already, the variables of the result and those still ahead were
read or ahead before. -/
def Keeps (before : List Variable) (p : Parser α) (kept : α → List Variable) : Prop :=
  ∀ c, ((p c).1.elim [] kept ++ variablesIn (p c).2.items).Sublist (before ++ variablesIn c.items)

/-! ### Rules -/

@[grind .] theorem Advances.pure (a : α) : Advances (pure a : Parser α) := fun _ =>
  List.Sublist.refl _

@[grind .] theorem Advances.failure : Advances (failure : Parser α) := fun _ => List.Sublist.refl _

@[grind .] theorem Advances.bind {p : Parser α} {f : α → Parser β} (hp : Advances p)
    (hf : ∀ a, Advances (f a)) : Advances (p >>= f) := by
  intro c
  have hread := hp c
  rw [bind_apply]
  cases hc : p c with
  | mk result c' =>
      rw [hc] at hread
      cases result with
      | none => exact hread
      | some a => exact (hf a c').trans hread

theorem Advances.ite {p q : Parser α} (hp : Advances p) (hq : Advances q) {c : Prop}
    [Decidable c] : Advances (if c then p else q) := by
  split
  · exact hp
  · exact hq

/-- What comes behind a step that may be left out needs to be looked at only once. -/
theorem Advances.optional {p : Parser β} {q : Parser α} (hp : Advances p) (hq : Advances q)
    {c : Prop} [Decidable c] : Advances (if c then p >>= fun _ => q else q) :=
  (hp.bind fun _ => hq).ite hq

section Keeping

variable {before : List Variable} {kept : α → List Variable}
  {results : β → List Variable}

@[grind .] theorem Keeps.pure {a : α} (h : (kept a).Sublist before) :
    Keeps before (pure a) kept := fun _ => h.append_right _

@[grind .] theorem Keeps.failure : Keeps before (failure : Parser α) kept := fun _ =>
  List.sublist_append_right _ _

theorem Keeps.bind {p : Parser α} {f : α → Parser β} (hp : Keeps before p kept)
    (hf : ∀ a, Keeps (kept a) (f a) results) : Keeps before (p >>= f) results := by
  intro c
  have hread := hp c
  rw [bind_apply]
  cases hc : p c with
  | mk result c' =>
      rw [hc] at hread
      cases result with
      | none => exact hread
      | some a => exact (hf a c').trans hread

/-- What was read before a parser is still there behind it. -/
theorem Keeps.frame {p : Parser α} (hp : Keeps [] p kept) (before : List Variable) :
    Keeps before p (fun a => before ++ kept a) := by
  intro c
  have hread := hp c
  cases hresult : (p c).1 with
  | none =>
      rw [hresult] at hread
      exact hread.trans (List.sublist_append_right _ _)
  | some a =>
      rw [hresult] at hread
      rw [Option.elim_some, List.append_assoc]
      exact hread.append_left before

theorem Keeps.advances {p : Parser α} (hp : Keeps [] p kept) : Advances p := fun c =>
  (List.sublist_append_right _ _).trans (hp c)

theorem Advances.keeps {p : Parser α} (hp : Advances p) (before : List Variable) :
    Keeps before p (fun _ => before) := by
  intro c
  cases hresult : (p c).1 with
  | none => exact (hp c).trans (List.sublist_append_right _ _)
  | some a => exact (hp c).append_left before

@[grind .] theorem Advances.keeps_bind {p : Parser α} {f : α → Parser β} (hp : Advances p)
    (hf : ∀ a, Keeps before (f a) results) : Keeps before (p >>= f) results :=
  (hp.keeps before).bind hf

theorem Keeps.ite {p q : Parser α} (hp : Keeps before p kept) (hq : Keeps before q kept) {c : Prop}
    [Decidable c] : Keeps before (if c then p else q) kept := by
  split
  · exact hp
  · exact hq

/-- The result of the last parser becomes the result of the whole. -/
theorem Keeps.map {p : Parser α} {f : α → β} (hp : Keeps before p kept)
    (hf : ∀ a, (results (f a)).Sublist (kept a)) :
    Keeps before (p >>= fun a => Pure.pure (f a)) results :=
  hp.bind fun a => Keeps.pure (hf a)

end Keeping

/-! ### Single tokens -/

@[grind .] theorem advances_get : Advances (get : Parser Cursor) := fun _ => List.Sublist.refl _

theorem peekAt_apply (n : Nat) (c : Cursor) :
    peekAt n c = (match (look n c.items).1 with
      | .token t => some (some t)
      | .ending => some none
      | .unreadable => none, { c with items := (look n c.items).2 }) := by
  unfold peekAt
  rw [bind_apply]
  change (match (look n c.items).1 with
    | .token t => pure (some t)
    | .ending => pure none
    | .unreadable => failure : Parser (Option Token)) { c with items := (look n c.items).2 } = _
  split <;> simp_all <;> rfl

theorem advances_peekAt (n : Nat) : Advances (peekAt n) := fun c => by
  rw [peekAt_apply]
  exact variablesIn_look n c.items

@[grind .] theorem advances_kindAt (n : Nat) : Advances (kindAt n) :=
  (advances_peekAt n).bind fun _ => .pure _

theorem kindAt_snd (n : Nat) (c : Cursor) :
    (kindAt n c).2 = { c with items := (look n c.items).2 } := by
  unfold kindAt
  rw [bind_apply, peekAt_apply]
  cases (look n c.items).1 <;> rfl

/-- Whoever looks at the next token goes on in front of it. -/
theorem Keeps.peek {next : Option Token → Parser α} {kept : α → List Variable}
    (hnone : Keeps [] (next none) kept)
    (hsome : ∀ t items c, c.items = .token t :: items →
      ((next (some t) c).1.elim [] kept ++ variablesIn (next (some t) c).2.items).Sublist
        (variablesIn c.items)) : Keeps [] (peekAt 0 >>= next) kept := by
  intro c
  rw [bind_apply, peekAt_apply]
  cases hitems : c.items with
  | nil => exact hnone _
  | cons item items =>
      cases item with
      | token t => exact hsome t items { c with items := .token t :: items } rfl
      | unreadable => exact .refl _
      | gap => exact hnone _

theorem advances_nextKind : Advances nextKind := advances_kindAt 0

theorem advances_isLabel (kind : Kind) : Advances (isLabel kind) :=
  ((advances_kindAt 1).bind fun _ => .pure _).ite (.pure _)

@[grind .] theorem advances_take : Advances take := by
  refine (advances_peekAt 0).bind fun next => ?_
  cases next with
  | none => exact .failure
  | some t =>
      have htail : Advances (modify fun c => { c with items := c.items.tail, position := t.stop }) :=
        fun c => variablesIn_tail c.items
      exact htail.bind fun _ => .pure t

@[grind .] theorem advances_skip : Advances skip := advances_take.bind fun _ => .pure _

theorem skip_apply {c : Cursor} {t : Token} {items : List Item} (h : c.items = .token t :: items) :
    skip c = (some (), { c with items, position := t.stop }) := by
  unfold skip take
  rw [bind_apply, bind_apply, peekAt_apply, h]
  rfl

@[grind .] theorem advances_expect (kind : Kind) : Advances (expect kind) :=
  advances_nextKind.bind fun _ => advances_skip.ite .failure

theorem advances_accept (kind : Kind) : Advances (accept kind) :=
  advances_nextKind.bind fun _ => (advances_skip.bind fun _ => .pure _).ite (.pure _)

theorem advances_takeWhich (property : Kind → Bool) : Advances (takeWhich property) :=
  advances_take.bind fun _ => (Advances.pure _).ite .failure

@[grind .] theorem advances_terminator : Advances terminator := by
  refine advances_nextKind.bind fun kind => ?_
  split
  · exact advances_skip
  · exact advances_skip.bind fun _ => (advances_accept _).bind fun _ => .pure _
  · exact .pure _
  · exact .failure

@[grind .] theorem advances_word : Advances word := advances_takeWhich _

theorem advances_anyName : Advances anyName := advances_takeWhich _

theorem advances_ahead : Advances ahead := advances_get.bind fun _ => .pure _

/-! ### Combinators -/

theorem Keeps.recovering {p : Parser α} {kept : α → List Variable}
    (hp : Keeps [] p kept) :
    Keeps [] (recovering p) (fun result => result.elim [] kept) := fun c => hp c

theorem Advances.recovering {p : Parser α} (hp : Advances p) :
    Advances (recovering p) := fun c => hp c

theorem Keeps.advancing {p : Parser α} {kept : α → List Variable}
    (hp : Keeps [] p kept) : Keeps [] (advancing p) kept := by
  refine advances_get.keeps_bind fun c => hp.bind fun result => ?_
  have hdone : Keeps (kept result) (Pure.pure result) kept := .pure (.refl _)
  exact advances_get.keeps_bind fun c' =>
    (advances_take.recovering.keeps_bind fun _ => hdone).ite hdone

theorem Advances.advancing {p : Parser α} (hp : Advances p) : Advances (advancing p) :=
  (Keeps.advancing (hp.keeps [])).advances

theorem Keeps.nested {p : Parser α} {kept : α → List Variable} (hp : Keeps [] p kept) :
    Keeps [] (nested p) kept := by
  intro c
  unfold Parser.nested
  split
  · exact hp { c with depth := c.depth + 1 }
  · exact List.sublist_append_right _ _

theorem Advances.inString {p : Parser α} (hp : Advances p) (bare : Bool) :
    Advances (inString bare p) := fun c => hp { c with bare }

theorem Advances.loop {round : Parser Bool} (hround : Advances round) (limit : Nat) :
    Advances (loop round limit) := by
  induction limit with
  | zero => exact .failure
  | succ limit ih => exact hround.bind fun _ => (Advances.pure _).ite ih

theorem Advances.untilDone {round : Parser Bool} (hround : Advances round) :
    Advances (untilDone round) :=
  advances_ahead.bind fun _ => hround.loop _

theorem Advances.commaSeparated {element : Parser Unit} (helement : Advances element) :
    Advances (commaSeparated element) :=
  .untilDone <| helement.bind fun _ => (advances_accept _).bind fun _ => .pure _

theorem Advances.commaSeparatedBefore {element : Parser Unit}
    (helement : Advances element) (stop : Kind → Bool) :
    Advances (commaSeparatedBefore stop element) :=
  .untilDone <| advances_nextKind.bind fun _ =>
    (Advances.pure _).ite <| helement.bind fun _ => (advances_accept _).bind fun _ => .pure _

theorem Keeps.commaListFrom {element : Parser α} {kept : α → List Variable}
    (helement : Keeps [] element kept) (closing : Kind) (limit : Nat) :
    Keeps [] (commaListFrom element closing limit) (List.flatMap kept) := by
  induction limit with
  | zero => exact Keeps.failure
  | succ limit ih =>
      have hfirst (first : Option α) : first.toList.flatMap kept = first.elim [] kept := by
        cases first <;> simp
      unfold Parser.commaListFrom
      refine advances_nextKind.keeps_bind fun kind => ?_
      split
      · exact Keeps.failure
      · split
        · exact advances_skip.keeps_bind fun _ => Keeps.pure (.refl _)
        · refine helement.recovering.bind fun first => advances_nextKind.keeps_bind fun next => ?_
          split
          · exact Keeps.failure
          · -- a comma: the rest of the list comes behind the first element
            refine advances_skip.keeps_bind fun _ => (ih.frame _).map fun rest => ?_
            simp [hfirst]
          · have hdone : Keeps (first.elim [] kept) (Pure.pure first.toList)
                (List.flatMap kept) := .pure (by simp [hfirst])
            exact (advances_skip.keeps_bind fun _ => hdone).ite hdone

theorem Keeps.commaList {element : Parser α} {kept : α → List Variable}
    (helement : Keeps [] element kept) (closing : Kind) :
    Keeps [] (commaList element closing) (List.flatMap kept) :=
  advances_ahead.keeps_bind fun _ => helement.commaListFrom closing _

@[grind .] theorem Advances.commaList {element : Parser α} (helement : Advances element)
    (closing : Kind) : Advances (commaList element closing) := by
  exact ((helement.keeps []).commaList closing).advances

end Parser

/-! ### Grammars -/

namespace Grammar

open Php.Parser

/-- The two parsers that every construct refers back to make up no variable. -/
structure Faithful (g : Grammar) : Prop where
  expression (level : Level) : Keeps [] (g.expression level) Expression.allVariables
  statement : Keeps [] g.statement Statement.allVariables

section Faithful

variable {g : Grammar} (hg : g.Faithful)

include hg

@[grind .] theorem advances_expression (level : Level) : Advances (g.expression level) :=
  (hg.expression level).advances

theorem advances_statement : Advances g.statement := hg.statement.advances

@[grind .] theorem advances_anyExpression : Advances g.anyExpression :=
  (advances_expression hg _).bind fun _ => .pure _

@[grind .] theorem advances_condition : Advances g.condition :=
  (advances_expect _).bind fun _ => (advances_anyExpression hg).bind fun _ => advances_expect _

theorem keeps_tolerantStatement :
    Keeps [] g.tolerantStatement (fun statement => statement.elim [] Statement.allVariables) :=
  hg.statement.recovering.advancing

theorem advances_tolerantStatement : Advances g.tolerantStatement :=
  (keeps_tolerantStatement hg).advances

theorem advances_block : Advances g.block := by
  refine (advances_expect _).bind fun _ => .untilDone <| advances_nextKind.bind fun kind => ?_
  split
  · exact .failure
  · exact advances_skip.bind fun _ => .pure _
  · exact (advances_tolerantStatement hg).bind fun _ => .pure _

theorem advances_statementsBefore (stop : Kind → Bool) :
    Advances (g.statementsBefore stop) := by
  refine .untilDone <| advances_nextKind.bind fun kind => ?_
  split
  · exact .failure
  · exact (Advances.pure _).ite <| (advances_statement hg).advancing.bind fun _ => .pure _

end Faithful

end Grammar

end BlockExports.Php
