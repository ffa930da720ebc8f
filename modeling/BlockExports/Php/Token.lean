/-!
The tokens of PHP text.

A token knows what it is (`Kind`), where it starts and the text it covers. Operators that only ever
stand between two operands are told apart by their binding strength alone: `Level` lists the
strengths from the weakest to the strongest.
-/

namespace BlockExports.Php

/-- Binding strength of an expression, weakest first. -/
inductive Level where
  | lowest | print | yieldFrom | yield | or | xor | and | assignment | conditional | coalesce
  | booleanOr | booleanAnd | bitOr | bitXor | bitAnd | equality | comparison | pipe | concat
  | shift | additive | multiplicative | unary | instanceof | silence | power | clone | step
  | reference | call | new | index | member
  deriving DecidableEq, Repr

namespace Level

/-- `a.weaker b` says that `a` binds less tightly than `b`. -/
def weaker (a b : Level) : Bool := a.ctorIdx < b.ctorIdx

/-- The levels at which `a ∘ b ∘ c` groups to the left, so that an operand never takes in a further
operator of its own level. -/
def groupsLeft : Level → Bool
  | or | xor | and | conditional | booleanOr | booleanAnd | bitOr | bitXor | bitAnd | pipe
  | concat | shift | additive | multiplicative | member => true
  | _ => false

/-- Whether an operator of level `op` is left to an outer expression while one of level `here` is
being read. -/
def stopsAt (op here : Level) : Bool :=
  op.weaker here || (op = here && op.groupsLeft)

end Level

/-- The reserved words. A trailing underscore keeps a name apart from a word of Lean. -/
inductive Keyword where
  | abstract_ | and_ | array | as_ | break_ | callable | case_ | catch_ | class_ | clone | const
  | continue_ | declare | default_ | die | do_ | echo | else_ | elseif | empty | enddeclare
  | endfor | endforeach | endif | endswitch | endwhile | enum | eval | exit | extends_ | false_
  | final | finally_ | fn | for_ | foreach | from_ | function | global_ | goto | haltCompiler
  | if_ | implements | includeFile | instanceof | insteadof | interface | isset | list
  | magicConstant | match_ | namespace_ | new | null | or_ | parent | print | private_
  | privateSet | protected_ | protectedSet | public_ | publicSet | readonly | return_ | self_
  | static | switch | throw_ | trait | true_ | try_ | unset | use_ | var | while_ | xor_ | yield
  deriving DecidableEq, Repr

namespace Keyword

/-- The spellings, in lower case. The four ways to include a file are one keyword, and so are the
constants that PHP computes itself. -/
def spellings : List (String × Keyword) :=
  [("abstract", abstract_), ("and", and_), ("array", array), ("as", as_), ("break", break_),
   ("callable", callable), ("case", case_), ("catch", catch_), ("class", class_),
   ("clone", clone), ("const", const), ("continue", continue_), ("declare", declare),
   ("default", default_), ("die", die), ("do", do_), ("echo", echo), ("else", else_),
   ("elseif", elseif), ("empty", empty), ("enddeclare", enddeclare), ("endfor", endfor),
   ("endforeach", endforeach), ("endif", endif), ("endswitch", endswitch),
   ("endwhile", endwhile), ("enum", enum), ("eval", eval), ("exit", exit),
   ("extends", extends_), ("false", false_), ("final", final), ("finally", finally_),
   ("fn", fn), ("for", for_), ("foreach", foreach), ("from", from_), ("function", function),
   ("global", global_), ("goto", goto), ("__halt_compiler", haltCompiler), ("if", if_),
   ("implements", implements), ("include", includeFile), ("include_once", includeFile),
   ("require", includeFile), ("require_once", includeFile), ("instanceof", instanceof),
   ("insteadof", insteadof), ("interface", interface), ("isset", isset), ("list", list),
   ("match", match_), ("namespace", namespace_), ("new", new), ("null", null), ("or", or_),
   ("parent", parent), ("print", print), ("private", private_), ("protected", protected_),
   ("public", public_), ("readonly", readonly), ("return", return_), ("self", self_),
   ("static", static), ("switch", switch), ("throw", throw_), ("trait", trait),
   ("true", true_), ("try", try_), ("unset", unset), ("use", use_), ("var", var),
   ("while", while_), ("xor", xor_), ("yield", yield), ("__class__", magicConstant),
   ("__dir__", magicConstant), ("__file__", magicConstant), ("__function__", magicConstant),
   ("__line__", magicConstant), ("__method__", magicConstant),
   ("__namespace__", magicConstant), ("__property__", magicConstant),
   ("__trait__", magicConstant)]

/-- The keyword that a word spells, in any mixture of upper and lower case. -/
def ofWord? (word : String) : Option Keyword :=
  spellings.lookup word.toLower

def isModifier : Keyword → Bool
  | abstract_ | final | private_ | privateSet | protected_ | protectedSet | public_ | publicSet
  | readonly | static => true
  | _ => false

/-- Words at which a reader that is looking for an expression leaves the token in place, because a
statement is likely to start there. -/
def startsStatement : Keyword → Bool
  | abstract_ | break_ | catch_ | class_ | const | continue_ | declare | do_ | else_ | elseif
  | enum | final | finally_ | fn | for_ | foreach | function | global_ | goto | if_ | interface
  | namespace_ | return_ | switch | trait | try_ | use_ | while_ => true
  | _ => false

end Keyword

inductive Kind where
  /-- `<?php` and `<?`; the echoing form `<?=`; `?>`; text outside of the tags -/
  | openTag | echoTag | closeTag | inlineText
  /-- `$name`, `name`, and a name with a backslash in it -/
  | variable | name | qualified
  | keyword (word : Keyword)
  /-- a complete literal, one that is never closed, and an integer or float -/
  | string | openString | number
  /-- the delimiters of a string with embedded expressions, and its literal stretches -/
  | quote | backtick | documentStart | documentEnd | stringPart
  /-- a type in parentheses, such as `(int)` -/
  | cast
  | semicolon | comma | colon | doubleColon | arrow | nullsafeArrow | doubleArrow
  | assign | compoundAssign | question | ellipsis | backslash | dollar | dollarBrace
  | attribute
  | openParen | closeParen | openBracket | closeBracket | openBrace | closeBrace
  | bang | tilde | silencer | plus | minus | ampersand | bar
  /-- `++` and `--` -/
  | step
  /-- an operator that only stands between two operands -/
  | binary (level : Level)
  deriving DecidableEq, Repr

namespace Kind

/-- The level of a token that continues the expression on its left without a right operand. -/
def suffixLevel? : Kind → Option Level
  | openParen => some .call
  | openBracket => some .index
  | arrow | nullsafeArrow | doubleColon => some .member
  | step => some .step
  | _ => none

/-- The level of a token that joins the expression on its left to one on its right. -/
def binaryLevel? : Kind → Option Level
  | assign | compoundAssign => some .assignment
  | question => some .conditional
  | bar => some .bitOr
  | ampersand => some .bitAnd
  | plus | minus => some .additive
  | binary level => some level
  | keyword .and_ => some .and
  | keyword .or_ => some .or
  | keyword .xor_ => some .xor
  | keyword .instanceof => some .instanceof
  | _ => none

/-- A plain name or any reserved word: what may name a member, a label or a declaration. -/
def isWord : Kind → Bool
  | name | keyword _ => true
  | _ => false

/-- A name, with or without backslashes, or any reserved word: what may name a class. -/
def isName : Kind → Bool
  | name | qualified | keyword _ => true
  | _ => false

def isModifier : Kind → Bool
  | keyword w => w.isModifier
  | _ => false

end Kind

structure Token where
  kind : Kind
  start : Nat
  text : String
  deriving DecidableEq, Repr

def Token.stop (t : Token) : Nat := t.start + t.text.utf8ByteSize

end BlockExports.Php
