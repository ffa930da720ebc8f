import BlockExports.Php.Parser.Statement

/-!
Programs: the top-level statements of a text.

Reading never fails. A statement that cannot be read is left out and reading goes on behind what was
taken of it; only text that is no token, met where a statement should start, ends the program.
-/

namespace BlockExports.Php

open Php.Parser

namespace Grammar

/-- The grammar in which constructs lie at most `limit` deep in one another. -/
def ofDepth : Nat → Grammar
  | 0 => ⟨fun _ => failure, failure⟩
  | limit + 1 =>
    ⟨fun level cursor => (ofDepth limit).expressionAt level cursor,
     fun cursor => (ofDepth limit).anyStatement cursor⟩

end Grammar

namespace Program

def statements (g : Grammar) : Nat → Cursor → Program
  | 0, _ => []
  | limit + 1, cursor =>
    match nextKind cursor with
    | (some (some _), cursor) =>
      let (statement, cursor) := g.tolerantStatement cursor
      (statement.join).toList ++ statements g limit cursor
    | _ => []

/-- The program of a stream. Every statement takes a token, and every construct inside of another
one lies behind a token of its own, so the stream's length bounds both. -/
def ofItems (items : List Item) : Program :=
  statements (.ofDepth (2 * items.length + 2)) (items.length + 1) (.start items)

/-- The program of a text that starts outside of the PHP tags. -/
def parse (text : String) : Program := ofItems (tokenize text)

def expressions (program : Program) : List Expression :=
  program.filterMap fun
    | .expression e => some e
    | .other => none

end Program

/-- A reader of PHP text. Reading may break off, which is what `none` means. -/
class Reader where
  read : String → Option Program

/-- The grammar's own reader, which gets through every text. -/
instance : Reader := ⟨fun text => some (.parse text)⟩

end BlockExports.Php
