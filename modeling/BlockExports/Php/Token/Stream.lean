import BlockExports.Text.Basic
import BlockExports.Php.Token.Reading

/-!
The stream of tokens of a whole text.

An embedded expression is read as script text until a token reaches its end; then the surrounding
string goes on. Its tokens are held back meanwhile and join the stream together. A literal stretch of
the string, which may be empty, stands before every embedded expression. If something unreadable
turns up in between, the held tokens are lost, the stream has a gap there, and the reader
stays derailed: from then on it never comes back to a string, and it drops what it holds.
-/

namespace BlockExports.Php

open Text Quote

/-- One place in the stream: a token, text that is no token, or a place where the input seems to
end although more follows. -/
inductive Item where
  | token (t : Token)
  | unreadable
  | gap
  deriving DecidableEq, Repr

/-- An embedded expression that is being read: where it ends, and how the text goes on then. -/
structure Embedding where
  stop : Nat
  resume : Mode
  deriving DecidableEq, Repr

structure Lexer where
  offset : Nat
  mode : Mode
  /-- the embedded expressions around this place, innermost first -/
  embeddings : List Embedding
  /-- the tokens held back, the last one first -/
  held : List Token
  derailed : Bool
  /-- whether a literal stretch of a string has just been read up to here -/
  behindText : Bool
  deriving DecidableEq, Repr

namespace Lexer

def start : Lexer := ⟨0, .inline, [], [], false, false⟩

def addEmptyText (l : Lexer) : List Item × Lexer :=
  let part : Token := ⟨.stringPart, l.offset, ""⟩
  match l.embeddings with
  | [] => ([.token part], l)
  | _ => ([], { l with held := part :: l.held })

/-- Turns to script text when an embedded expression starts here. -/
def enter (l : Lexer) (cs : List Char) : List Item × Lexer :=
  match if l.mode.embeds then embedding? cs else none with
  | some length =>
    let (found, l) := if l.behindText then ([], l) else l.addEmptyText
    let embedding := ⟨l.offset + byteLength (cs.take length), l.mode⟩
    (found, { l with mode := .script, embeddings := embedding :: l.embeddings })
  | none => ([], l)

/-- Whether a reading is literal text that ends where an embedded expression may start. The line
break at the end of a document's line parts the text from what follows. -/
def endsText (reading : Reading) (text : List Char) : Bool :=
  match reading.shape, reading.next with
  | .token .stringPart, .quoted _ => true
  | .token .stringPart, .document _ _ => !text.getLast?.any (fun c => c = '\n' || c = '\r')
  | _, _ => false

/-- What joins the stream after a reading that covers `text`. -/
def advance (l : Lexer) (reading : Reading) (text : List Char) : List Item × Lexer :=
  let tokens : List Token := match reading.shape with
    | .token kind => [⟨kind, l.offset, String.ofList text⟩]
    | _ => []
  let l := { l with behindText := endsText reading text }
  match l.embeddings, reading.shape with
  | [], .unreadable => ([.unreadable], { l with mode := reading.next })
  | [], _ => (tokens.map .token, { l with mode := reading.next })
  | _ :: _, .unreadable =>
    ([.gap], { l with mode := reading.next, embeddings := [], held := [], derailed := true })
  | e :: outer, _ =>
    let held := tokens ++ l.held
    if l.offset ≤ e.stop && e.stop ≤ l.offset + byteLength text then
      match outer with
      | [] =>
        (if l.derailed then [] else held.reverse.map .token,
          { l with mode := e.resume, embeddings := [], held := [], behindText := false })
      | _ => ([], { l with mode := e.resume, embeddings := outer, held, behindText := false })
    else ([], { l with mode := reading.next, held })

/-- The stream from here on; `skip` characters still belong to the token before. -/
def items (l : Lexer) : Nat → List Char → List Item
  | _, [] => []
  | skip + 1, c :: cs => items { l with offset := l.offset + c.utf8Size } skip cs
  | 0, c :: cs =>
    let (entered, l) := l.enter (c :: cs)
    let reading := read l.mode (l.offset = 0) (c :: cs)
    let (found, next) := l.advance reading ((c :: cs).take reading.length)
    entered ++ found ++ items { next with offset := l.offset + c.utf8Size } (reading.length - 1) cs

end Lexer

def tokenize (text : String) : List Item := Lexer.start.items 0 text.toList

end BlockExports.Php
