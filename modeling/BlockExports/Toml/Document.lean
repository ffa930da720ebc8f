import BlockExports.Toml.Scalar

/-!
Reading TOML documents.

A reader takes characters from the start of a text or fails. Lists of any kind are read with as much
fuel as there are characters left, which is enough because every element takes at least one; arrays
and tables between braces may be nested to a fixed depth only.
-/

namespace BlockExports.Toml

/-- A reader of the characters at the start of a text. -/
abbrev Reader := StateT (List Char) Option

namespace Reader

variable {α : Type}

/-- A reader from a function that returns what it found and the text behind it. -/
def ofText (read : List Char → Option (List Char × List Char)) : Reader String := do
  let (text, rest) ← read (← get)
  set rest
  pure (String.ofList text)

def accept (c : Char) : Reader Bool := do
  match ← get with
  | d :: rest => if d = c then set rest; pure true else pure false
  | [] => pure false

def expect (c : Char) : Reader Unit := do
  if ← accept c then pure () else failure

def skipGap : Reader Unit := modify (List.dropWhile isGap)

def skipComment : Reader Unit := do
  if ← accept '#' then modify (List.dropWhile (fun c => !isControl c))

/-- The text behind blank lines and comments; `inComment` tells whether a comment has begun. -/
def fillerEnd? : Bool → List Char → Option (List Char)
  | _, [] => some []
  | _, '\n' :: cs => fillerEnd? false cs
  | _, '\r' :: '\n' :: cs => fillerEnd? false cs
  | true, c :: cs => if isControl c then none else fillerEnd? true cs
  | false, c :: cs =>
    if c = '#' then fillerEnd? true cs
    else if isGap c then fillerEnd? false cs
    else some (c :: cs)

def skipFiller : Reader Unit := do set (← fillerEnd? false (← get))

/-- Ends a line: only a comment may follow, then a line break or the end of the text. -/
def lineEnd : Reader Unit := do
  skipGap
  skipComment
  match ← get with
  | [] => pure ()
  | cs =>
    let (_, rest) ← lineBreak? cs
    set rest

/-- Elements with commas between them, up to a closing character. A comma may also stand behind the
last one. -/
def elements (close : Char) (element : Reader α) : Nat → Reader (List α)
  | 0 => failure
  | fuel + 1 => do
    skipFiller
    if ← accept close then pure []
    else
      let x ← element
      skipFiller
      if ← accept ',' then pure (x :: (← elements close element fuel))
      else
        expect close
        pure [x]

/-- Elements in brackets, the opening one being taken already. -/
def enclosed (close : Char) (element : Reader α) : Reader (List α) := do
  elements close element ((← get).length + 1)

def isKeyChar (c : Char) : Bool := c.isAlphanum || c = '_' || c = '-'

def keyPart : Reader String := do
  let cs ← get
  match quotedLine? cs with
  | some (text, rest) =>
    set rest
    pure (String.ofList text)
  | none =>
    let name := cs.takeWhile isKeyChar
    if name.isEmpty then failure
    else
      set (cs.drop name.length)
      pure (String.ofList name)

/-- The parts of a key, with dots between them: the path that leads to it, and its last part. -/
def keyParts : Nat → Reader (List String × String)
  | 0 => failure
  | fuel + 1 => do
    skipGap
    let part ← keyPart
    skipGap
    if ← accept '.' then
      let (path, key) ← keyParts fuel
      pure (part :: path, key)
    else pure ([], part)

def key : Reader (List String × String) := do keyParts ((← get).length + 1)

def field (value : Reader Value) : Reader (List String × String × Value) := do
  let (path, name) ← key
  expect '='
  skipGap
  pure (path, name, ← value)

def scalar : Reader Value := do
  let (text, rest) := word (← get)
  set rest
  scalar? text

/-- How deep arrays and tables between braces may be nested. -/
def greatestDepth : Nat := 80

/-- A value. `inner` reads the values inside of brackets, where brackets may be opened at all. -/
def valueAround (inner : Option (Reader Value)) : Reader Value := do
  match ← get with
  | '\x22' :: _ | '\x27' :: _ => pure (.string (← ofText quoted?))
  | '[' :: rest =>
    set rest
    pure (.array (← enclosed ']' (← inner)))
  | '\x7b' :: rest =>
    set rest
    let fields ← enclosed '\x7d' (field (← inner))
    let table ← fields.foldlM (fun t (path, name, v) => Table.set? path name v t) []
    pure (.table .inline table)
  | _ => scalar

def value : Nat → Reader Value
  | 0 => valueAround none
  | depth + 1 => valueAround (some (value depth))

def heading : Reader Line := do
  if ← accept '[' then
    let (path, name) ← key
    expect ']'
    expect ']'
    pure (.repeated path name)
  else
    let (path, name) ← key
    expect ']'
    pure (.heading path name)

def line : Reader Line := do
  if ← accept '[' then heading
  else
    let (path, name, v) ← field (value greatestDepth)
    pure (.field path name v)

def lines : Nat → Reader (List Line)
  | 0 => failure
  | fuel + 1 => do
    skipFiller
    if (← get).isEmpty then pure []
    else
      let first ← line
      lineEnd
      pure (first :: (← lines fuel))

end Reader

/-- A document may start with a mark of its byte order. -/
def withoutMark : List Char → List Char
  | c :: cs => if c.toNat = 0xFEFF then cs else c :: cs
  | [] => []

def lines? (text : String) : Option (List Line) :=
  let cs := withoutMark text.toList
  (Reader.lines (cs.length + 1) cs).map (·.1)

def parse? (text : String) : Option Table := do assemble? (← lines? text)

end BlockExports.Toml
