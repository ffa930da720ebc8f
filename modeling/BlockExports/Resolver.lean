import BlockExports.Component
import BlockExports.Config
import BlockExports.Exports.Collect
import BlockExports.Sink
import BlockExports.Store

/-!
Resolving embedded code.

The exported bindings of a block give a suffix that adds them to a context type. A block that exports
`$title = 'x'` and `$count = 1` gives the text ` & { title: string; count: number; }`, where each name
is mapped to its variable.

A pass goes over the blocks of a component that hold PHP, asks the store for the code of each, and
puts the code of all of them into the sink. A sink that is not meant for it and a component without
such blocks are left alone.
-/

namespace BlockExports

namespace Suffix

def opening : String := " & \x7b "

def closing : String := "\x7d"

/-- The type of a member, from behind its name up to the next one. -/
def typeText (type : String) : String := ": " ++ type ++ "; "

def member (source : String) (b : Binding) : List Code :=
  [.mapped b.name source b.offset ⟨true⟩, .text (typeText b.type)]

/-- The suffix for the bindings of the block named `source`. -/
def render (source : String) (bindings : List Binding) : List Code :=
  .text opening :: bindings.flatMap (member source) ++ [.text closing]

end Suffix

/-- Options and everything generated under them so far. -/
structure Resolver where
  options : Options
  store : Store
  deriving DecidableEq, Repr

namespace Resolver

/-- The version of the interface that a host may rely on. -/
def version : String := "2.1"

def ofOptions (options : Options) : Resolver := ⟨options, .empty⟩

def blockCodes [Php.Reader] (b : Block) (content : String) : List Code :=
  Suffix.render b.name (analyze content)

/-- Whether a block holds PHP. -/
def matching (options : Options) (b : Block) : Bool := b.type = options.blockType

def request [Php.Reader] (file : String) (s : Store) (b : Block) : Response × Store :=
  s.request ⟨file, b.name⟩ b.content (fun content => some (blockCodes b content))

def requests [Php.Reader] (file : String) (s : Store) : List Block → List Response × Store
  | [] => ([], s)
  | b :: blocks =>
    let (response, s) := request file s b
    let (responses, s) := requests file s blocks
    (response :: responses, s)

/-- The code for all blocks of a component that hold PHP, in the order of the blocks. -/
def generate [Php.Reader] (r : Resolver) (file : String) (c : Component) : List Code × Resolver :=
  let (responses, store) := requests file r.store (c.blocks.filter (matching r.options))
  (responses.flatMap (fun response => response.codes.getD []), { r with store })

def applies (r : Resolver) (c : Component) (sink : Sink) : Bool :=
  r.options.embeddedStart.toList.isPrefixOf sink.id.toList
    && c.blocks.any (matching r.options)

/-- The code that a pass puts into a sink, if it puts any. -/
def injection [Php.Reader] (r : Resolver) (file : String) (c : Component) (sink : Sink) :
    Option (List Code) × Resolver :=
  if r.applies c sink then
    let (codes, r) := r.generate file c
    (some codes, r)
  else (none, r)

def resolve [Php.Reader] (r : Resolver) (file : String) (c : Component) (sink : Sink) :
    Sink × Resolver :=
  match r.injection file c sink with
  | (some codes, r) => (sink.inject codes, r)
  | (none, r) => (sink, r)

def invalidate (r : Resolver) (file : String) : Resolver :=
  { r with store := r.store.invalidate file }

def clear (r : Resolver) : Resolver := { r with store := r.store.clear }

end Resolver

end BlockExports
