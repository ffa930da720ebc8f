import BlockExports.Code.Wire
import BlockExports.Command.Arguments
import BlockExports.Config
import BlockExports.Resolver

/-!
A run of the program.

A run looks up the options, then resolves the files in order with one resolver, and only then starts
to write. What is written stays written when the run fails later on.
-/

namespace BlockExports.Command

structure Outcome where
  exit : UInt32
  stdout : String
  stderr : String
  deriving DecidableEq, Repr

def name : String := "php-sfc-types"

def version : String := "0.1.0"

def usage : String :=
  String.join [
    "Usage: ", name, " [OPTIONS] <FILES>...\n\nOptions:\n",
    "      --config <CONFIG>        Options file (defaults to ./php-sfc.toml when present)\n",
    "      --format <FORMAT>        text or json [default: text]\n",
    "      --log-level <LOG_LEVEL>  Log filter\n",
    "  -h, --help                   Print help\n",
    "  -V, --version                Print version\n"]

/-- The id of the embedded code that a file is resolved into. -/
def sinkId : String := "script_ts"

/-- Steps of a run, which write to the standard output and may end in an error. -/
abbrev Session := ExceptT Error (StateM String)

def write (text : String) : Session Unit := modify (· ++ text)

structure FileCode where
  path : RawText
  codes : List Code
  deriving DecidableEq

/-- The code of one file, when its text is known. The store knows a file by its path as it is shown. -/
def resolveText [Php.Reader] (r : Resolver) (path : RawText) (text : String) :
    FileCode × Resolver :=
  let (sink, r) := r.resolve path.shown (Component.scan text) (.ofId sinkId)
  (⟨path, sink.content⟩, r)

/-- Resolves files one after the other, up to the first that cannot be read. -/
def resolveAll [Php.Reader] (files : Files) (r : Resolver) :
    List RawText → Except Error (List FileCode)
  | [] => .ok []
  | path :: paths => do
    let text ← (files.text path).mapError (.unreadable path)
    let (first, r) := resolveText r path text
    let others ← resolveAll files r paths
    pure (first :: others)

/-- One line of text for a file. Where there are several files each line starts with its path. -/
def textLine (several : Bool) (f : FileCode) : String :=
  (if several then f.path.shown ++ ": " else "") ++ Code.source f.codes ++ "\n"

/-- Writes the JSON form of the code of a file, as an item of an array. A path has a JSON form only if
it is text, which shows when it is its turn. -/
def writeEntry (f : FileCode) : Session Unit := do
  write ("\x7b" ++ Json.newline 2 ++ Json.quoted "file" ++ ": ")
  match f.path.text? with
  | none => throw (.json .pathNotText)
  | some path =>
    write (Json.quoted path)
    write ("," ++ Json.newline 2 ++ Json.quoted "codes" ++ ": " ++ (Code.encode f.codes).prettyAt 2)
    write (Json.newline 1 ++ "\x7d")

def writeJson : List FileCode → Session Unit
  | [] => write "[]"
  | f :: outputs => do
    write ("[" ++ Json.newline 1)
    writeEntry f
    outputs.forM fun f => do
      write ("," ++ Json.newline 1)
      writeEntry f
    write (Json.newline 0 ++ "]")

def report (arguments : Arguments) (outputs : List FileCode) : Session Unit :=
  match arguments.format with
  | .json => do
    writeJson outputs
    write "\n"
  | .text => outputs.forM fun f => write (textLine (1 < arguments.files.length) f)

def run [Php.Reader] (files : Files) (home : RawText) (arguments : Arguments) : Session Unit := do
  let options ← ofExcept (Options.discover files arguments.config home)
  let outputs ← ofExcept (resolveAll files (.ofOptions options) arguments.files)
  report arguments outputs

def outcome : Except Error Unit × String → Outcome
  | (.ok (), written) => ⟨0, written, ""⟩
  | (.error e, written) => ⟨1, written, name ++ ": " ++ e.report ++ "\n"⟩

/-- What the program does with a list of arguments in the directory `home`. -/
def execute [Php.Reader] (files : Files) (home : RawText) (arguments : List RawText) : Outcome :=
  match parse arguments with
  | .error fault => ⟨2, "", "error: " ++ fault.message ++ "\n\n" ++ usage⟩
  | .ok .version => ⟨0, name ++ " " ++ version ++ "\n", ""⟩
  | .ok .help => ⟨0, usage, ""⟩
  | .ok (.run arguments) => outcome ((run files home arguments).run.run "")

/-- The paths that the program may look at. -/
def paths (home : RawText) (arguments : List RawText) : List RawText :=
  match parse arguments with
  | .ok (.run arguments) =>
    arguments.config.getD (Files.join home Options.defaultFile) :: arguments.files
  | _ => []

end BlockExports.Command
