import BlockExports.Text.Raw

/-!
The arguments of the command line.

Options may stand anywhere between the files, with their value behind an equals sign or as the next
argument. Two dashes end the options. A request for the version or for help is met as soon as it is
reached, so that only mistakes before it count.
-/

namespace BlockExports.Command

inductive Format where
  | text
  | json
  deriving DecidableEq, Repr

structure Arguments where
  files : List RawText
  config : Option RawText
  format : Format
  logLevel : Option String
  deriving DecidableEq

inductive Request where
  | run (arguments : Arguments)
  | version
  | help
  deriving DecidableEq

inductive UsageFault where
  | noFiles
  | unknown (argument : String)
  | noValue (option : String)
  | unneededValue (option : String)
  | badValue (option value : String)
  | repeated (option : String)
  | notText
  deriving DecidableEq, Repr

namespace UsageFault

def message : UsageFault → String
  | noFiles => "the following required arguments were not provided: <FILES>..."
  | unknown argument => "unexpected argument '" ++ argument ++ "' found"
  | noValue option => "a value is required for '" ++ option ++ "' but none was supplied"
  | unneededValue option => "unexpected value for '" ++ option ++ "' found; no more were expected"
  | badValue option value => "invalid value '" ++ value ++ "' for '" ++ option ++ "'"
  | repeated option => "the argument '" ++ option ++ "' cannot be used multiple times"
  | notText => "invalid UTF-8 was detected in one or more arguments"

end UsageFault

/-- The options that take a value. -/
inductive Setting where
  | config
  | format
  | logLevel
  deriving DecidableEq, Repr

namespace Setting

def name : Setting → String
  | config => "--config"
  | format => "--format"
  | logLevel => "--log-level"

def ofName? (name : String) : Option Setting :=
  [config, format, logLevel].find? (·.name = name)

end Setting

/-- The arguments seen so far. -/
structure Seen where
  files : List RawText
  config : Option RawText
  format : Option Format
  logLevel : Option String
  deriving DecidableEq

namespace Seen

def nothing : Seen := ⟨[], none, none, none⟩

/-- Adds a file. Its path may not be empty. -/
def addFile (s : Seen) (path : RawText) : Except UsageFault Seen :=
  if path = .text "" then .error (.badValue "<FILES>..." path.shown)
  else .ok { s with files := s.files ++ [path] }

def addFiles (s : Seen) (paths : List RawText) : Except UsageFault Seen := paths.foldlM addFile s

def formatOf? : String → Option Format
  | "text" => some .text
  | "json" => some .json
  | _ => none

/-- Gives a setting its value, which it may get only once. All but the path of a configuration must
be text. -/
def assign (s : Seen) (setting : Setting) (value : RawText) : Except UsageFault Seen :=
  match setting with
  | .config =>
    if s.config.isSome then .error (.repeated setting.name)
    else if value = .text "" then .error (.badValue setting.name value.shown)
    else .ok { s with config := some value }
  | .format =>
    if s.format.isSome then .error (.repeated setting.name)
    else
      match value.text? with
      | none => .error .notText
      | some value =>
        match formatOf? value with
        | some format => .ok { s with format := some format }
        | none => .error (.badValue setting.name value)
  | .logLevel =>
    if s.logLevel.isSome then .error (.repeated setting.name)
    else
      match value.text? with
      | none => .error .notText
      | some value => .ok { s with logLevel := some value }

def finish (s : Seen) : Except UsageFault Request :=
  if s.files.isEmpty then .error .noFiles
  else .ok (.run ⟨s.files, s.config, s.format.getD .text, s.logLevel⟩)

end Seen

/-- Whether an argument can only be an option. A single dash is a file. -/
def looksLikeOption (argument : RawText) : Bool :=
  argument.startsWith '-' && argument ≠ .text "-"

/-- Whether an argument starts with two dashes. -/
def isLong : RawText → Bool
  | .text s => s.startsWith "--"
  | .bytes b _ => [0x2D, 0x2D].isPrefixOf b.data.toList

/-- The first character behind a dash. -/
def letter? : RawText → Option Char
  | .text s => s.toList[1]?
  | .bytes b _ => (b.data.toList[1]?).map fun b => Char.ofNat b.toNat

def parseFrom (s : Seen) : List RawText → Except UsageFault Request
  | [] => s.finish
  | .text "--" :: rest => do (← s.addFiles rest).finish
  | argument :: rest =>
    if !looksLikeOption argument then
      match s.addFile argument with
      | .ok s => parseFrom s rest
      | .error fault => .error fault
    else if isLong argument then
      match argument.cut '=' with
      | (.text "--version", none) => .ok .version
      | (.text "--help", none) => .ok .help
      | (name, attached) =>
        match name.text?.bind Setting.ofName?, attached, rest with
        | none, some _, _ =>
          if name = .text "--version" || name = .text "--help" then
            .error (.unneededValue name.shown)
          else .error (.unknown argument.shown)
        | none, none, _ => .error (.unknown argument.shown)
        | some setting, some value, rest =>
          match s.assign setting value with
          | .ok s => parseFrom s rest
          | .error fault => .error fault
        | some setting, none, [] => .error (.noValue setting.name)
        | some setting, none, value :: rest =>
          if looksLikeOption value then .error (.noValue setting.name)
          else
            match s.assign setting value with
            | .ok s => parseFrom s rest
            | .error fault => .error fault
    else
      match letter? argument with
      | some 'V' => .ok .version
      | some 'h' => .ok .help
      | _ => .error (.unknown argument.shown)

def parse (arguments : List RawText) : Except UsageFault Request := parseFrom .nothing arguments

end BlockExports.Command
