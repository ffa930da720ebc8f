import BlockExports.Text.Raw

/-!
Files, as far as a run of the program looks at them.

The state of a file system is given by two questions that can be asked about a path: whether it is a
regular file, and what it holds.
-/

namespace BlockExports

inductive FileFault where
  | missing
  | isDirectory
  | notDirectory
  | notText
  /-- any other cause, in the words of the system -/
  | other (text : String)
  deriving DecidableEq, Repr

namespace FileFault

def message : FileFault → String
  | missing => "No such file or directory (os error 2)"
  | isDirectory => "Is a directory (os error 21)"
  | notDirectory => "Not a directory (os error 20)"
  | notText => "stream did not contain valid UTF-8"
  | other text => text

end FileFault

structure Files where
  isFile : RawText → Bool
  bytes : RawText → Except FileFault ByteArray

namespace Files

/-- The text of a file, which must be UTF-8. -/
def text (files : Files) (path : RawText) : Except FileFault String :=
  match files.bytes path with
  | .error fault => .error fault
  | .ok bytes =>
    match String.fromUTF8? bytes with
    | some text => .ok text
    | none => .error .notText

def join (dir : RawText) (name : String) : RawText :=
  if dir = .text "" then .text name
  else dir.add (if dir.endsWith '/' then name else "/" ++ name)

/-- The state of which only the answers for some paths are known. A path that could not be read for
an unknown cause counts as a file all the same. -/
def ofAnswers (answers : List (RawText × Except FileFault ByteArray)) : Files where
  isFile path :=
    match answers.lookup path with
    | some (.ok _) | some (.error (.other _)) => true
    | _ => false
  bytes path := (answers.lookup path).getD (.error .missing)

end Files

end BlockExports
