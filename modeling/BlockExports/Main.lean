import BlockExports.Command

/-!
The program: looks at the files that the arguments name and prints the outcome.
-/

namespace BlockExports.Command

def faultOf : IO.Error → FileFault
  | .noFileOrDirectory .. => .missing
  | .inappropriateType _ code _ =>
    if code = 21 || code = 4294967275 then .isDirectory else .notDirectory
  | e => .other (toString e)

def answerFor (path : RawText) : IO (RawText × Except FileFault ByteArray) := do
  try
    pure (path, .ok (← IO.FS.readBinFile path.shown))
  catch e =>
    pure (path, .error (faultOf e))

end BlockExports.Command

open BlockExports in
def main (arguments : List String) : IO UInt32 := do
  let arguments := arguments.map RawText.text
  let home : RawText := (← IO.currentDir).toString
  let answers ← (Command.paths home arguments).mapM Command.answerFor
  let outcome := Command.execute (.ofAnswers answers) home arguments
  (← IO.getStdout).putStr outcome.stdout
  (← IO.getStderr).putStr outcome.stderr
  pure outcome.exit
