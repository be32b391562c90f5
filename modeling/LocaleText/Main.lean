import LocaleText.CommandLine.Run

/-!
# The program

Runs the command line with the files and the standard input of the system.
-/

namespace LocaleText.CommandLine

/-- Why the system could not read something. -/
def reasonOf : IO.Error → ReadError
  | .noFileOrDirectory _ _ _ => .missing
  | .inappropriateType _ 20 _ => .notADirectory
  | .inappropriateType _ 21 _ => .isADirectory
  | e => .other (toString e)

/-- All bytes of a stream, behind those that have been read. -/
partial def readAll (stream : IO.FS.Stream) (bytes : ByteArray) : IO ByteArray := do
  let chunk ← stream.read 65536
  if chunk.isEmpty then pure bytes else readAll stream (bytes ++ chunk)

def loadFromSystem : Origin → IO Loaded
  | .inline text => pure (.ok text)
  | .stdin => do
    let stream ← IO.getStdin
    try decodeText <$> readAll stream .empty catch e => pure (.error (reasonOf e))
  | .file path =>
    try decodeText <$> IO.FS.readBinFile path catch e => pure (.error (reasonOf e))

/-- Runs a call of the program with the files and the streams of the system. -/
def runInSystem (arguments : List String) : IO UInt32 := do
  let outcome ← run loadFromSystem arguments
  (← IO.getStdout).putStr outcome.stdout
  (← IO.getStderr).putStr outcome.stderr
  pure outcome.code.toUInt32

end LocaleText.CommandLine

def main (arguments : List String) : IO UInt32 :=
  LocaleText.CommandLine.runInSystem arguments
