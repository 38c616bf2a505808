import DeltaLang.CommandLine

/-!
# The program

Reads files and standard input, and prints what the command line answers.
-/

namespace DeltaLang

namespace CommandLine

/-- The text of bytes, if they are one. -/
def textOfBytes (bytes : ByteArray) : Except ReadError String :=
  match String.fromUTF8? bytes with
  | some text => .ok text
  | none => .error .notText

/-- The reason why the system cannot read a file. -/
def readErrorOf : IO.Error → ReadError
  | .noFileOrDirectory .. => .missing
  | .permissionDenied .. => .denied
  | .inappropriateType _ 21 _ => .isDirectory
  | .inappropriateType .. => .notDirectory
  | .invalidArgument _ _ "name too long" => .nameTooLong
  | e => .other (toString e)

def readText (path : String) : IO (Except ReadError String) := do
  try
    return textOfBytes (← IO.FS.readBinFile path)
  catch e => return .error (readErrorOf e)

/-- Reads a stream to its end. -/
partial def readToEnd (stream : IO.FS.Stream) (done : ByteArray) : IO ByteArray := do
  let bytes ← stream.read 65536
  if bytes.isEmpty then return done else readToEnd stream (done ++ bytes)

def readInput : IO (Except ReadError String) := do
  return textOfBytes (← readToEnd (← IO.getStdin) .empty)

end CommandLine

end DeltaLang

open DeltaLang CommandLine in
def main (args : List String) : IO UInt32 := do
  let response ← CommandLine.run readText readInput args
  IO.print response.stdout
  IO.eprint response.stderr
  return response.code.toUInt32
