import Disasm.Program

/-! # Entry point

Reads the files that the run may ask for, and prints what the run leaves behind.
-/

namespace Disasm

def ReadError.ofSystem : IO.Error → ReadError
  | .noFileOrDirectory .. => .notFound
  | .inappropriateType _ 21 _ => .isDirectory
  | .inappropriateType .. => .other "Not a directory (os error 20)"
  | .invalidArgument .. => .other "File name too long (os error 36)"
  | .userError _ => .other "stream did not contain valid UTF-8"
  | e => .other (toString e)

def readText (path : String) : IO (Except ReadError String) := do
  try
    let text ← IO.FS.readFile path
    pure (.ok text)
  catch e => pure (.error (.ofSystem e))

def namedFiles (args : List String) : List String :=
  match CommandLine.parse args with
  | .ok r => r.input :: r.labels.toList
  | .error _ => []

end Disasm

def main (args : List String) : IO UInt32 := do
  let contents ← (Disasm.namedFiles args).mapM fun path => do
    let text ← Disasm.readText path
    pure (path, text)
  let outcome := Disasm.run args fun path => (contents.lookup path).getD (.error .notFound)
  IO.print outcome.output
  IO.eprint outcome.errors
  pure outcome.exitCode
