import TreeTiling.CommandLine

/-! The command-line program. -/

namespace TreeTiling.CommandLine

/-- The system's words for a failed operation on a file. -/
def failureOfError (error : IO.Error) : Failure :=
  match error with
  | .noFileOrDirectory _ code details => .system s!"{details} (os error {code})"
  | .permissionDenied _ code details => .system s!"{details} (os error {code})"
  | .inappropriateType _ code details => .system s!"{details} (os error {code})"
  | .resourceExhausted _ code details => .system s!"{details} (os error {code})"
  | .alreadyExists _ code details => .system s!"{details} (os error {code})"
  | .otherError code details => .system s!"{details} (os error {code})"
  | error => .system (toString error)

/-- Reads a stream to its end. -/
partial def readAll (stream : IO.FS.Stream) (bytes : ByteArray) : IO ByteArray := do
  let chunk ← stream.read 65536
  if chunk.isEmpty then return bytes else readAll stream (bytes ++ chunk)

/-- Reads the program from its file or from standard input. -/
def readProgram (options : Options) : IO (Except Failure String) := do
  try
    let stream ←
      match options.input with
      | some path => pure (IO.FS.Stream.ofHandle (← IO.FS.Handle.mk path .read))
      | none => IO.getStdin
    return sourceOfBytes (← readAll stream ByteArray.empty)
  catch error =>
    return .error (failureOfError error)

/-- Writes the drawing of an outcome, if there is one. -/
def writeDrawing (options : Options) (outcome : Outcome) : IO (Except Failure Unit) := do
  match options.dot, outcome.dot with
  | some path, some drawing =>
      try
        IO.FS.writeFile path drawing
        return .ok ()
      catch error =>
        return .error (failureOfError error)
  | _, _ => return .ok ()

def usage : String :=
  "usage: [--liveness] [--dot FILE] [--dump-rules] [--stats] [-v]... [INPUT]\n"

end TreeTiling.CommandLine

open TreeTiling.CommandLine in
/-- Runs the compiler; the exit code is two if the arguments are wrong. -/
def main (arguments : List String) : IO UInt32 := do
  match parse arguments with
  | .error error =>
      IO.eprint ("error: " ++ error.message ++ "\n\n" ++ usage)
      return 2
  | .ok .help =>
      IO.print usage
      return 0
  | .ok (.run options) =>
      let source ← if readsProgram options then readProgram options else pure (.ok "")
      let planned := run options source (.ok ())
      let outcome :=
        match ← writeDrawing options planned with
        | .ok _ => planned
        | .error failure => run options source (.error failure)
      IO.print outcome.stdout
      IO.eprint outcome.stderr
      return outcome.code.toUInt32
