import GraphPattern.Formatter.Report

/-!
The formatter as a program: reads the input, prints the report.
-/

namespace GraphPattern.Formatter

/-- The read failure for an I/O error, with the system's text and error code. -/
def ReadFailure.ofError : IO.Error → ReadFailure
  | .noFileOrDirectory _ code details => .system details code.toNat
  | .permissionDenied _ code details => .system details code.toNat
  | .inappropriateType _ code details => .system details code.toNat
  | .invalidArgument _ code details => .system details code.toNat
  | .resourceExhausted _ code details => .system details code.toNat
  | .noSuchThing _ code details => .system details code.toNat
  | .hardwareFault code details => .system details code.toNat
  | .otherError code details => .system details code.toNat
  | e => .system e.toString 0

def Input.read : Input → IO ByteArray
  | stdin => do (← IO.getStdin).readBinToEnd
  | file path => IO.FS.withFile path .read fun handle => handle.readBinToEnd

/-- The report that answers a request. -/
def Request.answer : Request → IO Report
  | help => pure helpReport
  | version => pure versionReport
  | format o => do
    match ← o.input.read.toBaseIO with
    | .ok bytes => pure (report o (.ok bytes))
    | .error e => pure (report o (.error (.ofError e)))

/-- Runs the command on its arguments and returns the exit code. -/
def run (arguments : List String) : IO UInt32 := do
  let r ← match Request.ofArguments arguments with
    | .ok request => request.answer
    | .error e => pure (usageReport e)
  (← IO.getStdout).putStr r.stdout
  (← IO.getStderr).putStr r.stderr
  pure r.exitCode.toUInt32

end GraphPattern.Formatter

def main (arguments : List String) : IO UInt32 :=
  GraphPattern.Formatter.run arguments
