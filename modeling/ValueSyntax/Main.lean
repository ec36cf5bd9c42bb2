import ValueSyntax.CommandLine.Report

open ValueSyntax

/-- System errors carry negated numbers. -/
def systemCode (code : UInt32) : Nat := code.toInt32.toInt.natAbs

def readFailure (e : IO.Error) : ReadFailure :=
  match e with
  | .noFileOrDirectory _ _ _ => .notFound
  | .permissionDenied _ _ _ => .denied
  | .inappropriateType _ code reason =>
    if systemCode code = 20 then .notDirectory
    else if systemCode code = 21 then .isDirectory
    else .system reason (systemCode code)
  | .invalidArgument _ code reason | .resourceExhausted _ code reason =>
    .system reason (systemCode code)
  | e => .system e.toString 0

def readText (path : String) : IO (Except ReadFailure String) := do
  try
    match String.fromUTF8? (← IO.FS.readBinFile path) with
    | some text => return .ok text
    | none => return .error .notText
  catch e =>
    return .error (readFailure e)

def finish (o : Outcome) : IO UInt32 := do
  IO.print o.out
  IO.eprint o.err
  return o.exit.toUInt32

def main (arguments : List String) : IO UInt32 := do
  match Options.ofArguments arguments with
  | .error e => finish e.outcome
  | .ok options => finish (options.outcome (← readText options.path))
