import ProofScript.CommandLine

open ProofScript ProofScript.CommandLine

/-- Why the system refused to read a file. -/
def refusal : IO.Error → ReadError
  | .noFileOrDirectory .. => .missing
  | .inappropriateType _ code _ => if code = 21 then .isADirectory else .notADirectory
  | .invalidArgument .. => .nameTooLong
  | _ => .denied

/-- Reads what a run may look at, then prints what it answers. -/
def main (args : List String) : IO UInt32 := do
  let read (path : String) : IO (Except ReadError ByteArray) := do
    try return .ok (← IO.FS.readBinFile path) catch e => return .error (refusal e)
  let settings ← read settingsFile
  let script ← match args with
    | [] => pure (.error .missing)
    | path :: _ => read path
  let files : Files := fun path => if path = settingsFile then settings else script
  match run files args with
  | .ok lines =>
    for line in lines do IO.println line
    return 0
  | .error failure =>
    IO.eprintln failure.message
    return failure.exitCode.toUInt32
