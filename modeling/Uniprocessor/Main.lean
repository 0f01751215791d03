import Uniprocessor.CommandLine.Session
/-
  The command line.  All that is decided is decided by `CommandLine.plan`; this module reads the
  environment and the file, and prints.
-/

open Uniprocessor CommandLine

/-- The number of a system error, which may come with its sign turned. -/
def errorNumber (code : UInt32) : Nat :=
  if code.toNat < 0x8000_0000 then code.toNat else 0x1_0000_0000 - code.toNat

/-- The reason for which reading failed. -/
def reasonOf (e : IO.Error) : FileError :=
  match e with
  | .noFileOrDirectory _ _ _ => .notFound
  | .inappropriateType _ code _ => if errorNumber code = 21 then .isDirectory else .notDirectory
  | .invalidArgument _ code _ =>
    if errorNumber code = 36 then .nameTooLong else .other (toString e)
  | .permissionDenied _ _ _ => .accessDenied
  | _ => .other (toString e)

/-- The bytes of a file. -/
def readBytes (path : String) : IO (Except FileError ByteArray) := do
  try
    return .ok (← IO.FS.readBinFile path)
  catch e => return .error (reasonOf e)

/-- The settings of the environment. -/
def readSettings : IO Settings := do
  return {
    scenario := {
      maxTicks := ← IO.getEnv "SCHED_SIM_MAX_TICKS"
      audit := ← IO.getEnv "SCHED_SIM_AUDIT" }
    strategy := ← IO.getEnv "SCHED_SIM_STRATEGY"
    logLevel := ← IO.getEnv "RUST_LOG"
    noColour := ← IO.getEnv "NO_COLOR" }

def main (args : List String) : IO UInt32 := do
  let report ← match plan (← readSettings) args with
    | .finished r => pure r
    | .read path go => pure (go (← readBytes path))
  IO.print report.output
  IO.eprint report.errors
  return report.exitCode.toUInt32
