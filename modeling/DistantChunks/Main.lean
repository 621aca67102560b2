import DistantChunks.Survey.FileTree
import DistantChunks.Survey.Report

/-!
# Command line of the survey

Reads the files that the arguments name, runs the survey and prints its report. Log lines go to
standard error.
-/

namespace DistantChunks.Survey

/-- The number and the words of an error, if the operating system reported it. -/
def report? : IO.Error → Option (Nat × String)
  | .alreadyExists _ code words | .inappropriateType _ code words | .invalidArgument _ code words
  | .noSuchThing _ code words | .permissionDenied _ code words | .resourceExhausted _ code words
  | .interrupted _ code words | .noFileOrDirectory _ code words | .otherError code words
  | .resourceBusy code words | .resourceVanished code words | .unsupportedOperation code words
  | .hardwareFault code words | .unsatisfiedConstraints code words | .illegalOperation code words
  | .protocolError code words | .timeExpired code words =>
    let n := code.toNat
    some (if 0x80000000 ≤ n then 0x100000000 - n else n, words)
  | _ => none

def ioFailure (e : IO.Error) : Failure :=
  match report? e with
  | some (n, words) => match PathFault.ofNumber? n with
    | some fault => fault.failure
    | none => .io (words ++ " (os error " ++ n.repr ++ ")")
  | none => .io (toString e)

def readFiles (paths : List String) : IO (List (String × Except Failure String)) :=
  paths.mapM fun (path : String) => do
    try
      match String.fromUTF8? (← IO.FS.readBinFile path) with
      | some content => return (path, .ok content)
      | none => return (path, .error (.io "stream did not contain valid UTF-8"))
    catch e => return (path, .error (ioFailure e))

def timeWords (nanoseconds chunks : Nat) : String :=
  let hundredths := roundedQuotient nanoseconds 10000000
  let fraction := hundredths % 100
  " in " ++ (hundredths / 100).repr ++ "." ++ (fraction / 10).repr ++ (fraction % 10).repr ++
    "s (" ++ (roundedQuotient (chunks * 1000000000) (max nanoseconds 1)).repr ++ " chunks/sec)"

end DistantChunks.Survey

open DistantChunks in
def main (args : List String) : IO UInt32 := do
  let parsed := Survey.Arguments.ofList args
  let files ← Survey.readFiles (parsed.worldPath.toList ++ parsed.configPath.toList)
  let read (path : String) : Except Failure String :=
    match files.find? (·.1 == path) with
    | some (_, content) => content
    | none => .error Survey.PathFault.missing.failure
  let start ← IO.monoNanosNow
  let outcome := Survey.run read args
  let log := outcome.log
  let stop ← IO.monoNanosNow
  for line in log do
    IO.eprintln (line.level.name ++ " " ++ line.message)
  for line in outcome.output (Survey.timeWords (stop - start) outcome.built) do
    IO.println line
  return if outcome.succeeded then 0 else 1
