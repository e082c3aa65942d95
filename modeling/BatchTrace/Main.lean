/-
The program: it collects what is around it, and does what the run says.
-/
import BatchTrace.CommandLine
import Std.Time.DateTime.Timestamp

namespace BatchTrace

namespace Main

open CommandLine

/-- What the system says about a failed operation. -/
def problem : IO.Error → Text
  | .noFileOrDirectory _ code details | .interrupted _ code details
  | .alreadyExists _ code details | .invalidArgument _ code details
  | .permissionDenied _ code details | .resourceExhausted _ code details
  | .inappropriateType _ code details | .noSuchThing _ code details
  | .otherError code details | .resourceBusy code details | .resourceVanished code details
  | .unsupportedOperation code details | .hardwareFault code details
  | .unsatisfiedConstraints code details | .illegalOperation code details
  | .protocolError code details | .timeExpired code details =>
      details.toList ++ " (os error ".toList ++ Nat.toDigits 10 code.toNat ++ ")".toList
  | e => e.toString.toList

/-- The content of a file; none if there is no such file. -/
def readFile? (path : Text) : IO (Option (Except Text ByteArray)) := do
  try
    return some (.ok (← IO.FS.readBinFile (String.ofList path)))
  catch
    | .noFileOrDirectory .. => return none
    | e => return some (.error (problem e))

/-- All that a stream still holds. -/
partial def readAll (stream : IO.FS.Stream) (read : ByteArray) : IO ByteArray := do
  let chunk ← stream.read 65536
  if chunk.isEmpty then return read else readAll stream (read ++ chunk)

/-- A log opened at its end, with the directory it is in, or why it cannot be. -/
def openLog (path : Text) : IO (Except Text IO.FS.Handle) := do
  match Text.splitLast (· = '/') path with
  | some (directory@(_ :: _), _) =>
      try IO.FS.createDirAll (String.ofList directory) catch _ => pure ()
  | _ => pure ()
  try
    return .ok (← IO.FS.Handle.mk (String.ofList path) .append)
  catch e =>
    return .error (problem e)

/-- The time of day in universal time. -/
def clock : IO Text := do
  let now ← Std.Time.Timestamp.now
  let seconds := now.toSecondsSinceUnixEpoch.val.toNat % 86400
  let two (n : Nat) : Text := [Nat.digitChar (n / 10), Nat.digitChar (n % 10)]
  return two (seconds / 3600) ++ ':' :: two (seconds / 60 % 60) ++ ':' :: two (seconds % 60)

/-- What is around the program. -/
def environment (words : List String) : IO Environment := do
  let home := (← IO.getEnv "HOME").map String.toList
  let settingsFile ←
    match home with
    | some home => readFile? (joinPath home settingsPath.toList)
    | none => pure none
  let input ← if readsInput words then readAll (← IO.getStdin) .empty else pure .empty
  return { home, settingsFile, input }

/-- Does what a run says. -/
def run (words : List String) : IO UInt32 := do
  let env ← environment words
  let log ← (logPath? env words).mapM openLog
  let logProblem :=
    match log with
    | some (.error why) => some why
    | _ => none
  let outcome := CommandLine.run env words logProblem
  let stderr ← IO.getStderr
  for event in outcome.events do
    let line := String.ofList (printed ((← clock) ++ ' ' :: event.line))
    stderr.putStr line
    match log with
    | some (.ok handle) => handle.putStr line
    | _ => pure ()
  (← IO.getStdout).putStr (String.ofList outcome.output)
  stderr.putStr (String.ofList outcome.errorOutput)
  return outcome.exitCode.toUInt32

end Main

end BatchTrace

def main (words : List String) : IO UInt32 :=
  BatchTrace.Main.run words
