import Multiprecision.CommandLine.Run
import Multiprecision.Random.Generator
import Std.Time.DateTime.Timestamp

/-!
# Multiprecision.Main

The program: its host in the real world, and what it prints where.
-/

namespace Multiprecision

open Calibration CommandLine

/-- An action that may fail, with the system's reason. -/
def attemptIO {α : Type} (action : IO α) : IO (Except String α) := do
  try return .ok (← action) catch e => return .error (toString e)

/-- The files of the system. -/
def systemFiles : Files IO where
  exist path := return (← attemptIO (IO.FS.realPath path)).isOk
  read path := attemptIO (IO.FS.readFile path)
  write path text := attemptIO (IO.FS.writeFile path text)
  makeFolder path := attemptIO (IO.FS.createDirAll path)
  remove path := attemptIO (IO.FS.removeFile path)

/-- The machine that the system describes. -/
def systemMachine : IO Machine := do
  match ← systemFiles.read "/proc/cpuinfo" with
  | .ok text => return .ofListing text
  | .error _ => return {}

/-- A generator that starts from bytes of the system. -/
def systemGenerator : IO Random.Generator := do
  let bytes ← IO.getRandomBytes 8
  return ⟨bytes.toList.foldl (fun word b => word <<< 8 ||| b.toUInt64) 0⟩

/-- The world around the program. -/
def systemHost : IO (Host IO Random.Generator) := do
  return {
    files := systemFiles
    places := {
      settings := ← IO.getEnv "XDG_CONFIG_HOME"
      home := ← IO.getEnv "HOME"
      working := toString (← IO.currentDir) }
    machine := ← systemMachine
    seconds := return (← Std.Time.Timestamp.now).toSecondsSinceUnixEpoch.val.toNat
    judge := .ofClock IO.monoNanosNow Arithmetic.defaultDepth
    notice := IO.eprintln
    source := systemGenerator }

/-- Ends without running a command. -/
def explain (u : Usage) : IO UInt32 := do
  match u with
  | .displayHelp => IO.print helpText
  | .displayVersion => IO.print versionText
  | u => IO.eprintln ("error: " ++ u.message ++ "\n\nFor more information, try '--help'.")
  return u.exitStatus.toUInt32

end Multiprecision

open Multiprecision CommandLine in
/-- Runs the command that the arguments ask for. -/
def main (args : List String) : IO UInt32 := do
  match Settings.read args with
  | .error u => explain u
  | .ok settings =>
    let ending ← settings.run (← systemHost) Arithmetic.defaultDepth
    IO.print ending.output
    if let some (message, _) := ending.failure then IO.eprintln ("Error: " ++ message)
    return ending.exitStatus.toUInt32
