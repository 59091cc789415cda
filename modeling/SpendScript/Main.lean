import Std.Time.DateTime.Timestamp
import SpendScript.CommandLine.Report

/-!
# The program

Asks for the time, makes the report and writes it where it belongs.
-/

open SpendScript

/-- Microseconds since the epoch. -/
def wallClock : IO Int := do
  return (← Std.Time.Timestamp.now).toNanosecondsSinceUnixEpoch.toInt / 1000

/-- Appends to a file; a file that cannot be opened is left alone. -/
def appendToFile (name text : String) : IO Unit := do
  try
    let handle ← IO.FS.Handle.mk name .append
    handle.putStr text
  catch _ => return

def main (arguments : List String) : IO UInt32 := do
  let report := CommandLine.run .standard (← wallClock) arguments
  IO.print report.stdout
  IO.eprint report.stderr
  if let some name := CommandLine.logfileOf? arguments then
    appendToFile name report.logfile
  return UInt32.ofNat report.exit.toNat
