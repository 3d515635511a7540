import RouteScript.CommandLine

/-!
# The program

Copies the part of the disk that the arguments name into a value, runs the command and prints the
result.
-/

namespace RouteScript.Main

/-- The disk with the file or directory under a real path copied to `path`.  Of the files in a
directory only the scripts are read.  What cannot be read, and directories deeper than `depth`,
are left out. -/
def copy (disk : Disk) (path : Path) (isNamed : Bool) : (depth : Nat) → IO Disk
  | 0 => return disk
  | depth + 1 => do
    let .ok real ← (IO.FS.realPath path.toString).toBaseIO | return disk
    if ← real.isDir then
      let mut disk := disk.write path .directory
      let .ok entries ← real.readDir.toBaseIO | return disk
      for entry in entries do
        disk ← copy disk (path.join (.ofString entry.fileName)) false depth
      return disk
    else if isNamed || path.isScript then
      let .ok content ← (IO.FS.readBinFile real).toBaseIO | return disk
      return disk.write path (.file content.toList)
    else return disk.write path (.file [])

/-- The paths that a command reads. -/
def paths : Command → List Path
  | .check config paths => config.toList ++ paths
  | .list file => [file]
  | .help => []

/-- The disk as far as the command reads it. -/
def disk (command : Command) : IO Disk := do
  let current := Path.ofString (← IO.currentDir).toString
  let mut disk : Disk := { Disk.empty with current := Disk.empty.placeOf current }
  disk := disk.write current .directory
  for path in paths command do
    disk ← copy disk path true 128
  return disk

end RouteScript.Main

open RouteScript in
/-- Runs the command that the arguments ask for. -/
def main (arguments : List String) : IO UInt32 := do
  let disk ← match Command.ofArguments? arguments with
    | some command => RouteScript.Main.disk command
    | none => pure Disk.empty
  let result := runArguments disk arguments
  IO.print result.output
  if let some error := result.error then IO.eprintln error
  return UInt32.ofNat result.status
