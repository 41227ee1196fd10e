import SelectionModel.CommandLine.Run

/-!
# The command line

Hands the arguments, the environment and the files they name to the program,
and prints and writes what it answers.
-/

namespace SelectionModel.CommandLine

/-- Loads the entry at a place below a base directory. -/
partial def loadTree (base : String) : IO FileTree := do
  let place := (← IO.currentDir) / base
  if ← place.isDir then
    let names := (← place.readDir).toList.map fun e => e.fileName
    let entries ← names.mapM fun name => do
      return (name, ← loadTree (base ++ "/" ++ name))
    return .directory (Entries.sort entries)
  else return .file (← IO.FS.readBinFile place).toList

/-- Loads the entry that a path names, if there is one. -/
def loadEntry (path : String) : IO (String × Except PathFault FileTree) := do
  let place := (← IO.currentDir) / path
  if path.isEmpty then return (path, .error .notFound)
  else if ← place.pathExists then return (path, .ok (← loadTree path))
  else return (path, .error .notFound)

/-- The paths that arguments name. -/
def namedPaths (arguments : List String) : List String :=
  match parseArguments arguments with
  | .ok ⟨_, _, some b⟩ => b.schemas ++ b.paths
  | _ => []

/-- Writes a file, and says what went wrong if something did. -/
def writeOutput (file : OutputFile) : IO (Option String) := do
  try
    IO.FS.writeFile ((← IO.currentDir) / file.path) file.text
    return none
  catch e => return some (toString e)

/-- Runs the program. The exit code is 2 when the arguments are not understood. -/
def execute (arguments : List String) : IO UInt32 := do
  let entries ← (namedPaths arguments).mapM loadEntry
  let find : Files := fun path => (entries.lookup path).getD (.error .notFound)
  match run find arguments (← IO.getEnv "LOG_LEVEL") with
  | .error .help =>
    IO.println usage
    return 0
  | .error e =>
    IO.eprintln ("error: " ++ e.message ++ "\n\n" ++ usage)
    return 2
  | .ok report =>
    let report ← match report.output with
      | some file => pure (report.finish file (← writeOutput file))
      | none => pure report
    for line in report.log do
      IO.eprintln (line.level.word ++ " " ++ line.shown)
    if let some text := report.printed then IO.println text
    if let some line := report.status then IO.eprintln line
    return if report.succeeded then 0 else 1

end SelectionModel.CommandLine

/-- The program. -/
def main (arguments : List String) : IO UInt32 := SelectionModel.CommandLine.execute arguments
