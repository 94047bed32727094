import JavaFormat.Command.Markup
import JavaFormat.Syntax.TreeFile

/-!
# The program

Reads the files that there are, does what the arguments ask for and writes back
what has changed. The trees of the sources come from the file that the environment
variable `JAVA_LAYOUT_TREES` names; the sources that this file speaks of and those
that the arguments name are the files that there are.
-/

namespace JavaFormat.Main

/-- The environment variables that options are taken from. -/
def variableNames : List String := [Field.printWidth, .tabWidth, .tieBreak].map Field.environmentName

/-- The values of these variables. -/
def readEnvironment : IO (String → Option String) := do
  let values ← variableNames.mapM fun name => do return (name, ← IO.getEnv name)
  return fun name => (values.find? (·.1 == name)).bind (·.2)

/-- The location that a path leads to from a directory, if its double dots are
taken at their word. -/
def locate (here : Location) (p : Path) : Location :=
  p.parts.foldl (fun l part => if part = ".." then l.dropLast else l ++ [part])
    (if p.absolute then [] else here)

/-- The text of the path of a location. -/
def pathOf (l : Location) : String := "/" ++ String.intercalate "/" l

/-- The file at a location, if there is one. -/
def load? (l : Location) : IO (Option File) := do
  let writable ← (IO.FS.Handle.mk (pathOf l) .readWrite).toBaseIO
  match ← (IO.FS.readBinFile (pathOf l)).toBaseIO with
  | .ok bytes => return some { bytes := bytes.toList, writable := writable.toOption.isSome }
  | .error (.permissionDenied ..) =>
    return some { readable := false, writable := writable.toOption.isSome }
  | .error _ => return none

/-- The paths that a request names. -/
def pathsOf : Command.Request → List Path
  | .format paths _ _ => paths
  | .check paths _ => paths
  | .doc path _ _ => [path]

/-- Write the files whose contents have changed. -/
def writeBack (before after : Store) : IO Unit := do
  for (l, i) in after.names do
    if (before.file i).bytes != (after.file i).bytes then
      IO.FS.writeBinFile (pathOf l) ⟨(after.file i).bytes.toArray⟩

/-- The contents of the file of trees. -/
def readTrees : IO String := do
  match ← IO.getEnv "JAVA_LAYOUT_TREES" with
  | some name => IO.FS.readFile name
  | none => return ""

/-- What is said if the arguments are in error. -/
def usage : String := "Usage: javaformat (format | check | doc) [OPTIONS] PATHS...\n"

/-- Do what a request says. -/
def perform (request : Command.Request) : IO UInt32 := do
  let trees ← readTrees
  let here := (Path.ofString ((← IO.getEnv "PWD").getD "/")).parts
  let paths := pathsOf request ++ (TreeFile.paths trees).map Path.ofString
  let files ← (paths.map (locate here)).eraseDups.filterMapM fun l => do
    return (← load? l).map (l, ·)
  let store := Store.ofFiles files here
  let formatter := Formatter.ofGrammar (TreeFile.grammar trees)
  let validate (settings : Settings) := settings.toOptions.toOption
  let environment ← readEnvironment
  match Command.perform Command.Markup.console validate formatter environment store request with
  | .usage =>
    IO.eprint usage
    return 2
  | .ended o =>
    writeBack store o.store
    IO.print o.stdout
    IO.eprint o.stderr
    match o.escaped with
    | some e => IO.eprintln e.message
    | none => pure ()
    return UInt32.ofNat o.exitCode

end JavaFormat.Main

/-- The program. -/
def main (arguments : List String) : IO UInt32 := do
  match JavaFormat.Command.Request.ofArguments? arguments with
  | some request => JavaFormat.Main.perform request
  | none =>
    IO.eprint JavaFormat.Main.usage
    return 2
