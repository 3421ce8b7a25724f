import SexprAsm.CommandLine

/-!
# The program

Reads the arguments and the files, and runs the session on the terminal.
-/

namespace SexprAsm

/-- The text of a file. -/
def readText (path : String) : IO (Except FileFault String) := do
  try
    let bytes ← IO.FS.readBinFile path
    return (String.fromUTF8? bytes).elim (.error .notText) .ok
  catch
    | .noFileOrDirectory .. => return .error .missing
    | e => return .error (.other (toString e))

/-- Answers one line of input after the other. -/
partial def converse (s : Session) : IO Unit := do
  IO.print (s.prompt ++ "> ")
  (← IO.getStdout).flush
  let line ← (← IO.getStdin).getLine
  if line.isEmpty then return
  let text := String.ofList (line.toList.reverse.dropWhile (· == '\n')).reverse
  let next := s.step (.line text)
  IO.print next.output
  if next.continues then converse next.session

/-- How the program is called. -/
def usage : String :=
  "Usage: [--catalog <CATALOG>] [--no-type-check] [--symbols] [--tree] [--no-color] [FILE]"

/-- Runs with arguments, and returns the error that ends the run. -/
def runWith (a : Arguments) : IO (Option RunError) := do
  let mut files : List (String × Except FileFault String) := []
  for path in a.catalog.toList ++ a.file.toList do
    files := (path, ← readText path) :: files
  let read (path : String) : Except FileFault String := (files.lookup path).getD (.error .missing)
  match CommandLine.loadCatalog read a.catalog with
  | .error e => return some e
  | .ok catalog =>
    match a.file with
    | some path =>
      let (shown, e) := CommandLine.compileFile read a catalog path
      IO.print shown
      return e
    | none =>
      let s := CommandLine.session a catalog
      IO.print s.greeting
      converse s
      return none

/-- Runs with the arguments as they are given, and returns the exit code. -/
def runArguments (arguments : List String) : IO UInt32 := do
  match Arguments.parse arguments with
  | .error .displayHelp =>
    IO.println usage
    return 0
  | .error .displayVersion =>
    IO.println "katana 0.1.0"
    return 0
  | .error _ =>
    IO.eprintln usage
    return 2
  | .ok a =>
    match ← runWith a with
    | none => return 0
    | some e =>
      IO.eprintln (paintIf (!a.has .noColor) ⟨some .red, true⟩ "error:" ++ " " ++ e.message)
      return 1

end SexprAsm

/-- The program. -/
def main (arguments : List String) : IO UInt32 := SexprAsm.runArguments arguments
