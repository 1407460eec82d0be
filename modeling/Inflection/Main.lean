import Inflection.CommandLine.Run
import Std.Time.Format

/-! # The program

Finds the files that the arguments name, runs the program on them, shows what it answers, and writes
the files that it changed. -/

namespace Inflection

namespace CommandLine

def usage : String :=
  "usage: morphgen [-h] [--debug] [--log-file FILE] [--max-match-steps N] COMMAND ...\n\n" ++
  "  generate RULES [GLOSS ...] [-p PARADIGMS] [--format text|json]\n" ++
  "  paradigm PARADIGMS WORD POS [--format text|json]\n" ++
  "  inflect RULES PARADIGMS WORD POS [--format text|json]\n" ++
  "  unfold RULES PARADIGMS INPUT OUTPUT [--append] [-q]\n"

/-- The paths that a command reads or writes. -/
def Command.paths : Command → List Text
  | .generate rules _ paradigms _ => rules.toList ++ paradigms.join.toList
  | .paradigm paradigms _ _ _ => paradigms.toList
  | .inflect rules paradigms _ _ _ => [rules, paradigms].filterMap id
  | .unfold rules paradigms input output _ => [rules, paradigms, input, output].filterMap id

/-- A place as the disk names it. -/
def diskName (place : List Text) : String := String.ofList ('/' :: ['/'].intercalate place)

/-- What stands at a place on the disk, if anything does. -/
def nodeAt (place : List Text) : IO (Option FileNode) := do
  try
    return some (.file (← IO.FS.readBinFile (diskName place)))
  catch _ =>
    try
      let _ ← IO.FS.realPath (diskName place ++ "/.")
      return some .directory
    catch _ => return none

/-- The places on the way to a path, those behind upward steps included. -/
def placesAlong (here : List Text) (p : Path) : List (List Text) :=
  let start := if p.isAbsolute then [] else here
  let step (places : List (List Text)) (part : Text) : List (List Text) :=
    let place := places.headD start
    (if part = ['.', '.'] then place.dropLast else place ++ [part]) :: places
  p.parts.foldl step [start]

/-- The part of the disk that some paths lead through. -/
def filesAlong (here : List Text) (paths : List Text) : IO FileTree := do
  let places := paths.flatMap fun t =>
    let p := Path.ofText t
    placesAlong here p ++ placesAlong here p.collapse
  let above (place : List Text) := (List.range (place.length + 1)).map place.take
  let mut nodes : Table (List Text) FileNode := []
  for place in (places.flatMap above).eraseDups do
    if let some node ← nodeAt place then nodes := nodes.put place node
  return { nodes, here }

/-- The variables that settings are taken from. -/
def environment : IO (Table Text Text) := do
  let mut values : Table Text Text := []
  for name in ["MORPHGEN_MAX_MATCH_STEPS", "MORPHGEN_LOG_FILE", "MORPHGEN_DEBUG"] do
    if let some value ← IO.getEnv name then values := values.put name.toList value.toList
  return values

def moment : IO Moment := do
  let now ← Std.Time.DateTime.now
  return { time := now.format "uuuu-MM-dd HH:mm:ss", fraction := now.format "SSS" }

/-- Writes the files that differ from what they were. -/
def writeChanges (before after : FileTree) : IO Unit := do
  for (place, node) in after.nodes do
    if let .file bytes := node then
      if before.nodes.get? place ≠ some node then IO.FS.writeBinFile (diskName place) bytes

/-- The surroundings of a run on the given arguments. -/
def surroundings (args : List Text) : IO Surroundings := do
  let environment ← environment
  let request := (Request.read args).toOption
  let command := request.bind Request.command
  let settings := (Settings.ofEnvironment environment).value
  let log := request.bind fun r => (r.settings settings).logFile
  let here := (Path.ofText (toString (← IO.currentDir)).toList).parts
  let files ← filesAlong here ((command.map Command.paths).getD [] ++ log.toList)
  let asks := (command.map Command.asks).getD false
  let input ← if asks then (← IO.getStdin).getLine else pure ""
  return { environment, input := input.toList, files, now := ← moment }

end CommandLine

end Inflection

open Inflection CommandLine in
def main (args : List String) : IO UInt32 := do
  let args := args.map String.toList
  let s ← surroundings args
  let outcome := run s args
  match outcome.shown with
  | .help => IO.print usage
  | .text t => IO.print t
  for e in outcome.errors do IO.eprintln e
  writeChanges s.files outcome.files
  match outcome.ending with
  | .exit code => return code.toUInt32
  | .refused e => do
    IO.eprintln e.message
    return 1
  | .lacking _ => do
    IO.eprintln "an argument has no value"
    return 1
