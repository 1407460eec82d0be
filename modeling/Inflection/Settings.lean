import Inflection.Event
import Inflection.Noted
import Inflection.Text.Basic

/-! # Settings and logs

Settings come from the environment. Records go to the console, and to a file as well if there is
one; each takes a line that begins with the time. -/

namespace Inflection

/-! ## Settings from the environment -/

structure Settings where
  maxSteps : Int := ({} : Budget).maxSteps
  logFile : Option Text := none
  debug : Bool := false
deriving DecidableEq, Repr

namespace Settings

/-- Whether a value turns something on; letter case and surrounding white space do not count. -/
def isOn (value : Text) : Bool :=
  ["1".toList, "true".toList, "yes".toList, "on".toList].contains (value.trim.map Char.toLower)

/-- The value of a variable that is set to more than nothing. -/
def value? (environment : Table Text Text) (name : String) : Option Text :=
  (environment.get? name.toList).filter (· ≠ [])

/-- The step limit that is set, if it is an integer. -/
def maxStepsOf (environment : Table Text Text) : Noted Int :=
  match value? environment "MORPHGEN_MAX_MATCH_STEPS" with
  | none => pure ({} : Settings).maxSteps
  | some value =>
    match value.integer? with
    | some n => pure n
    | none => do
      Noted.note (.unreadableLimit value)
      return ({} : Settings).maxSteps

def ofEnvironment (environment : Table Text Text) : Noted Settings := do
  let maxSteps ← maxStepsOf environment
  return {
    maxSteps
    logFile := value? environment "MORPHGEN_LOG_FILE"
    debug := (value? environment "MORPHGEN_DEBUG").any isOn }

def budget (s : Settings) : Budget := { maxSteps := s.maxSteps }

end Settings

/-! ## Logs -/

/-- Where records go, and which. -/
structure Logging where
  file : Option Text
  level : Level
  /-- Whether a line also names the part of the program that it comes from. -/
  detailed : Bool
deriving DecidableEq, Repr

/-- A moment, to the second and to the fraction of one. -/
structure Moment where
  time : String
  fraction : String

namespace Logging

/-- Debugging sets its own level and shows details; an empty name is no file. -/
def start (file : Option Text) (level : Level) (debug : Bool) : Logging where
  file := file.filter (· ≠ [])
  level := if debug then .debug else level
  detailed := debug

/-- The line of a record. -/
def line (l : Logging) (now : Moment) (r : Record) : String :=
  now.time ++ "," ++ now.fraction ++ " - " ++
    (if l.detailed then r.channel.label ++ " - " else "") ++ r.level.label ++ " - " ++ r.message

/-- The records that set off a run from those before it in the same file. -/
def banner (l : Logging) (now : Moment) : List Record :=
  let rule := String.ofList (List.replicate 80 '=')
  let messages :=
    [rule, "NEW RUN STARTED - " ++ now.time] ++
      (if l.detailed then ["DEBUG MODE ENABLED - Verbose logging active"] else []) ++ [rule]
  if l.file.isSome then messages.map fun message => ⟨.root, .info, message⟩ else []

/-- The records that are kept. -/
def keep (l : Logging) (records : List Record) : List Record := records.filter (·.passes l.level)

/-- The text of the records that are kept. -/
def text (l : Logging) (now : Moment) (records : List Record) : String :=
  String.join ((l.keep records).map fun r => l.line now r ++ "\n")

end Logging

end Inflection
