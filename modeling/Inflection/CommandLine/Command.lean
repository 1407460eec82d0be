import Inflection.CommandLine.Arguments
import Inflection.Settings

/-! # Commands -/

namespace Inflection

namespace CommandLine

inductive Setting where
  | debug
  | logFile
  | maxSteps
  | paradigms
  | format
  | append
  | quiet
deriving DecidableEq, Repr

/-- How answers are shown. -/
inductive Format where
  | text
  | json
deriving DecidableEq, Repr

def Format.read (t : Text) : Option Format :=
  if t = "text".toList then some .text else if t = "json".toList then some .json else none

inductive Command where
  /-- Generates the forms of glosses, or of one that is asked for if there are none. -/
  | generate (rules : Value) (glosses : List Text) (paradigms : Option Value) (format : Format)
  /-- Lists the glosses that a word can take. -/
  | paradigm (paradigms word pos : Value) (format : Format)
  /-- Generates the forms of all glosses that a word can take. -/
  | inflect (rules paradigms word pos : Value) (format : Format)
  /-- Unfolds a lexicon into a file. -/
  | unfold (rules paradigms input output : Value) (append : Bool)
deriving DecidableEq, Repr

/-- A command, if one is given, and the settings that override the environment. -/
structure Request where
  debug : Bool
  logFile : Option Text
  maxSteps : Option Int
  command : Option Command
deriving DecidableEq, Repr

def helpForm : OptionForm Setting where
  names := ["-h".toList, "--help".toList]
  action := .help

def formatForm : OptionForm Setting where
  names := ["--format".toList]
  action := .value .format fun t => (Format.read t).isSome

/-- What comes before a command. -/
def program : Grammar Setting where
  options := [
    helpForm,
    { names := ["--debug".toList], action := .flag .debug },
    { names := ["--log-file".toList], action := .value .logFile fun _ => true },
    { names := ["--max-match-steps".toList]
      action := .value .maxSteps fun t => t.integer?.isSome }]
  positionals := [.rest]

/-- What comes after each command. -/
def grammar? (command : Text) : Option (Grammar Setting) :=
  if command = "generate".toList then
    some {
      options := [
        helpForm,
        { names := ["-p".toList, "--paradigms".toList], action := .value .paradigms fun _ => true },
        formatForm]
      positionals := [.one, .many] }
  else if command = "paradigm".toList then
    some { options := [helpForm, formatForm], positionals := [.one, .one, .one] }
  else if command = "inflect".toList then
    some { options := [helpForm, formatForm], positionals := [.one, .one, .one, .one] }
  else if command = "unfold".toList then
    some {
      options := [
        helpForm,
        { names := ["--append".toList], action := .flag .append },
        { names := ["-q".toList, "--quiet".toList], action := .flag .quiet }]
      positionals := [.one, .one, .one, .one] }
  else none

namespace Command

/-- The command that some arguments make up. -/
def ofParsed (command : Text) (p : Parsed Setting) : Option Command :=
  let format := ((p.value? .format).join.bind Format.read).getD .text
  match p.positionals with
  | [rules, glosses] =>
    if command = "generate".toList then
      some (.generate rules.head? glosses (p.value? .paradigms) format)
    else none
  | [paradigms, word, pos] =>
    if command = "paradigm".toList then
      some (.paradigm paradigms.head? word.head? pos.head? format)
    else none
  | [rules, paradigms, a, b] =>
    if command = "inflect".toList then
      some (.inflect rules.head? paradigms.head? a.head? b.head? format)
    else if command = "unfold".toList then
      some (.unfold rules.head? paradigms.head? a.head? b.head? (p.isSet .append))
    else none
  | _ => none

/-- Reads a command with its arguments, and the arguments that it does not take. -/
def read (command : Text) (args : List Text) : Except Stop (Command × List Text) :=
  match grammar? command with
  | none => .error .misuse
  | some g => do
    let p ← g.read args
    match ofParsed command p with
    | some c => return (c, p.extras)
    | none => .error .misuse

end Command

namespace Request

/-- Reads all arguments of the program. -/
def read (args : List Text) : Except Stop Request := do
  let p ← program.read args
  let (command, extras) ← match p.positionals with
    | [command :: args] => do
      let (c, extras) ← Command.read command args
      pure (some c, extras)
    | _ => pure (none, [])
  if p.extras ++ extras ≠ [] then .error .misuse
  else
    return {
      debug := p.isSet .debug
      logFile := (p.value? .logFile).join
      maxSteps := (p.value? .maxSteps).join.bind Text.integer?
      command }

/-- The settings of the environment with those of the request over them. An empty name of a log
file and a limit of zero leave what the environment says. -/
def settings (r : Request) (s : Settings) : Settings where
  maxSteps := (r.maxSteps.filter (· ≠ 0)).getD s.maxSteps
  logFile := (r.logFile.filter (· ≠ [])).or s.logFile
  debug := r.debug || s.debug

end Request

end CommandLine

end Inflection
