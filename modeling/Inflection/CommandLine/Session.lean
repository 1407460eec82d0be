import Inflection.CommandLine.Arguments
import Inflection.File.Tree
import Inflection.Generator
import Inflection.Lexicon
import Inflection.Settings

/-! # Sessions: commands under way

A record goes to the log file as soon as something is noted. So where the log file is one of the
files that a command reads, the command finds in it what has been noted before. -/

namespace Inflection

namespace CommandLine

/-- A value that a command cannot do without. -/
inductive Need where
  | path
  | pos
deriving DecidableEq, Repr

/-- How a run ends. -/
inductive Ending where
  | exit (code : Nat)
  /-- A file could not be opened for writing. -/
  | refused (error : AccessError)
  /-- An argument was given that has no value. -/
  | lacking (need : Need)
deriving DecidableEq, Repr

/-- What a command has done so far. -/
structure Session where
  logging : Logging
  now : Moment
  /-- The place of the log file, if there is one. -/
  log : Option (List Text)
  files : FileTree
  /-- What has appeared on the console. -/
  shown : String := ""
  errors : List String := []

namespace Session

/-- The session with some records in the log. -/
def keep (s : Session) (rs : List Record) : Session :=
  let text := s.logging.text s.now rs
  { s with
    shown := s.shown ++ text
    files := match s.log with
      | none => s.files
      | some place => s.files.append place text.toList }

/-- The session after some events. -/
def note (s : Session) (es : List Event) : Session := s.keep (es.flatMap Event.records)

def say (s : Session) (line : Text) : Session :=
  { s with shown := s.shown ++ String.ofList line ++ "\n" }

/-- One event while a file is written. The file is complete before the count of its forms is
noted. -/
def noteWriting : Writer × Session → Event → Writer × Session
  | (w, s), .lineWritten line =>
    let (w, files) := w.write s.files (line ++ ['\n'])
    (w, { s with files })
  | (w, s), .formsWritten count path =>
    let (w, files) := w.finish s.files
    (w, { s with files }.note [.formsWritten count path])
  | (w, s), e => (w, s.note [e])

/-- The session after a file has been written in the course of some events. -/
def noteFile (s : Session) (place : List Text) (es : List Event) : Session :=
  let (w, files) := Writer.start place s.files
  (es.foldl noteWriting (w, { s with files })).2

end Session

/-- Something that a command does, which may end the run. -/
abbrev Activity := ExceptT Ending (StateM Session)

namespace Activity

def note {α : Type} (x : Noted α) : Activity α := do
  modify (·.note x.events)
  return x.value

def say (lines : List Text) : Activity Unit := lines.forM fun line => modify (·.say line)

def fail {α : Type} (message : String) : Activity α := do
  modify fun s => { s with errors := s.errors ++ ["ERROR: " ++ message] }
  throw (.exit 1)

/-- Ends the run because a file cannot be read. -/
def failReading {α : Type} (e : ReadError) : Activity α :=
  match e.impossible? with
  | some error => throw (.refused error)
  | none => fail e.message

/-- The value of an argument that has to have one. -/
def require (need : Need) : Value → Activity Text
  | some t => return t
  | none => throw (.lacking need)

/-- Loads something from the files as they are once the loading has been noted. -/
def load {α : Type} (opened : Event) (x : FileTree → Noted (Except ReadError α)) :
    Activity α := do
  match ← note (x ((← get).note [opened]).files) with
  | .error e => failReading e
  | .ok a => return a

def loadRules (budget : Budget) (path : Value) : Activity (List Rule) := do
  let path ← require .path path
  load (.rulesOpened path) (Rule.load · budget path)

def loadInventory (path : Value) : Activity Inventory := do
  let path ← require .path path
  load (.paradigmsOpened path) (Inventory.load · path)

/-- The generator with rules from one file, and paradigms from another if there is one. -/
def loadGenerator (budget : Budget) (rules : Value) (paradigms : Option Value) :
    Activity Generator := do
  let rules ← loadRules budget rules
  match paradigms with
  | none => return { rules }
  | some path => return .withInventory rules (← loadInventory path)

/-- A word as the glosses show it. In place of a word that is not given they show an empty pair of
brackets; without a paradigm it has no gloss. -/
def word (g : Generator) (pos : Text) : Value → Activity Text
  | some word => return word
  | none => do
    if (g.paradigms.get? pos).isNone then
      note (Noted.report (.unknownPartOfSpeech pos))
      throw (.lacking .pos)
    return "[]".toList

/-- Ends the run because a lexicon cannot be unfolded. -/
def failUnfolding {α : Type} : Lexicon.Failure → Activity α
  | .unreadable e => failReading e
  | .unwritable e => throw (.refused e)

/-- Unfolds a lexicon, and counts the forms. What is to be kept is read before anything else. -/
def unfold (g : Generator) (input output : Value) (append : Bool) : Activity Nat := do
  let output := Path.ofText (← require .path output)
  let files := (← get).files
  if let .error e := Lexicon.previousLines files output append then failUnfolding e
  let input := Path.ofText (← require .path input)
  let x := Lexicon.unfold g files input output append
  match x.value.1, files.writable output with
  | .error e, _ => failUnfolding e
  | .ok _, .error e => throw (.refused e)
  | .ok count, .ok place => do
    modify (·.noteFile place x.events)
    return count

end Activity

end CommandLine

end Inflection
