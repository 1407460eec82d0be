import Inflection.CommandLine.Command
import Inflection.CommandLine.Session
import Inflection.Generator
import Inflection.Text.Quoted

/-! # Runs of the program -/

namespace Inflection

/-! ## Answers, as they are shown -/

namespace CommandLine

/-- The words generated for each gloss, in the order in which the glosses were first given. -/
abbrev Generated := Table Text (List GlossedWord)

/-- How the words that are generated of a gloss are met one after the other. A collection of words
has no order of its own, so it may be any. -/
structure Enumeration where
  list : (gloss : Text) → List GlossedWord → List GlossedWord
  perm : ∀ gloss ws, (list gloss ws).Perm ws

/-- The words as they are kept, from the last to the first. -/
def Enumeration.backward : Enumeration where
  list _ ws := ws.reverse
  perm _ ws := List.reverse_perm ws

namespace Generated

/-- The words of each gloss in the order in which they are met. -/
def enumerated (e : Enumeration) (g : Generated) : Generated :=
  g.map fun (gloss, ws) => (gloss, e.list gloss ws)

/-- The words in the order of their forms. Those of one form stay as they are met. -/
def byForm (ws : List GlossedWord) : List GlossedWord :=
  ws.mergeSort fun v w => Text.precedes v.form w.form

/-- The forms of some words, in order. -/
def forms (ws : List GlossedWord) : List Text := (ws.map GlossedWord.form).mergeSort Text.precedes

/-- Each gloss with its words below it. -/
def lines (g : Generated) : List Text :=
  g.flatMap fun (gloss, ws) =>
    ("generate(" ++ gloss.quoted ++ "):").toList ::
      (byForm ws).map fun w => '\t' :: w.gloss ++ " = ".toList ++ w.form

def structured (g : Generated) : Structured :=
  .record (g.map fun (gloss, ws) => (gloss, .list ((forms ws).map .text)))

/-- The lines that are shown for what was generated. -/
def render (g : Generated) : Format → List Text
  | .text => g.lines
  | .json => [g.structured.write 0]

end Generated

/-- The lines that are shown for some glosses. -/
def renderGlosses (glosses : List Text) : Format → List Text
  | .text => glosses.mergeSort Text.precedes
  | .json => [(Structured.list ((glosses.mergeSort Text.precedes).map .text)).write 0]

/-- The lines that are shown for some words. -/
def renderWords (ws : List GlossedWord) : Format → List Text
  | .text =>
    (ws.mergeSort GlossedWord.precedes).map fun w => w.gloss ++ " = ".toList ++ w.form
  | .json =>
    [(Structured.list ((ws.mergeSort GlossedWord.precedes).map fun w =>
      .record [("gloss".toList, .text w.gloss), ("form".toList, .text w.form)])).write 0]

/-! ## Runs -/

/-- What a run finds around it. -/
structure Surroundings where
  environment : Table Text Text
  /-- What can be read from the console. -/
  input : Text
  files : FileTree
  now : Moment
  /-- It can be seen only where words have one form. -/
  enumeration : Enumeration := .backward

/-- What appears on the console. -/
inductive Shown where
  | help
  | text (t : String)
deriving DecidableEq, Repr

structure Outcome where
  ending : Ending
  shown : Shown := .text ""
  errors : List String := []
  files : FileTree
deriving DecidableEq

/-- The first line of an input, if there is any input. -/
def firstLine? (input : Text) : Option Text :=
  if input.isEmpty then none else some (input.takeWhile (· ≠ '\n'))

/-- The words generated for each of some glosses. A gloss that comes twice is generated twice and
kept once. -/
def generateAll (g : Generator) (glosses : List Text) : Noted Generated :=
  glosses.foldlM (fun t gloss => (t.put gloss ·) <$> g.generate [.ofGloss gloss]) []

namespace Command

/-- Whether a command asks for its gloss on the console. -/
def asks : Command → Bool
  | .generate _ glosses _ _ => glosses.isEmpty
  | _ => false

def performGenerate (input : Text) (e : Enumeration) (budget : Budget) (rules : Value)
    (glosses : List Text) (paradigms : Option Value) (format : Format) : Activity Unit := do
  let g ← Activity.loadGenerator budget rules paradigms
  let glosses ←
    if glosses.isEmpty then do
      Activity.say ["Enter a glossed word:".toList]
      match firstLine? input with
      | none => Activity.fail "no glossed word given"
      | some line => pure [line.trim]
    else pure glosses
  Activity.say (((← Activity.note (generateAll g glosses)).enumerated e).render format)

def performParadigm (paradigms word pos : Value) (format : Format) : Activity Unit := do
  let g := Generator.withInventory [] (← Activity.loadInventory paradigms)
  let pos ← Activity.require .pos pos
  let word ← Activity.word g pos word
  Activity.say (renderGlosses (← Activity.note (g.glosses word pos)) format)

def performInflect (budget : Budget) (rules paradigms word pos : Value) (format : Format) :
    Activity Unit := do
  let g ← Activity.loadGenerator budget rules (some paradigms)
  let pos ← Activity.require .pos pos
  let word ← Activity.word g pos word
  Activity.say (renderWords (← Activity.note (g.inflections word pos)) format)

def performUnfold (budget : Budget) (rules paradigms input output : Value) (append : Bool) :
    Activity Unit := do
  let g ← Activity.loadGenerator budget rules (some paradigms)
  let count ← Activity.unfold g input output append
  let output ← Activity.require .path output
  Activity.say [("✓ Wrote " ++ toString count ++ " forms to ").toList ++ output]

/-- Carries out a command that finds `input` on the console. -/
def perform (input : Text) (e : Enumeration) (budget : Budget) : Command → Activity Unit
  | .generate rules glosses paradigms format =>
    performGenerate input e budget rules glosses paradigms format
  | .paradigm paradigms word pos format => performParadigm paradigms word pos format
  | .inflect rules paradigms word pos format =>
    performInflect budget rules paradigms word pos format
  | .unfold rules paradigms input output append =>
    performUnfold budget rules paradigms input output append

end Command

/-- The place of a log file, if there is to be one. The path to it is taken as it is written, with
upward steps taken back. -/
def logPlace (l : Logging) (files : FileTree) : Except AccessError (Option (List Text)) :=
  match l.file with
  | none => .ok none
  | some name => some <$> files.writable (Path.ofText name).collapse

/-- Performs a command, and logs what happens. -/
def runCommand (s : Surroundings) (settings : Settings) (warnings : List String) (c : Command) :
    Outcome :=
  let logging := Logging.start settings.logFile .warning settings.debug
  match logPlace logging s.files with
  | .error e => { ending := .refused e, errors := warnings, files := s.files }
  | .ok log =>
    let session : Session := { logging, now := s.now, log, files := s.files, errors := warnings }
    let (result, session) := (c.perform s.input s.enumeration settings.budget).run.run
      (session.keep (logging.banner s.now))
    { ending := match result with
        | .ok () => .exit 0
        | .error ending => ending
      shown := .text session.shown
      errors := session.errors
      files := session.files }

/-- Runs the program on its arguments. -/
def run (s : Surroundings) (args : List Text) : Outcome :=
  match Request.read args with
  | .error .help => { ending := .exit 0, shown := .help, files := s.files }
  | .error .misuse => { ending := .exit 2, files := s.files }
  | .ok r =>
    match r.command with
    | none => { ending := .exit 1, shown := .help, files := s.files }
    | some c =>
      let settings := Settings.ofEnvironment s.environment
      let warnings := settings.records.map Record.message
      runCommand s (r.settings settings.value) warnings c

end CommandLine

end Inflection
