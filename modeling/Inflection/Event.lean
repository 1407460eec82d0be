import Inflection.Report

/-! # Events and the records they leave in a log -/

namespace Inflection

inductive Level where
  /-- No level: as a threshold it lets every record pass, and a record of it never passes. -/
  | unset
  | debug
  | info
  | warning
  | error
  | critical
deriving DecidableEq, Repr

namespace Level

def label : Level → String
  | .unset => "NOTSET"
  | .debug => "DEBUG"
  | .info => "INFO"
  | .warning => "WARNING"
  | .error => "ERROR"
  | .critical => "CRITICAL"

def rank : Level → Nat
  | .unset => 0
  | .debug => 10
  | .info => 20
  | .warning => 30
  | .error => 40
  | .critical => 50

end Level

/-- The part of the program that a record comes from. -/
inductive Channel where
  | root
  | program
  | area (name : String)
deriving DecidableEq, Repr

namespace Channel

def label : Channel → String
  | .root => "root"
  | .program => "morphgen"
  | .area name => "morphgen." ++ name

end Channel

/-- One entry of a log. -/
structure Record where
  channel : Channel
  level : Level
  message : String
deriving DecidableEq, Repr

namespace Record

/-- The longest value shown in full. -/
def maxShown : Nat := 200

/-- A long value is cut, and the cut is marked. -/
def shorten (value : String) : String :=
  if maxShown < value.length then String.ofList (value.toList.take maxShown) ++ "..." else value

/-- A message, and below it, for those who follow the details, what it is about. There is nothing
below a message of no level. -/
def withContext (channel : Channel) (level : Level) (message : String)
    (context : List (String × String)) : List Record :=
  let context := if level = .unset then [] else context
  ⟨channel, level, message⟩ ::
    context.map fun (key, value) => ⟨channel, .debug, "  └─ " ++ key ++ ": " ++ shorten value⟩

/-- Whether a record is at least as grave as a threshold asks. -/
def passes (threshold : Level) (r : Record) : Bool :=
  r.level ≠ .unset && threshold.rank ≤ r.level.rank

end Record

/-- Something that happened, in its own terms. -/
inductive Event where
  | reported (report : Report)
  | patternRead (source : Text) (places : Nat)
  | ruleMatched (rule form : Text) (bindings : Bindings) (markers : Text) (outputs : List Text)
  | rulesOpened (path : Text)
  | rulesRead (rules groups : Nat)
  | paradigmsOpened (path : Text)
  | paradigmsRead (paradigms tokens : Nat)
  | generated (realized candidates : Nat)
  | malformedEntry (line : Text)
  | knownForm (headword : Text)
  | headwordMissing (headword gloss : Text)
  /-- A line was passed on to a file. -/
  | lineWritten (line : Text)
  | formsWritten (count : Nat) (path : Text)
  | unreadableLimit (value : Text)
deriving DecidableEq, Repr

namespace Event

def report? : Event → Option Report
  | .reported r => some r
  | _ => none

/-- What an event leaves in a log. -/
def records : Event → List Record
  | .reported r => [⟨.area "diagnostics", .warning, r.message⟩]
  | .patternRead source places =>
    [⟨.area "compiler", .debug,
      "Compiled " ++ source.quoted ++ " into " ++ toString places ++ " nodes"⟩]
  | .ruleMatched rule form bindings markers outputs =>
    Record.withContext .program .debug ("Rule " ++ rule.quoted ++ " matched " ++ form.quoted)
      [("bindings", Text.quotedPairs bindings), ("markers", String.ofList markers),
        ("outputs", Text.quotedTuple outputs)]
  | .rulesOpened path => [⟨.area "loader", .info, "Loading rules from " ++ String.ofList path⟩]
  | .rulesRead rules groups =>
    [⟨.area "loader", .info,
      "Compiled " ++ toString rules ++ " rules (" ++ toString groups ++ " groups)"⟩]
  | .paradigmsOpened path =>
    [⟨.area "loader", .info, "Loading paradigms from " ++ String.ofList path⟩]
  | .paradigmsRead paradigms tokens =>
    [⟨.area "loader", .info,
      "Compiled " ++ toString paradigms ++ " paradigms (" ++ toString tokens ++ " gloss tokens)"⟩]
  | .generated realized candidates =>
    [⟨.area "generator", .debug,
      "Generated " ++ toString realized ++ " of " ++ toString candidates ++ " candidates"⟩]
  | .malformedEntry line =>
    [⟨.area "vocabulary", .warning, "Skipping malformed vocabulary line: " ++ line.quoted⟩]
  | .knownForm headword =>
    [⟨.area "vocabulary", .info, "Entry exists as inflected form: " ++ String.ofList headword⟩]
  | .headwordMissing headword gloss =>
    [⟨.area "vocabulary", .warning,
      "Lemma " ++ headword.quoted ++ " not found in gloss " ++ gloss.quoted⟩]
  | .lineWritten _ => []
  | .formsWritten count path =>
    [⟨.area "vocabulary", .info,
      "Wrote " ++ toString count ++ " forms to " ++ String.ofList path⟩]
  | .unreadableLimit value =>
    [⟨.area "config", .warning, "Ignoring non-integer MORPHGEN_MAX_MATCH_STEPS=" ++ value.quoted⟩]

end Event

end Inflection
