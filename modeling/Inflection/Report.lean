import Inflection.Pattern.Search
import Inflection.Text.Quoted

/-! # Reports: what is wrong, and where

A problem in a rule, a paradigm or a word does not stop the work: it is reported, and the faulty
part is left out. -/

namespace Inflection

/-- The kinds by which problems are told apart. -/
inductive Kind where
  | general
  | malformed
  | unbound
  | unknownPartOfSpeech
  | limitExceeded
  | unreadable
deriving DecidableEq, Repr

def Kind.label : Kind → String
  | .general => "MorphGenError"
  | .malformed => "MalformedRuleSyntax"
  | .unbound => "UnboundVariableReference"
  | .unknownPartOfSpeech => "UnknownPartOfSpeech"
  | .limitExceeded => "MatchLimitExceeded"
  | .unreadable => "ResourceLoadError"

inductive Problem where
  /-- A bracket opens a slot and none closes it. -/
  | unclosedSlot (rest : Text)
  | emptySlot (position : Nat)
  | unknownGroup (name : Text)
  | malformedDefinition (line : Text)
  | malformedRule (line : Text)
  | malformedParadigm (line : Text)
  /-- A bracket opens a group of affixes and none closes it. -/
  | unclosedGroup (expression : Text)
  /-- A template refers to a name that its pattern does not bind. -/
  | unbound (name : Text)
  /-- A template refers to a name that the match has not bound. -/
  | missing (name : Text)
  | unknownPartOfSpeech (pos : Text)
  | exhausted (limit : Limit)
  /-- A problem in the caller's own words. -/
  | other (kind : Kind) (message : Text)
deriving DecidableEq, Repr

namespace Problem

def kind : Problem → Kind
  | .unclosedSlot _ | .emptySlot _ | .unknownGroup _ | .malformedDefinition _ | .malformedRule _
  | .malformedParadigm _ | .unclosedGroup _ => .malformed
  | .unbound _ | .missing _ => .unbound
  | .unknownPartOfSpeech _ => .unknownPartOfSpeech
  | .exhausted _ => .limitExceeded
  | .other k _ => k

def message : Problem → String
  | .unclosedSlot rest => "No closing bracket for variable " ++ rest.quoted
  | .emptySlot position => "Empty variable at position " ++ toString position
  | .unknownGroup name => "Couldn't find group " ++ String.ofList name
  | .malformedDefinition line => "Unknown group definition format: " ++ line.quoted
  | .malformedRule line => "Unknown rule format: " ++ line.quoted
  | .malformedParadigm line => "Wrong paradigm format: " ++ line.quoted
  | .unclosedGroup expression => "No closing bracket in " ++ expression.quoted
  | .unbound name => "Variable " ++ String.ofList name ++ " is not bound by the pattern"
  | .missing name => "Couldn't find variable " ++ String.ofList name
  | .unknownPartOfSpeech pos => "Unknown POS: " ++ String.ofList pos
  | .exhausted limit => limit.message
  | .other _ message => String.ofList message

end Problem

/-- A problem and the rule or word it was met in; an empty source is not shown. -/
structure Report where
  problem : Problem
  source : Text := []
deriving DecidableEq, Repr

namespace Report

def kind (r : Report) : Kind := r.problem.kind

def message (r : Report) : String :=
  r.kind.label ++
    (if r.source.isEmpty then "" else " in " ++ String.ofList r.source) ++ ": " ++ r.problem.message

end Report

end Inflection
