import Inflection.CommandLine.Grammar

/-! # Reading arguments

Positional arguments take what stands before an option, and in the end what is left. Short options
may be run together. -/

namespace Inflection

namespace CommandLine

variable {σ : Type}

/-- The value that is given for an argument. There is none where nothing but the dashes that end
the options stands in its place. -/
abbrev Value := Option Text

namespace Value

/-- The value that a text attached to an option gives. -/
def ofAttached (t : Text) : Value := if t = ['-', '-'] then none else some t

end Value

namespace Arity

/-- The tokens that a positional argument takes at the start of some, and those it leaves. -/
def take? (ts : List (Token σ)) : Arity → Option (List (Token σ) × List (Token σ))
  | .many => some (ts.span fun t => !t.isOption)
  | a =>
    let (before, ts) := ts.span Token.isSeparator
    match ts with
    | .argument t :: ts =>
      let (after, ts) := if a = .rest then (ts, []) else ts.span Token.isSeparator
      some (before ++ .argument t :: after, ts)
    | _ => none

/-- What some positional arguments take, one after the other. -/
def takeAll? : List Arity → List (Token σ) → Option (List (List (Token σ)) × List (Token σ))
  | [], ts => some ([], ts)
  | a :: as, ts => do
    let (taken, ts) ← a.take? ts
    let (more, ts) ← takeAll? as ts
    return (taken :: more, ts)

/-- What as many positional arguments as possible take, and those that take nothing. -/
def takeMost (as : List Arity) (ts : List (Token σ)) :
    List (List (Token σ)) × List Arity × List (Token σ) :=
  go as.length
where
  go : Nat → List (List (Token σ)) × List Arity × List (Token σ)
    | 0 => ([], as, ts)
    | n + 1 =>
      match takeAll? (as.take (n + 1)) ts with
      | some (taken, ts) => (taken, as.drop (n + 1), ts)
      | none => go n

/-- The values of a positional argument: the tokens it takes without the dashes that end the
options. One that takes nothing else has no value. -/
def values (a : Arity) (taken : List (Token σ)) : List Text :=
  let written := taken.map Token.written
  if a = .rest then written else written.erase ['-', '-']

end Arity

/-- What has been read. -/
structure Parsed (σ : Type) where
  /-- The options that set something, in order, with their values; a flag has none. -/
  settings : List (σ × Value) := []
  positionals : List (List Text) := []
  /-- The arguments that no option and no positional argument takes. -/
  extras : List Text := []

namespace Parsed

/-- Carries out the action of an option. No value is as acceptable as an acceptable one. -/
def act (p : Parsed σ) : Action σ × Value → Except Stop (Parsed σ)
  | (.help, _) => .error .help
  | (.flag setting, v) => .ok { p with settings := p.settings ++ [(setting, v)] }
  | (.value setting accepts, v) =>
    if v.all accepts then .ok { p with settings := p.settings ++ [(setting, v)] }
    else .error .misuse

/-- The last value of a setting, if it is set. -/
def value? [DecidableEq σ] (p : Parsed σ) (s : σ) : Option Value :=
  (p.settings.reverse.find? (·.1 = s)).map Prod.snd

def isSet [DecidableEq σ] (p : Parsed σ) (s : σ) : Bool := (p.value? s).isSome

end Parsed

/-- What an option comes to: actions, and how many of the tokens after it belong to it. -/
structure Reading (σ : Type) where
  actions : List (Action σ × Value)
  taken : Nat := 0

namespace Grammar

/-- Reads an option with nothing attached to it; its value is the next argument. -/
def detached (action : Action σ) (next : Option (Token σ)) : Except Stop (Reading σ) :=
  match action, next with
  | .value s accepts, some (.argument t) =>
    .ok { actions := [(.value s accepts, some t)], taken := 1 }
  | .value .., _ => .error .misuse
  | action, _ => .ok { actions := [(action, none)] }

/-- Reads an option with a text attached to it: its value, or, after a short flag, the letters of
more short options, of which the last may have a value. -/
def attached (g : Grammar σ) (short : Bool) (next : Option (Token σ)) (action : Action σ) :
    Text → Except Stop (Reading σ)
  | [] =>
    match action with
    | .value s accepts => .ok { actions := [(.value s accepts, some [])] }
    | _ => .error .misuse
  | c :: t =>
    match action with
    | .value s accepts => .ok { actions := [(.value s accepts, Value.ofAttached (c :: t))] }
    | flag =>
      if short then
        match g.action? ['-', c] with
        | none => .error .misuse
        | some action => do
          let r ← if t.isEmpty then detached action next else g.attached true next action t
          return { r with actions := (flag, none) :: r.actions }
      else .error .misuse

/-- Reads an option that was met before some tokens. -/
def readOccurrence (g : Grammar σ) (o : Occurrence σ) (next : Option (Token σ)) :
    Except Stop (Reading σ) :=
  match o.attached with
  | none => detached o.action next
  | some t => g.attached o.isShort next o.action t

/-- Adds the values of some positional arguments. -/
def addPositionals (p : Parsed σ) (as : List Arity) (taken : List (List (Token σ))) : Parsed σ :=
  { p with positionals := p.positionals ++ (as.zip taken).map fun (a, ts) => a.values ts }

/-- Reads tokens that hold no option. What the positional arguments do not take is nobody's. -/
def readLast (p : Parsed σ) (as : List Arity) (ts : List (Token σ)) : Parsed σ × List Arity :=
  let (taken, missing, left) := Arity.takeMost as ts
  let p := addPositionals p as taken
  ({ p with extras := p.extras ++ left.map Token.written }, missing)

/-- Reads tokens, with the positional arguments that are still to come, and answers which of them
are missing. Before each option they take what they can, for as long as they take something. -/
def readTokens (g : Grammar σ) (p : Parsed σ) (as : List Arity) :
    List (Token σ) → Except Stop (Parsed σ × List Arity)
  | .option _ o :: ts => do
    let r ← g.readOccurrence o ts.head?
    let p ← r.actions.foldlM Parsed.act p
    g.readTokens p as (ts.drop r.taken)
  | .unknown t :: ts => g.readTokens { p with extras := p.extras ++ [t] } as ts
  | [] => .ok (readLast p as [])
  | t :: ts =>
    if ts.all (!·.isOption) then .ok (readLast p as (t :: ts))
    else
      let (taken, missing, left) := Arity.takeMost as (t :: ts)
      let p := addPositionals p as taken
      if left.length ≤ ts.length then g.readTokens p missing left
      else
        let before := t :: ts.takeWhile (!·.isOption)
        g.readTokens { p with extras := p.extras ++ before.map Token.written } missing
          (ts.dropWhile (!·.isOption))
termination_by ts => ts.length
decreasing_by
  · simp only [List.length_cons, List.length_drop]; omega
  · exact Nat.lt_succ_self _
  · simp only [List.length_cons]; omega
  · exact Nat.lt_succ_of_le (List.dropWhile_sublist _).length_le

/-- Reads arguments. All positional arguments but a command have to be there. -/
def read (g : Grammar σ) (args : List Text) : Except Stop (Parsed σ) := do
  let (p, missing) ← g.readTokens {} g.positionals (← g.tokens args)
  if missing.any (· ≠ .rest) then .error .misuse else .ok p

end Grammar

end CommandLine

end Inflection
