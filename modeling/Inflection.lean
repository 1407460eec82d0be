import Inflection.Main
import Inflection.Pattern.Round
import Inflection.Showcase
import Inflection.Proofs.Affix.Denotation
import Inflection.Proofs.Pattern.BudgetLaw
import Inflection.Proofs.Pattern.FirstDerivation
import Inflection.Proofs.Rule.Surroundings
import Inflection.Proofs.Affix.Cores
import Inflection.Proofs.Gloss.Found
import Inflection.Proofs.Paradigm.Unrealized
import Inflection.Proofs.Rule.Wrapped
import Inflection.Proofs.Pattern.Typed
import Inflection.Proofs.Rule.Applied
import Inflection.Proofs.Rule.Typing
import Inflection.Proofs.Rule.Unbroken
import Inflection.Proofs.Generator.Unbroken
import Inflection.Proofs.File.Written
import Inflection.Proofs.Lexicon.Resumed
import Inflection.Proofs.Pattern.Written
import Inflection.Proofs.Generator.Runs
import Inflection.Proofs.Rule.Fitting
import Inflection.Proofs.Pattern.Frame
import Inflection.Proofs.Rule.Checked
import Inflection.Proofs.Rule.Listed
import Inflection.Proofs.Lexicon.Decoded
import Inflection.Proofs.Lexicon.Outcome
import Inflection.Proofs.Pattern.Rendered
import Inflection.Proofs.Pattern.Transparent
import Inflection.Proofs.Rule.Composed
import Inflection.Proofs.Pattern.Depth
import Inflection.Proofs.Gloss.Replayed
import Inflection.Proofs.Rule.Enclosed
import Inflection.Proofs.Rule.Substituting
import Inflection.Proofs.Paradigm.Inflected
import Inflection.Proofs.Affix.Partners
import Inflection.Proofs.Affix.Reported
import Inflection.Proofs.Lexicon.Divided
import Inflection.Proofs.Affix.Parts
import Inflection.Proofs.Template.Written
import Inflection.Proofs.CommandLine.Enumerated
