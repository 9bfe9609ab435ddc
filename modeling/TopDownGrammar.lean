import TopDownGrammar.Analysis
import TopDownGrammar.Derivation
import TopDownGrammar.Factoring
import TopDownGrammar.Grammar.Canonical
import TopDownGrammar.Grammar.Checked
import TopDownGrammar.Grammar.Printer
import TopDownGrammar.Grammar.Reader
import TopDownGrammar.Language.Sentences
import TopDownGrammar.Proofs.AcyclicFactoring
import TopDownGrammar.Proofs.BoundedSentences
import TopDownGrammar.Proofs.CanonicalRules
import TopDownGrammar.Proofs.ConflictPairs
import TopDownGrammar.Proofs.Determinism
import TopDownGrammar.Proofs.DirectFactoring
import TopDownGrammar.Proofs.FactoringLanguage
import TopDownGrammar.Proofs.FactoringProgress
import TopDownGrammar.Proofs.FollowSets
import TopDownGrammar.Proofs.GivenProductions
import TopDownGrammar.Proofs.LanguageSize
import TopDownGrammar.Proofs.LeastFollow
import TopDownGrammar.Proofs.Omissions
import TopDownGrammar.Proofs.ProperStability
import TopDownGrammar.Proofs.PruningStability
import TopDownGrammar.Proofs.StepLocality
import TopDownGrammar.Proofs.SymbolTexts
import TopDownGrammar.Proofs.Transforms
import TopDownGrammar.Proofs.UsefulProductions
