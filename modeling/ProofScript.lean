import ProofScript.Analysis
import ProofScript.CommandLine
import ProofScript.Comparison
import ProofScript.Directory
import ProofScript.Equality
import ProofScript.Error
import ProofScript.Expr.Basic
import ProofScript.Expr.Chain
import ProofScript.Expr.Parser
import ProofScript.Expr.Printer
import ProofScript.Instantiation
import ProofScript.Knowledge
import ProofScript.Main
import ProofScript.Name
import ProofScript.NameMap
import ProofScript.Operator
import ProofScript.Proofs.Admissions
import ProofScript.Proofs.Agreement
import ProofScript.Proofs.AlphaEquivalence
import ProofScript.Proofs.AnalysisSound
import ProofScript.Proofs.CaptureAvoidance
import ProofScript.Proofs.Checking
import ProofScript.Proofs.Citations
import ProofScript.Proofs.Contradictions
import ProofScript.Proofs.CursorWalks
import ProofScript.Proofs.EquationGraph
import ProofScript.Proofs.Equivariance
import ProofScript.Proofs.EscapedNames
import ProofScript.Proofs.Executions
import ProofScript.Proofs.Expansion
import ProofScript.Proofs.FactSets
import ProofScript.Proofs.FreeNames
import ProofScript.Proofs.Hygiene
import ProofScript.Proofs.InstanceNames
import ProofScript.Proofs.Instances
import ProofScript.Proofs.Interpretation
import ProofScript.Proofs.KnownFacts
import ProofScript.Proofs.Layout
import ProofScript.Proofs.LeastCongruence
import ProofScript.Proofs.Lexemes
import ProofScript.Proofs.ListedFacts
import ProofScript.Proofs.MisplacedObjects
import ProofScript.Proofs.MoreFacts
import ProofScript.Proofs.Nameless
import ProofScript.Proofs.NamesInScope
import ProofScript.Proofs.ObjectNames
import ProofScript.Proofs.OperatorTrees
import ProofScript.Proofs.ParsedNames
import ProofScript.Proofs.Prenex
import ProofScript.Proofs.ProofSteps
import ProofScript.Proofs.Reading
import ProofScript.Proofs.RecordedFacts
import ProofScript.Proofs.References
import ProofScript.Proofs.Rejections
import ProofScript.Proofs.RelabelledScripts
import ProofScript.Proofs.Relabelling
import ProofScript.Proofs.RelaidScripts
import ProofScript.Proofs.RenamedFacts
import ProofScript.Proofs.RenamedVerdicts
import ProofScript.Proofs.Renaming
import ProofScript.Proofs.ReplacedName
import ProofScript.Proofs.ResolutionScopes
import ProofScript.Proofs.RestoredMappings
import ProofScript.Proofs.RoundTrip
import ProofScript.Proofs.ScriptSound
import ProofScript.Proofs.SilentChecks
import ProofScript.Proofs.Simulation
import ProofScript.Proofs.SpelledInstances
import ProofScript.Proofs.SteadyParsers
import ProofScript.Proofs.SurvivingNames
import ProofScript.Proofs.Symmetry
import ProofScript.Proofs.Tandem
import ProofScript.Proofs.Termination
import ProofScript.Proofs.Uncited
import ProofScript.Proofs.Undisturbed
import ProofScript.Proofs.WellScoped
import ProofScript.Proofs.WitnessMatching
import ProofScript.Report
import ProofScript.Resolution
import ProofScript.Scopes
import ProofScript.Script.Basic
import ProofScript.Script.Parser
import ProofScript.Settings
import ProofScript.Source
import ProofScript.Substitution
import ProofScript.Text.Letter
import ProofScript.Text.Lexeme
import ProofScript.Text.Parser
import ProofScript.Toml.Document
import ProofScript.Toml.Number
import ProofScript.Toml.Parser
import ProofScript.Toml.Quoted
import ProofScript.Toml.Scalar
import ProofScript.Truth
import ProofScript.Verification
