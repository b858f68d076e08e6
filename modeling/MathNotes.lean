import MathNotes.Main
import MathNotes.Proofs.Compilation
import MathNotes.Proofs.Balance
import MathNotes.Proofs.Locality
import MathNotes.Proofs.Emission
import MathNotes.Proofs.BlockDepth
import MathNotes.Proofs.Ceilings
import MathNotes.Proofs.Totality
import MathNotes.Proofs.WrittenOut
import MathNotes.Proofs.Hygiene
import MathNotes.Proofs.PageReading
import MathNotes.Proofs.Rewrites
import MathNotes.Proofs.RewriteSteps
import MathNotes.Proofs.Specials
import MathNotes.Proofs.CommandLines
import MathNotes.Proofs.CommandFragments
import MathNotes.Proofs.ControlWords
import MathNotes.Proofs.Visibility
import MathNotes.Proofs.LineKinds
import MathNotes.Proofs.Pipes
import MathNotes.Proofs.Idempotence
import MathNotes.Proofs.IdleSteps
import MathNotes.Proofs.ExponentChains
import MathNotes.Proofs.PassLimit
import MathNotes.Proofs.WholeWords
import MathNotes.Proofs.FoldedChains
import MathNotes.Proofs.HeadingIndents
import MathNotes.Proofs.KeptMarkers
import MathNotes.Proofs.VerbatimProse
import MathNotes.Proofs.LooseBraces
import MathNotes.Proofs.WhiteSpace
import MathNotes.Proofs.DefinitionLines
import MathNotes.Proofs.HeadingLines
import MathNotes.Proofs.EquationNumbers
import MathNotes.Proofs.BracketPairs
import MathNotes.Proofs.TopLevel
import MathNotes.Proofs.ProseReading
import MathNotes.Proofs.ProseRuns
