import PredictiveParsing.Event
import PredictiveParsing.Main
import PredictiveParsing.Recognizer.Limit
import PredictiveParsing.Proofs.Derivation
import PredictiveParsing.Proofs.Lookahead
import PredictiveParsing.Proofs.Exactness
import PredictiveParsing.Proofs.Prediction
import PredictiveParsing.Proofs.Simulation
import PredictiveParsing.Proofs.Termination
import PredictiveParsing.Proofs.CorrectPrefix
import PredictiveParsing.Proofs.Language
import PredictiveParsing.Proofs.Determinism
import PredictiveParsing.Proofs.Arena
import PredictiveParsing.Proofs.Unambiguity
import PredictiveParsing.Proofs.SententialForms
import PredictiveParsing.Proofs.Competition
import PredictiveParsing.Proofs.LeftRecursion
import PredictiveParsing.Proofs.LiveCells
import PredictiveParsing.Proofs.Renaming
import PredictiveParsing.Proofs.Monotonicity
import PredictiveParsing.Proofs.Notation
import PredictiveParsing.Proofs.Agreement
import PredictiveParsing.Proofs.FirstFault
import PredictiveParsing.Proofs.Dependence
import PredictiveParsing.Proofs.Filling
import PredictiveParsing.Proofs.Account
import PredictiveParsing.Proofs.FirstConflict
import PredictiveParsing.Proofs.JsonReading
import PredictiveParsing.Proofs.TableText
import PredictiveParsing.Proofs.Alignment
import PredictiveParsing.Proofs.Grouping
import PredictiveParsing.Proofs.LatexTables
import PredictiveParsing.Proofs.TreeText
import PredictiveParsing.Proofs.FixedPoints
import PredictiveParsing.Proofs.Numbering
import PredictiveParsing.Proofs.ArenaTree
