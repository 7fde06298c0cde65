import FeatureLogic.Text.Quoted
import FeatureLogic.Agenda
import FeatureLogic.Lattice.Basic
import FeatureLogic.Graph.Trail
import FeatureLogic.Graph.Copying
import FeatureLogic.Notation.Scanner
import FeatureLogic.Notation.Reader
import FeatureLogic.Notation.Printer
import FeatureLogic.Restrictor.Encoding
import FeatureLogic.QuickCheck
import FeatureLogic.FailureLog
import FeatureLogic.Grammar.Draft
import FeatureLogic.Session.Copy
import FeatureLogic.Session.Subsume
import FeatureLogic.Session.Equal
import FeatureLogic.Session.Survey
import FeatureLogic.Session.Item
import FeatureLogic.Session.Workspace
import FeatureLogic.Grammar.Description
import FeatureLogic.LogFormat
import FeatureLogic.Main
import FeatureLogic.Proofs.Lattice.Knowledge
import FeatureLogic.Proofs.Shape
import FeatureLogic.Proofs.Agenda
import FeatureLogic.Proofs.Unify.Laws
import FeatureLogic.Proofs.Unify.Wellformed
import FeatureLogic.Proofs.Session.Equality
import FeatureLogic.Proofs.Session.QuickCheck
import FeatureLogic.Proofs.Session.Notation
import FeatureLogic.Proofs.Session.Relating
import FeatureLogic.Proofs.Session.Stamps
import FeatureLogic.Proofs.Session.Editing
import FeatureLogic.Proofs.Unify.Subsumed
import FeatureLogic.Proofs.Session.Discipline
import FeatureLogic.Proofs.Session.Items
import FeatureLogic.Proofs.Session.Arising
import FeatureLogic.Proofs.Session.Orderly
import FeatureLogic.Proofs.Grammar
import FeatureLogic.Proofs.Lattice.Convergence
import FeatureLogic.Proofs.Lattice.Transparency
import FeatureLogic.Proofs.Lattice.Reduction
import FeatureLogic.Proofs.Lattice.Generation
import FeatureLogic.Proofs.Session.Morphism
import FeatureLogic.Proofs.Session.Restricting
import FeatureLogic.Proofs.Session.Chains
import FeatureLogic.Proofs.Session.Printed
import FeatureLogic.Proofs.Notation.Denotation
import FeatureLogic.Proofs.Session.History
import FeatureLogic.Proofs.Unify.Congruence
import FeatureLogic.Proofs.Session.SpecialPruning
import FeatureLogic.Proofs.Session.Wrapping
import FeatureLogic.Proofs.Session.Agreement
import FeatureLogic.Proofs.Session.Circles
import FeatureLogic.Proofs.Session.Ways
import FeatureLogic.Proofs.Session.Coreferences
import FeatureLogic.Proofs.Session.Unfilled
import FeatureLogic.Proofs.QuickCheck.Encoding
import FeatureLogic.Proofs.Graph.Renumbering
import FeatureLogic.Proofs.Lattice.Circles
import FeatureLogic.Proofs.Lattice.Loading
import FeatureLogic.Proofs.Session.TypeNames
import FeatureLogic.Proofs.Session.Failures
import FeatureLogic.Proofs.Notation.Atomicity
import FeatureLogic.Proofs.Session.Duplicates
import FeatureLogic.Proofs.Restrictor.Encoding
import FeatureLogic.Proofs.Session.ClosedLists
import FeatureLogic.Proofs.Notation.Peeking
import FeatureLogic.Proofs.Restrictor.Generalizing
import FeatureLogic.Proofs.Session.Arguments
import FeatureLogic.Proofs.Graph.Episodes
import FeatureLogic.Proofs.Lattice.Naming
import FeatureLogic.Proofs.Session.Moments
