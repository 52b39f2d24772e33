import PlanningDomain.CommandLine
import PlanningDomain.Domain
import PlanningDomain.Main
import PlanningDomain.Proofs.Absorption
import PlanningDomain.Proofs.Allocation
import PlanningDomain.Proofs.Announcements
import PlanningDomain.Proofs.Arena.Lists
import PlanningDomain.Proofs.Arena.Refusals
import PlanningDomain.Proofs.Atoms
import PlanningDomain.Proofs.CommandLine
import PlanningDomain.Proofs.Compilation
import PlanningDomain.Proofs.Composition
import PlanningDomain.Proofs.Conversions
import PlanningDomain.Proofs.Copies
import PlanningDomain.Proofs.Duality
import PlanningDomain.Proofs.Independence
import PlanningDomain.Proofs.Layout
import PlanningDomain.Proofs.Merging
import PlanningDomain.Proofs.NegationNormalForm
import PlanningDomain.Proofs.Phrase.Reading
import PlanningDomain.Proofs.Positions
import PlanningDomain.Proofs.Printing
import PlanningDomain.Proofs.Reader.LookAhead
import PlanningDomain.Proofs.Reader.Sequences
import PlanningDomain.Proofs.Reader.Shapes
import PlanningDomain.Proofs.Reader.Validation
import PlanningDomain.Proofs.Resemblance
import PlanningDomain.Proofs.Rounding
import PlanningDomain.Proofs.Sharing
import PlanningDomain.Proofs.Token.LongestMatch
import PlanningDomain.Proofs.Totality
import PlanningDomain.Proofs.Traversal
