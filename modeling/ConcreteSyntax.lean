import ConcreteSyntax.Main
import ConcreteSyntax.Proofs.Layout
import ConcreteSyntax.Proofs.Totality
import ConcreteSyntax.Tree.Edit.Construction
import ConcreteSyntax.Tree.Edit.Replacement
import ConcreteSyntax.Tree.Navigation
import ConcreteSyntax.Proofs.Edit.Text
import ConcreteSyntax.Proofs.Pairing.Account
import ConcreteSyntax.Proofs.Scan.Precedence
import ConcreteSyntax.Proofs.Markup.Account
import ConcreteSyntax.Proofs.CFamily.Interiors
import ConcreteSyntax.Proofs.Check
import ConcreteSyntax.Proofs.Scan.LeastOrder
import ConcreteSyntax.Proofs.Words
import ConcreteSyntax.Proofs.CFamily.Literals
import ConcreteSyntax.Proofs.CFamily.Conditionals
import ConcreteSyntax.Proofs.Markup.Entities
import ConcreteSyntax.Proofs.Cleaning
import ConcreteSyntax.Proofs.Markup.Writing
import ConcreteSyntax.Proofs.Analysis.Fences
import ConcreteSyntax.Proofs.Analysis.Reach
import ConcreteSyntax.Proofs.CFamily.Bodies
import ConcreteSyntax.Proofs.CFamily.Loops
import ConcreteSyntax.Proofs.CFamily.Definitions
import ConcreteSyntax.Proofs.CFamily.TypedefNames
import ConcreteSyntax.Proofs.CFamily.Labels
import ConcreteSyntax.Proofs.Tightness
import ConcreteSyntax.Proofs.CFamily.Inclusions
import ConcreteSyntax.Proofs.CFamily.Selectors
import ConcreteSyntax.Proofs.Tree.Lifetimes
import ConcreteSyntax.Proofs.Scan.Layers
import ConcreteSyntax.Proofs.Edit.Lines
import ConcreteSyntax.Proofs.Edit.Reading
import ConcreteSyntax.Proofs.Edit.Navigation
import ConcreteSyntax.Proofs.Analysis.Moves
import ConcreteSyntax.Proofs.LineStarts
import ConcreteSyntax.Proofs.Analysis.Visits
import ConcreteSyntax.Proofs.KindSet
