import QueryAlgebra.Evaluation.Plan
import QueryAlgebra.Log.Logger
import QueryAlgebra.Outline
import QueryAlgebra.Source.Build
import QueryAlgebra.Sql.Bound
import QueryAlgebra.Sql.Inline
import QueryAlgebra.Translation.Translator
import QueryAlgebra.Proofs.Evaluation.Frames
import QueryAlgebra.Proofs.Evaluation.Kinds
import QueryAlgebra.Proofs.Evaluation.Origins
import QueryAlgebra.Proofs.Evaluation.Pushdown
import QueryAlgebra.Proofs.Evaluation.Grouping
import QueryAlgebra.Proofs.Evaluation.Selections
import QueryAlgebra.Proofs.Evaluation.Pages
import QueryAlgebra.Proofs.Evaluation.Peers
import QueryAlgebra.Proofs.Evaluation.Ordering
import QueryAlgebra.Proofs.Evaluation.Choosing
import QueryAlgebra.Proofs.Evaluation.Conjunctions
import QueryAlgebra.Proofs.Evaluation.Exclusive
import QueryAlgebra.Proofs.Evaluation.Mirrors
import QueryAlgebra.Proofs.Evaluation.Locality
import QueryAlgebra.Proofs.Evaluation.Widths
import QueryAlgebra.Proofs.Evaluation.RowKeys
import QueryAlgebra.Proofs.Instant.Calendar
import QueryAlgebra.Proofs.Instant.Text
import QueryAlgebra.Proofs.Keyed.History
import QueryAlgebra.Proofs.Kind.Inference
import QueryAlgebra.Proofs.Kind.Recast
import QueryAlgebra.Proofs.Number.Whole
import QueryAlgebra.Proofs.Sql.Agreement
import QueryAlgebra.Proofs.Sql.Compile
import QueryAlgebra.Proofs.Sql.Denotation
import QueryAlgebra.Proofs.Translation.Bookkeeping
import QueryAlgebra.Proofs.Translation.History
import QueryAlgebra.Proofs.Translation.References
import QueryAlgebra.Proofs.Translation.Scans
import QueryAlgebra.Proofs.Translation.Scopes
import QueryAlgebra.Proofs.Translation.Stack
import QueryAlgebra.Proofs.Tree.Accepted
import QueryAlgebra.Proofs.Tree.Chains
import QueryAlgebra.Proofs.Tree.Endings
import QueryAlgebra.Proofs.Tree.Inheritance
import QueryAlgebra.Proofs.Tree.FieldNames
import QueryAlgebra.Proofs.Tree.Orderings
import QueryAlgebra.Proofs.Tree.Parts
import QueryAlgebra.Proofs.Evaluation.Naming
import QueryAlgebra.Proofs.Sql.Blanking
import QueryAlgebra.Proofs.Sql.Closed
import QueryAlgebra.Proofs.Sql.Scoping
import QueryAlgebra.Proofs.Sql.Operands
