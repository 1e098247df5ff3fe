import Milp.CompiledModel
import Milp.Config
import Milp.Config.Reading
import Milp.Config.Shape
import Milp.Console.Banner
import Milp.Console.Line
import Milp.Console.Style
import Milp.Constraint
import Milp.Decimal.Layout
import Milp.Decimal.Literal
import Milp.Decimal.Shortest
import Milp.Declaration.IndexSet
import Milp.Declaration.Parameter
import Milp.Declaration.StoredParameter
import Milp.Declaration.Variable
import Milp.Document.Atoms
import Milp.Document.Compile
import Milp.Document.Config
import Milp.Document.Declaration
import Milp.Document.Expression
import Milp.Document.Model
import Milp.Document.Record
import Milp.Dyadic
import Milp.Element
import Milp.Error
import Milp.Escape
import Milp.Evaluation
import Milp.Event
import Milp.Examples.Cost
import Milp.Examples.Planning
import Milp.Examples.Table
import Milp.Examples.Transportation
import Milp.Expansion
import Milp.Expr.Basic
import Milp.Expr.Builder
import Milp.Expr.Staging
import Milp.Json.Basic
import Milp.Json.Reader
import Milp.Json.Token
import Milp.Json.Writer
import Milp.Model.Basic
import Milp.Model.Compile
import Milp.Model.Data
import Milp.Odometer
import Milp.Operator
import Milp.Proofs.Compilation.Atomicity
import Milp.Proofs.Compilation.Fresh
import Milp.Proofs.Compilation.Independence
import Milp.Proofs.Compilation.Limits
import Milp.Proofs.Compilation.Members
import Milp.Proofs.Compilation.Plan
import Milp.Proofs.Compilation.Protocol
import Milp.Proofs.Compilation.Refinement
import Milp.Proofs.Compilation.Report
import Milp.Proofs.Compilation.Rows
import Milp.Proofs.Compilation.Staging
import Milp.Proofs.Compilation.Totality
import Milp.Proofs.Decimal.Exact
import Milp.Proofs.Decimal.Finite
import Milp.Proofs.Decimal.Order
import Milp.Proofs.Decimal.Rounding
import Milp.Proofs.Decimal.Shortest
import Milp.Proofs.Decimal.Text
import Milp.Proofs.Declaration.IndexSet
import Milp.Proofs.Declaration.Parameter
import Milp.Proofs.Delivery
import Milp.Proofs.Display.Constraints
import Milp.Proofs.Display.Erasure
import Milp.Proofs.Display.Numbers
import Milp.Proofs.Display.Readability
import Milp.Proofs.Display.Words
import Milp.Proofs.Document.Finite
import Milp.Proofs.Document.Record
import Milp.Proofs.Document.RoundTrip
import Milp.Proofs.Document.Soundness
import Milp.Proofs.Document.Writing
import Milp.Proofs.Enumeration
import Milp.Proofs.Enumeration.Positions
import Milp.Proofs.Evaluation.Handles
import Milp.Proofs.Evaluation.Integers
import Milp.Proofs.Evaluation.Limits
import Milp.Proofs.Evaluation.Meaning
import Milp.Proofs.Evaluation.Nesting
import Milp.Proofs.Evaluation.Operators
import Milp.Proofs.Evaluation.Parameters
import Milp.Proofs.Evaluation.Preservation
import Milp.Proofs.Evaluation.Renaming
import Milp.Proofs.Evaluation.Scoping
import Milp.Proofs.Evaluation.Shape
import Milp.Proofs.Evaluation.Snapshots
import Milp.Proofs.Evaluation.Staging
import Milp.Proofs.Evaluation.Terms
import Milp.Proofs.Expansion
import Milp.Proofs.Expansion.Reordering
import Milp.Proofs.Expr.IndexNames
import Milp.Proofs.Expr.Induction
import Milp.Proofs.Failure
import Milp.Proofs.Json.Reading
import Milp.Proofs.Json.Tree
import Milp.Proofs.Model.History
import Milp.Proofs.Model.Rebuilding
import Milp.Proofs.Model.Validity
import Milp.Proofs.Registry
import Milp.Proofs.Registry.History
import Milp.Proofs.Scalar.Arithmetic
import Milp.Proofs.Scalar.Ordering
import Milp.Proofs.Scope
import Milp.Proofs.Scope.Snapshot
import Milp.Proofs.Storage.History
import Milp.Proofs.Storage.Representation
import Milp.Proofs.Symbolic.Rewriting
import Milp.Registry
import Milp.Scalar
import Milp.Scalar.Arithmetic
import Milp.Scalar.Ordering
import Milp.Scope
import Milp.StoredModel
import Milp.Symbolic
import Milp.Target
import Milp.Toml.Document
import Milp.Toml.Key
import Milp.Toml.Moment
import Milp.Toml.Number
import Milp.Toml.Table
import Milp.Toml.Text
import Milp.Toml.Value
import Milp.Yaml.Basic
import Milp.Yaml.Block
import Milp.Yaml.Cell
import Milp.Yaml.Document
import Milp.Yaml.Meaning
import Milp.Yaml.Scalar
import Milp.Yaml.Tag
import Milp.Yaml.Token
