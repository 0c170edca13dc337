import Whittle.Decimal.Numeral
import Whittle.Decimal.Shortest
import Whittle.Double
import Whittle.Edit
import Whittle.Edit.Promotion
import Whittle.Edit.Simplification
import Whittle.Edit.Site
import Whittle.Edit.Weight
import Whittle.Exchange
import Whittle.Grammar.Admits
import Whittle.Grammar.PositionType
import Whittle.Grammar.Spec
import Whittle.Grammar.Table
import Whittle.Json.Read
import Whittle.Json.Token
import Whittle.Json.Write
import Whittle.Kind
import Whittle.Language
import Whittle.Node
import Whittle.Path
import Whittle.Plain
import Whittle.Sample
import Whittle.Sample.Expression
import Whittle.Sample.Function
import Whittle.Sample.Gen
import Whittle.Sample.Source
import Whittle.Sample.Statement
import Whittle.Search.Candidates
import Whittle.Search.Collect
import Whittle.Search.Feed
import Whittle.Search.Log
import Whittle.Search.Property
import Whittle.Search.Reduction
import Whittle.Search.Window
import Whittle.Series
import Whittle.Session
import Whittle.Source
import Whittle.Source.Expression
import Whittle.Source.Member
import Whittle.Source.Piece
import Whittle.Source.Spelling
import Whittle.Source.Statement
import Whittle.Text.Blank
import Whittle.Text.Cased
import Whittle.Text.Escaped
import Whittle.Text.Half
import Whittle.Text.Letter
import Whittle.Text.Lowercase
import Whittle.Text.Numeral
import Whittle.Text.Printable
import Whittle.Text.Quoted
import Whittle.Text.Ranges
import Whittle.Tree
import Whittle.Tree.Order
import Whittle.Tree.Sum
import Whittle.Tree.Written
import Whittle.Validity
import Whittle.Validity.Context
import Whittle.Validity.Rules
import Whittle.Validity.Scope
import Whittle.Validity.Typing
import Whittle.Validity.Violation
import Whittle.Proofs.Grammar.Inhabitants
import Whittle.Proofs.Typing
import Whittle.Proofs.Construction
import Whittle.Proofs.Lens
import Whittle.Proofs.Frames
import Whittle.Proofs.Sites
import Whittle.Proofs.Resolve
import Whittle.Proofs.Series
import Whittle.Proofs.Weight
import Whittle.Proofs.Strays
import Whittle.Proofs.Relief
import Whittle.Proofs.Equality
import Whittle.Proofs.Promotion
import Whittle.Proofs.Simplification
import Whittle.Proofs.Edits
import Whittle.Proofs.Burden
import Whittle.Proofs.Search.Feeds
import Whittle.Proofs.Search.Passes
import Whittle.Proofs.Search.LocalMinimum
import Whittle.Proofs.Search.Termination
import Whittle.Proofs.Validity.Clean
import Whittle.Proofs.Validity.Trim
import Whittle.Proofs.Validity.Names
import Whittle.Proofs.Validity.Rules
import Whittle.Proofs.Validity.Monotone
import Whittle.Proofs.Validity.Defined
import Whittle.Proofs.Minimal.Ancestry
import Whittle.Proofs.Minimal.Free
import Whittle.Proofs.LevelOrder
import Whittle.Proofs.Minimal.Bodies
import Whittle.Proofs.Minimal.Bound
import Whittle.Proofs.Minimal.Convergence
import Whittle.Proofs.Sample.Class
import Whittle.Proofs.Sample.Compound
import Whittle.Proofs.Sample.Program
import Whittle.Proofs.Search.Scope
import Whittle.Proofs.Exchange
import Whittle.Proofs.Validity.Deletion
import Whittle.Proofs.Validity.Jumps
import Whittle.Proofs.Validity.Clashes
import Whittle.Proofs.Search.Calls
import Whittle.Proofs.Search.Failures
import Whittle.Proofs.Search.Exhaustion
import Whittle.Proofs.Search.Protocol
import Whittle.Proofs.Grammar.Entries
import Whittle.Proofs.Double.Rounding
import Whittle.Proofs.Decimal.Numeral
import Whittle.Proofs.Decimal.Shortest
import Whittle.Proofs.Json.Arranged
import Whittle.Proofs.Json.Numeral
import Whittle.Proofs.Json.Escaped
import Whittle.Proofs.Json.Tokens
import Whittle.Proofs.Json.Read
import Whittle.Proofs.Exchange.Json
import Whittle.Proofs.Search.Visited
import Whittle.Proofs.Validity.Super
import Whittle.Proofs.Source.Token
import Whittle.Proofs.Source.Operators
import Whittle.Proofs.Source.Reader
import Whittle.Proofs.Source.Statements
import Whittle.Proofs.Source.Scripts
import Whittle.Proofs.Validity.Strict
import Whittle.Proofs.Validity.Total
import Whittle.Proofs.Source.Within
import Whittle.Proofs.Source.Parts
import Whittle.Proofs.Source.Expressions
import Whittle.Proofs.Source.Printed
import Whittle.Proofs.Source.Ascii
import Whittle.Proofs.Source.Directives
import Whittle.Proofs.Source.Callees
import Whittle.Proofs.Source.Comments
import Whittle.Proofs.Source.LoopHeads
import Whittle.Proofs.Search.Selection
import Whittle.Proofs.Exchange.Loaded
import Whittle.Proofs.Validity.Locations
import Whittle.Proofs.Validity.DefaultName
import Whittle.Proofs.Lens.Laws
import Whittle.Proofs.Search.Harvest
import Whittle.Proofs.Grammar.Cores
import Whittle.Proofs.Grammar.Tables
import Whittle.Proofs.Sample.Spends
import Whittle.Proofs.Sample.Thrift
import Whittle.Proofs.Double.Bounds
import Whittle.Proofs.Sample.Distinct
import Whittle.Proofs.Grammar.Admission
import Whittle.Proofs.Size
