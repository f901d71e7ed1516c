import DeclGen.Cleanup.Contribution
import DeclGen.Cleanup.Holder
import DeclGen.Cleanup.Override
import DeclGen.Code
import DeclGen.CommandLine.Arguments
import DeclGen.CommandLine.FileStore
import DeclGen.CommandLine.FileTree
import DeclGen.CommandLine.Session
import DeclGen.Constant.Arithmetic
import DeclGen.Constant.Failure
import DeclGen.Constant.Fold
import DeclGen.Constant.Integral
import DeclGen.Constant.Literal
import DeclGen.Constant.Word
import DeclGen.Diagnostic.Basic
import DeclGen.Diagnostic.Catalog
import DeclGen.Diagnostic.Layout
import DeclGen.EnumNames.Access
import DeclGen.EnumNames.CanonicalPath
import DeclGen.EnumNames.Contribution
import DeclGen.EnumNames.Extension
import DeclGen.EnumNames.Ordinals
import DeclGen.Generator
import DeclGen.Grammar.Commas
import DeclGen.Grammar.Expr
import DeclGen.Grammar.Header
import DeclGen.Grammar.Keyword
import DeclGen.Grammar.Member
import DeclGen.Grammar.Parser
import DeclGen.Grammar.Region
import DeclGen.Grammar.SyntaxError
import DeclGen.Grammar.Token
import DeclGen.Grammar.Trivia
import DeclGen.Grammar.TypeExpr
import DeclGen.Grammar.Unit
import DeclGen.Log
import DeclGen.Main
import DeclGen.Proofs.Constant.Truncation
import DeclGen.Proofs.Text.Decimal
import DeclGen.Publication
import DeclGen.Settings.Basic
import DeclGen.Settings.Document
import DeclGen.Source.File
import DeclGen.Source.Position
import DeclGen.Source.Registry
import DeclGen.SourceSet
import DeclGen.Syntax.Expr
import DeclGen.Syntax.Member
import DeclGen.Syntax.Modifier
import DeclGen.Syntax.Name
import DeclGen.Syntax.Site
import DeclGen.Syntax.Span
import DeclGen.Syntax.TypeExpr
import DeclGen.Text.Alphabetic
import DeclGen.Text.Blank
import DeclGen.Text.Digit
import DeclGen.Text.Numeric
import DeclGen.Text.Size
import DeclGen.Text.Split
import DeclGen.Text.Word
import DeclGen.Toml.Document
import DeclGen.Toml.Scalar
import DeclGen.Toml.Statement
import DeclGen.Toml.Value
import DeclGen.Proofs.Constant.Denotation
import DeclGen.Proofs.Constant.Memo
import DeclGen.Proofs.Constant.Equations
import DeclGen.Proofs.EnumNames.Numbering
import DeclGen.Proofs.EnumNames.Accounting
import DeclGen.Proofs.Grammar.Reads
import DeclGen.Proofs.Grammar.Tokens
import DeclGen.Proofs.Grammar.Regions
import DeclGen.Proofs.Grammar.Headers
import DeclGen.Proofs.Grammar.Declarations
import DeclGen.Proofs.Grammar.WellNamed
import DeclGen.Proofs.Syntax.SpanTree
import DeclGen.Proofs.Grammar.Tracks
import DeclGen.Proofs.Grammar.TokenSpans
import DeclGen.Proofs.Grammar.TypeSpans
import DeclGen.Proofs.Grammar.ExprSpans
import DeclGen.Proofs.Grammar.MemberSpans
import DeclGen.Proofs.Syntax.Bare
import DeclGen.Proofs.Grammar.Takes
import DeclGen.Proofs.Grammar.Layout
import DeclGen.Proofs.Grammar.TypeText
import DeclGen.Proofs.Grammar.LiteralText
import DeclGen.Proofs.Grammar.Outline
import DeclGen.Proofs.Grammar.OutlineHeads
import DeclGen.Proofs.Grammar.OutlineReads
import DeclGen.Proofs.Grammar.ParsedTypes
import DeclGen.Proofs.SourceSet
import DeclGen.Proofs.Code
import DeclGen.Proofs.Settings
import DeclGen.Proofs.EnumNames.Unit
import DeclGen.Proofs.Cleanup.Unit
import DeclGen.Proofs.Cleanup.Hint
import DeclGen.Proofs.Cleanup.Accounting
import DeclGen.Proofs.Cleanup.Parts
import DeclGen.Proofs.Generator
import DeclGen.Proofs.Grammar.ByteAgreement
import DeclGen.Proofs.Grammar.Moves
import DeclGen.Proofs.Independence
import DeclGen.Proofs.Grammar.ExprMoves
import DeclGen.Proofs.Grammar.MemberMoves
import DeclGen.Proofs.Cuts
import DeclGen.Proofs.Grammar.ItemRegions
import DeclGen.Proofs.Runs
import DeclGen.Proofs.SourceSet.Entries
import DeclGen.Proofs.EnumNames.Verdicts
import DeclGen.Proofs.Origins
import DeclGen.Proofs.Renumbering
import DeclGen.Proofs.Isolation
import DeclGen.Proofs.Distinct
import DeclGen.Proofs.FileOrder
import DeclGen.Proofs.Grammar.Tight
import DeclGen.Proofs.Grammar.EnumText
import DeclGen.Proofs.Syntax.SiteSpans
import DeclGen.Proofs.EnumNames.Faults
import DeclGen.Proofs.Pointing
import DeclGen.Proofs.Text.Split
import DeclGen.Proofs.Hints
import DeclGen.Proofs.CommandLine.Trees
import DeclGen.Proofs.CommandLine.Sources
import DeclGen.Proofs.CommandLine.Paths
import DeclGen.Proofs.CommandLine.Changes
import DeclGen.Proofs.CommandLine.Recording
import DeclGen.Proofs.CommandLine.Generation
import DeclGen.Proofs.CommandLine.Delivery
import DeclGen.Proofs.CommandLine.Repetition
import DeclGen.Proofs.Constant.Cycles
import DeclGen.Proofs.Constant.Names
import DeclGen.Proofs.Syntax.Walk
import DeclGen.Proofs.Namespaces
import DeclGen.Proofs.Constant.Shifts
import DeclGen.Proofs.Constant.Congruence
import DeclGen.Proofs.Constant.Parts
import DeclGen.Proofs.Constant.Ranges
import DeclGen.Proofs.Constant.Escapes
import DeclGen.Proofs.Constant.Operators
import DeclGen.Proofs.Constant.LowBits
import DeclGen.Proofs.EnumNames.Texts
import DeclGen.Proofs.EnumNames.Visibility
import DeclGen.Proofs.EnumNames.Switch
import DeclGen.Proofs.EnumNames.TypeParameters
import DeclGen.Proofs.Grammar.Gives
import DeclGen.Proofs.Grammar.Precedence
import DeclGen.Proofs.Grammar.IntegerText
import DeclGen.Proofs.Grammar.Operands
import DeclGen.Proofs.Grammar.CastTypes
import DeclGen.Proofs.Grammar.ExprText
import DeclGen.Proofs.Grammar.TypeRoundTrip
import DeclGen.Proofs.Constant.LiteralValue
import DeclGen.Proofs.Grammar.VerbatimStrings
import DeclGen.Proofs.Grammar.DirectiveLines
import DeclGen.Proofs.Syntax.NamespaceNames
import DeclGen.Proofs.Cleanup.ClassNames
import DeclGen.Proofs.Grammar.Gaps
import DeclGen.Proofs.Grammar.ExposedCommas
import DeclGen.Proofs.Grammar.ParameterCounts
import DeclGen.Proofs.Grammar.Accessors
import DeclGen.Proofs.Grammar.Places
import DeclGen.Proofs.Grammar.Initializers
import DeclGen.Proofs.Grammar.Fields
import DeclGen.Proofs.Publication.Ledger
import DeclGen.Proofs.Refusals
import DeclGen.Proofs.Source.Lines
import DeclGen.Proofs.SourceSet.SyntaxErrors
import DeclGen.Proofs.Grammar.Alternatives
import DeclGen.Proofs.Diagnostic.Colours
import DeclGen.Proofs.Diagnostic.Carets
