import WireSchema.CommandLine.Arguments
import WireSchema.CommandLine.Command
import WireSchema.Compile
import WireSchema.Decl
import WireSchema.Emit.Comment
import WireSchema.Emit.Dump
import WireSchema.Emit.Header
import WireSchema.Emit.Json
import WireSchema.Emit.Storage
import WireSchema.Error
import WireSchema.Expr
import WireSchema.Files.Discovery
import WireSchema.Files.Path
import WireSchema.Files.Tree
import WireSchema.Journal
import WireSchema.Main
import WireSchema.Number
import WireSchema.Order
import WireSchema.Package
import WireSchema.Plan
import WireSchema.Project
import WireSchema.Resolution
import WireSchema.Resolver
import WireSchema.Schema
import WireSchema.Schema.Record
import WireSchema.Selection
import WireSchema.Session
import WireSchema.SymbolTable
import WireSchema.Text.Binary64
import WireSchema.Text.Quoted
import WireSchema.Text.Split
import WireSchema.Text.Upper
import WireSchema.Yaml.Cursor
import WireSchema.Yaml.Node
import WireSchema.Yaml.Token
import WireSchema.Yaml.Token.Block
import WireSchema.Yaml.Token.Flow
import WireSchema.Yaml.Token.Lexer
import WireSchema.Yaml.Value
import WireSchema.Proofs.PlanSemantics
import WireSchema.Proofs.Memo
import WireSchema.Proofs.Rules
import WireSchema.Proofs.Quantities
import WireSchema.Proofs.Lists
import WireSchema.Proofs.Table
import WireSchema.Proofs.Colours
import WireSchema.Proofs.TopologicalOrder
import WireSchema.Proofs.CycleAgreement
import WireSchema.Proofs.HeaderConstructs
import WireSchema.Proofs.Packages
import WireSchema.Proofs.Calls
import WireSchema.Proofs.Registration
import WireSchema.Proofs.Correspondence
import WireSchema.Proofs.DeclarationOrder
import WireSchema.Proofs.StorageRange
import WireSchema.Proofs.HeaderText
import WireSchema.Proofs.HeaderNames
import WireSchema.Proofs.DumpText
import WireSchema.Proofs.Locality
import WireSchema.Proofs.ProgramText
import WireSchema.Proofs.Comments
import WireSchema.Proofs.HeaderComments
import WireSchema.Proofs.Documentation
import WireSchema.Proofs.HeaderMacros
import WireSchema.Proofs.Tracing
import WireSchema.Proofs.HeaderConstants
import WireSchema.Proofs.Splitting
import WireSchema.Proofs.Paths
import WireSchema.Proofs.Projects
import WireSchema.Proofs.FileTrees
import WireSchema.Proofs.Delivery
import WireSchema.Proofs.Circles
import WireSchema.Proofs.ReportedCircles
import WireSchema.Proofs.StableOrder
import WireSchema.Proofs.EnumeratorValues
import WireSchema.Proofs.WhiteSpace
import WireSchema.Proofs.Numerals
import WireSchema.Proofs.ExpressionGrammar
import WireSchema.Proofs.ErrorCauses
import WireSchema.Proofs.RegistrationErrors
import WireSchema.Proofs.SchemaSections
import WireSchema.Proofs.Rendering
import WireSchema.Proofs.Runs
import WireSchema.Proofs.Moments
import WireSchema.Proofs.Tours
import WireSchema.Proofs.Nesting
import WireSchema.Proofs.PathOrder
import WireSchema.Proofs.Discovery
import WireSchema.Proofs.Positions
import WireSchema.Proofs.DerivedConstants
