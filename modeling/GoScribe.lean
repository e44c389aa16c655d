import GoScribe.Ast.Module
import GoScribe.Ast.Operator
import GoScribe.Ast.Tree
import GoScribe.CommandLine.Arguments
import GoScribe.CommandLine.Command
import GoScribe.Files.FileTree
import GoScribe.Files.Glob
import GoScribe.Files.Path
import GoScribe.Json.Decode
import GoScribe.Json.Encode
import GoScribe.Json.Reader
import GoScribe.Json.Shape
import GoScribe.Json.Value
import GoScribe.Layout.Doc
import GoScribe.Layout.Indent
import GoScribe.Main
import GoScribe.Number.Double
import GoScribe.Number.Reading
import GoScribe.Number.Shortest
import GoScribe.Project.Failure
import GoScribe.Project.Manifest
import GoScribe.Project.Package
import GoScribe.Project.Regenerate
import GoScribe.Project.Run
import GoScribe.Proofs.Delimiters
import GoScribe.Proofs.DocViews
import GoScribe.Proofs.Erasure
import GoScribe.Proofs.ExprReadback
import GoScribe.Proofs.GoBrackets
import GoScribe.Proofs.GoExpr
import GoScribe.Proofs.GoStmt
import GoScribe.Proofs.GoString
import GoScribe.Proofs.GoTokens
import GoScribe.Proofs.GoTypeExpr
import GoScribe.Proofs.ImportTracking
import GoScribe.Proofs.Indentation
import GoScribe.Proofs.Layouts
import GoScribe.Proofs.Marks
import GoScribe.Proofs.NodeLayouts
import GoScribe.Proofs.Placeholders
import GoScribe.Proofs.Positions
import GoScribe.Proofs.PostfixForms
import GoScribe.Proofs.Refusals
import GoScribe.Proofs.StmtReadback
import GoScribe.Proofs.Switches
import GoScribe.Proofs.TypeReadback
import GoScribe.Render.Diagnostic
import GoScribe.Render.Env
import GoScribe.Render.GoFile
import GoScribe.Render.ImportUsage
import GoScribe.Render.NodeDoc
import GoScribe.Render.Options
import GoScribe.Render.Precedence
import GoScribe.Render.TypeDoc
import GoScribe.Render.ValueGroup
import GoScribe.Text.Lines
import GoScribe.Text.Quoted
import GoScribe.Text.Reader
import GoScribe.Text.Split
import GoScribe.Toml.Options
import GoScribe.Toml.Reader
import GoScribe.Toml.Scalar
import GoScribe.Toml.Value
import GoScribe.Proofs.Locality
import GoScribe.Proofs.ImportTable
import GoScribe.Proofs.ImportOrder
import GoScribe.Proofs.ImportNames
import GoScribe.Proofs.JsonContent
import GoScribe.Proofs.JsonRoundTrip
import GoScribe.Proofs.BuildRoot
import GoScribe.Proofs.OutputFiles
import GoScribe.Proofs.PackageOrder
import GoScribe.Proofs.TreeGrowth
import GoScribe.Proofs.UnitAccounts
import GoScribe.Proofs.FileSystems
import GoScribe.Proofs.Discovery
import GoScribe.Proofs.SecondRun
import GoScribe.Proofs.ValueForms
import GoScribe.Proofs.ValueRuns
import GoScribe.Proofs.ImportBlock
import GoScribe.Proofs.InertComments
import GoScribe.Proofs.NodeParts
import GoScribe.Proofs.OpenBrackets
import GoScribe.Proofs.Headers
import GoScribe.Proofs.GlobMatches
import GoScribe.Proofs.HeaderComment
import GoScribe.Proofs.UnitDiscovery
import GoScribe.Proofs.UnitEffects
