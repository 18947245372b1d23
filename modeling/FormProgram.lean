import FormProgram.Availability
import FormProgram.Block
import FormProgram.Catalog
import FormProgram.Command.Basic
import FormProgram.Command.Line
import FormProgram.Config
import FormProgram.Decimal.Natural
import FormProgram.Decimal.Shortest
import FormProgram.Edit
import FormProgram.Failure
import FormProgram.File.Access
import FormProgram.File.Document
import FormProgram.File.Path
import FormProgram.File.Tree
import FormProgram.Forest
import FormProgram.Hexadecimal
import FormProgram.Json.Basic
import FormProgram.Json.Number
import FormProgram.Json.Printer
import FormProgram.Json.Reader
import FormProgram.Json.Text
import FormProgram.Json.Token
import FormProgram.Json.Tree
import FormProgram.LateRead
import FormProgram.Main
import FormProgram.Order
import FormProgram.Predicate
import FormProgram.Program.Basic
import FormProgram.Program.Defect
import FormProgram.Program.Error
import FormProgram.Program.Lookup
import FormProgram.Program.Structure
import FormProgram.Question
import FormProgram.Slice
import FormProgram.Sorted.Map
import FormProgram.Sorted.Set
import FormProgram.Stored.Basic
import FormProgram.Stored.Decode
import FormProgram.Stored.Document
import FormProgram.Stored.Encode
import FormProgram.Stored.Schema
import FormProgram.Toml.Document
import FormProgram.Toml.Quoted
import FormProgram.Toml.Scalar
import FormProgram.Toml.Table
import FormProgram.Toml.Token
import FormProgram.Workspace.Basic
import FormProgram.Workspace.Edit
import FormProgram.Workspace.Inspect
import FormProgram.Proofs.ForestFacts
import FormProgram.Proofs.Nested
import FormProgram.Proofs.Positions
import FormProgram.Proofs.Subtree
import FormProgram.Proofs.Site
import FormProgram.Proofs.Layout
import FormProgram.Proofs.Memo
import FormProgram.Proofs.Sound
import FormProgram.Proofs.CanonicalOrder
import FormProgram.Proofs.Moves
import FormProgram.Proofs.Exchange
import FormProgram.Proofs.Inserts
import FormProgram.Proofs.Equality
import FormProgram.Proofs.Alike
import FormProgram.Proofs.Congruence
import FormProgram.Proofs.Agreement
import FormProgram.Proofs.Instances
import FormProgram.Proofs.Session
import FormProgram.Proofs.MovesBack
import FormProgram.Proofs.StackWalk
import FormProgram.Proofs.InRange
import FormProgram.Proofs.Rounding
import FormProgram.Proofs.Digits
import FormProgram.Proofs.ShortestDecimal
import FormProgram.Proofs.NumberText
import FormProgram.Proofs.TokenText
import FormProgram.Proofs.JsonText
import FormProgram.Proofs.Settled
import FormProgram.Proofs.StoredForm
import FormProgram.Proofs.SchemaMet
import FormProgram.Proofs.SavedPrograms
import FormProgram.Proofs.ReadDepth
import FormProgram.Proofs.LoadedPrograms
import FormProgram.Proofs.FileRuns
import FormProgram.Proofs.DiskRuns
import FormProgram.Proofs.InsertedFile
import FormProgram.Proofs.LateReads
import FormProgram.Proofs.RefusedMoves
import FormProgram.Proofs.Availability
import FormProgram.Proofs.SchemaAgreement
import FormProgram.Proofs.CommandEffects
import FormProgram.Proofs.ExitCodes
import FormProgram.Proofs.Slices
import FormProgram.Proofs.Appending
import FormProgram.Proofs.EditedReads
import FormProgram.Proofs.OfferedQuestions
import FormProgram.Proofs.DefectsFound
import FormProgram.Proofs.Ordering
import FormProgram.Proofs.Locales
import FormProgram.Proofs.Hydration
import FormProgram.Proofs.BlockReaders
import FormProgram.Proofs.TextWithin
import FormProgram.Proofs.BlockTexts
import FormProgram.Proofs.Chains
import FormProgram.Proofs.Swaps
import FormProgram.Proofs.BlockPaths
import FormProgram.Proofs.Slugs
