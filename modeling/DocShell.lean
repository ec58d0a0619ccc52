import DocShell.Completion.Cache
import DocShell.Completion.Context
import DocShell.Completion.Menu
import DocShell.Completion.Names
import DocShell.Completion.Skip
import DocShell.Completion.Suggestion
import DocShell.Editor.Balance
import DocShell.Editor.Highlight
import DocShell.Editor.Hint
import DocShell.Editor.History
import DocShell.Editor.Prompt
import DocShell.Json.Printer
import DocShell.Json.Reader
import DocShell.Json.Value
import DocShell.Main
import DocShell.Number.Binary64
import DocShell.Number.Decimal
import DocShell.Number.Shortest
import DocShell.Path
import DocShell.Proofs.Agreement
import DocShell.Proofs.Balance
import DocShell.Proofs.ByteOrder
import DocShell.Proofs.BytePrefix
import DocShell.Proofs.Continuation
import DocShell.Proofs.Cursor
import DocShell.Proofs.Documents
import DocShell.Proofs.ExactDecimal
import DocShell.Proofs.Fetching
import DocShell.Proofs.Highlighting
import DocShell.Proofs.Hinting
import DocShell.Proofs.Indexing
import DocShell.Proofs.Integers
import DocShell.Proofs.Joining
import DocShell.Proofs.JsonText
import DocShell.Proofs.LastWord
import DocShell.Proofs.LeadingSlash
import DocShell.Proofs.Lexing
import DocShell.Proofs.Likeness
import DocShell.Proofs.Listing
import DocShell.Proofs.Lossless
import DocShell.Proofs.Members
import DocShell.Proofs.MenuOrder
import DocShell.Proofs.Misplacement
import DocShell.Proofs.Narrowing
import DocShell.Proofs.Nesting
import DocShell.Proofs.Numeral
import DocShell.Proofs.OfferedPaths
import DocShell.Proofs.Offering
import DocShell.Proofs.PastedTimestamps
import DocShell.Proofs.PathLine
import DocShell.Proofs.PathSegments
import DocShell.Proofs.Phrase
import DocShell.Proofs.PlanText
import DocShell.Proofs.QuotedText
import DocShell.Proofs.Reading
import DocShell.Proofs.Recasing
import DocShell.Proofs.Recognition
import DocShell.Proofs.Reconfiguration
import DocShell.Proofs.Refusal
import DocShell.Proofs.Relocation
import DocShell.Proofs.Rendering
import DocShell.Proofs.Replacement
import DocShell.Proofs.Reuse
import DocShell.Proofs.Sessions
import DocShell.Proofs.Settling
import DocShell.Proofs.Slots
import DocShell.Proofs.Spelling
import DocShell.Proofs.Stream
import DocShell.Proofs.TableText
import DocShell.Proofs.Timestamps
import DocShell.Proofs.Walk
import DocShell.Proofs.WellFormed
import DocShell.Query.Grammar
import DocShell.Query.Lexeme
import DocShell.Query.Operation
import DocShell.Query.ParseError
import DocShell.Query.Parser
import DocShell.Query.Plan
import DocShell.Query.Rule
import DocShell.Query.Token
import DocShell.Shell.Arguments
import DocShell.Shell.Config
import DocShell.Shell.ConfigText
import DocShell.Shell.Pager
import DocShell.Shell.Program
import DocShell.Shell.Session
import DocShell.Shell.Setup
import DocShell.Store
import DocShell.Text.Ascii
import DocShell.Text.Blank
import DocShell.Text.Bytes
import DocShell.Text.Segments
import DocShell.Time.Calendar
import DocShell.Time.Reader
import DocShell.Time.Timestamp
import DocShell.Toml.Document
import DocShell.Toml.Printer
import DocShell.Toml.Reader
import DocShell.Toml.Scalar
import DocShell.Toml.Token
import DocShell.Toml.Value
