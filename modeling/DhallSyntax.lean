import DhallSyntax.Command.Folder
import DhallSyntax.Main
import DhallSyntax.Tree.Equality
import DhallSyntax.Proofs.Parser.Account
import DhallSyntax.Proofs.Parser.Unbounded
import DhallSyntax.Proofs.Parser.Report
import DhallSyntax.Proofs.Parser.Recall
import DhallSyntax.Proofs.Parser.Moments
import DhallSyntax.Proofs.Parser.Bounded
import DhallSyntax.Proofs.Parser.Uncached
import DhallSyntax.Proofs.Parser.Packrat
import DhallSyntax.Proofs.Grammar.Faults
import DhallSyntax.Proofs.Parser.Faults
import DhallSyntax.Proofs.Parser.DepthGuard
import DhallSyntax.Proofs.Parser.Limits
import DhallSyntax.Proofs.Parser.Discipline
import DhallSyntax.Proofs.Grammar.Cascade
import DhallSyntax.Proofs.Number.Conversion
import DhallSyntax.Proofs.Number.Decimal
import DhallSyntax.Proofs.Document.Leaves
import DhallSyntax.Proofs.Document.RoundTrip
import DhallSyntax.Proofs.Json.Scalars
import DhallSyntax.Proofs.Json.RoundTrip
import DhallSyntax.Proofs.Exchange
import DhallSyntax.Proofs.Text.CharClass
import DhallSyntax.Proofs.Number.DoubleText
import DhallSyntax.Proofs.Grammar.Host
import DhallSyntax.Proofs.Tree.WellFormed
import DhallSyntax.Proofs.Tree.Rendering
import DhallSyntax.Proofs.Reading.Basic
import DhallSyntax.Proofs.Reading.Parts
import DhallSyntax.Proofs.Reading.Yields
import DhallSyntax.Proofs.Reading.Parse
import DhallSyntax.Proofs.Reading.First
import DhallSyntax.Proofs.Reading.Words
import DhallSyntax.Proofs.Reading.Levels
import DhallSyntax.Proofs.Reading.Addresses
import DhallSyntax.Proofs.Reading.Spelling
import DhallSyntax.Proofs.Tree.ParsedParts
import DhallSyntax.Proofs.Tree.Parsed
import DhallSyntax.Proofs.Tree.Groups
import DhallSyntax.Proofs.Reading.Numbers
import DhallSyntax.Proofs.Grammar.HostNames
import DhallSyntax.Proofs.Grammar.HostAddresses
import DhallSyntax.Proofs.Reading.Leaves
import DhallSyntax.Proofs.Reading.Overflow
import DhallSyntax.Proofs.Reading.Escapes
import DhallSyntax.Proofs.Reading.Texts
import DhallSyntax.Proofs.Reading.Forms
import DhallSyntax.Proofs.Reading.Collections
import DhallSyntax.Proofs.Reading.Imports
import DhallSyntax.Proofs.Tree.Readable
import DhallSyntax.Proofs.Context.Steady
import DhallSyntax.Proofs.Reading.Whitespace
import DhallSyntax.Proofs.Reading.Softened
import DhallSyntax.Proofs.Reading.Solid
import DhallSyntax.Proofs.Parser.EntryPoints
import DhallSyntax.Proofs.Parser.Events
import DhallSyntax.Proofs.Reading.Progress
import DhallSyntax.Proofs.Parser.Termination
import DhallSyntax.Proofs.Parser.Misses
import DhallSyntax.Proofs.Parser.Defects
import DhallSyntax.Proofs.Parser.Errors
import DhallSyntax.Proofs.Context.Keys
import DhallSyntax.Proofs.Seam.Basic
import DhallSyntax.Proofs.Seam.Landing
import DhallSyntax.Proofs.Seam.Lexical
import DhallSyntax.Proofs.Context.Backtracking
import DhallSyntax.Proofs.Seam.Runs
import DhallSyntax.Proofs.Context.Taken
import DhallSyntax.Proofs.Context.Around
import DhallSyntax.Proofs.Context.Embedding
import DhallSyntax.Proofs.Context.Chains
import DhallSyntax.Proofs.Parser.Once
import DhallSyntax.Proofs.Parser.Residue
import DhallSyntax.Proofs.Writable
import DhallSyntax.Proofs.Context.Whole
import DhallSyntax.Proofs.Literal.Numbers
import DhallSyntax.Proofs.Literal.DoubleQuoted
import DhallSyntax.Proofs.Context.Halting
import DhallSyntax.Proofs.Literal.Refusals
import DhallSyntax.Proofs.Reading.TextValues
import DhallSyntax.Proofs.Literal.MultiLine
import DhallSyntax.Proofs.Literal.SingleQuoted
import DhallSyntax.Proofs.Lexical.Comments
import DhallSyntax.Proofs.Lexical.Words
import DhallSyntax.Proofs.Collection.Entries
import DhallSyntax.Proofs.Collection.Order
import DhallSyntax.Proofs.Import.Kinds
import DhallSyntax.Proofs.Import.Hashes
import DhallSyntax.Proofs.Import.Whole
import DhallSyntax.Proofs.Import.Environment
import DhallSyntax.Proofs.Import.Urls
import DhallSyntax.Proofs.Document.Reread
import DhallSyntax.Proofs.Document.Numbers
import DhallSyntax.Proofs.Yaml.Exchange
