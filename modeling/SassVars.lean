import SassVars.Journal
import SassVars.Proofs.Scoping
import SassVars.Proofs.Modes
import SassVars.Proofs.Grammar.Comment
import SassVars.Proofs.Grammar.Value
import SassVars.Proofs.Grammar.Quoted
import SassVars.Proofs.Grammar.Statement
import SassVars.Proofs.Document.Item
import SassVars.Proofs.Document.Definition
import SassVars.Proofs.Document.RoundTrip
import SassVars.Proofs.Scan.Leftmost
import SassVars.Proofs.Scan.Tokens
import SassVars.Proofs.Standalone.Flag
import SassVars.Proofs.Standalone.Division
import SassVars.Proofs.Standalone.Plain
import SassVars.Proofs.Standalone.Kept
import SassVars.Proofs.Standalone.Whole
import SassVars.Proofs.Expansion.Nested
import SassVars.Proofs.Expansion.Size
import SassVars.Proofs.Expansion.WellFormed
import SassVars.Proofs.Json.Keys
import SassVars.Proofs.Output
import SassVars.Proofs.Json.Compact
import SassVars.Proofs.Json.Spacing
import SassVars.Proofs.Json.Lossless
import SassVars.Proofs.Blocks
import SassVars.Proofs.Document.Marked
import SassVars.Proofs.Standalone.Pair
import SassVars.Proofs.Grammar.Entry
import SassVars.Proofs.MapLiteral.Wrapped
import SassVars.Proofs.MapLiteral.Flat
import SassVars.Proofs.MapLiteral.Tree
import SassVars.Proofs.MapLiteral.Separator
import SassVars.Proofs.Multimap
import SassVars.Proofs.Scan.AnyCase
import SassVars.Proofs.Standalone.Fields
import SassVars.Proofs.Text.Folding
import SassVars.Proofs.Text.Utf8
import SassVars.Proofs.Grammar.Closing
import SassVars.Proofs.Grammar.Alone
