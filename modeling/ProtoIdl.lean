import ProtoIdl.Schema.Json
import ProtoIdl.Parse
import ProtoIdl.Proofs.Nesting
import ProtoIdl.Proofs.Parser.Block
import ProtoIdl.Proofs.Parser.Running
import ProtoIdl.Proofs.Parser.Yields
import ProtoIdl.Proofs.Parser.FileLoop
import ProtoIdl.Proofs.Depth.Gauge
import ProtoIdl.Proofs.Depth.Option
import ProtoIdl.Proofs.Depth.Grammar
import ProtoIdl.Proofs.Depth.Limit
import ProtoIdl.Proofs.WellFormed.Schema
import ProtoIdl.Proofs.WellFormed.Grammar
import ProtoIdl.Proofs.WellFormed.Linking
import ProtoIdl.Proofs.Local.Settled
import ProtoIdl.Proofs.Local.Grammar
import ProtoIdl.Proofs.Local.Statement
import ProtoIdl.Proofs.Local.Member
import ProtoIdl.Proofs.Local.FirstError
import ProtoIdl.Proofs.Local.Concat
import ProtoIdl.Proofs.Local.Join
import ProtoIdl.Proofs.Trace.Behind
import ProtoIdl.Proofs.Local.Body
import ProtoIdl.Proofs.Parser.Reading
import ProtoIdl.Proofs.RoundTrip.Printable
import ProtoIdl.Proofs.RoundTrip.Rendering
import ProtoIdl.Proofs.RoundTrip.Word
import ProtoIdl.Proofs.OptionMap
import ProtoIdl.Proofs.RoundTrip.Option
import ProtoIdl.Proofs.RoundTrip.Enum
import ProtoIdl.Proofs.RoundTrip.Field
import ProtoIdl.Proofs.Members.Loop
import ProtoIdl.Proofs.Members.Signature
import ProtoIdl.Proofs.RoundTrip.Service
import ProtoIdl.Proofs.RoundTrip.Message
import ProtoIdl.Proofs.RoundTrip.File
import ProtoIdl.Proofs.Link.Extended
import ProtoIdl.Proofs.Resolve.Name
import ProtoIdl.Proofs.Link.Located
import ProtoIdl.Proofs.Resolve.Place
import ProtoIdl.Proofs.Resolve.Exact
import ProtoIdl.Proofs.Link.Linking
import ProtoIdl.Proofs.Trace.Grammar
import ProtoIdl.Proofs.Trace.Alike
import ProtoIdl.Proofs.Token.Joining
import ProtoIdl.Proofs.Token.Quotes
import ProtoIdl.Proofs.Token.Lexeme
import ProtoIdl.Proofs.Trace.Position
import ProtoIdl.Proofs.Comments.Aligned
import ProtoIdl.Proofs.Comments.Mirror
import ProtoIdl.Proofs.Comments.Structure
import ProtoIdl.Proofs.Comments.Members
import ProtoIdl.Proofs.Comments.Option
import ProtoIdl.Proofs.Comments.Declaration
import ProtoIdl.Proofs.Comments.File
import ProtoIdl.Proofs.Comments.Linking
import ProtoIdl.Proofs.Comments.Meaning
import ProtoIdl.Proofs.Token.Scanning
import ProtoIdl.Proofs.Token.Splitting
import ProtoIdl.Proofs.Token.Lines
import ProtoIdl.Proofs.Literal.Content
import ProtoIdl.Proofs.Literal.Closing
import ProtoIdl.Proofs.Literal.Matching
import ProtoIdl.Proofs.Literal.Option
import ProtoIdl.Proofs.Literal.Dangling
import ProtoIdl.Proofs.Literal.Grouping
import ProtoIdl.Proofs.Literal.Cutting
import ProtoIdl.Proofs.Json.Rendering
import ProtoIdl.Proofs.Json.Serialize
import ProtoIdl.Proofs.Link.Resolution
import ProtoIdl.Proofs.Link.Order
import ProtoIdl.Proofs.Parser.Spans
import ProtoIdl.Proofs.Bracket.Word
import ProtoIdl.Proofs.Bracket.Option
import ProtoIdl.Proofs.Bracket.Grammar
import ProtoIdl.Proofs.Bracket.File
import ProtoIdl.Proofs.Extend.Layout
import ProtoIdl.Proofs.Extend.Blocks
import ProtoIdl.Proofs.Link.Relinking
import ProtoIdl.Proofs.Cursor.Balanced
import ProtoIdl.Proofs.Cursor.Stack
import ProtoIdl.Proofs.Numeral.Spelling
import ProtoIdl.Proofs.Numeral.Machine
import ProtoIdl.Proofs.Numeral.Taking
import ProtoIdl.Proofs.Numeral.Range
import ProtoIdl.Proofs.Numeral.Slot
import ProtoIdl.Proofs.Extend.Members
import ProtoIdl.Proofs.Extend.File
import ProtoIdl.Proofs.OptionMap.Calls
import ProtoIdl.Proofs.OptionMap.Kinds
import ProtoIdl.Proofs.OptionMap.Entry
import ProtoIdl.Proofs.OptionMap.Written
import ProtoIdl.Proofs.ImportPath
import ProtoIdl.Proofs.Ahead.Lookahead
import ProtoIdl.Proofs.Ahead.Grammar
import ProtoIdl.Proofs.Ahead.Construct
import ProtoIdl.Proofs.Members.Alone
import ProtoIdl.Proofs.Members.Fold
import ProtoIdl.Proofs.Members.Enum
import ProtoIdl.Proofs.Members.Method
import ProtoIdl.Proofs.Members.Service
import ProtoIdl.Proofs.Token.Reprint
import ProtoIdl.Token.Bytes
import ProtoIdl.Proofs.Token.Utf8
import ProtoIdl.Proofs.Token.Bytes
import ProtoIdl.Proofs.Token.ByteLoops
import ProtoIdl.Proofs.Token.ByteCalls
import ProtoIdl.Proofs.Commented.Slot
import ProtoIdl.Proofs.Commented.Level
import ProtoIdl.Proofs.Commented.Place
import ProtoIdl.Proofs.Commented.Steady
import ProtoIdl.Proofs.Commented.Member
import ProtoIdl.Proofs.Commented.Braced
import ProtoIdl.Proofs.Commented.Message
import ProtoIdl.Proofs.Commented.File
import ProtoIdl.Proofs.Commented.Schema
import ProtoIdl.Proofs.Commented.Layout
import ProtoIdl.Proofs.Termination.Script
import ProtoIdl.Proofs.Termination.Rounds
import ProtoIdl.Proofs.Termination.Loops
import ProtoIdl.Proofs.Termination.Grammar
import ProtoIdl.Proofs.Termination.Progress
