import HotkeyLex.Text.CharClass
import HotkeyLex.Text.Decimal
import HotkeyLex.Text.Fold
import HotkeyLex.Text.Layout
import HotkeyLex.Text.Pieces
import HotkeyLex.Text.White
import HotkeyLex.Vocabulary
import HotkeyLex.Span
import HotkeyLex.Script
import HotkeyLex.Cursor.Basic
import HotkeyLex.Cursor.Run
import HotkeyLex.Word
import HotkeyLex.Kind
import HotkeyLex.KindSet
import HotkeyLex.KindList
import HotkeyLex.Rule.Optional
import HotkeyLex.Rule.Omitted
import HotkeyLex.Rule.Juxtaposition
import HotkeyLex.Rule.Section
import HotkeyLex.Rule.LineBreak
import HotkeyLex.Rule.Declaration
import HotkeyLex.Choice
import HotkeyLex.Event
import HotkeyLex.Session
import HotkeyLex.Walk
import HotkeyLex.Tool.Fault
import HotkeyLex.Tool.Request
import HotkeyLex.Tool.Channel
import HotkeyLex.Tool.Listing
import HotkeyLex.Tool.Report
import HotkeyLex.Tool.Folder
import HotkeyLex.Tool.Program
import HotkeyLex.Main
import HotkeyLex.Proofs.Encoding
import HotkeyLex.Proofs.Placement
import HotkeyLex.Proofs.Runs
import HotkeyLex.Proofs.Reader
import HotkeyLex.Proofs.Motion
import HotkeyLex.Proofs.Spelling
import HotkeyLex.Proofs.Likeness
import HotkeyLex.Proofs.ParenSearch
import HotkeyLex.Proofs.Priority
import HotkeyLex.Proofs.Rivalry
import HotkeyLex.Proofs.Horizon
import HotkeyLex.Proofs.Displacement
import HotkeyLex.Proofs.Respelling
import HotkeyLex.Proofs.TokenBounds
import HotkeyLex.Proofs.Coverage
import HotkeyLex.Proofs.Parameters
import HotkeyLex.Proofs.Nulls
import HotkeyLex.Proofs.Channels
import HotkeyLex.Proofs.Sweep
import HotkeyLex.Proofs.Words
import HotkeyLex.Proofs.Grammar
import HotkeyLex.Proofs.Declarations
import HotkeyLex.Proofs.Sections
import HotkeyLex.Proofs.Juxtapositions
import HotkeyLex.Proofs.Marks
import HotkeyLex.Proofs.Lookups
import HotkeyLex.Proofs.Positions
import HotkeyLex.Proofs.Storage
import HotkeyLex.Proofs.Machines
import HotkeyLex.Proofs.Faithfulness
import HotkeyLex.Proofs.Checked
import HotkeyLex.Proofs.Exactness
import HotkeyLex.Proofs.Gaps
import HotkeyLex.Proofs.CommandLines
import HotkeyLex.Proofs.KindLists
import HotkeyLex.Proofs.Unguarded
import HotkeyLex.Proofs.Endings
import HotkeyLex.Proofs.ClosingParens
