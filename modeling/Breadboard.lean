import Breadboard.Assembly.Assembler
import Breadboard.Host.Buffered
import Breadboard.Host.Channel
import Breadboard.Host.Probe
import Breadboard.Host.Scripted
import Breadboard.Host.Silent
import Breadboard.Machine.Run
import Breadboard.Proofs.Expr.Arithmetic
import Breadboard.Proofs.Expr.Grammar
import Breadboard.Proofs.Expr.Recognition
import Breadboard.Proofs.Machine.Notification
import Breadboard.Proofs.Disk.Canonical
import Breadboard.Proofs.Source.Growth
import Breadboard.Proofs.Source.Rereading
import Breadboard.Proofs.Assembly.Update
import Breadboard.Proofs.Source.Extent
import Breadboard.Proofs.Assembly.Reading
import Breadboard.Proofs.Assembly.Definition
import Breadboard.Proofs.Assembly.History
import Breadboard.Proofs.Assembly.Complaint
import Breadboard.Proofs.Assembly.Phase
import Breadboard.Proofs.Assembly.Lockstep
import Breadboard.Proofs.Source.Order
import Breadboard.Proofs.Symbol.Scopes
import Breadboard.Proofs.Assembly.Agreement
import Breadboard.Proofs.Machine.Service
import Breadboard.Proofs.Machine.Breakpoints
import Breadboard.Proofs.Machine.Correspondence
import Breadboard.Proofs.Machine.Likeness
import Breadboard.Proofs.Machine.Stepping
import Breadboard.Proofs.Machine.Calls
import Breadboard.Proofs.Expr.Leniency
import Breadboard.Proofs.Assembly.Encoding
import Breadboard.Proofs.Assembly.SingleSource
import Breadboard.Proofs.Assembly.ForwardReference
import Breadboard.Proofs.Expr.Enclosure
import Breadboard.Proofs.Isa.OpcodeTable
import Breadboard.Proofs.Assembly.Operand
import Breadboard.Proofs.Machine.Loading
import Breadboard.Proofs.Machine.Decoding
import Breadboard.Proofs.Machine.Execution
import Breadboard.Proofs.Assembly.Execution
import Breadboard.Proofs.Assembly.Tokens
import Breadboard.Proofs.Assembly.Inclusion
import Breadboard.Proofs.Source.Faithful
import Breadboard.Proofs.Assembly.Expansion
import Breadboard.Proofs.Assembly.IncludeOnce
import Breadboard.Proofs.Assembly.Rereading
import Breadboard.Proofs.Assembly.Redefinition
import Breadboard.Proofs.Assembly.LocalSymbol
import Breadboard.Proofs.Assembly.Footprint
import Breadboard.Proofs.Assembly.Truncation
import Breadboard.Proofs.Machine.StatusRegister
import Breadboard.Proofs.Machine.Turbo
import Breadboard.Proofs.Assembly.Repetition
import Breadboard.Proofs.Source.LetterCase
import Breadboard.Proofs.Expr.LetterCase
import Breadboard.Proofs.Assembly.LetterCase
import Breadboard.Proofs.Assembly.Insensitivity
import Breadboard.Proofs.Machine.MultiByte
import Breadboard.Proofs.Machine.TrapCall
import Breadboard.Proofs.Machine.Course
import Breadboard.Proofs.Machine.Reconfiguration
import Breadboard.Proofs.Host.Recorded
import Breadboard.Proofs.Machine.Configuration
import Breadboard.Proofs.Host.Delivery
import Breadboard.Proofs.Machine.Legality
import Breadboard.Proofs.Machine.Spelling
import Breadboard.Proofs.Machine.Stack
import Breadboard.Proofs.Machine.Break
import Breadboard.Proofs.Machine.Frame
import Breadboard.Proofs.Isa.Building
import Breadboard.Proofs.Token.SourceForm
import Breadboard.Proofs.Machine.Files
import Breadboard.Proofs.Host.Watched
import Breadboard.Proofs.Machine.Yielding
import Breadboard.Proofs.Expr.Strictness
import Breadboard.Proofs.Symbol.Completion
import Breadboard.Proofs.Assembly.InstructionMap
import Breadboard.Proofs.Source.Failure
import Breadboard.Proofs.Expr.Parenthesis
import Breadboard.Proofs.Symbol.ScopeTable
import Breadboard.Proofs.Expr.Numeral
import Breadboard.Proofs.Machine.Around
import Breadboard.Proofs.Assembly.Wrapping
