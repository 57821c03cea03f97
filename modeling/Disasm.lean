import Disasm.Json.Writer
import Disasm.Main
import Disasm.Proofs.FlowGraph.Order
import Disasm.Proofs.Operand.Meaning
import Disasm.Proofs.Operand.Indexed
import Disasm.Proofs.Operand.Unsupported
import Disasm.Proofs.Instruction.Line
import Disasm.Proofs.Listing.Lines
import Disasm.Proofs.FunctionFile.Graph
import Disasm.Proofs.FunctionFile.Listing
import Disasm.Proofs.Program
import Disasm.Proofs.FlowGraph.History
import Disasm.Proofs.FlowGraph.Reachable
import Disasm.Proofs.FunctionFile.Validity
import Disasm.Proofs.Operand.Agreement
import Disasm.Proofs.Address
import Disasm.Proofs.Instruction.Parts
import Disasm.Proofs.FunctionFile.Place
import Disasm.Proofs.Json.Scan
import Disasm.Proofs.Json.ReadBack
import Disasm.Proofs.Labels
import Disasm.Proofs.Storage.Decode
import Disasm.Proofs.Storage.Labels
import Disasm.Proofs.Storage.Faithful
import Disasm.Proofs.Storage.Register
import Disasm.Proofs.Storage.Expression
import Disasm.Proofs.Storage.Block
import Disasm.Proofs.Double.Rounding
import Disasm.Proofs.Double.Decimal
import Disasm.Proofs.Double.Shortest
import Disasm.Proofs.Double.Stored
import Disasm.Proofs.Storage.ReadBack
import Disasm.Proofs.Operand.ReadBack
import Disasm.Proofs.Instruction.OneLine
import Disasm.Proofs.Listing.Pages
import Disasm.Proofs.Operand.Signs
import Disasm.Proofs.Operand.Grouping
import Disasm.Proofs.Instruction.Lea
import Disasm.Proofs.Operand.Influence
import Disasm.Proofs.Operand.Displacement
import Disasm.Proofs.FlowGraph.Dominators
import Disasm.Proofs.FlowGraph.Redundant
import Disasm.Proofs.Labels.Override
import Disasm.Proofs.Instruction.Dump
import Disasm.Proofs.Literal.Arithmetic
import Disasm.Proofs.Operand.Keyword
import Disasm.Proofs.Block.Reasons
import Disasm.Proofs.Register.Distinct
