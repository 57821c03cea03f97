import Disasm.FlowGraph
import Disasm.Labels

/-! # Function files

A function file holds the blocks of one function with their edges and labels. It
gives a flow graph if its block numbers are distinct, all its statements are
instructions, and its entry and its edges name blocks.
-/

namespace Disasm

structure FunctionFile where
  name : String := ""
  entry : BlockId := ⟨0⟩
  blocks : List Block
  edges : List Edge := []
  labels : Labels := .empty

namespace FunctionFile

inductive GraphError where
  | duplicateBlock (id : BlockId)
  | undecodedData (id : BlockId) (address : Address)
  | missingEntry (id : BlockId)
  | badEdge (edge : Edge) (cause : FlowGraph.MissingBlock)
  deriving DecidableEq, Repr

def GraphError.message : GraphError → String
  | duplicateBlock id => "duplicate block id " ++ id.text
  | undecodedData id a => "block " ++ id.text ++ " holds undecoded data at " ++ a.text
  | missingEntry id => "entry block " ++ id.text ++ " is not defined"
  | badEdge e _ => "bad edge " ++ e.1.text ++ " -> " ++ e.2.text

def GraphError.causes : GraphError → List String
  | badEdge _ cause => [cause.message]
  | _ => []

def addBlocks : FlowGraph → List Block → Except GraphError FlowGraph
  | g, [] => .ok g
  | g, b :: bs =>
    if g.contains b.id then .error (.duplicateBlock b.id)
    else
      match b.firstData? with
      | some a => .error (.undecodedData b.id a)
      | none => addBlocks (g.addBlock b) bs

def addEdges : FlowGraph → List Edge → Except GraphError FlowGraph
  | g, [] => .ok g
  | g, e :: es =>
    match g.addEdge e.1 e.2 with
    | .ok g => addEdges g es
    | .error cause => .error (.badEdge e cause)

def graph (f : FunctionFile) : Except GraphError FlowGraph := do
  let g ← addBlocks (.empty f.entry) f.blocks
  if !f.blocks.isEmpty && !g.contains f.entry then .error (.missingEntry f.entry)
  else addEdges g f.edges

def instructions (f : FunctionFile) : List Instruction := f.blocks.flatMap Block.instructions

/-- The first instruction at an address, in file order. -/
def instructionAt? (f : FunctionFile) (a : Address) : Option Instruction :=
  f.instructions.find? fun i => i.address == a

/-- What the function is called: its name, or else its place. -/
def title (f : FunctionFile) : String :=
  if f.name.isEmpty then
    match f.blocks with
    | [] => "<empty>"
    | b :: _ => "at " ++ b.start.text
  else f.name

end FunctionFile

end Disasm
