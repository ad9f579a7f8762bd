import ObjectGraph.Document.Basic

/-! Values as documents. A struct is an object of its fields, a pointer is what it points
to, and nil is null. -/
namespace ObjectGraph

inductive DocumentFault where
  | graph (fault : Fault)
  /-- A pointer on the way leads to a cell that cannot be read. -/
  | cell (cause : Unresolved)
  /-- The pointers lead on through more cells than there are. -/
  | endless
  deriving DecidableEq, Repr

def DocumentFault.message : DocumentFault → String
  | graph fault => "Graph error: " ++ fault.message
  | cell cause => "JSON error: " ++ cause.message
  | endless => "JSON error: endless pointers"

/-- The name of the member that a map entry becomes. -/
def Key.memberName : Key → String
  | bool b => Document.nameOfBool b
  | int i => Document.nameOfInt64 i
  | string s => s

namespace Value

mutual
/-- The document of a value, with the document of each pointer's target from `follow`. -/
def documentBy (follow : CellId → Except DocumentFault Document) :
    Value → Except DocumentFault Document
  | bool b => .ok (.bool b)
  | int i => .ok (.ofInt64 i)
  | float x => .ok (.ofFloat x)
  | string s => .ok (.string s)
  | struct layout fields => do
    let ds ← documentsBy follow fields
    return .ofMembers ((layout.fields.map (·.1)).zip ds)
  | map _ _ entries => do return .ofMembers (← membersBy follow entries)
  | slice _ items => do return .array (← documentsBy follow items)
  | pointer _ c => follow c
  | boxed v => documentBy follow v
  | nilMap .. | nilSlice _ | nilPointer _ | nilAny => .ok .null
  termination_by structural v => v

def documentsBy (follow : CellId → Except DocumentFault Document) :
    List Value → Except DocumentFault (List Document)
  | [] => .ok []
  | v :: vs => do
    let d ← documentBy follow v
    return d :: (← documentsBy follow vs)
  termination_by structural vs => vs

def membersBy (follow : CellId → Except DocumentFault Document) :
    List (Key × Value) → Except DocumentFault (List (String × Document))
  | [] => .ok []
  | (k, v) :: es => do
    let d ← documentBy follow v
    return (k.memberName, d) :: (← membersBy follow es)
  termination_by structural es => es
end

end Value

namespace Graph

/-- The document of a cell's content, through at most `n` cells. -/
def cellDocument (g : Graph) : Nat → CellId → Except DocumentFault Document
  | 0, _ => .error .endless
  | n + 1, c =>
    match g.readable c with
    | .ok v => v.documentBy (cellDocument g n)
    | .error cause => .error (.cell cause)

end Graph

/-- The document of a value. Unless pointers form a cycle, no way through them is longer
than the number of cells. -/
def Value.document (g : Graph) (v : Value) : Except DocumentFault Document :=
  v.documentBy (g.cellDocument g.cells.size)

namespace Handle

/-- The document of the value that a handle leads to. -/
def readDocument (g : Graph) (h : Handle) : Except DocumentFault Document := do
  (← (h.get g).mapError .graph).document g

/-- The graph in which a document has been written where a handle leads. -/
def writeDocument (g : Graph) (h : Handle) (d : Document) : Except DocumentFault Graph := do
  let t ← (h.ty g).mapError .graph
  (h.set g (d.valueFor t)).mapError .graph

end Handle

end ObjectGraph
