import ObjectGraph.Entry

/-! Handles: one kind of reference to every kind of location. A walk takes one step at a
time, by the kind of what it finds, and ends in a read or a write. -/
namespace ObjectGraph

inductive Handle where
  | direct (p : Location)
  | entry (e : Entry)
  deriving DecidableEq, Repr

namespace Handle

/-- The root of the graph that starts in a cell. -/
def root (c : CellId) : Handle := direct (.cell c [])

def isEntry : Handle → Bool
  | direct _ => false
  | entry _ => true

/-- The location that a further step starts from. -/
def location (g : Graph) : Handle → Location
  | direct p => p
  | entry e => e.location g

/-! Steps -/

/-- The target of a pointer or the content of an interface. A map entry stays the same
entry, so that a write still goes back under its key. -/
def elem (g : Graph) : Handle → Except Fault (Graph × Handle)
  | direct p => do return (g, direct (← p.deref g))
  | entry e => do
    let (g, e) ← e.deref g
    return (g, entry e)

def field (g : Graph) (h : Handle) (name : String) : Except Fault Handle :=
  direct <$> (h.location g).field g name

def index (g : Graph) (h : Handle) (i : Nat) : Except Fault Handle :=
  direct <$> (h.location g).index g i

/-- The entry under `key`, whether the map has it or not. -/
def entryAt (g : Graph) (h : Handle) (key : Key) : Except Fault (Graph × Handle) := do
  let p := h.location g
  let elem ← p.elemFor g key
  let (g, cache) := g.newCache
  return (g, entry ⟨p, key, elem, cache⟩)

/-! Writes -/

/-- The graph in which `v` has been written where `h` leads. The handle stays the same. -/
def set (g : Graph) (h : Handle) (v : Value) : Except Fault Graph :=
  match h with
  | direct p => p.store g v
  | entry e => e.store g v

/-! Reads -/

/-- The value, or nothing for an entry that its map does not have. -/
def read (g : Graph) : Handle → Except Fault (Option Value)
  | direct p => some <$> p.read g
  | entry e => e.read g

/-- The stored value, if the location has one. -/
def value? (g : Graph) (h : Handle) : Option Value :=
  match h.read g with
  | .ok v => v
  | .error _ => none

def isValid (g : Graph) (h : Handle) : Bool :=
  match h.read g with
  | .ok v => v.isSome
  | .error _ => false

/-- The type of the value. An entry that was neither followed nor written has the element
type of its map, whatever is stored. -/
def ty (g : Graph) : Handle → Except Fault Ty
  | direct p => Value.ty <$> p.read g
  | entry e => e.ty g

def kind (g : Graph) : Handle → Kind
  | direct p => p.kind g
  | entry e => e.kind g

/-- The value out of its interface. An absent entry reads as the zero of its map's element
type, as a look-up would. -/
def get (g : Graph) : Handle → Except Fault Value
  | direct p => Value.unbox <$> p.read g
  | entry e => do return ((← e.read g).getD e.elem.zero).unbox

/-- The value, which has to be there. -/
def present (g : Graph) : Handle → Except Fault Value
  | direct p => p.read g
  | entry e => do
    match ← e.read g with
    | some v => return v
    | none => .error (.absentEntry e.key)

def isNil (g : Graph) (h : Handle) : Except Fault Bool := do
  let v ← h.present g
  match v.isNil? with
  | some b => return b
  | none => .error (.kindMismatch .isNil v.kind)

def length (g : Graph) (h : Handle) : Except Fault Nat := do
  let v ← h.present g
  match v.length? with
  | some n => return n
  | none => .error (.kindMismatch .length v.kind)

def isEmpty (g : Graph) (h : Handle) : Except Fault Bool := (· == 0) <$> h.length g

end Handle

end ObjectGraph
