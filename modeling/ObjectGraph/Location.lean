import ObjectGraph.Graph

/-! Locations. A location is found anew at each use, from the cell it starts in. Below a map
entry, which cannot be changed in place, a copy of the entry's value is changed and put back
into the map. -/
namespace ObjectGraph

/-- A path into a cell, or into the value of a map entry whose map is at `host`. The entry
keeps the element type that the map had when it was found. -/
inductive Location where
  | cell (c : CellId) (path : Path)
  | entry (host : Location) (key : Key) (elem : Ty) (cache : CacheId) (path : Path)
  deriving DecidableEq, Repr

namespace Graph

/-- The value of a map entry: the cached one, or what the map, if it can be read, has under
the key. -/
def current (g : Graph) (cache : CacheId) (key : Key) (map : Except Fault Value) :
    Except Fault (Option Value) :=
  match g.cached? cache with
  | some (.copy v) => .ok (some v)
  | some (.target c path) => some <$> g.load c path
  | none => do (← map).lookup key

/-- Writes `v` to a map entry whose map `change` changes, and caches it. Past a pointer the
write goes to the target and the map keeps the pointer. -/
def storeEntry (g : Graph) (cache : CacheId) (key : Key) (elem : Ty)
    (change : (Value → Except Fault Value) → Except Fault Graph) (v : Value) :
    Except Fault Graph :=
  match g.cached? cache with
  | some (.target c path) => g.store c path v
  | _ => do
    let stored ← v.assignTo elem
    return (← change (Value.insert key stored)).setCache cache (.copy v)

end Graph

namespace Location

def path : Location → Path
  | cell _ path | entry _ _ _ _ path => path

def withPath (path : Path) : Location → Location
  | cell c _ => cell c path
  | entry host key elem cache _ => entry host key elem cache path

/-- The location one step further. -/
def step (p : Location) (s : Step) : Location := p.withPath (p.path ++ [s])

/-- The value at the location. -/
def read (g : Graph) : Location → Except Fault Value
  | cell c path => g.load c path
  | entry host key _ cache path => do
    match ← g.current cache key (host.read g) with
    | some whole => whole.resolve path
    | none => .error (.absentEntry key)

/-- The graph in which `f` has changed the value at the location. -/
def update (g : Graph) (p : Location) (f : Value → Except Fault Value) : Except Fault Graph :=
  match p with
  | cell c path => g.update c path f
  | entry host key elem cache path => do
    match ← g.current cache key (host.read g) with
    | some whole => g.storeEntry cache key elem (host.update g) (← whole.change f path)
    | none => .error (.absentEntry key)

/-- The graph in which `v` has been written at the location. -/
def store (g : Graph) (p : Location) (v : Value) : Except Fault Graph :=
  (p.withPath p.path.slot).update g (v.overwrite p.path)

def kind (g : Graph) (p : Location) : Kind :=
  match p.read g with
  | .ok v => v.kind
  | .error _ => .invalid

/-- The target of a pointer or the content of an interface. -/
def deref (g : Graph) (p : Location) : Except Fault Location := do
  match ← p.read g with
  | .pointer _ c => return cell c []
  | .boxed _ => return p.step .unbox
  | .nilPointer _ => .error (.nilDereference .pointer)
  | .nilAny => .error (.nilDereference .interface)
  | v => .error (.kindMismatch .elem v.kind)

def field (g : Graph) (p : Location) (name : String) : Except Fault Location := do
  match ← p.read g with
  | .struct layout _ =>
    match layout.fieldIndex? name with
    | some i => return p.step (.field i)
    | none => .error (.noSuchField layout.ty name)
  | v => .error (.kindMismatch .field v.kind)

def index (g : Graph) (p : Location) (i : Nat) : Except Fault Location := do
  match ← p.read g with
  | .nilSlice _ => .error (.indexOutOfRange i 0)
  | .slice _ items =>
    if i < items.length then return p.step (.index i)
    else .error (.indexOutOfRange i items.length)
  | v => .error (.kindMismatch .index v.kind)

/-- The element type of the map at the location, if it is keyed as `key` is. -/
def elemFor (g : Graph) (p : Location) (key : Key) : Except Fault Ty := do
  match ← p.read g with
  | .nilMap k elem | .map k elem _ =>
    if key.ty = k then return elem else .error (.notAssignable key.ty.ty k.ty)
  | v => .error (.kindMismatch .entry v.kind)

end Location

end ObjectGraph
