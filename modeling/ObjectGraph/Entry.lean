import ObjectGraph.Location

/-! Map entries. Reading an entry gives a copy of its value and writing one puts the whole
value back under the key. What was last read by following or last written is cached, and
the cache then stands for the entry. -/
namespace ObjectGraph

/-- The value under `key` in the map at `host`. Handles that share the cache see each
other's writes. -/
structure Entry where
  host : Location
  key : Key
  elem : Ty
  cache : CacheId
  deriving DecidableEq, Repr

namespace Entry

def isCached (g : Graph) (e : Entry) : Bool := (g.cached? e.cache).isSome

/-- The value of the entry, or nothing if its map has none. -/
def read (g : Graph) (e : Entry) : Except Fault (Option Value) :=
  g.current e.cache e.key (e.host.read g)

/-- The type of the cached value, else the element type of the map. -/
def ty (g : Graph) (e : Entry) : Except Fault Ty :=
  match g.cached? e.cache with
  | none => .ok e.elem
  | some (.copy v) => .ok v.ty
  | some (.target c path) => Value.ty <$> g.load c path

def kind (g : Graph) (e : Entry) : Kind :=
  match g.cached? e.cache with
  | some (.target c path) => (Location.cell c path).kind g
  | some (.copy v) => v.kind
  | none => e.elem.kind

def store (g : Graph) (e : Entry) (v : Value) : Except Fault Graph :=
  g.storeEntry e.cache e.key e.elem (e.host.update g) v

/-- What a cache holds once the entry's value `v` has been followed. -/
def follow : Value → Except Fault Cached
  | .pointer _ c => .ok (.target c [])
  | .boxed v => .ok (.copy v)
  | .nilPointer _ => .error (.nilDereference .pointer)
  | .nilAny => .error (.nilDereference .interface)
  | v => .error (.kindMismatch .elem v.kind)

/-- What is one level below the entry's value. Past a pointer the content of an interface
stays in its place in the target. -/
def below (g : Graph) (e : Entry) : Except Fault Cached :=
  match g.cached? e.cache with
  | some (.target c path) => do
    match ← g.load c path with
    | .boxed _ => return .target c (path ++ [.unbox])
    | v => follow v
  | _ => do
    match ← e.read g with
    | some v => follow v
    | none => .error (.absentEntry e.key)

/-- The same entry one level further down, with a cache of its own. -/
def deref (g : Graph) (e : Entry) : Except Fault (Graph × Entry) := do
  let cached ← e.below g
  let (g, cache) := g.newCache
  return (g.setCache cache cached, { e with cache })

/-- The location of the entry's value: past a pointer its target, else in the map. -/
def location (g : Graph) (e : Entry) : Location :=
  match g.cached? e.cache with
  | some (.target c path) => .cell c path
  | _ => .entry e.host e.key e.elem e.cache []

end Entry

end ObjectGraph
