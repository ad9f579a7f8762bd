import ObjectGraph.Path

/-! The state that values and handles live in: the contents of the cells, what the handles
on map entries have cached, and the cells that a caller holds. -/
namespace ObjectGraph

/-- The caches of handles on map entries. -/
structure CacheId where
  index : Nat
  deriving DecidableEq, Repr

/-- What a handle on a map entry stands for once it has been followed or written. -/
inductive Cached where
  /-- A copy of the entry's value, or of the content of the interface stored there. -/
  | copy (v : Value)
  /-- A location that a pointer stored in the entry leads to. -/
  | target (cell : CellId) (path : Path)
  deriving Repr

/-- How a caller holds a cell: a shared hold stops writes, an exclusive one reads as well. -/
inductive Hold where
  | shared | exclusive
  deriving DecidableEq, Repr

structure Graph where
  cells : Array Value
  caches : List (Nat × Cached)
  nextCache : Nat
  holds : List (CellId × Hold)
  deriving Repr

namespace Graph
variable {g : Graph} {c d : CellId} {i j : CacheId} {v w : Value} {e e' : Cached}

def empty : Graph := ⟨#[], [], 0, []⟩

/-- What a cell holds, whoever holds the cell. -/
def content? (g : Graph) (c : CellId) : Option Value := g.cells[c.index]?

/-- A new cell. -/
def alloc (g : Graph) (v : Value) : Graph × CellId :=
  ({ g with cells := g.cells.push v }, ⟨g.cells.size⟩)

/-- Overwrites a cell with no check at all. -/
def put (g : Graph) (c : CellId) (v : Value) : Graph :=
  { g with cells := g.cells.setIfInBounds c.index v }

def hold (g : Graph) (c : CellId) (mode : Hold) : Graph :=
  { g with holds := (c, mode) :: g.holds }

/-- Ends the latest hold of a cell. -/
def release (g : Graph) (c : CellId) : Graph :=
  { g with holds := g.holds.eraseP (·.1 = c) }

def isHeld (g : Graph) (c : CellId) : Bool := g.holds.any (·.1 = c)

def isHeldExclusively (g : Graph) (c : CellId) : Bool := g.holds.contains (c, .exclusive)

/-- The content of a cell, for a reader. -/
def readable (g : Graph) (c : CellId) : Except Unresolved Value :=
  if g.isHeldExclusively c then .error .unreadable
  else match g.content? c with
    | some v => .ok v
    | none => .error (.noCell c)

/-- The content of a cell, for a writer. -/
def writable (g : Graph) (c : CellId) : Except Unresolved Value :=
  if g.isHeld c then .error .unwritable
  else match g.content? c with
    | some v => .ok v
    | none => .error (.noCell c)

/-- The value at a path in a cell. -/
def load (g : Graph) (c : CellId) (path : Path) : Except Fault Value := do
  (← (g.readable c).mapError .unresolved).resolve path

/-- Changes the value at a path in a cell. -/
def update (g : Graph) (c : CellId) (path : Path) (f : Value → Except Fault Value) :
    Except Fault Graph := do
  let v ← (g.writable c).mapError .unresolved
  return g.put c (← v.change f path)

/-- Writes `v` at a path in a cell. -/
def store (g : Graph) (c : CellId) (path : Path) (v : Value) : Except Fault Graph :=
  g.update c path.slot (v.overwrite path)

/-- A handle whose cache is empty reads through to its map. -/
def cached? (g : Graph) (cache : CacheId) : Option Cached := Assoc.get? cache.index g.caches

def setCache (g : Graph) (cache : CacheId) (e : Cached) : Graph :=
  { g with caches := Assoc.insert cache.index e g.caches }

/-- A cache that no handle has yet, and that is empty. -/
def newCache (g : Graph) : Graph × CacheId :=
  ({ g with nextCache := g.nextCache + 1 }, ⟨g.nextCache⟩)

/-- A pointer to a new cell with `v`. -/
def pointerTo (g : Graph) (v : Value) : Graph × Value :=
  let (g, c) := g.alloc v
  (g, .pointer v.ty c)

/-- The content of the cell that a pointer names. -/
def pointee? (g : Graph) : Value → Except Unresolved (Option Value)
  | .pointer _ c => some <$> g.readable c
  | _ => .ok none

theorem content?_put_self (h : g.content? c = some w) : (g.put c v).content? c = some v := by
  obtain ⟨hc, _⟩ := Array.getElem?_eq_some_iff.1 h
  simp [content?, put, hc]

theorem content?_put_ne (h : d ≠ c) : (g.put c v).content? d = g.content? d := by
  have hi : c.index ≠ d.index := fun he => h (by cases c; cases d; simp_all)
  simp [content?, put, hi]

theorem content?_alloc_self : (g.alloc v).1.content? (g.alloc v).2 = some v := by
  simp [content?, alloc]

/-- A new cell leaves the contents of the others. -/
theorem content?_alloc (h : g.content? c = some w) : (g.alloc v).1.content? c = some w := by
  obtain ⟨hc, _⟩ := Array.getElem?_eq_some_iff.1 h
  simp_all [content?, alloc, Array.getElem?_push_lt]

/-- A cell has the new content, or what it had. -/
theorem content?_alloc_cases (h : (g.alloc v).1.content? c = some w) :
    g.content? c = some w ∨ w = v := by
  simp only [content?, alloc, Array.getElem?_push] at h
  split at h
  · exact Or.inr (Option.some.inj h).symm
  · exact Or.inl h

theorem cached?_setCache_self : (g.setCache i e).cached? i = some e :=
  Assoc.get?_insert_self

theorem cached?_setCache_ne (h : j ≠ i) : (g.setCache i e).cached? j = g.cached? j :=
  Assoc.get?_insert_ne fun he => h (by cases i; cases j; simp_all)

theorem put_put : (g.put c v).put c w = g.put c w := by
  simp [put, Array.setIfInBounds_setIfInBounds]

theorem put_of_content? (h : g.content? c = some v) : g.put c v = g := by
  obtain ⟨hc, rfl⟩ := Array.getElem?_eq_some_iff.1 h
  simp [put, Array.setIfInBounds, hc]

theorem setCache_setCache : (g.setCache i e).setCache i e' = g.setCache i e' := by
  simp [setCache, Assoc.insert_insert]

theorem setCache_comm (h : i ≠ j) :
    (g.setCache i e).setCache j e' = (g.setCache j e').setCache i e := by
  have hi : i.index ≠ j.index := fun he => h (by cases i; cases j; simp_all)
  simp [setCache, Assoc.insert_comm hi]

end Graph

end ObjectGraph
