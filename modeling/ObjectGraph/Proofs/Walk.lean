import ObjectGraph.Handle
import ObjectGraph.Proofs.Typing

/-! Walks: the same moves taken by a handle, with its caches and copies, and by a place, which is
looked up in the contents of the cells. -/
namespace ObjectGraph

inductive Move where
  | elem
  | field (name : String)
  | index (i : Nat)
  | entry (key : Key)
  deriving DecidableEq, Repr

namespace Handle

def move (g : Graph) (h : Handle) : Move → Except Fault (Graph × Handle)
  | .elem => h.elem g
  | .field name => do return (g, ← h.field g name)
  | .index i => do return (g, ← h.index g i)
  | .entry key => h.entryAt g key

def walk (g : Graph) (h : Handle) : List Move → Except Fault (Graph × Handle)
  | [] => .ok (g, h)
  | m :: ms => do
    let (g, h) ← h.move g m
    walk g h ms

end Handle

/-- A part of the content of a cell, or a map entry that is not there yet. -/
structure Place where
  cell : CellId
  route : Route
  deriving DecidableEq, Repr

namespace Place

variable {g g' : Graph} {P : Place} {r : Route} {v : Value}

/-- The place at the end of a route that starts here. -/
def along (P : Place) (r : Route) : Place := ⟨P.cell, P.route ++ r⟩

/-- What lies at the place. -/
def value? (g : Graph) (P : Place) : Option Value := (g.content? P.cell).bind (Value.at? P.route)

/-- The place one move further. An entry need not be there, but the map has to have its key type. -/
def move (g : Graph) (P : Place) (m : Move) : Option Place :=
  match m, P.value? g with
  | .elem, some (.pointer _ c) => some ⟨c, []⟩
  | .elem, some (.boxed _) => some (P.along [.content])
  | .field name, some (.struct layout _) =>
    (layout.fieldIndex? name).map fun i => P.along [.field i]
  | .index i, some (.slice _ items) => if i < items.length then some (P.along [.index i]) else none
  | .entry key, some (.map k _ _) | .entry key, some (.nilMap k _) =>
    if key.ty = k then some (P.along [.key key]) else none
  | _, _ => none

def walk (g : Graph) (P : Place) : List Move → Option Place
  | [] => some P
  | m :: ms => (P.move g m).bind (walk g · ms)

theorem value?_root {c : CellId} : (Place.mk c []).value? g = g.content? c := by
  change (g.content? c).bind some = g.content? c
  simp

theorem value?_along : (P.along r).value? g = (P.value? g).bind (Value.at? r) := by
  unfold value?
  rw [Option.bind_assoc]
  exact congrArg (Option.bind _) (funext fun v => Value.at?_append)

theorem along_along {q : Route} : (P.along q).along r = P.along (q ++ r) := by
  simp [Place.along]

/-- Where cells have the same contents, places have the same values. -/
theorem value?_congr (h : g'.cells = g.cells) : P.value? g' = P.value? g := by
  simp [value?, Graph.content?_congr h]

theorem move_congr {m : Move} (h : g'.cells = g.cells) : P.move g' m = P.move g m := by
  simp only [move, value?_congr h]

theorem walk_congr {ms : List Move} (h : g'.cells = g.cells) : P.walk g' ms = P.walk g ms := by
  induction ms generalizing P with
  | nil => rfl
  | cons m ms ih => simp only [walk, move_congr h, ih]

end Place

end ObjectGraph
