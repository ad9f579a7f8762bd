import ObjectGraph.Value.Basic

/-! Following a path into a value, to read the part at its end or to put another in its
place. -/
namespace ObjectGraph.Value

/-- The part one step away. -/
def part : Step → Value → Except Fault Value
  | .field i, v@(struct _ fields) =>
    match fields[i]? with
    | some w => .ok w
    | none => .error (.unresolved (.noPart (.field i) v.ty))
  | .index i, nilSlice _ => .error (.indexOutOfRange i 0)
  | .index i, slice _ items =>
    match items[i]? with
    | some w => .ok w
    | none => .error (.indexOutOfRange i items.length)
  | .unbox, boxed w => .ok w
  | step, v => .error (.unresolved (.noPart step v.ty))

/-- The value with what `f` makes of a part in the place of that part. -/
def changePart (f : Value → Except Fault Value) : Step → Value → Except Fault Value
  | .field i, v@(struct layout fields) =>
    match fields[i]? with
    | some w => return struct layout (fields.set i (← f w))
    | none => .error (.unresolved (.noPart (.field i) v.ty))
  | .index i, nilSlice _ => .error (.indexOutOfRange i 0)
  | .index i, slice elem items =>
    match items[i]? with
    | some w => return slice elem (items.set i (← f w))
    | none => .error (.indexOutOfRange i items.length)
  | .unbox, boxed w => return boxed (← f w)
  | step, v => .error (.unresolved (.noPart step v.ty))

/-- The part at the end of a path. -/
def resolve : Path → Value → Except Fault Value
  | [], v => .ok v
  | step :: path, v => do resolve path (← v.part step)

/-- The value with what `f` makes of the part at the end of a path in its place. -/
def change (f : Value → Except Fault Value) : Path → Value → Except Fault Value
  | [], v => f v
  | step :: path, v => v.changePart (change f path) step

/-- What a map has under a key; nothing, if the map is nil. -/
def lookup (key : Key) : Value → Except Fault (Option Value)
  | nilMap .. => .ok none
  | map _ _ entries => .ok (Assoc.get? key entries)
  | v => .error (.kindMismatch .lookup v.kind)

/-- The map with `v` under a key. -/
def insert (key : Key) (v : Value) : Value → Except Fault Value
  | nilMap .. => .error (.nilMap key)
  | map k elem entries => .ok (map k elem (Assoc.insert key v entries))
  | w => .error (.kindMismatch .insert w.kind)

end ObjectGraph.Value

namespace ObjectGraph

/-- The slot that a write at the end of a path overwrites. The content of an interface has
no slot of its own, so the interface around it is overwritten. -/
def Path.slot (path : Path) : Path :=
  if path.getLast? = some .unbox then path.dropLast else path

/-- What a write of `v` at the end of a path leaves in the slot that held `old`. The content
of an interface takes a value of any type. -/
def Value.overwrite (v : Value) (path : Path) (old : Value) : Except Fault Value :=
  if path.getLast? = some .unbox then .ok v.box else v.assignTo old.ty

end ObjectGraph
