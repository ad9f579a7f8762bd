import ObjectGraph.Binary64
import ObjectGraph.Fault

/-! Values of the graph. A copy of a value is a value of its own; only a pointer, which
names a cell, is shared by its copies. -/
namespace ObjectGraph

/-- Each value knows its type, the nil values of maps, slices and pointers too. -/
inductive Value where
  | bool (b : Bool)
  | int (i : Int64)
  | float (x : Binary64)
  | string (s : String)
  /-- Field values in the order of the layout. -/
  | struct (layout : Layout) (fields : List Value)
  | nilMap (key : KeyTy) (elem : Ty)
  /-- Entries in ascending order of their keys. -/
  | map (key : KeyTy) (elem : Ty) (entries : List (Key × Value))
  | nilSlice (elem : Ty)
  | slice (elem : Ty) (items : List Value)
  | nilPointer (target : Ty)
  | pointer (target : Ty) (cell : CellId)
  | nilAny
  /-- A value in an interface. -/
  | boxed (content : Value)
  deriving Repr

namespace Value

/-- The type of a slot that holds the value; of an interface, not of its content. -/
def ty : Value → Ty
  | bool _ => .bool
  | int _ => .int
  | float _ => .float
  | string _ => .string
  | struct layout _ => layout.ty
  | nilMap key elem | map key elem _ => .map key elem
  | nilSlice elem | slice elem _ => .slice elem
  | nilPointer target | pointer target _ => .pointer target
  | nilAny | boxed _ => .any

def kind (v : Value) : Kind := v.ty.kind

/-- Whether the value is nil, where its kind has a nil. -/
def isNil? : Value → Option Bool
  | nilMap .. | nilSlice _ | nilPointer _ | nilAny => some true
  | map .. | slice .. | pointer .. | boxed _ => some false
  | _ => none

/-- The number of entries, items or bytes, where the kind has a length. -/
def length? : Value → Option Nat
  | nilMap .. | nilSlice _ => some 0
  | map _ _ entries => some entries.length
  | slice _ items => some items.length
  | string s => some s.utf8ByteSize
  | _ => none

def isEmpty? (v : Value) : Option Bool := v.length?.map (· == 0)

/-- A value in an interface; what is an interface already stays as it is. -/
def box : Value → Value
  | nilAny => nilAny
  | boxed v => boxed v
  | v => boxed v

/-- The content of an interface; a nil interface stays as it is. -/
def unbox : Value → Value
  | boxed v => v
  | v => v

/-- The value as a slot of type `target` holds it: of the type already, or boxed. -/
def assignTo (v : Value) (target : Ty) : Except Fault Value :=
  if v.ty = target then .ok v
  else if v.ty.isAssignableTo target then .ok v.box
  else .error (.notAssignable v.ty target)

theorem ty_box {v : Value} : v.box.ty = .any := by
  cases v <;> rfl

/-- What a slot takes has the type of the slot. -/
theorem ty_of_assignTo {v w : Value} {t : Ty} (h : v.assignTo t = .ok w) : w.ty = t := by
  unfold assignTo at h
  split at h
  · cases h
    assumption
  · split at h
    · rename_i hn ha
      cases h
      have ht : t = .any := by simpa [Ty.isAssignableTo, hn] using ha
      rw [ty_box, ht]
    · cases h

def field? (name : String) : Value → Option Value
  | struct layout fields => (layout.fieldIndex? name).bind (fields[·]?)
  | _ => none

/-- The value under a key; a nil map has none. -/
def get? (key : Key) : Value → Option Value
  | map _ _ entries => Assoc.get? key entries
  | _ => none

def item? (i : Nat) : Value → Option Value
  | slice _ items => items[i]?
  | _ => none

def asBool? : Value → Option Bool
  | bool b => some b
  | _ => none

def asInt? : Value → Option Int64
  | int i => some i
  | _ => none

def asFloat? : Value → Option Binary64
  | float x => some x
  | _ => none

def asString? : Value → Option String
  | string s => some s
  | _ => none

end Value

namespace Key

def value : Key → Value
  | bool b => .bool b
  | int i => .int i
  | string s => .string s

/-- The key that a scalar, boxed or not, can serve as. -/
def ofValue (v : Value) : Except Fault Key :=
  match v.unbox with
  | .bool b => .ok (bool b)
  | .int i => .ok (int i)
  | .string s => .ok (string s)
  | v => .error (.invalidKey v.ty)

end Key

mutual
/-- What a new slot of type `t` holds: nil where there is one, and in a struct the zero
of every field. -/
def Ty.zero : Ty → Value
  | bool => .bool false
  | int => .int 0
  | float => .float .zero
  | string => .string ""
  | struct name fields => .struct ⟨name, fields⟩ (Ty.zeros fields)
  | map key elem => .nilMap key elem
  | slice elem => .nilSlice elem
  | pointer target => .nilPointer target
  | any => .nilAny
  termination_by structural t => t

def Ty.zeros : List (String × Ty) → List Value
  | [] => []
  | (_, t) :: fields => t.zero :: Ty.zeros fields
  termination_by structural fields => fields
end

theorem Ty.ty_zero {t : Ty} : t.zero.ty = t := by
  cases t <;> rfl

end ObjectGraph
