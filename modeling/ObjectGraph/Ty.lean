import ObjectGraph.Kind
import ObjectGraph.Key

/-! Types of values, and the layouts of structs. -/
namespace ObjectGraph

/-- A struct type is its name with its fields in order. -/
inductive Ty where
  | bool | int | float | string
  | struct (name : String) (fields : List (String × Ty))
  | map (key : KeyTy) (elem : Ty)
  | slice (elem : Ty)
  | pointer (target : Ty)
  | any
  deriving Repr

namespace Ty

def kind : Ty → Kind
  | bool => .bool
  | int => .int
  | float => .float
  | string => .string
  | struct .. => .struct
  | map .. => .map
  | slice _ => .slice
  | pointer _ => .pointer
  | any => .interface

mutual
/-- Types are the same when their parts are, struct names and field names included. -/
def same : Ty → Ty → Bool
  | bool, bool | int, int | float, float | string, string | any, any => true
  | struct n fs, struct m gs => n == m && sameFields fs gs
  | map k s, map l t => k == l && same s t
  | slice s, slice t | pointer s, pointer t => same s t
  | _, _ => false
  termination_by structural s => s

def sameFields : List (String × Ty) → List (String × Ty) → Bool
  | [], [] => true
  | (n, s) :: fs, (m, t) :: gs => n == m && same s t && sameFields fs gs
  | _, _ => false
  termination_by structural fs => fs
end

mutual
theorem same_iff : ∀ {s t : Ty}, same s t = true ↔ s = t
  | struct _ fs, t => by cases t <;> simp [same, sameFields_iff]
  | map _ s, t => by cases t <;> simp [same, same_iff]
  | slice s, t => by cases t <;> simp [same, same_iff]
  | pointer s, t => by cases t <;> simp [same, same_iff]
  | bool, t | int, t | float, t | string, t | any, t => by cases t <;> simp [same]

theorem sameFields_iff : ∀ {fs gs : List (String × Ty)}, sameFields fs gs = true ↔ fs = gs
  | [], gs => by cases gs <;> simp [sameFields]
  | (_, s) :: fs, [] => by simp [sameFields]
  | (_, s) :: fs, (_, t) :: gs => by simp [sameFields, same_iff, sameFields_iff, and_assoc]
end

mutual
/-- Answers as `same` does, and takes fields that are one object in memory as the same without
a walk. A layout may be part of another along very many ways, which a walk would go one by
one. -/
def agrees (s t : Ty) : { b : Bool // b = same s t } :=
  match s, t with
  | struct n fs, struct m gs =>
    ⟨n == m && withPtrEq fs gs (fun _ => (fieldsAgree fs gs).1)
        (fun h => by rw [(fieldsAgree fs gs).2, sameFields_iff, h]),
      by simp [same, withPtrEq, (fieldsAgree fs gs).2]⟩
  | map k s, map l t => ⟨k == l && (agrees s t).1, by simp [same, (agrees s t).2]⟩
  | slice s, slice t | pointer s, pointer t => ⟨(agrees s t).1, by simp [same, (agrees s t).2]⟩
  | s, t => ⟨same s t, rfl⟩
  termination_by structural s

def fieldsAgree (fs gs : List (String × Ty)) : { b : Bool // b = sameFields fs gs } :=
  match fs, gs with
  | (n, s) :: fs, (m, t) :: gs =>
    ⟨n == m && (agrees s t).1 && (fieldsAgree fs gs).1,
      by simp [sameFields, (agrees s t).2, (fieldsAgree fs gs).2]⟩
  | fs, gs => ⟨sameFields fs gs, rfl⟩
  termination_by structural fs
end

instance : DecidableEq Ty := fun s t =>
  decidable_of_iff ((agrees s t).1 = true) (by rw [(agrees s t).2, same_iff])

end Ty

def KeyTy.ty : KeyTy → Ty
  | bool => .bool
  | int => .int
  | string => .string

namespace Ty

/-- The key type that `t` is, if values of `t` can key a map. -/
def toKey? : Ty → Option KeyTy
  | bool => some .bool
  | int => some .int
  | string => some .string
  | _ => none

/-- A struct type is written by its name alone. -/
def name : Ty → String
  | bool => "bool"
  | int => "int"
  | float => "float"
  | string => "string"
  | struct n _ => n
  | map k t => "map[" ++ k.name ++ "]" ++ t.name
  | slice t => "[]" ++ t.name
  | pointer t => "*" ++ t.name
  | any => "any"

/-- The element type of a map or slice, or the target type of a pointer. -/
def elem? : Ty → Option Ty
  | map _ t | slice t | pointer t => some t
  | _ => none

/-- The key type of a map. -/
def key? : Ty → Option Ty
  | map k _ => some k.ty
  | _ => none

/-- A slot takes values of its own type, and a slot of type `any` takes all. -/
def isAssignableTo (t target : Ty) : Bool :=
  t == target || target == any

end Ty

/-- A struct type: a name and fields in order. -/
structure Layout where
  name : String
  fields : List (String × Ty)
  deriving Repr

namespace Layout

def ty (l : Layout) : Ty := .struct l.name l.fields

theorem ty_inj {l m : Layout} : l.ty = m.ty ↔ l = m := by
  cases l; cases m; simp [ty]

instance : DecidableEq Layout := fun _ _ => decidable_of_iff _ ty_inj

/-- The place of the first field called `name`. -/
def fieldIndex? (l : Layout) (name : String) : Option Nat :=
  l.fields.findIdx? (·.1 == name)

end Layout

end ObjectGraph
