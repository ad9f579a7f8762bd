import ObjectGraph.Value.Basic

/-! Types, layouts and values built from their parts, or refused for the first part in
order that does not fit. -/
namespace ObjectGraph

inductive Refusal where
  | noField (layout field : String)
  | duplicateField (layout field : String)
  | keyType (ty : Ty)
  | keyMismatch (key : Key) (ty : Ty)
  | unfit (fault : Fault)
  deriving DecidableEq, Repr

def Refusal.message : Refusal → String
  | noField layout field => "struct " ++ layout ++ " has no field " ++ Text.quoted field
  | duplicateField layout field =>
    "duplicate field " ++ Text.quoted field ++ " in struct " ++ layout
  | keyType ty => "invalid map key type " ++ ty.name
  | keyMismatch key ty => "map key " ++ key.text ++ " is not of type " ++ ty.name
  | unfit fault => fault.message

/-- A new field goes to the end, and no two fields have one name. -/
def Layout.addField (layout : Layout) (name : String) (t : Ty) : Except Refusal Layout :=
  match layout.fieldIndex? name with
  | some _ => .error (.duplicateField layout.name name)
  | none => .ok { layout with fields := layout.fields ++ [(name, t)] }

/-- Maps are keyed by booleans, integers or strings. -/
def KeyTy.ofTy (t : Ty) : Except Refusal KeyTy :=
  match t.toKey? with
  | some key => .ok key
  | none => .error (.keyType t)

def Ty.mapOf (key elem : Ty) : Except Refusal Ty :=
  return .map (← KeyTy.ofTy key) elem

namespace Value

/-- The value as a slot of type `t` holds it. -/
def fit (v : Value) (t : Ty) : Except Refusal Value := (v.assignTo t).mapError .unfit

/-- Puts `v` into the field called `name`. -/
def setField (layout : Layout) (name : String) (v : Value) (fields : List Value) :
    Except Refusal (List Value) :=
  match layout.fieldIndex? name, layout.fields.lookup name with
  | some i, some t => return fields.set i (← v.fit t)
  | _, _ => .error (.noField layout.name name)

/-- Each field holds the last value given for it, or the zero of its type. -/
def structOf (layout : Layout) (given : List (String × Value)) : Except Refusal Value := do
  let fields ← given.foldlM (fun fields g => setField layout g.1 g.2 fields)
    (Ty.zeros layout.fields)
  return .struct layout fields

/-- Each key has the last value given for it. -/
def mapOf (key elem : Ty) (given : List (Key × Value)) : Except Refusal Value := do
  let key ← KeyTy.ofTy key
  let entries ← given.foldlM (fun entries g =>
    if g.1.ty = key then return Assoc.insert g.1 (← g.2.fit elem) entries
    else .error (.keyMismatch g.1 key.ty)) []
  return .map key elem entries

def sliceOf (elem : Ty) (items : List Value) : Except Refusal Value :=
  return .slice elem (← items.mapM (·.fit elem))

end Value

end ObjectGraph
