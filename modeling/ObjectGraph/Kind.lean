/-! The coarse categories of types, by which a walk decides its next step. -/
namespace ObjectGraph

/-- The category of a type, with one more for a location that resolves to nothing. -/
inductive Kind where
  | invalid | bool | int | float | string | struct | map | slice | pointer | interface
  deriving DecidableEq, Repr

namespace Kind

def name : Kind → String
  | invalid => "invalid"
  | bool => "bool"
  | int => "int"
  | float => "float"
  | string => "string"
  | struct => "struct"
  | map => "map"
  | slice => "slice"
  | pointer => "pointer"
  | interface => "interface"

/-- The kinds that have a nil value. -/
def isNilable : Kind → Bool
  | map | slice | pointer | interface => true
  | _ => false

/-- The kinds whose values have a length. -/
def hasLength : Kind → Bool
  | map | slice | string => true
  | _ => false

/-- The kinds whose values can key a map. -/
def isKey : Kind → Bool
  | bool | int | string => true
  | _ => false

end Kind

end ObjectGraph
