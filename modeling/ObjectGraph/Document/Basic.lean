import ObjectGraph.Handle

/-! Documents, and the values they load as: an object is a map from strings to interfaces
and an array a slice of interfaces. -/
namespace ObjectGraph

/-! The JSON library: documents, and all else that is taken from it. -/

/-- Members of an object stand in ascending order of their names. -/
inductive Document where
  | null
  | bool (b : Bool)
  | int (i : Int)
  | float (x : Binary64)
  | string (s : String)
  | array (items : List Document)
  | object (members : List (String × Document))
  deriving Repr

namespace Document

/-- A number as an integer of 64 bits, if it is one. -/
def asInt64? (i : Int) : Option Int64 :=
  if Int64.minValue.toInt ≤ i ∧ i ≤ Int64.maxValue.toInt then some (.ofInt i) else none

/-- A number as the float nearest to it. -/
def asFloat (i : Int) : Binary64 := .ofInt i

def ofInt64 (i : Int64) : Document := int i.toInt

/-- A float that is not finite has no number, so it is null. -/
def ofFloat (x : Binary64) : Document := if x.isFinite then float x else null

/-- The name that a boolean gives to a member. -/
def nameOfBool (b : Bool) : String := if b then "true" else "false"

/-- The name that an integer gives to a member, in decimal. -/
def nameOfInt64 (i : Int64) : String := i.toInt.repr

/-- The object with the given members, in order; of two with one name the later one stays. -/
def ofMembers (members : List (String × Document)) : Document :=
  object (Assoc.ofList members)

/-! Loading -/

mutual
/-- The value a document loads as. An integer of more than 64 bits becomes a float. -/
def value : Document → Value
  | null => .nilAny
  | bool b => .bool b
  | int i =>
    match asInt64? i with
    | some n => .int n
    | none => .float (asFloat i)
  | float x => .float x
  | string s => .string s
  | array items => .slice .any (boxedValues items)
  | object members => .map .string .any (Assoc.ofList (boxedMembers members))
  termination_by structural d => d

def boxedValues : List Document → List Value
  | [] => []
  | d :: ds => d.value.box :: boxedValues ds
  termination_by structural ds => ds

def boxedMembers : List (String × Document) → List (Key × Value)
  | [] => []
  | (name, d) :: ds => (.string name, d.value.box) :: boxedMembers ds
  termination_by structural ds => ds
end

/-- The value a document writes to a location of type `t`: null is the zero of the type, and
a float takes an integer. -/
def valueFor (t : Ty) (d : Document) : Value :=
  match d.value, t with
  | .nilAny, t => t.zero
  | .int i, .float => .float (.ofInt i.toInt)
  | v, _ => v

end Document

end ObjectGraph
