import ObjectGraph.Text.Graphic
import ObjectGraph.Ty

/-! What can go wrong when a location is walked to, read or written, and the texts of it. -/
namespace ObjectGraph

/-! Steps from a value to a part of it. A map entry is not such a part. -/

/-- A struct field by its place, a slice element, or the content of an interface. -/
inductive Step where
  | field (i : Nat)
  | index (i : Nat)
  | unbox
  deriving DecidableEq, Repr

abbrev Path := List Step

def Step.text : Step → String
  | field i => "Field(" ++ i.repr ++ ")"
  | index i => "Index(" ++ i.repr ++ ")"
  | unbox => "Unbox"

/-! Text in double quotes, with escapes for what would not be seen. -/

namespace Text

/-- One character between double quotes. -/
def escape (c : Char) : List Char :=
  match c with
  | '"' => ['\\', '"']
  | '\\' => ['\\', '\\']
  | '\n' => ['\\', 'n']
  | '\r' => ['\\', 'r']
  | '\t' => ['\\', 't']
  | '\x00' => ['\\', '0']
  | c =>
    if isGraphic c then [c]
    else '\\' :: 'u' :: '\x7b' :: Nat.toDigits 16 c.toNat ++ ['\x7d']

def quoted (s : String) : String :=
  String.ofList ('"' :: s.toList.flatMap escape ++ ['"'])

end Text

/-! Faults -/

/-- The shared slots of a graph. -/
structure CellId where
  index : Nat
  deriving DecidableEq, Repr

/-- What a caller asks of a value whose kind may not offer it. -/
inductive Request where
  | elem | field | index | entry | isNil | length | lookup | insert
  deriving DecidableEq, Repr

def Request.text : Request → String
  | elem => "elem"
  | field => "field"
  | index => "index"
  | entry => "entry"
  | isNil => "is_nil"
  | length => "len"
  | lookup => "map index"
  | insert => "map insert"

/-- Why a location has no value to give or to change. -/
inductive Unresolved where
  /-- The value that was walked through has no such part any more. -/
  | noPart (step : Step) (ty : Ty)
  /-- The cell is held exclusively and cannot be read. -/
  | unreadable
  /-- The cell is held and cannot be written. -/
  | unwritable
  | noCell (cell : CellId)
  deriving DecidableEq, Repr

def Unresolved.message : Unresolved → String
  | noPart step ty => step.text ++ " on a value of type " ++ ty.name
  | unreadable => "RefCell already mutably borrowed"
  | unwritable => "RefCell already borrowed"
  | noCell cell => "no cell " ++ cell.index.repr

inductive Fault where
  | kindMismatch (request : Request) (kind : Kind)
  | notAssignable (value target : Ty)
  | nilDereference (kind : Kind)
  | absentEntry (key : Key)
  | nilMap (key : Key)
  | noSuchField (ty : Ty) (name : String)
  | indexOutOfRange (index length : Nat)
  | invalidKey (ty : Ty)
  | unresolved (cause : Unresolved)
  deriving DecidableEq, Repr

def Fault.message : Fault → String
  | kindMismatch request kind => request.text ++ " called on a value of kind " ++ kind.name
  | notAssignable value target =>
    "value of type " ++ value.name ++ " is not assignable to type " ++ target.name
  | nilDereference kind => "elem through a nil " ++ kind.name
  | absentEntry key => "map entry [" ++ key.text ++ "] is absent"
  | nilMap key => "assignment to entry [" ++ key.text ++ "] in a nil map"
  | noSuchField ty name => "type " ++ ty.name ++ " has no field " ++ Text.quoted name
  | indexOutOfRange index length =>
    "index " ++ index.repr ++ " out of range for length " ++ length.repr
  | invalidKey ty => "type " ++ ty.name ++ " can't be used as a map key"
  | unresolved cause => "location no longer resolves: " ++ cause.message

end ObjectGraph
