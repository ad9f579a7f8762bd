import ObjectGraph.Assoc

/-! Map keys: booleans before integers before strings, each in its own order. -/
namespace ObjectGraph

/-- The types a map may be keyed by. -/
inductive KeyTy where
  | bool | int | string
  deriving DecidableEq, Repr

def KeyTy.name : KeyTy → String
  | bool => "bool"
  | int => "int"
  | string => "string"

inductive Key where
  | bool (b : Bool)
  | int (i : Int64)
  | string (s : String)
  deriving DecidableEq, Repr

namespace Key

def ty : Key → KeyTy
  | bool _ => .bool
  | int _ => .int
  | string _ => .string

/-- Integers in decimal, strings as they are. -/
def text : Key → String
  | bool b => if b then "true" else "false"
  | int i => i.toInt.repr
  | string s => s

/-- The order of strings by code points is their order by UTF-8 bytes. -/
protected def compare : Key → Key → Ordering
  | bool a, bool b => Ord.compare a b
  | bool _, _ => .lt
  | _, bool _ => .gt
  | int a, int b => Ord.compare a b
  | int _, _ => .lt
  | _, int _ => .gt
  | string a, string b => Ord.compare a b

instance : Ord Key := ⟨Key.compare⟩

instance : Std.OrientedOrd Key where
  eq_swap {k l} := match k, l with
    | bool a, bool b => (Std.OrientedOrd.eq_swap : compare a b = (compare b a).swap)
    | int a, int b => (Std.OrientedOrd.eq_swap : compare a b = (compare b a).swap)
    | string a, string b => (Std.OrientedOrd.eq_swap : compare a b = (compare b a).swap)
    | bool _, int _ | bool _, string _ | int _, bool _ => rfl
    | int _, string _ | string _, bool _ | string _, int _ => rfl

instance : Std.LawfulEqOrd Key where
  compare_self {k} := match k with
    | bool a => (Std.ReflOrd.compare_self : compare a a = .eq)
    | int a => (Std.ReflOrd.compare_self : compare a a = .eq)
    | string a => (Std.ReflOrd.compare_self : compare a a = .eq)
  eq_of_compare {k l} h := match k, l, h with
    | bool a, bool b, h => congrArg bool (Std.LawfulEqOrd.eq_of_compare (a := a) (b := b) h)
    | int a, int b, h => congrArg int (Std.LawfulEqOrd.eq_of_compare (a := a) (b := b) h)
    | string a, string b, h => congrArg string (Std.LawfulEqOrd.eq_of_compare (a := a) (b := b) h)

instance : Std.TransOrd Key where
  isLE_trans {k l m} h h' := match k, l, m, h, h' with
    | bool a, bool b, bool c, h, h' => Std.TransOrd.isLE_trans (a := a) (b := b) (c := c) h h'
    | int a, int b, int c, h, h' => Std.TransOrd.isLE_trans (a := a) (b := b) (c := c) h h'
    | string a, string b, string c, h, h' =>
      Std.TransOrd.isLE_trans (a := a) (b := b) (c := c) h h'
    | bool _, _, int _, _, _ | bool _, _, string _, _, _ | int _, _, string _, _, _ => rfl

end Key

end ObjectGraph
