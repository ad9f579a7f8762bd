import ObjectGraph.Value.Basic

/-! Equality of values as a program sees it: a NaN equals nothing, and two pointers are
equal when they name one cell. -/
namespace ObjectGraph.Value

mutual
def equal : Value → Value → Bool
  | bool a, bool b => a == b
  | int a, int b => a == b
  | float a, float b => a.equal b
  | string a, string b => a == b
  | struct l vs, struct m ws => l == m && equalItems vs ws
  | nilMap k s, nilMap l t => k == l && s == t
  | map k s vs, map l t ws => k == l && s == t && equalEntries vs ws
  | nilSlice s, nilSlice t => s == t
  | slice s vs, slice t ws => s == t && equalItems vs ws
  | nilPointer s, nilPointer t => s == t
  | pointer s c, pointer t d => s == t && c == d
  | nilAny, nilAny => true
  | boxed v, boxed w => equal v w
  | _, _ => false
  termination_by structural v => v

def equalItems : List Value → List Value → Bool
  | [], [] => true
  | v :: vs, w :: ws => equal v w && equalItems vs ws
  | _, _ => false
  termination_by structural vs => vs

def equalEntries : List (Key × Value) → List (Key × Value) → Bool
  | [], [] => true
  | (k, v) :: vs, (l, w) :: ws => k == l && equal v w && equalEntries vs ws
  | _, _ => false
  termination_by structural vs => vs
end

end ObjectGraph.Value
