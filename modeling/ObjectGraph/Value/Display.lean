import ObjectGraph.Graph

/-! The text of a value. Only a pointer at the very top is followed, so the text of a cyclic
graph ends too; `address` writes every other pointer. -/
namespace ObjectGraph.Value

mutual
/-- The text of a value inside another. -/
def nestedText (address : CellId → String) : Value → String
  | bool b => if b then "true" else "false"
  | int i => i.toInt.repr
  | float x => x.text
  | string s => s
  | struct _ fields => "\x7b" ++ " ".intercalate (nestedTexts address fields) ++ "\x7d"
  | nilMap .. => "map[]"
  | map _ _ entries => "map[" ++ " ".intercalate (entryTexts address entries) ++ "]"
  | nilSlice _ => "[]"
  | slice _ items => "[" ++ " ".intercalate (nestedTexts address items) ++ "]"
  | nilPointer _ | nilAny => "<nil>"
  | pointer _ c => address c
  | boxed v => nestedText address v
  termination_by structural v => v

def nestedTexts (address : CellId → String) : List Value → List String
  | [] => []
  | v :: vs => nestedText address v :: nestedTexts address vs
  termination_by structural vs => vs

def entryTexts (address : CellId → String) : List (Key × Value) → List String
  | [] => []
  | (k, v) :: es => (k.text ++ ":" ++ nestedText address v) :: entryTexts address es
  termination_by structural es => es
end

/-- The text of a value. A pointer, boxed or not, is written as `&` with its target, unless
the target cannot be read. -/
def text (g : Graph) (address : CellId → String) : Value → String
  | pointer _ c =>
    match g.readable c with
    | .ok v => "&" ++ v.nestedText address
    | .error _ => address c
  | boxed v => v.text g address
  | v => v.nestedText address

end ObjectGraph.Value
