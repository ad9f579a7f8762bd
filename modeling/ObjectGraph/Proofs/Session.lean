import Mathlib.Logic.Relation
import ObjectGraph.Document.Print
import ObjectGraph.Proofs.Walk
import ObjectGraph.Value.Build

/-! Sessions: the graphs and handles that callers can come to have, in any order of operations. -/
namespace ObjectGraph

/-- A graph with the handles on it that are kept. -/
structure Session where
  graph : Graph
  handles : List Handle

/-- The values that callers can build. A pointer goes to a cell of its target type. -/
inductive Built (g : Graph) : Value → Prop
  | zero {t : Ty} : Built g t.zero
  | bool {b : Bool} : Built g (.bool b)
  | int {i : Int64} : Built g (.int i)
  | float {x : Binary64} : Built g (.float x)
  | string {s : String} : Built g (.string s)
  | struct {layout : Layout} {given : List (String × Value)} {v : Value}
      (hv : Value.structOf layout given = .ok v) (hg : ∀ e ∈ given, Built g e.2) : Built g v
  | map {key elem : Ty} {given : List (Key × Value)} {v : Value}
      (hv : Value.mapOf key elem given = .ok v) (hg : ∀ e ∈ given, Built g e.2) : Built g v
  | slice {elem : Ty} {items : List Value} {v : Value}
      (hv : Value.sliceOf elem items = .ok v) (hg : ∀ w ∈ items, Built g w) : Built g v
  | pointer {c : CellId} {w : Value} (hc : g.content? c = some w) : Built g (.pointer w.ty c)
  | box {v : Value} (hv : Built g v) : Built g v.box
  | unbox {v : Value} (hv : Built g v) : Built g v.unbox

namespace Session

/-- One operation, with values from `Given`. A move leaves the handle that it starts from, as other
copies of it may be kept. What fails changes nothing. -/
inductive Step (Given : Graph → Value → Prop) : Session → Session → Prop
  | alloc {s : Session} {v : Value} (hv : Given s.graph v) :
      Step Given s { s with graph := (s.graph.alloc v).1 }
  | root {s : Session} {c : CellId} {v : Value} (hc : s.graph.content? c = some v) :
      Step Given s { s with handles := .root c :: s.handles }
  | move {s : Session} {h h' : Handle} {m : Move} {g : Graph} (hh : h ∈ s.handles)
      (hm : h.move s.graph m = .ok (g, h')) : Step Given s ⟨g, h' :: s.handles⟩
  | set {s : Session} {h : Handle} {v : Value} {g : Graph} (hh : h ∈ s.handles)
      (hv : Given s.graph v) (hs : h.set s.graph v = .ok g) : Step Given s { s with graph := g }
  | write {s : Session} {h : Handle} {d : Document} {g : Graph} (hh : h ∈ s.handles)
      (hs : h.writeDocument s.graph d = .ok g) : Step Given s { s with graph := g }
  | hold {s : Session} {c : CellId} {mode : Hold} :
      Step Given s { s with graph := s.graph.hold c mode }
  | release {s : Session} {c : CellId} : Step Given s { s with graph := s.graph.release c }

inductive Reachable (Given : Graph → Value → Prop) : Session → Prop
  | start : Reachable Given ⟨.empty, []⟩
  | step {s t : Session} (hs : Reachable Given s) (ht : Step Given s t) : Reachable Given t

/-- The sessions of callers that give values of any kind, and overwrite cells with no check too. -/
inductive Unchecked : Session → Prop
  | start : Unchecked ⟨.empty, []⟩
  | step {s t : Session} (hs : Unchecked s) (ht : Step (fun _ _ => True) s t) : Unchecked t
  | put {s : Session} {c : CellId} {v : Value} (hs : Unchecked s) :
      Unchecked { s with graph := s.graph.put c v }

/-! Runs -/

variable {Given Given' : Graph → Value → Prop} {s t : Session}

theorem Step.mono (ht : Step Given s t) (h : ∀ ⦃g v⦄, Given g v → Given' g v) :
    Step Given' s t := by
  cases ht with
  | alloc hv => exact .alloc (h hv)
  | root hc => exact .root hc
  | move hh hm => exact .move hh hm
  | set hh hv hs => exact .set hh (h hv) hs
  | write hh hs => exact .write hh hs
  | hold => exact .hold
  | release => exact .release

theorem Reachable.mono (hs : s.Reachable Given) (h : ∀ ⦃g v⦄, Given g v → Given' g v) :
    s.Reachable Given' := by
  induction hs with
  | start => exact .start
  | step _ ht ih => exact ih.step (ht.mono h)

theorem Step.unchecked (ht : Step Given s t) : Step (fun _ _ => True) s t :=
  ht.mono fun _ _ _ => trivial

/-- A caller that gives certain values only is one that gives any. -/
theorem Reachable.unchecked (hs : s.Reachable Given) : s.Unchecked := by
  induction hs with
  | start => exact .start
  | step _ ht ih => exact ih.step ht.unchecked

theorem Reachable.run (hs : s.Reachable Given) (hr : Relation.ReflTransGen (Step Given) s t) :
    t.Reachable Given := by
  induction hr with
  | refl => exact hs
  | tail _ ht ih => exact ih.step ht

theorem handles_of_run (hr : Relation.ReflTransGen (Step Given) s t) :
    ∀ h ∈ s.handles, h ∈ t.handles := by
  induction hr with
  | refl => exact fun _ hh => hh
  | tail _ ht ih =>
    intro h hh
    cases ht with
    | root | move => exact .tail _ (ih h hh)
    | _ => exact ih h hh

end Session

end ObjectGraph
