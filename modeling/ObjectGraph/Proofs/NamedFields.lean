import ObjectGraph.Proofs.ReadBack
import ObjectGraph.Proofs.Soundness
import ObjectGraph.Proofs.Updates

/-! Handles on the fields of structs. A name is looked up once, when the handle is made, and gives a
place in the struct. The handle stays with the place, and with the name as long as the struct that
is found there has the name in that place. -/
namespace ObjectGraph

variable {g g' : Graph} {h h' : Handle} {p : Location} {i : Nat} {name : String} {s t : Session}
  {Given : Graph → Value → Prop} {place place' : Layout → Option Nat}

namespace Value

variable {v v' w : Value} {f : Value → Except Fault Value}

theorem part_field_iff : v.part (.field i) = .ok w ↔
    ∃ layout fields, v = struct layout fields ∧ fields[i]? = some w := by
  constructor
  · intro hp
    rcases part?_cases (part?_of_part hp) with ⟨_, layout, fields, he, rfl, hi⟩ | ⟨_, _, _, he, _⟩ |
      ⟨he, _⟩
    · cases he
      exact ⟨layout, fields, rfl, hi⟩
    · cases he
    · cases he
  · rintro ⟨layout, fields, rfl, hi⟩
    exact part_of_part? hi

theorem field_of_change (h : v.change f [.field i] = .ok v') :
    ∃ layout fields old new, v = struct layout fields ∧ fields[i]? = some old ∧
      f old = .ok new ∧ v' = struct layout (fields.set i new) := by
  obtain ⟨old, new, ho, hf, hs⟩ := setPart_of_changePart h
  cases v with
  | struct layout fields =>
    obtain ⟨_, hs⟩ := Option.ite_none_right_eq_some.1 hs
    cases hs
    exact ⟨layout, fields, old, new, rfl, ho, hf, rfl⟩
  | _ => cases ho

end Value

namespace Location

theorem read_step {s : Step} : (p.step s).read g = p.read g >>= Value.part s := by
  rw [step, read_concat, withPath_path]

theorem read_unbox_iff {v : Value} :
    (p.step .unbox).read g = .ok v ↔ p.read g = .ok (.boxed v) := by
  rw [read_step, bind_eq_ok]
  constructor
  · rintro ⟨w, hw, hv⟩
    cases w <;> cases hv
    exact hw
  · exact fun hw => ⟨_, hw, rfl⟩

/-- A write to a field is a change of it in an update of the struct. -/
theorem store_field {v : Value} : (p.step (.field i)).store g v =
    p.update g (Value.change (fun old => v.assignTo old.ty) [.field i]) := by
  have hslot : Path.slot (p.path ++ [.field i]) = p.path ++ [.field i] := by simp [Path.slot]
  have hpath : (p.step (.field i)).path = p.path ++ [.field i] := by cases p <;> rfl
  have hwith : ∀ r, (p.step (.field i)).withPath r = p.withPath r := fun r => by cases p <;> rfl
  have hover : v.overwrite (p.path ++ [.field i]) = fun old => v.assignTo old.ty := by
    funext old
    simp [Value.overwrite]
  rw [store, hpath, hslot, hwith, hover, update_append, withPath_path]

end Location

namespace Handle

/-- The handle reads and writes one field of the struct found at `p`, that which `place` tells from
the layout of the struct. It fails where no struct with such a field is found. -/
structure GoesTo (g : Graph) (p : Location) (place : Layout → Option Nat) (h : Handle) : Prop where
  read : ∀ v, h.read g = .ok (some v) ↔ ∃ layout fields i, p.read g = .ok (.struct layout fields) ∧
    place layout = some i ∧ fields[i]? = some v
  set : ∀ v g', h.set g v = .ok g' → ∃ layout fields i old new,
    p.read g = .ok (.struct layout fields) ∧ place layout = some i ∧ fields[i]? = some old ∧
    v.assignTo old.ty = .ok new ∧ p.read g' = .ok (.struct layout (fields.set i new))

theorem goesTo_field (ha : p.Anchored g) :
    (direct (p.step (.field i))).GoesTo g p fun _ => some i where
  read := by
    intro v
    have hread : (direct (p.step (.field i))).read g =
        some <$> (p.read g >>= Value.part (.field i)) := congrArg (some <$> ·) Location.read_step
    rw [hread, map_eq_ok]
    constructor
    · rintro ⟨w, hw, hv⟩
      cases hv
      obtain ⟨u, hu, hw⟩ := bind_eq_ok.1 hw
      obtain ⟨layout, fields, rfl, hi⟩ := Value.part_field_iff.1 hw
      exact ⟨layout, fields, i, hu, rfl, hi⟩
    · rintro ⟨layout, fields, j, hu, hj, hi⟩
      cases hj
      exact ⟨v, bind_eq_ok.2 ⟨_, hu, Value.part_field_iff.2 ⟨layout, fields, rfl, hi⟩⟩, rfl⟩
  set := by
    intro v g' hs
    have hs : (p.step (.field i)).store g v = .ok g' := hs
    rw [Location.store_field] at hs
    obtain ⟨w, w', hw, hc, hw'⟩ := ha.update hs
    obtain ⟨layout, fields, old, new, rfl, ho, hn, rfl⟩ := Value.field_of_change hc
    exact ⟨layout, fields, i, old, new, hw, rfl, ho, hn, hw'⟩

/-- Only the struct that is found matters. -/
theorem GoesTo.congr (hg : h.GoesTo g p place)
    (hp : ∀ layout fields, p.read g = .ok (.struct layout fields) → place layout = place' layout) :
    h.GoesTo g p place' where
  read := by
    intro v
    rw [hg.read]
    constructor
    · rintro ⟨layout, fields, i, hr, hi, hv⟩
      exact ⟨layout, fields, i, hr, hp layout fields hr ▸ hi, hv⟩
    · rintro ⟨layout, fields, i, hr, hi, hv⟩
      exact ⟨layout, fields, i, hr, (hp layout fields hr).trans hi, hv⟩
  set := by
    intro v g' hs
    obtain ⟨layout, fields, i, old, new, hr, hi, hrest⟩ := hg.set v g' hs
    exact ⟨layout, fields, i, old, new, hr, hp layout fields hr ▸ hi, hrest⟩

theorem field_cases (hm : h.move g (.field name) = .ok (g', h')) :
    ∃ layout fields i, (h.location g).read g = .ok (.struct layout fields) ∧
      layout.fieldIndex? name = some i ∧ g' = g ∧
      h' = direct ((h.location g).step (.field i)) := by
  obtain ⟨k, hk, hm⟩ := bind_eq_ok.1 hm
  cases hm
  obtain ⟨q, hq, rfl⟩ := map_eq_ok.1 hk
  obtain ⟨layout, fields, i, hr, hi, rfl⟩ := Location.field_cases hq
  exact ⟨layout, fields, i, hr, hi, rfl, rfl⟩

end Handle

/-- A handle on a field goes to the place that the name had when the handle was made. -/
theorem Session.Reachable.goesTo_place (hs : s.Reachable Given) (hh : h ∈ s.handles)
    (hm : h.move s.graph (.field name) = .ok (g, h'))
    (hr : Relation.ReflTransGen (Session.Step Given) ⟨g, h' :: s.handles⟩ t) :
    ∃ layout fields i, (h.location s.graph).read s.graph = .ok (.struct layout fields) ∧
      layout.fieldIndex? name = some i ∧
      h'.GoesTo t.graph (h.location s.graph) fun _ => some i := by
  obtain ⟨layout, fields, i, hread, hi, rfl, rfl⟩ := Handle.field_cases hm
  have ht := (hs.step (.move hh hm)).run hr
  have ha : ((h.location s.graph).step (.field i)).Anchored t.graph :=
    ht.anchored _ (Session.handles_of_run hr _ (.head _))
  exact ⟨layout, fields, i, hread, hi, Handle.goesTo_field (Location.anchored_withPath.1 ha)⟩

/-- In whatever struct is found later, a handle on a field goes to the place that the name had when
the handle was made. It goes to the field of that name where the name still has this place. -/
theorem goesTo_of_run (hs : s.Reachable Given) (hh : h ∈ s.handles)
    (hm : h.move s.graph (.field name) = .ok (g, h'))
    (hr : Relation.ReflTransGen (Session.Step Given) ⟨g, h' :: s.handles⟩ t) :
    ∃ layout fields i, (h.location s.graph).read s.graph = .ok (.struct layout fields) ∧
      layout.fieldIndex? name = some i ∧
      h'.GoesTo t.graph (h.location s.graph) (fun _ => some i) ∧
      ((∀ layout fields, (h.location s.graph).read t.graph = .ok (.struct layout fields) →
        layout.fieldIndex? name = some i) →
        h'.GoesTo t.graph (h.location s.graph) (·.fieldIndex? name)) := by
  obtain ⟨layout, fields, i, hread, hi, hg⟩ := hs.goesTo_place hh hm hr
  exact ⟨layout, fields, i, hread, hi, hg, fun hn => hg.congr fun l fs hl => (hn l fs hl).symm⟩

/-- The content of the interface in a cell. -/
def picture : Handle := .direct (.cell ⟨0⟩ [.unbox])

/-- The place of the second field of the struct in that interface. -/
def edge : Handle := .direct (.cell ⟨0⟩ [.unbox, .field 1])

def sides : Layout := ⟨"Sides", [("left", .int), ("right", .int)]⟩

/-- The same fields in the other order. -/
def mirrored : Layout := ⟨"Mirrored", [("right", .int), ("left", .int)]⟩

/-- A cell with a struct in an interface, and the handles on the way to the struct. -/
def framed (v : Value) : Session where
  graph := (Graph.empty.alloc v.box).1
  handles := [picture, .root ⟨0⟩]

theorem reachable_framed : (framed (.struct sides [.int 1, .int 2])).Reachable Built := by
  have hb : Built .empty (.struct sides [.int 1, .int 2]) :=
    .struct (rfl : Value.structOf sides [("left", .int 1), ("right", .int 2)] = _)
      (by simpa using ⟨.int, .int⟩)
  have h₁ := Session.Reachable.start.step (.alloc hb.box)
  have h₂ := h₁.step (.root (c := ⟨0⟩) rfl)
  exact h₂.step (.move (m := .elem) (.head _) rfl)

theorem move_framed : picture.move (framed (.struct sides [.int 1, .int 2])).graph
    (.field "right") = .ok ((framed (.struct sides [.int 1, .int 2])).graph, edge) := rfl

/-- The struct is replaced while a handle on its second field is kept. -/
theorem run_framed {layout : Layout} {fields : List Value}
    (hv : Built (framed (.struct sides [.int 1, .int 2])).graph (.struct layout fields)) :
    Relation.ReflTransGen (Session.Step Built)
      ⟨(framed (.struct sides [.int 1, .int 2])).graph, edge :: [picture, .root ⟨0⟩]⟩
      ⟨(framed (.struct layout fields)).graph, edge :: [picture, .root ⟨0⟩]⟩ :=
  .single (.set (h := .root ⟨0⟩) (by simp) hv rfl)

/-- The new struct is of the same layout, and the handle is on the field called "right". -/
theorem goesTo_of_run_framed : (framed (.struct sides [.int 1, .int 2])).Reachable Built ∧
    edge.read (framed (.struct sides [.int 5, .int 6])).graph = .ok (some (.int 6)) ∧
    edge.GoesTo (framed (.struct sides [.int 5, .int 6])).graph
      (.cell ⟨0⟩ [.unbox]) (·.fieldIndex? "right") := by
  have hv : ∀ g, Built g (.struct sides [.int 5, .int 6]) := fun g =>
    .struct (rfl : Value.structOf sides [("left", .int 5), ("right", .int 6)] = _)
      (by simpa using ⟨.int, .int⟩)
  obtain ⟨layout, fields, i, hr, hi, _, hname⟩ :=
    goesTo_of_run reachable_framed (.head _) move_framed (run_framed (hv _))
  cases hr
  refine ⟨reachable_framed, rfl, hname ?_⟩
  rintro l fs hl
  cases hl
  exact hi

/-- The new struct has its fields in the other order. The handle reads the field called "left", and
a write through it changes that field. -/
theorem not_goesTo_framed : ∃ g, (framed (.struct sides [.int 1, .int 2])).Reachable Built ∧
    picture.move (framed (.struct sides [.int 1, .int 2])).graph (.field "right") =
      .ok ((framed (.struct sides [.int 1, .int 2])).graph, edge) ∧
    Relation.ReflTransGen (Session.Step Built)
      ⟨(framed (.struct sides [.int 1, .int 2])).graph, edge :: [picture, .root ⟨0⟩]⟩
      ⟨(framed (.struct mirrored [.int 3, .int 4])).graph, edge :: [picture, .root ⟨0⟩]⟩ ∧
    edge.read (framed (.struct mirrored [.int 3, .int 4])).graph = .ok (some (.int 4)) ∧
    (Value.struct mirrored [.int 3, .int 4]).field? "right" = some (.int 3) ∧
    edge.set (framed (.struct mirrored [.int 3, .int 4])).graph (.int 9) = .ok g ∧
    (Location.cell ⟨0⟩ [.unbox]).read g = .ok (.struct mirrored [.int 3, .int 9]) ∧
    ¬ edge.GoesTo (framed (.struct mirrored [.int 3, .int 4])).graph
      (.cell ⟨0⟩ [.unbox]) (·.fieldIndex? "right") := by
  have hv : ∀ g, Built g (.struct mirrored [.int 3, .int 4]) := fun g =>
    .struct (rfl : Value.structOf mirrored [("right", .int 3), ("left", .int 4)] = _)
      (by simpa using ⟨.int, .int⟩)
  refine ⟨_, reachable_framed, move_framed, run_framed (hv _), rfl, rfl, rfl, rfl, ?_⟩
  intro hg
  obtain ⟨layout, fields, i, hr, hi, hread⟩ := (hg.read (.int 4)).1 rfl
  cases hr
  cases hi
  cases hread

/-- Where no interface occurs, the struct found is always of one layout, and so the handle stays
with the field of its name. -/
theorem goesTo_of_concrete_run (hs : s.Reachable Concrete) (hh : h ∈ s.handles)
    (hm : h.move s.graph (.field name) = .ok (g, h'))
    (hr : Relation.ReflTransGen (Session.Step Concrete) ⟨g, h' :: s.handles⟩ t) :
    h'.GoesTo t.graph (h.location s.graph) (·.fieldIndex? name) := by
  obtain ⟨layout, fields, i, hread, hi, hg⟩ := hs.goesTo_place hh hm hr
  apply hg.congr
  intro l fs hl
  obtain ⟨elems, hsound⟩ := hs.sound
  obtain ⟨elems', hsound', hk⟩ := Session.sound_of_run (.head (.move hh hm) hr) hsound
  obtain ⟨u, hu⟩ := hsound.handles h hh
  have ha := (hs.anchored h hh).location
  have hty := (hu.location.read ha hsound.graph hread).2
  have hty' := ((hu.location.mono hk.cells hk.elems).read (ha.later hk.later) hsound'.graph hl).2
  rw [Layout.ty_inj.1 (hty'.trans hty.symm)]
  exact hi.symm

end ObjectGraph
