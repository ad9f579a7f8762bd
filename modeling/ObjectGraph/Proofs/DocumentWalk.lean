import ObjectGraph.Proofs.Documents
import ObjectGraph.Proofs.InPlace

/-! Loaded documents are read and written part by part. A write through a handle leaves the document
with the new part in it. -/
namespace ObjectGraph

namespace Handle

variable {g : Graph} {h : Handle} {P : Place} {t : Ty} {types : CellId → Option Ty}

/-- A handle has the type of the slot at the place that it stands for. -/
theorem Stands.ty (hs : h.Stands g P) (hg : g.Tidy types P.cell) (ht : P.slotTy? g = some t) :
    h.ty g = .ok t := by
  cases hs with
  | direct hl hv =>
    cases ht.symm.trans (Place.slotTy?_of_value? hg hv)
    rw [Handle.ty, hl.read hg.free hv]
    rfl
  | @target e c path v hc hv =>
    cases ht.symm.trans (Place.slotTy?_of_value? hg hv)
    have hl : g.load c path = .ok v := Graph.load_of_value? hg.free hv
    simp only [Handle.ty, Entry.ty, hc, hl]
    rfl
  | inMap hl =>
    cases hl with
    | @uncached _ _ _ _ _ _ m hl hm hmt _ hc =>
      rw [Place.slotTy?_along hm] at ht
      rw [Handle.ty, Entry.ty, hc]
      cases m with
      | map k elem es =>
        cases hmt
        exact congrArg _ (Option.some.inj ((if_pos rfl).symm.trans ht))
      | nilMap => cases ht
      | _ => cases hmt
    | copied hl hm _ _ hc hu =>
      rw [Place.slotTy?_along hm, Value.slotTy?, hu] at ht
      rw [Handle.ty, Entry.ty, hc]
      exact congrArg _ (Option.some.inj ht)

/-- What a handle gets is the value at its place, or the zero of the slot there. -/
theorem Stands.get (hs : h.Stands g P) (hg : g.Tidy types P.cell) (ht : P.slotTy? g = some t) :
    h.get g = .ok ((P.value? g).getD t.zero).unbox := by
  have hty := hs.ty hg ht
  cases hs with
  | direct hl hv =>
    rw [Handle.get, hl.read hg.free hv, hv]
    rfl
  | @target e c path v hc hv =>
    have hl : g.load c path = .ok v := Graph.load_of_value? hg.free hv
    simp only [Handle.get, Entry.read, Graph.current, hc, hl, hv]
    rfl
  | @inMap e _ hl =>
    rw [Handle.get, hl.read_entry hg.free]
    cases hv : P.value? g with
    | some v => rfl
    | none =>
      cases hl with
      | uncached _ _ _ _ hc =>
        rw [Handle.ty, Entry.ty, hc] at hty
        cases hty
        rfl
      | copied _ hm _ _ _ hu =>
        rw [Place.value?_along, hm, Option.bind_some, Value.at?, hu] at hv
        cases hv

end Handle

namespace Document

variable {g : Graph} {d x : Document} {t : Token} {p : Pointer} {P : Place}

def Token.move : Token → Move
  | name s => .entry (.string s)
  | item i => .index i

/-- The moves to the end of a pointer, out of the interface around each part on the way. -/
def Pointer.moves (p : Pointer) : List Move := (p.map Token.move).intersperse .elem

theorem move_token (hv : P.value? g = some d.value) (hd : d.Standard) (h : d.Takes t) :
    P.move g t.move = some (P.along [t.hop]) := by
  cases t with
  | name s =>
    cases hd with
    | object ha =>
      rw [value_object ha] at hv
      simp only [Token.move, Place.move, hv]
      rfl
    | _ => cases h
  | item i =>
    cases hd with
    | @array items =>
      have hi : i < items.length := h
      rw [value_array] at hv
      simp only [Token.move, Place.move, hv]
      exact if_pos (by simpa using hi)
    | _ => cases h

theorem walk_moves (h : d.Reaches p) (hd : d.Standard) (hv : P.value? g = some d.value) :
    P.walk g p.moves = some (P.along p.route) := by
  induction p, d using Reaches.induct generalizing P with
  | case1 => cases h
  | case2 t d =>
    change (P.move g t.move).bind some = _
    rw [move_token hv hd h]
    rfl
  | case3 t next p d ih =>
    obtain ⟨c, hc, hcs, hp, hpart⟩ := h.part hd
    have hb : (P.along [t.hop]).value? g = some (.boxed c.value) := by
      simp [Place.value?_along, hv, Value.at?, hpart]
    have hcv : ((P.along [t.hop]).along [.content]).value? g = some c.value := by
      rw [Place.value?_along, hb]
      rfl
    have he : (P.along [t.hop]).move g .elem = some ((P.along [t.hop]).along [.content]) := by
      simp only [Place.move, hb]
    change (P.move g t.move).bind (fun Q => (Q.move g .elem).bind
      (Place.walk g · (Pointer.moves (next :: p)))) = _
    rw [move_token hv hd h.takes, Option.bind_some, he, Option.bind_some, ih c hp hcs hcv,
      Place.along_along, Place.along_along]
    rfl

variable {c : CellId} {h : Handle} {types : CellId → Option Ty}

theorem slotTy?_pointer (hc : g.content? c = some d.value) (hd : d.Standard) (hp : d.Reaches p) :
    (Place.mk c p.route).slotTy? g = some .any := by
  rw [Place.slotTy?, hc, Option.bind_some, slotTy?_value hp hd]

theorem readDocument_of_stands (hs : h.Stands g ⟨c, p.route⟩) (hg : g.Tidy types c)
    (hc : g.content? c = some d.value) (hd : d.Standard) (hp : d.Reaches p) :
    h.readDocument g = .ok ((at? p d).getD null) := by
  have hslot := slotTy?_pointer hc hd hp
  have hval : (Place.mk c p.route).value? g = (at? p d).map (·.value.box) := by
    simp [Place.value?, hc, at?_value hp hd]
  have hget : h.get g = .ok ((at? p d).getD null).value := by
    rw [hs.get hg hslot, hval]
    cases at? p d with
    | none => rfl
    | some e => exact congrArg _ unbox_box_value
  have hpart : ((at? p d).getD null).Standard := by
    cases he : at? p d with
    | none => exact .null
    | some e => exact hd.at? he
  rw [Handle.readDocument, hget]
  exact documentBy_value hpart

theorem writeDocument_of_stands (hs : h.Stands g ⟨c, p.route⟩) (hg : g.Tidy types c)
    (hc : g.content? c = some d.value) (hd : d.Standard) (hx : x.Standard) (hp : d.Reaches p) :
    ∃ cs, h.writeDocument g x = .ok { g.put c (put x p d).value with caches := cs } := by
  have hslot := slotTy?_pointer hc hd hp
  have hown : (Place.mk c p.route).slot = ⟨c, p.route⟩ := by rw [Place.slot, slot_route]
  obtain ⟨new, cs, hnew, hset⟩ := (hs.writesAt (v := x.value) hg).1 .any (by rwa [hown])
    (Or.inr rfl)
  rw [Place.filled_slot hc, slot_route] at hnew
  obtain rfl : new = (put x p d).value :=
    Option.some.inj (hnew.symm.trans (put_value hp hd hx).1)
  refine ⟨cs, ?_⟩
  rw [Handle.writeDocument, hs.ty hg hslot]
  simp only [mapError_ok, ok_bind, valueFor_any, hset]

/-- A loaded document can be walked to any part that is there, or that an object has room for. What
is read there is the part, and a document that is written there becomes the part. -/
theorem writeDocument_of_walk {g g₀ : Graph} {c : CellId} {d x : Document} {p : Pointer}
    (hfresh : g.Fresh) (hload : g.alloc d.value = (g₀, c)) (hfree : g.isHeld c = false)
    (hd : d.Standard) (hx : x.Standard) (hp : d.Reaches p) :
    ∃ g₁ h g₂ v, (Handle.root c).walk g₀ p.moves = .ok (g₁, h) ∧
      h.readDocument g₁ = .ok ((at? p d).getD null) ∧
      h.writeDocument g₁ x = .ok g₂ ∧
      g₂.readable c = .ok v ∧ v.document g₂ = .ok (put x p d) ∧
      ∀ c', c' ≠ c → g₂.content? c' = g₀.content? c' := by
  obtain ⟨hc, hfresh₀, hfree₀⟩ :
      g₀.content? c = some d.value ∧ g₀.Fresh ∧ g₀.isHeld c = false := by
    cases hload
    exact ⟨Graph.content?_alloc_self, hfresh, hfree⟩
  -- the value has no pointers, so no cell needs a type
  have htidy : g₀.Tidy (fun _ => none) c := by
    refine ⟨hfree₀, fun v hv => ?_, fun v hv => ?_⟩ <;> cases hc.symm.trans hv
    · exact every_value Value.byConstruction_declared d
    · exact every_value Value.byConstruction_plain d
  have hall : ∀ c', c' = c ∨ (∃ t, (none : Option Ty) = some t) → g₀.Tidy (fun _ => none) c' := by
    simpa using htidy
  have hwalk := (Handle.stands_root hc).walk hall hfresh₀ (by simp) p.moves
  rw [walk_moves hp hd (Place.value?_root.trans hc)] at hwalk
  rcases hwalk.cases with ⟨_, _, h⟩ | ⟨g₁, h, P, hw, hP, hgrown, _, hs⟩
  · cases h
  · obtain rfl : P = ⟨c, p.route⟩ := (Option.some.inj hP).symm
    have ht₁ := htidy.grown hgrown
    have hc₁ : g₁.content? c = some d.value := (Graph.content?_congr hgrown.cells).trans hc
    obtain ⟨cs, hwrite⟩ := writeDocument_of_stands hs ht₁ hc₁ hd hx hp
    have hread : ({ g₁.put c (put x p d).value with caches := cs } : Graph).readable c =
        .ok (put x p d).value :=
      Graph.readable_of_free ht₁.free (Graph.content?_put_self hc₁)
    have hframe : ∀ c', c' ≠ c → (g₁.put c (put x p d).value).content? c' = g₀.content? c' :=
      fun c' hc' => (Graph.content?_put_ne hc').trans (Graph.content?_congr hgrown.cells)
    exact ⟨g₁, h, _, _, hw, readDocument_of_stands hs ht₁ hc₁ hd hp, hwrite, hread,
      documentBy_value (put_value hp hd hx).2.1, hframe⟩

/-- An object with an array of a number and an object. -/
def sample : Document :=
  object [("a", array [int 1, object [("b", null)]]), ("c", bool true)]

theorem writeDocument_of_walk_sample :
    ∃ g₁ h g₂ v, (Handle.root ⟨0⟩).walk (Graph.empty.alloc sample.value).1
        (Pointer.moves [.name "a", .item 1, .name "z"]) = .ok (g₁, h) ∧
      h.readDocument g₁ = .ok null ∧ h.writeDocument g₁ (array [int 2]) = .ok g₂ ∧
      g₂.readable ⟨0⟩ = .ok v ∧ v.document g₂ = .ok (object
        [("a", array [int 1, object [("b", null), ("z", array [int 2])]]), ("c", bool true)]) := by
  have hs : sample.Standard := by
    refine .object (by decide) (List.forall_mem_cons.2 ⟨.array ?_, by simpa using .bool⟩)
    refine List.forall_mem_cons.2 ⟨.int (by decide), ?_⟩
    simpa using .object (by decide) (by simpa using .null)
  have hx : (array [int 2]).Standard := .array (by simpa using .int (by decide))
  obtain ⟨g₁, h, g₂, v, hw, hr, hwrite, hv, hd, _⟩ := writeDocument_of_walk
    (g := .empty) (p := [.name "a", .item 1, .name "z"]) (fun _ _ => rfl) rfl rfl hs hx
    ⟨_, rfl, _, rfl, trivial⟩
  exact ⟨g₁, h, g₂, v, hw, hr, hwrite, hv, hd⟩

end Document

end ObjectGraph
