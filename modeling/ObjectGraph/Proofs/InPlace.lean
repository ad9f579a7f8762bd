import ObjectGraph.Proofs.Stands

/-! Writes through handles are updates in place. -/
namespace ObjectGraph

namespace Value

variable {v w : Value} {t : Ty}

theorem box_of_ty (h : v.ty = .any) : v.box = v := by
  cases v <;> first | rfl | cases h

theorem assignTo_eq_heldAs (h : v.ty = t ∨ t = .any) : v.assignTo t = .ok (v.heldAs t) := by
  by_cases hv : v.ty = t
  · by_cases ht : t = .any
    · simp [assignTo, heldAs, hv, ht, box_of_ty (hv.trans ht)]
    · simp [assignTo, heldAs, hv, ht]
  · obtain rfl := h.resolve_left hv
    simp [assignTo, heldAs, Ty.isAssignableTo, hv]

theorem assignTo_eq_ok : v.assignTo t = .ok w ↔ (v.ty = t ∨ t = .any) ∧ w = v.heldAs t := by
  constructor
  · intro h
    have ht : v.ty = t ∨ t = .any := (assignTo_cases h).imp And.right And.right
    exact ⟨ht, Except.ok.inj (h.symm.trans (assignTo_eq_heldAs ht))⟩
  · rintro ⟨ht, rfl⟩
    exact assignTo_eq_heldAs ht

theorem assignTo_any : v.assignTo .any = .ok v.box :=
  (assignTo_eq_heldAs (Or.inr rfl)).trans (by simp [heldAs])

theorem assignTo_error (h : ¬ (v.ty = t ∨ t = .any)) :
    v.assignTo t = .error (.notAssignable v.ty t) := by
  simp_all [assignTo, Ty.isAssignableTo]

end Value

namespace Place

variable {g : Graph} {P Q : Place} {v w : Value} {t : Ty} {r : Route} {key : Key}
  {types : CellId → Option Ty}

/-- The place that a write here fills. -/
def slot (P : Place) : Place := ⟨P.cell, P.route.slot⟩

/-- The type of the slot here. -/
def slotTy? (g : Graph) (P : Place) : Option Ty := (g.content? P.cell).bind (Value.slotTy? P.route)

/-- A write of `v` is allowed: the slot has its type, or it is an interface. -/
def Takes (g : Graph) (P : Place) (v : Value) : Prop :=
  ∃ t, P.slot.slotTy? g = some t ∧ (v.ty = t ∨ t = .any)

theorem slot_content : (P.along [.content]).slot = P := by
  simp [slot, along, Route.slot]

theorem slot_ne_content {hop : Hop} (h : hop ≠ .content) :
    (P.along [hop]).slot = P.along [hop] := by
  simp [slot, along, Route.slot, h]

theorem slotTy?_along {hop : Hop} (h : P.value? g = some w) :
    (P.along (hop :: r)).slotTy? g = Value.slotTy? (hop :: r) w := by
  obtain ⟨old, ho, hw⟩ := Option.bind_eq_some_iff.1 h
  simp only [slotTy?, along, ho, Option.bind_some]
  exact Value.slotTy?_append hw

theorem slotTy?_of_value? (ht : g.Tidy types P.cell) (h : P.value? g = some w) :
    P.slotTy? g = some w.ty := by
  obtain ⟨old, ho, hw⟩ := Option.bind_eq_some_iff.1 h
  simp only [slotTy?, ho, Option.bind_some]
  exact Value.slotTy?_of_at? (ht.typed ho) hw

theorem slotTy?_slot (h : g.content? P.cell = some w) :
    P.slot.slotTy? g = Value.slotTy? P.route.slot w := by
  rw [slotTy?, slot, h, Option.bind_some]

theorem filled_slot (h : g.content? P.cell = some w) :
    P.slot.filled g v = Value.put v P.route.slot w := by
  rw [filled, slot, h, Option.bind_some]

end Place

namespace Location

variable {g : Graph} {p : Location} {P Q : Place} {v w : Value} {t : Ty} {path : Path}
  {types : CellId → Option Ty}

/-- Locations that differ in their last steps only lead on from one place. -/
theorem Leads.withPath (hl : p.Leads g P) :
    ∃ Q : Place, P = Q.along p.path.route ∧
      ∀ path, (p.withPath path).Leads g (Q.along path.route) := by
  cases hl with
  | @cell c path => exact ⟨⟨c, []⟩, rfl, fun _ => .cell⟩
  | @uncached host P key elem cache path m hl hm ht hi hc =>
    exact ⟨P.along [.key key], by simp [Place.along, Location.path], fun path => by
      rw [Place.along_along]
      exact .uncached hl hm ht hi hc⟩
  | @copied host P key elem cache path m u hl hm ht hi hc hu =>
    exact ⟨P.along [.key key, .content], by simp [Place.along, Location.path], fun path => by
      rw [Place.along_along]
      exact .copied hl hm ht hi hc hu⟩

/-- The slot that a write at a location fills is that of its place. While the location has a
value, the write is one to a slot of the type it has. -/
theorem Leads.slot (hl : p.Leads g P) (hw : P.value? g = some w)
    (hp : p.path = [] → ∃ c, p = .cell c []) :
    ∃ x, (p.withPath p.path.slot).Leads g P.slot ∧ P.slot.value? g = some x ∧
      ∀ v : Value, v.overwrite p.path x = v.assignTo x.ty := by
  rcases List.eq_nil_or_concat p.path with hnil | ⟨path, s, hs⟩
  · obtain ⟨c, rfl⟩ := hp hnil
    cases hl
    exact ⟨w, .cell, hw, fun v => rfl⟩
  · obtain ⟨Q, rfl, hq⟩ := hl.withPath
    rw [List.concat_eq_append] at hs
    rw [hs, Path.route_concat, ← Place.along_along] at hw ⊢
    by_cases hu : s = .unbox
    · subst hu
      rw [Place.value?_along] at hw
      obtain ⟨x, hx, hxw⟩ := Option.bind_eq_some_iff.1 hw
      obtain rfl : x = .boxed w := by
        cases x <;> simp_all [Value.at?, Value.part?, Step.hop]
      refine ⟨.boxed w, ?_, ?_, fun v => ?_⟩
      · simpa [Path.slot, Step.hop, Place.slot_content] using hq path
      · simpa [Step.hop, Place.slot_content] using hx
      · simp [Value.overwrite, Value.ty, Value.assignTo_any]
    · have hh : s.hop ≠ .content := by cases s <;> simp_all [Step.hop]
      rw [Place.slot_ne_content hh, Place.along_along, ← Path.route_concat]
      rw [Place.along_along, ← Path.route_concat] at hw
      refine ⟨w, ?_, hw, fun v => ?_⟩
      · simpa [Path.slot, hu] using hq (path ++ [s])
      · simp [Value.overwrite, hu]

end Location

namespace Handle

variable {g : Graph} {h : Handle} {p : Location} {P : Place} {e : Entry} {v w : Value} {t : Ty}
  {types : CellId → Option Ty}

/-- A write that is allowed fills the slot of the place, and any other fails. -/
def WritesAt (g : Graph) (P : Place) (v : Value) (result : Except Fault Graph) : Prop :=
  (∀ t, P.slot.slotTy? g = some t → (v.ty = t ∨ t = .any) →
    ∃ new cs, P.slot.filled g (v.heldAs t) = some new ∧
      result = .ok { g.put P.cell new with caches := cs }) ∧
  (¬ P.Takes g v → ∃ e, result = .error e)

theorem WritesAt.ok_iff {result : Except Fault Graph} (h : WritesAt g P v result) :
    (∃ g₂, result = .ok g₂) ↔ P.Takes g v := by
  constructor
  · intro ⟨g₂, h₂⟩
    refine Classical.byContradiction fun hn => ?_
    obtain ⟨e, he⟩ := h.2 hn
    cases h₂.symm.trans he
  · intro ⟨t, ht, hvt⟩
    obtain ⟨_, _, _, h₂⟩ := h.1 t ht hvt
    exact ⟨_, h₂⟩

/-- A write that succeeds puts the value into the slot of the place and leaves other cells. -/
theorem WritesAt.eq_put {result : Except Fault Graph} {g₂ : Graph} {old : Value}
    (h : WritesAt g P v result) (ho : g.content? P.cell = some old) (h₂ : result = .ok g₂) :
    ∃ t new, Value.slotTy? P.route.slot old = some t ∧ (v.ty = t ∨ t = .any) ∧
      Value.put (v.heldAs t) P.route.slot old = some new ∧
      g₂.cells = (g.put P.cell new).cells ∧ g₂.content? P.cell = some new ∧
      ∀ d, d ≠ P.cell → g₂.content? d = g.content? d := by
  obtain ⟨t, ht, hvt⟩ := h.ok_iff.1 ⟨g₂, h₂⟩
  obtain ⟨new, cs, hf, hr⟩ := h.1 t ht hvt
  cases h₂.symm.trans hr
  rw [Place.slotTy?_slot ho] at ht
  rw [Place.filled_slot ho] at hf
  exact ⟨t, new, ht, hvt, hf, rfl, Graph.content?_put_self ho, fun d hd =>
    Graph.content?_put_ne hd⟩

theorem writesAt_location (hl : p.Leads g P) (hg : g.Tidy types P.cell)
    (hw : P.value? g = some w) (hp : p.path = [] → ∃ c, p = .cell c []) :
    WritesAt g P v (p.store g v) := by
  obtain ⟨x, hs, hx, ho⟩ := hl.slot hw hp
  have hg : g.Tidy types P.slot.cell := hg
  have hty := Place.slotTy?_of_value? hg hx
  constructor
  · intro t ht hv
    obtain rfl : x.ty = t := Option.some.inj (hty.symm.trans ht)
    have hf : v.overwrite p.path x = .ok (v.heldAs x.ty) :=
      (ho v).trans (Value.assignTo_eq_heldAs hv)
    exact hs.update hg hx hf (Value.ty_heldAs hv)
  · intro hn
    have hf : v.overwrite p.path x = .error (.notAssignable v.ty x.ty) :=
      (ho v).trans (Value.assignTo_error fun hv => hn ⟨x.ty, hty, hv⟩)
    exact ⟨_, hs.update_error hg.free hx hf⟩

/-- A write to an entry is one to the map that has it, whether its cache is empty or not. -/
theorem writesAt_inMap {host : Location} {key : Key} {elem : Ty} {cache : CacheId} {m : Value}
    (hl : host.Leads g P) (hg : g.Tidy types P.cell) (hm : P.value? g = some m)
    (ht : m.ty = .map key.ty elem) (hn : ¬ g.Targets cache)
    {Q : Place} (hq : Q.slot = P.along [.key key]) :
    WritesAt g Q v ((Entry.mk host key elem cache).store g v) := by
  have hc : Q.cell = P.cell := show Q.slot.cell = (P.along [.key key]).cell by rw [hq]
  simp only [WritesAt, Place.Takes, Entry.store, Location.storeEntry_eq hn, hq, hc,
    Place.slotTy?_along hm]
  cases m with
  | map k t es =>
    cases ht
    have hty : Value.slotTy? [.key key] (.map key.ty elem es) = some elem := if_pos rfl
    constructor
    · intro t ht hv
      obtain rfl := Option.some.inj (hty.symm.trans ht)
      obtain ⟨new, cs, hf, hu⟩ := hl.update hg hm (f := Value.insert key (v.heldAs elem)) rfl rfl
      refine ⟨new, Assoc.insert cache.index (.copy v) cs, (Place.filled_along hm).trans hf, ?_⟩
      rw [Value.assignTo_eq_heldAs hv, ok_bind, hu]
      rfl
    · intro hv
      rw [Value.assignTo_error fun h => hv ⟨elem, hty, h⟩]
      exact ⟨_, rfl⟩
  | nilMap k t =>
    refine ⟨fun t ht => by simp [Value.slotTy?, Value.partTy?, Value.part?] at ht, fun _ => ?_⟩
    cases v.assignTo elem with
    | error x => exact ⟨x, rfl⟩
    | ok w =>
      have hu := hl.update_error hg.free hm (f := Value.insert key w) (e := .nilMap key) rfl
      exact ⟨_, by rw [ok_bind, hu, error_bind]⟩
  | _ => cases ht

theorem Stands.content (hs : h.Stands g P) : ∃ old, g.content? P.cell = some old := by
  have hc : ∀ {Q : Place} {w}, Q.value? g = some w → ∃ old, g.content? Q.cell = some old := by
    intro Q w hw
    obtain ⟨old, ho, _⟩ := Option.bind_eq_some_iff.1 hw
    exact ⟨old, ho⟩
  cases hs with
  | direct _ hv => exact hc hv
  | target _ hv => exact hc hv
  | inMap hl =>
    cases hl with
    | @uncached _ P _ _ _ _ _ _ hm => exact hc (Q := P) hm
    | @copied _ P _ _ _ _ _ _ _ hm => exact hc (Q := P) hm

/-- A write through a handle that stands for a place is one to the place. -/
theorem Stands.writesAt (hs : h.Stands g P) (hg : g.Tidy types P.cell) :
    WritesAt g P v (h.set g v) := by
  cases hs with
  | direct hl hw hp => exact writesAt_location hl hg hw hp
  | @target e c path w hc hw =>
    rw [set_of_target hc]
    exact writesAt_location .cell hg hw fun hp => ⟨c, congrArg _ hp⟩
  | @inMap e _ hl =>
    cases hl with
    | uncached hl hm ht _ hc =>
      exact writesAt_inMap hl hg hm ht (by simp [Graph.Targets, hc])
        (Place.slot_ne_content (by simp))
    | @copied _ P _ _ _ _ _ _ hl hm ht _ hc =>
      have hq : (P.along [.key e.key, .content]).slot = P.along [.key e.key] := by
        rw [← Place.slot_content (P := P.along [.key e.key]), Place.along_along]
        rfl
      exact writesAt_inMap hl hg hm ht (by simp [Graph.Targets, hc]) hq

end Handle

namespace Graph

variable {g g₁ : Graph} {c c₀ : CellId} {v v₀ old new : Value} {r : Route} {t : Ty}

theorem tidy_cellTy? (hty : g.WellTyped) (hbox : g.BoxedOnce) (hfree : g.holds = []) (c : CellId) :
    g.Tidy g.cellTy? c :=
  ⟨by simp [isHeld, hfree], fun _ h => hty h, fun _ h => hbox h⟩

/-- A well-typed value put into a slot of its type, or boxed into an interface, leaves the graph
well-typed and interfaces in no interface. -/
theorem wellTyped_put (hty : g.WellTyped) (hbox : g.BoxedOnce) (ho : g.content? c = some old)
    (hv : v.Typed g.cellTy?) (hvb : v.BoxedOnce) (hs : Value.slotTy? r old = some t)
    (hvt : v.ty = t ∨ t = .any) (hp : Value.put (v.heldAs t) r old = some new) :
    (g.put c new).WellTyped ∧ (g.put c new).BoxedOnce := by
  have hs' : Value.slotTy? r old = some (v.heldAs t).ty := by rw [Value.ty_heldAs hvt, hs]
  have hn : new.Typed g.cellTy? := (hty ho).put Value.steady_declared (hv.heldAs t) hs' hp
  have hnb : new.BoxedOnce := (hbox ho).put Value.steady_plain (hvb.heldAs t) hs' hp
  refine ⟨?_, forall_content_put ho hbox hnb⟩
  unfold WellTyped
  rw [cellTy?_put ho (Value.ty_put_of_slotTy? hs' hp)]
  exact forall_content_put ho hty hn

end Graph

/-- A write at the end of a walk from a root is one in place. It succeeds when the slot at the place
where the walk ends, which no nil map has, is of the value's type or an interface, and all it
changes is the part of one cell at that place. -/
theorem set_of_walk {g g₁ : Graph} {c₀ : CellId} {v₀ v : Value} {ms : List Move} {h : Handle}
    (hty : g.WellTyped) (hbox : g.BoxedOnce) (hfree : g.holds = []) (hfresh : g.Fresh)
    (hc₀ : g.content? c₀ = some v₀) (hw : (Handle.root c₀).walk g ms = .ok (g₁, h))
    (hv : v.Typed g.cellTy?) (hvb : v.BoxedOnce) :
    ∃ P old, Place.walk g ⟨c₀, []⟩ ms = some P ∧ g.content? P.cell = some old ∧
      ((∃ g₂, h.set g₁ v = .ok g₂) ↔
        ∃ t, Value.slotTy? P.route.slot old = some t ∧ (v.ty = t ∨ t = .any)) ∧
      ∀ g₂, h.set g₁ v = .ok g₂ → ∃ t new,
        Value.slotTy? P.route.slot old = some t ∧
        Value.put (v.heldAs t) P.route.slot old = some new ∧
        g₂.content? P.cell = some new ∧
        Value.at? P.route.slot new = some (v.heldAs t) ∧
        (∀ r, Route.Apart r P.route.slot → Value.at? r new = Value.at? r old) ∧
        (∀ d, d ≠ P.cell → g₂.content? d = g.content? d) ∧
        g₂.WellTyped ∧ g₂.BoxedOnce := by
  have htidy := Graph.tidy_cellTy? hty hbox hfree
  have hcells : ∀ c t, g.cellTy? c = some t → ∃ w, g.content? c = some w := by
    intro c t h
    obtain ⟨w, hw, _⟩ := Option.map_eq_some_iff.1 h
    exact ⟨w, hw⟩
  have hagree := (Handle.stands_root hc₀).walk (fun c _ => htidy c) hfresh hcells ms
  rcases hagree.cases with ⟨e, he, _⟩ | ⟨g', h', P, hok, hP, hgr, _, hs⟩
  · cases he.symm.trans hw
  · cases hok.symm.trans hw
    have hset := hs.writesAt (v := v) ((htidy P.cell).grown hgr)
    obtain ⟨old, ho⟩ := hs.content
    have ho' : g.content? P.cell = some old := Graph.content?_congr hgr.cells ▸ ho
    refine ⟨P, old, hP, ho', ?_, ?_⟩
    · rw [hset.ok_iff, Place.Takes, Place.slotTy?_slot ho]
    · intro g₂ h₂
      obtain ⟨t, new, ht, hvt, hn, hcs, hself, hframe⟩ := hset.eq_put ho h₂
      have hcs : g₂.cells = (g.put P.cell new).cells := by
        rw [hcs, Graph.put, hgr.cells]
        rfl
      obtain ⟨hty₂, hbox₂⟩ := Graph.wellTyped_put hty hbox ho' hv hvb ht hvt hn
      have hapart : ∀ r, Route.Apart r P.route.slot → Value.at? r new = Value.at? r old :=
        fun r hr => Value.at?_put_of_apart hn hr
      have hothers : ∀ d, d ≠ P.cell → g₂.content? d = g.content? d := fun d hd =>
        (hframe d hd).trans (Graph.content?_congr hgr.cells)
      exact ⟨t, new, ht, hn, hself, Value.at?_put_self hn, hapart, hothers, hty₂.congr hcs,
        hbox₂.congr hcs⟩

def boxLayout : Layout := ⟨"Box", [("tag", .int), ("content", .any)]⟩

/-- A map of pointers to a box that holds a map of slices. -/
def shelf : Graph where
  cells := #[.map .int (.pointer boxLayout.ty) [(.int 7, .pointer boxLayout.ty ⟨1⟩)],
    .struct boxLayout [.int 0,
      .boxed (.map .int .any [(.int 1, .boxed (.slice .int [.int 5, .int 6]))])]]
  caches := []
  nextCache := 0
  holds := []

def shelfWalk : List Move :=
  [.entry (.int 7), .elem, .field "content", .elem, .entry (.int 1), .elem, .index 1]

theorem set_of_walk_shelf : ∃ g₁ h g₂, (Handle.root ⟨0⟩).walk shelf shelfWalk = .ok (g₁, h) ∧
    h.set g₁ (.int 9) = .ok g₂ ∧
    g₂.content? ⟨1⟩ = some (.struct boxLayout [.int 0,
      .boxed (.map .int .any [(.int 1, .boxed (.slice .int [.int 5, .int 9]))])]) ∧
    g₂.content? ⟨0⟩ = shelf.content? ⟨0⟩ := by
  obtain ⟨g₁, h, hw⟩ : ∃ g₁ h, (Handle.root ⟨0⟩).walk shelf shelfWalk = .ok (g₁, h) := ⟨_, _, rfl⟩
  have hfresh : shelf.Fresh := fun i _ => rfl
  obtain ⟨P, old, hP, ho, hok, hset⟩ := set_of_walk (g := shelf) (v := .int 9) (by decide)
    (by decide) rfl hfresh rfl hw (by decide) (by decide)
  cases (rfl : Place.walk shelf ⟨⟨0⟩, []⟩ shelfWalk =
    some ⟨⟨1⟩, [.field 1, .content, .key (.int 1), .content, .index 1]⟩).symm.trans hP
  cases ho
  obtain ⟨g₂, h₂⟩ := hok.2 ⟨.int, rfl, Or.inl rfl⟩
  obtain ⟨t, new, ht, hn, hc, _, _, hframe, _⟩ := hset g₂ h₂
  cases ht
  cases hn
  exact ⟨g₁, h, g₂, hw, h₂, hc, hframe ⟨0⟩ (by decide)⟩

end ObjectGraph
