import ObjectGraph.Proofs.Leads

/-! The places that handles stand for. A move of a handle succeeds when the move of its place does,
and the handle it gives stands for the place that gives. -/
namespace ObjectGraph

namespace Graph

variable {g g' : Graph} {types : CellId → Option Ty} {c : CellId}

/-- No cache is in use that was not given out. -/
def Fresh (g : Graph) : Prop := ∀ i : CacheId, g.nextCache ≤ i.index → g.cached? i = none

/-- More caches may be given out; all else stays. -/
structure Grown (g g' : Graph) : Prop where
  cells : g'.cells = g.cells
  holds : g'.holds = g.holds
  le : g.nextCache ≤ g'.nextCache
  cached : ∀ i : CacheId, i.index < g.nextCache → g'.cached? i = g.cached? i

theorem Grown.refl : g.Grown g := ⟨rfl, rfl, Nat.le_refl _, fun _ _ => rfl⟩

theorem Grown.trans {g'' : Graph} (h : g.Grown g') (h' : g'.Grown g'') : g.Grown g'' :=
  ⟨h'.cells.trans h.cells, h'.holds.trans h.holds, Nat.le_trans h.le h'.le, fun i hi =>
    (h'.cached i (Nat.lt_of_lt_of_le hi h.le)).trans (h.cached i hi)⟩

theorem Tidy.grown (ht : g.Tidy types c) (h : g.Grown g') : g'.Tidy types c := by
  have hc : g'.content? c = g.content? c := content?_congr h.cells
  exact ⟨by simpa [isHeld, h.holds] using ht.free, fun v hv => ht.typed (hc ▸ hv),
    fun v hv => ht.boxedOnce (hc ▸ hv)⟩

theorem grown_newCache : g.Grown g.newCache.1 :=
  ⟨rfl, rfl, Nat.le_succ _, fun _ _ => rfl⟩

theorem fresh_newCache (h : g.Fresh) : g.newCache.1.Fresh := fun i hi =>
  h i (Nat.le_of_succ_le hi)

theorem grown_setCache_newCache {e : Cached} :
    g.Grown (g.newCache.1.setCache g.newCache.2 e) := by
  refine ⟨rfl, rfl, Nat.le_succ _, fun i hi => ?_⟩
  apply cached?_setCache_ne
  rintro rfl
  exact Nat.lt_irrefl _ hi

theorem fresh_setCache_newCache {e : Cached} (h : g.Fresh) :
    (g.newCache.1.setCache g.newCache.2 e).Fresh := by
  intro i hi
  rw [cached?_setCache_ne]
  · exact fresh_newCache h i hi
  · rintro rfl
    exact Nat.not_succ_le_self _ hi

end Graph

namespace Location

variable {g g' : Graph} {p : Location} {P : Place} {s : Step}

theorem Leads.grown (hl : p.Leads g P) (h : g.Grown g') : p.Leads g' P := by
  induction hl with
  | cell => exact .cell
  | uncached _ hm ht hi hc ih =>
    exact .uncached ih (Place.value?_congr h.cells ▸ hm) ht (Nat.lt_of_lt_of_le hi h.le)
      (h.cached _ hi ▸ hc)
  | copied _ hm ht hi hc hu ih =>
    exact .copied ih (Place.value?_congr h.cells ▸ hm) ht (Nat.lt_of_lt_of_le hi h.le)
      (h.cached _ hi ▸ hc) hu

theorem Leads.step (hl : p.Leads g P) (s : Step) : (p.step s).Leads g (P.along [s.hop]) := by
  cases hl with
  | cell =>
    rw [Place.along, ← Path.route_concat]
    exact .cell
  | uncached hl hm ht hi hc =>
    rw [Place.along_along, List.cons_append, ← Path.route_concat]
    exact .uncached hl hm ht hi hc
  | copied hl hm ht hi hc hu =>
    rw [Place.along_along, List.cons_append, List.cons_append, ← Path.route_concat]
    exact .copied hl hm ht hi hc hu

end Location

namespace Handle

variable {g g' : Graph} {h h' : Handle} {P P' : Place} {v : Value} {m : Move}
  {types : CellId → Option Ty} {ms : List Move}

/-- The handle stands for a place. Only an entry may be one that is not there, and only an entry
stands for the whole of an entry. -/
inductive Stands (g : Graph) : Handle → Place → Prop
  | direct {p : Location} {P : Place} {v : Value} (hl : p.Leads g P) (hv : P.value? g = some v)
      (hp : p.path = [] → ∃ c, p = .cell c []) : Stands g (direct p) P
  | target {e : Entry} {c : CellId} {path : Path} {v : Value}
      (hc : g.cached? e.cache = some (.target c path))
      (hv : (Place.mk c path.route).value? g = some v) : Stands g (entry e) ⟨c, path.route⟩
  | inMap {e : Entry} {P : Place}
      (hl : (Location.entry e.host e.key e.elem e.cache []).Leads g P) : Stands g (entry e) P

/-- A result of a handle's move agrees with one of a place's move. -/
def Agree (g : Graph) : Except Fault (Graph × Handle) → Option Place → Prop
  | .ok (g', h'), some P' => g.Grown g' ∧ g'.Fresh ∧ h'.Stands g' P'
  | .error _, none => True
  | _, _ => False

/-- Past a pointer a write goes to the target. -/
theorem set_of_target {e : Entry} {c : CellId} {path : Path}
    (hc : g.cached? e.cache = some (.target c path)) :
    (entry e).set g v = (Location.cell c path).store g v := by
  simp only [Handle.set, Entry.store, Graph.storeEntry, hc]
  rfl

theorem Stands.location (hs : h.Stands g P) : (h.location g).Leads g P := by
  cases hs with
  | direct hl => exact hl
  | target hc =>
    rw [Handle.location, Entry.location_of_target hc]
    exact .cell
  | inMap hl =>
    rw [Handle.location, hl.location_entry]
    exact hl

/-- A move that agrees with one of a place fails with it, or leads to what stands for its end. -/
theorem Agree.cases {a : Except Fault (Graph × Handle)} {b : Option Place} (h : Agree g a b) :
    (∃ e, a = .error e ∧ b = none) ∨
    ∃ g' h' P', a = .ok (g', h') ∧ b = some P' ∧ g.Grown g' ∧ g'.Fresh ∧ h'.Stands g' P' := by
  cases a with
  | error e =>
    cases b with
    | none => exact Or.inl ⟨e, rfl, rfl⟩
    | some P' => cases h
  | ok r =>
    cases b with
    | none => cases h
    | some P' => exact Or.inr ⟨r.1, r.2, P', rfl, rfl, h⟩

theorem Agree.grown {a : Except Fault (Graph × Handle)} {b : Option Place} (h : Agree g' a b)
    (hg : g.Grown g') : Agree g a b := by
  rcases h.cases with ⟨_, rfl, rfl⟩ | ⟨_, _, _, rfl, rfl, hgr, hf, hs⟩
  · trivial
  · exact ⟨hg.trans hgr, hf, hs⟩

theorem agree_ok (hg : g.Grown g') (hf : g'.Fresh) (hs : h'.Stands g' P') :
    Agree g (.ok (g', h')) (some P') :=
  ⟨hg, hf, hs⟩

theorem Stands.read (hs : h.Stands g P) (hf : g.isHeld P.cell = false) (hv : P.value? g = some v) :
    (h.location g).read g = .ok v :=
  hs.location.read hf hv

/-- A place with no value is that of an entry that its map does not have. -/
theorem Stands.absent (hs : h.Stands g P) (hf : g.isHeld P.cell = false)
    (hv : P.value? g = none) :
    ∃ e : Entry, h = entry e ∧ e.read g = .ok none ∧
      (h.location g).read g = .error (.absentEntry e.key) := by
  cases hs with
  | direct _ hv' => simp [hv] at hv'
  | target _ hv' => simp [hv] at hv'
  | @inMap e _ hl =>
    have hr : e.read g = .ok none := hv ▸ hl.read_entry hf
    have hc : g.current e.cache e.key (e.host.read g) = .ok none := hr
    refine ⟨e, rfl, hr, ?_⟩
    rw [Handle.location, hl.location_entry, Location.read, hc]
    rfl

/-- A step to a part that is there gives a handle on it. -/
theorem Stands.step {s : Step} {u : Value} (hs : h.Stands g P) (hg : g.Fresh)
    (hv : P.value? g = some v) (hu : v.part? s.hop = some u) :
    Agree g (.ok (g, .direct ((h.location g).step s))) (some (P.along [s.hop])) := by
  refine agree_ok .refl hg (.direct (v := u) (hs.location.step s) ?_ fun hp => ?_)
  · simp [Place.value?_along, hv, Value.at?, hu]
  · cases hl : h.location g <;> simp [hl, Location.step, Location.path, Location.withPath] at hp

theorem Stands.move_field {name : String} (hs : h.Stands g P) (ht : g.Tidy types P.cell)
    (hg : g.Fresh) : Agree g (h.move g (.field name)) (P.move g (.field name)) := by
  cases hv : P.value? g with
  | none =>
    obtain ⟨e, rfl, _, he⟩ := hs.absent ht.free hv
    simp only [Handle.move, Handle.field, Location.field, he, Place.move, hv]
    trivial
  | some v =>
    simp only [Handle.move, Handle.field, Location.field, hs.read ht.free hv, Place.move, hv,
      ok_bind]
    cases v with
    | struct layout fields =>
      cases hi : layout.fieldIndex? name with
      | none =>
        simp only [hi]
        trivial
      | some i =>
        have hlen : fields.length = layout.fields.length := by
          simpa using congrArg List.length (Place.typed_value? ht hv).here
        have hlt : i < fields.length := by
          rw [hlen]
          exact (List.findIdx?_eq_some_iff_getElem.1 hi).1
        simp only [hi]
        exact hs.step (s := .field i) hg hv (List.getElem?_eq_getElem hlt)
    | _ => trivial

theorem Stands.move_index {i : Nat} (hs : h.Stands g P) (ht : g.Tidy types P.cell)
    (hg : g.Fresh) : Agree g (h.move g (.index i)) (P.move g (.index i)) := by
  cases hv : P.value? g with
  | none =>
    obtain ⟨e, rfl, _, he⟩ := hs.absent ht.free hv
    simp only [Handle.move, Handle.index, Location.index, he, Place.move, hv]
    trivial
  | some v =>
    simp only [Handle.move, Handle.index, Location.index, hs.read ht.free hv, Place.move, hv,
      ok_bind]
    cases v with
    | slice elem items =>
      by_cases hi : i < items.length
      · simp only [hi, if_true]
        exact hs.step (s := .index i) hg hv (List.getElem?_eq_getElem hi)
      · simp only [hi, if_false]
        trivial
    | _ => trivial

theorem Stands.move_entry {key : Key} (hs : h.Stands g P) (ht : g.Tidy types P.cell)
    (hg : g.Fresh) : Agree g (h.move g (.entry key)) (P.move g (.entry key)) := by
  have hnew : ∀ {v elem}, P.value? g = some v → v.ty = .map key.ty elem →
      Agree g (.ok (g.newCache.1, .entry ⟨h.location g, key, elem, g.newCache.2⟩))
        (some (P.along [.key key])) := by
    intro v elem hv hvt
    refine agree_ok Graph.grown_newCache (Graph.fresh_newCache hg) (.inMap ?_)
    exact .uncached (hs.location.grown Graph.grown_newCache) hv hvt (Nat.lt_succ_self _)
      (hg _ (Nat.le_refl _))
  cases hv : P.value? g with
  | none =>
    obtain ⟨e, rfl, _, he⟩ := hs.absent ht.free hv
    simp only [Handle.move, Handle.entryAt, Location.elemFor, he, Place.move, hv]
    trivial
  | some v =>
    simp only [Handle.move, Handle.entryAt, Location.elemFor, hs.read ht.free hv, Place.move, hv,
      ok_bind]
    cases v with
    | nilMap k elem | map k elem _ =>
      by_cases hk : key.ty = k
      · simp only [hk, if_true]
        exact hnew hv (congrArg (Ty.map · elem) hk.symm)
      · simp only [hk, if_false]
        trivial
    | _ => trivial

/-- The root of a cell stands for its whole content. -/
theorem stands_root {c : CellId} (hv : g.content? c = some v) : Stands g (root c) ⟨c, []⟩ := by
  have hl : (Location.cell c []).Leads g ⟨c, Path.route []⟩ := .cell
  exact .direct hl (Place.value?_root.trans hv) fun _ => ⟨c, rfl⟩

/-- An entry whose value is followed gets a cache of its own. -/
theorem move_elem_of_below {e : Entry} {k : Cached} (hb : e.below g = .ok k) :
    (Handle.entry e).move g .elem = .ok (g.newCache.1.setCache g.newCache.2 k,
      .entry { e with cache := g.newCache.2 }) := by
  simp only [Handle.move, Handle.elem, Entry.deref, hb, ok_bind]
  rfl

theorem move_elem_of_below_error {e : Entry} {x : Fault} (hb : e.below g = .error x) :
    (Handle.entry e).move g .elem = .error x := by
  simp only [Handle.move, Handle.elem, Entry.deref, hb, error_bind]

theorem agree_target {e : Entry} {c : CellId} {path : Path} (hg : g.Fresh)
    (hb : e.below g = .ok (.target c path)) (hv : (Place.mk c path.route).value? g = some v) :
    Agree g ((Handle.entry e).move g .elem) (some ⟨c, path.route⟩) := by
  have hgrown := Graph.grown_setCache_newCache (g := g) (e := .target c path)
  rw [move_elem_of_below hb]
  exact agree_ok hgrown (Graph.fresh_setCache_newCache hg)
    (.target Graph.cached?_setCache_self ((Place.value?_congr hgrown.cells).trans hv))

/-- An interface in a map is followed to a copy of its content. -/
theorem agree_copy {host : Location} {key : Key} {elem : Ty} {i : CacheId} {u w : Value}
    (hl : host.Leads g P) (hg : g.Fresh) (hv : P.value? g = some w) (ht : w.ty = .map key.ty elem)
    (hu : w.part? (.key key) = some (.boxed u)) :
    Agree g (.ok (g.newCache.1.setCache g.newCache.2 (.copy u),
      .entry { (⟨host, key, elem, i⟩ : Entry) with cache := g.newCache.2 }))
      (some (P.along [.key key, .content])) := by
  have hgrown := Graph.grown_setCache_newCache (g := g) (e := .copy u)
  refine agree_ok hgrown (Graph.fresh_setCache_newCache hg) (.inMap ?_)
  exact .copied (hl.grown hgrown) ((Place.value?_congr hgrown.cells).trans hv) ht
    (Nat.lt_succ_self _) Graph.cached?_setCache_self hu

theorem move_elem_of_leads {p : Location} (hs : (direct p).Stands g P) (ht : g.Tidy types P.cell)
    (hg : g.Fresh) (hc : ∀ c t, types c = some t → ∃ w, g.content? c = some w)
    (hl : p.Leads g P) (hv : P.value? g = some v) :
    Agree g ((direct p).move g .elem) (P.move g .elem) := by
  simp only [Handle.move, Handle.elem, Location.deref, hl.read ht.free hv, Place.move, hv, ok_bind]
  cases v with
  | pointer t c =>
    obtain ⟨w, hw⟩ := hc c t (Place.typed_value? ht hv).here
    exact agree_ok .refl hg (stands_root hw)
  | boxed u => exact hs.step (s := .unbox) hg hv rfl
  | _ => trivial

/-- Past a pointer an entry is followed from the target. -/
theorem move_elem_of_target {e : Entry} {c : CellId} {path : Path} (ht : g.Tidy types c)
    (hg : g.Fresh) (hc : ∀ c t, types c = some t → ∃ w, g.content? c = some w)
    (he : g.cached? e.cache = some (.target c path))
    (hv : (Place.mk c path.route).value? g = some v) :
    Agree g ((entry e).move g .elem) (Place.move g ⟨c, path.route⟩ .elem) := by
  have hld := Graph.load_of_value? ht.free hv
  simp only [Place.move, hv]
  cases v with
  | pointer t d =>
    obtain ⟨w, hw⟩ := hc d t (Place.typed_value? ht hv).here
    have hb : e.below g = .ok (.target d []) := by
      simp only [Entry.below, he, hld, ok_bind]
      rfl
    exact agree_target hg hb (Place.value?_root.trans hw)
  | boxed u =>
    have hb : e.below g = .ok (.target c (path ++ [.unbox])) := by
      simp only [Entry.below, he, hld, ok_bind]
      rfl
    have hp : (Place.mk c path.route).along [.content] = ⟨c, Path.route (path ++ [.unbox])⟩ := by
      rw [Path.route_concat]
      rfl
    have hd : (Place.mk c (Path.route (path ++ [.unbox]))).value? g = some u := by
      rw [← hp, Place.value?_along, hv]
      rfl
    simp only [hp]
    exact agree_target hg hb hd
  | _ =>
    simp only [Handle.move, Handle.elem, Entry.deref, Entry.below, he, hld, ok_bind]
    trivial

theorem move_elem_of_inMap {e : Entry} (ht : g.Tidy types P.cell) (hg : g.Fresh)
    (hc : ∀ c t, types c = some t → ∃ w, g.content? c = some w)
    (hl : (Location.entry e.host e.key e.elem e.cache []).Leads g P) :
    Agree g ((entry e).move g .elem) (P.move g .elem) := by
  have hb := hl.below_entry ht.free
  cases hv : P.value? g with
  | none =>
    simp only [hv] at hb
    simp only [Place.move, hv, move_elem_of_below_error hb]
    trivial
  | some v =>
    simp only [hv] at hb
    simp only [Place.move, hv]
    cases v with
    | pointer t d =>
      obtain ⟨w, hw⟩ := hc d t (Place.typed_value? ht hv).here
      exact agree_target hg hb (Place.value?_root.trans hw)
    | boxed u =>
      rw [move_elem_of_below hb]
      cases hl with
      | uncached hl hm hmt =>
        rw [Place.value?_along, hm, Option.bind_some] at hv
        obtain ⟨x, hx, hxu⟩ := Option.bind_eq_some_iff.1 hv
        cases hxu
        simp only [Place.along_along]
        exact agree_copy hl hg hm hmt hx
      | @copied _ P₀ _ _ _ _ m _ hl hm hmt hi hc hu =>
        -- the content that is cached is no interface
        have ht : g.Tidy types P₀.cell := ht
        rw [Place.value?_along, hm, Option.bind_some, Value.at?, hu] at hv
        cases hv
        exact absurd rfl ((Place.boxedOnce_value? ht hm).part hu).here
    | _ =>
      simp only [move_elem_of_below_error hb]
      trivial

theorem Stands.move_elem (hs : h.Stands g P) (ht : g.Tidy types P.cell) (hg : g.Fresh)
    (hc : ∀ c t, types c = some t → ∃ w, g.content? c = some w) :
    Agree g (h.move g .elem) (P.move g .elem) := by
  cases hs with
  | direct hl hv hp => exact move_elem_of_leads (.direct hl hv hp) ht hg hc hl hv
  | target he hv => exact move_elem_of_target ht hg hc he hv
  | inMap hl => exact move_elem_of_inMap ht hg hc hl

/-- A move of a handle that stands for a place is a move of the place. -/
theorem Stands.move (hs : h.Stands g P) (ht : g.Tidy types P.cell) (hg : g.Fresh)
    (hc : ∀ c t, types c = some t → ∃ w, g.content? c = some w) (m : Move) :
    Agree g (h.move g m) (P.move g m) := by
  cases m with
  | elem => exact hs.move_elem ht hg hc
  | field => exact hs.move_field ht hg
  | index => exact hs.move_index ht hg
  | entry => exact hs.move_entry ht hg

/-- A move stays in its cell, or it goes to one that the types name. -/
theorem cell_of_move (ht : g.Tidy types P.cell) (hm : P.move g m = some P') :
    P'.cell = P.cell ∨ ∃ t, types P'.cell = some t := by
  cases hv : P.value? g with
  | none => cases m <;> simp [Place.move, hv] at hm
  | some v =>
    cases m with
    | elem =>
      cases v <;> simp only [Place.move, hv] at hm <;> cases hm
      · exact Or.inr ⟨_, (Place.typed_value? ht hv).here⟩
      · exact Or.inl rfl
    | field name =>
      cases v <;> simp only [Place.move, hv, Option.map_eq_some_iff, reduceCtorEq] at hm
      obtain ⟨_, _, rfl⟩ := hm
      exact Or.inl rfl
    | index i =>
      cases v <;> simp only [Place.move, hv, Option.ite_none_right_eq_some, reduceCtorEq] at hm
      obtain ⟨_, hm⟩ := hm
      cases hm
      exact Or.inl rfl
    | entry key =>
      cases v <;> simp only [Place.move, hv, Option.ite_none_right_eq_some, reduceCtorEq] at hm
      all_goals
        obtain ⟨_, hm⟩ := hm
        cases hm
        exact Or.inl rfl

theorem Stands.walk (hs : h.Stands g P)
    (ht : ∀ c, c = P.cell ∨ (∃ t, types c = some t) → g.Tidy types c) (hg : g.Fresh)
    (hc : ∀ c t, types c = some t → ∃ w, g.content? c = some w) (ms : List Move) :
    Agree g (h.walk g ms) (P.walk g ms) := by
  induction ms generalizing g h P with
  | nil => exact agree_ok .refl hg hs
  | cons m ms ih =>
    have hm := hs.move (ht _ (Or.inl rfl)) hg hc m
    rcases hm.cases with ⟨e, ha, hb⟩ | ⟨g', h', P', ha, hb, hgr, hg', hs'⟩
    · simp only [Handle.walk, Place.walk, ha, hb]
      trivial
    · have ht' : ∀ c, c = P'.cell ∨ (∃ t, types c = some t) → g'.Tidy types c := by
        rintro c (rfl | h)
        · rcases cell_of_move (ht _ (Or.inl rfl)) hb with h | h
          · exact (ht _ (Or.inl h)).grown hgr
          · exact (ht _ (Or.inr h)).grown hgr
        · exact (ht c (Or.inr h)).grown hgr
      have hc' : ∀ c t, types c = some t → ∃ w, g'.content? c = some w := by
        intro c t h
        simpa [Graph.content?_congr hgr.cells] using hc c t h
      have ih := ih hs' ht' hg' hc'
      rw [Place.walk_congr hgr.cells] at ih
      simp only [Handle.walk, Place.walk, ha, hb, ok_bind, Option.bind_some]
      exact ih.grown hgr

end Handle

end ObjectGraph
