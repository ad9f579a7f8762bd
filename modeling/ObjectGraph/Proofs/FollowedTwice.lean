import ObjectGraph.Proofs.Commute
import ObjectGraph.Proofs.Locality
import ObjectGraph.Proofs.NamedFields

/-! Writes to the fields of a struct in an interface that a map has, each through a copy of one
handle on the entry that is followed on its own. What is below the entry gets a cache of its own
each time, so that a write through it does not reach the cache of the entry. Where the entry reads
through to its map, or to the target of a pointer, the second write starts from what the first has
left. Where it has a copy of its own, the second write starts from that copy. -/
namespace ObjectGraph

variable {g g' : Graph} {c : CellId} {path : Path} {h : Handle} {e : Entry} {name : String}
  {v old new : Value} {i : Nat}

theorem Layout.fieldIndex?_inj {l : Layout} {a b : String} (ha : l.fieldIndex? a = some i)
    (hb : l.fieldIndex? b = some i) : a = b := by
  obtain ⟨_, hai, _⟩ := List.findIdx?_eq_some_iff_getElem.1 ha
  obtain ⟨_, hbi, _⟩ := List.findIdx?_eq_some_iff_getElem.1 hb
  exact (beq_iff_eq.1 hai).symm.trans (beq_iff_eq.1 hbi)

namespace Value

variable {u w : Value} {given given' : List (String × Value)}

/-- `new` is `old` with values given for some of the fields, as these fields keep them. -/
structure Renews (given : List (String × Value)) (old new : Value) : Prop where
  ty : new.ty = old.ty
  renewed : ∀ f ∈ given, ∃ w, new.field? f.1 = some w ∧ w = f.2.heldAs w.ty
  others : ∀ name, name ∉ given.map (·.1) → new.field? name = old.field? name

/-- What is given for other fields later on does not undo what was given before. -/
theorem Renews.append (h : Renews given u v) (h' : Renews given' v w)
    (hd : ∀ f ∈ given, f.1 ∉ given'.map (·.1)) : Renews (given ++ given') u w where
  ty := h'.ty.trans h.ty
  renewed := by
    intro f hf
    rcases List.mem_append.1 hf with hf | hf
    · obtain ⟨x, hx, hxv⟩ := h.renewed f hf
      exact ⟨x, (h'.others _ (hd f hf)).trans hx, hxv⟩
    · exact h'.renewed f hf
  others := by
    intro name hn
    rw [List.map_append, List.mem_append, not_or] at hn
    exact (h'.others name hn.2).trans (h.others name hn.1)

theorem renews_set {l : Layout} {fields : List Value} (hi : l.fieldIndex? name = some i)
    (hu : fields[i]? = some u) (hw : v.assignTo u.ty = .ok w) :
    Renews [(name, v)] (struct l fields) (struct l (fields.set i w)) where
  ty := rfl
  renewed := by
    obtain ⟨hlt, _⟩ := List.getElem?_eq_some_iff.1 hu
    have hf : (struct l (fields.set i w)).field? name = some w := by simp [field?, hi, hlt]
    intro f hm
    obtain rfl := List.mem_singleton.1 hm
    refine ⟨w, hf, ?_⟩
    rw [ty_of_assignTo hw]
    exact (assignTo_eq_ok.1 hw).2
  others := by
    intro n hn
    cases hj : l.fieldIndex? n with
    | none => simp only [field?, hj, Option.bind_none]
    | some j =>
      have hij : i ≠ j := by
        rintro rfl
        exact hn (by simp [Layout.fieldIndex?_inj hj hi])
      simp [field?, hj, hij]

end Value

namespace Handle

/-- Follows a copy of the handle, and writes `v` to a field of the struct that it leads to. -/
def setBelow (g : Graph) (h : Handle) (name : String) (v : Value) : Except Fault Graph := do
  let (g, below) ← h.elem g
  (← below.field g name).set g v

theorem mem_chain_of_mem_location (he : e ∈ (h.location g).chain g) : e ∈ h.chain g := by
  cases h with
  | direct p => exact he
  | entry d =>
    by_cases ht : g.Targets d.cache
    · obtain ⟨c, path, ht⟩ := ht
      rw [Handle.location, Entry.location_of_target ht] at he
      cases he
    · rw [Handle.location, Entry.location_of_not_targets ht] at he
      exact he

/-- A write below a handle renews the struct that is there, and all entries on the way to it are
synced with their maps afterwards. -/
theorem setBelow_cases (ha : h.Anchored g) (hs : h.setBelow g name v = .ok g') :
    ∃ g₁ h₁ layout fields new, h.move g .elem = .ok (g₁, h₁) ∧
      (h₁.location g₁).read g₁ = .ok (.struct layout fields) ∧
      (h₁.location g₁).read g' = .ok new ∧
      Value.Renews [(name, v)] (.struct layout fields) new ∧
      (∀ e ∈ (h₁.location g₁).chain g₁, e.Synced g') ∧
      (∀ i, i ∉ (h₁.chain g₁).map Entry.cache → g'.cached? i = g₁.cached? i) ∧ g.Later g' := by
  obtain ⟨⟨g₁, h₁⟩, hm, hs⟩ := bind_eq_ok.1 hs
  obtain ⟨f, hf, hs⟩ := bind_eq_ok.1 hs
  have hm : h.move g .elem = .ok (g₁, h₁) := hm
  have hmf : h₁.move g₁ (.field name) = .ok (g₁, f) := by
    simp only [Handle.move, hf, ok_bind]
    rfl
  obtain ⟨layout, fields, i, hr, hi, _, rfl⟩ := field_cases hmf
  have ha₁ := (ha.move hm).location
  have hstep : ((h₁.location g₁).step (.field i)).Anchored g₁ := Location.anchored_withPath.2 ha₁
  obtain ⟨_, _, _, u, w, hr', hi', hu, hw, hrw⟩ := (goesTo_field ha₁).set v g' hs
  cases hr.symm.trans hr'
  cases hi'
  refine ⟨g₁, h₁, layout, fields, _, hm, hr, hrw, Value.renews_set hi hu hw, ?_, ?_,
    (later_move hm).trans (later_set (h := direct _) hstep hs)⟩
  · intro e he
    apply Location.Anchored.synced (Location.anchored_withPath.2 hstep) hs e
    rw [Location.chain_withPath]
    exact Location.chain_withPath.symm ▸ he
  · intro j hj
    apply (sameOutside_set hs).cached
    intro hmem
    obtain ⟨e, he, rfl⟩ := List.mem_map.1 hmem
    have he : e ∈ ((h₁.location g₁).step (.field i)).chain g₁ := he
    rw [Location.step, Location.chain_withPath] at he
    exact hj (List.mem_map_of_mem (mem_chain_of_mem_location he))

end Handle

namespace Entry

/-- The map of the entry has `v` under the key. -/
def Stores (g : Graph) (e : Entry) (v : Value) : Prop :=
  ∃ k t es, e.host.read g = .ok (.map k t es) ∧ Assoc.get? e.key es = some v

theorem read_of_stores (hc : g.cached? e.cache = none) (hs : e.Stores g v) :
    e.read g = .ok (some v) := by
  obtain ⟨k, t, es, hr, hv⟩ := hs
  simp only [read, Graph.current, hc, hr, ok_bind, Value.lookup, hv]

/-- A map of interfaces has the copy that the cache of a synced entry has, in an interface. -/
theorem Synced.stores (hs : e.Synced g) (hany : e.elem = .any)
    (hr : (Location.entry e.host e.key e.elem e.cache []).read g = .ok v) (hv : v.ty ≠ .any) :
    e.Stores g (.boxed v) := by
  obtain ⟨u, stored, k, t, es, hc, hu, hmap, hget⟩ := hs
  rw [Location.read, Location.current_copied hc] at hr
  cases hr
  rw [hany, Value.assignTo_any, Value.box_of_ty_ne hv] at hu
  cases hu
  exact ⟨k, t, es, hmap, hget⟩

/-- The content of an interface is a copy, but past a pointer it stays in its place. -/
theorem below_of_boxed (hr : e.read g = .ok (some (.boxed old))) :
    (¬ g.Targets e.cache ∧ e.below g = .ok (.copy old)) ∨
    ∃ c path, g.cached? e.cache = some (.target c path) ∧
      (Location.cell c path).read g = .ok (.boxed old) ∧
      e.below g = .ok (.target c (path ++ [.unbox])) := by
  by_cases ht : g.Targets e.cache
  · obtain ⟨c, path, ht⟩ := ht
    have hw := (read_target_iff ht).1 hr
    have hl : g.load c path = .ok (.boxed old) := hw
    refine Or.inr ⟨c, path, ht, hw, ?_⟩
    simp only [below, ht, hl, ok_bind]
    rfl
  · exact Or.inl ⟨ht, below_of_read ht hr⟩

end Entry

namespace Handle

/-- A write below an entry with an interface leaves the cache of the entry as it is. The map gets
the struct renewed, or past a pointer the target does, and an entry with no copy of its own reads
it. -/
theorem setBelow_entry (ha : (entry e).Anchored g) (hany : e.elem = .any)
    (hr : e.read g = .ok (some (.boxed old))) (hs : (entry e).setBelow g name v = .ok g') :
    g.Later g' ∧ g'.cached? e.cache = g.cached? e.cache ∧
      ∃ new, Value.Renews [(name, v)] old new ∧
        (¬ g.Targets e.cache → e.Stores g' (.boxed new)) ∧
        ((∀ w, g.cached? e.cache ≠ some (.copy w)) → e.read g' = .ok (some (.boxed new))) := by
  obtain ⟨g₁, h₁, layout, fields, new, hm, hold, hnew, hrenews, hsynced, hcached, hlater⟩ :=
    setBelow_cases ha hs
  have hkeep : g'.cached? e.cache = g.cached? e.cache :=
    (hcached _ (ha.cache_not_mem_elem hm g₁)).trans ((grown_move hm).cached _ ha.2.1)
  refine ⟨hlater, hkeep, new, ?_⟩
  rcases Entry.below_of_boxed hr with ⟨hn, hb⟩ | ⟨c, path, ht, hload, hb⟩
  · cases hm.symm.trans (move_elem_of_below hb)
    have hcopy : (g.newCache.1.setCache g.newCache.2 (.copy old)).cached? g.newCache.2 =
        some (.copy old) := Graph.cached?_setCache_self
    rw [Handle.location,
      Entry.location_of_not_targets (Graph.not_targets_of_copy hcopy)] at hold hnew hsynced
    rw [Location.read, Location.current_copied hcopy] at hold
    cases hold
    have hty : new.ty ≠ .any := by
      rw [hrenews.ty]
      exact Ty.noConfusion
    have hstores : e.Stores g' (.boxed new) := (hsynced _ (.head _)).stores hany hnew hty
    refine ⟨hrenews, fun _ => hstores, fun hne => ?_⟩
    have hnone := Graph.cached?_eq_none hn hne
    exact Entry.read_of_stores (hkeep.trans hnone) hstores
  · cases hm.symm.trans (move_elem_of_below hb)
    have htarget : (g.newCache.1.setCache g.newCache.2 (.target c (path ++ [.unbox]))).cached?
        g.newCache.2 = some (.target c (path ++ [.unbox])) := Graph.cached?_setCache_self
    have hcontent : ∀ {g v}, (Location.cell c (path ++ [.unbox])).read g = .ok v ↔
        (Location.cell c path).read g = .ok (.boxed v) :=
      Location.read_unbox_iff (p := .cell c path)
    rw [Handle.location, Entry.location_of_target htarget, hcontent] at hold hnew
    cases hload.symm.trans hold
    refine ⟨hrenews, fun hn => absurd ⟨c, path, ht⟩ hn, fun _ => ?_⟩
    rw [Entry.read_of_target (hkeep.trans ht), hnew, ok_map]

end Handle

section

variable {s : Session} {d : Entry} {a b : String} {x y : Value} {g₁ g₂ : Graph}

/-- Two fields of the struct in the interface of an entry are written, each below the entry. Where
the entry has no copy of its own, both are renewed. Where it has one, the second write starts from
that copy, and what the map is left with has the first field as the copy has it. -/
theorem fields_of_setBelow (hs : s.Unchecked) (hd : .entry d ∈ s.handles) (hany : d.elem = .any)
    (hr : d.read s.graph = .ok (some (.boxed old))) (hab : a ≠ b)
    (h₁ : (Handle.entry d).setBelow s.graph a x = .ok g₁)
    (h₂ : (Handle.entry d).setBelow g₁ b y = .ok g₂) :
    ∃ new, (¬ s.graph.Targets d.cache → d.Stores g₂ (.boxed new)) ∧
      ((∀ w, s.graph.cached? d.cache ≠ some (.copy w)) →
        d.read g₂ = .ok (some (.boxed new)) ∧ Value.Renews [(a, x), (b, y)] old new) ∧
      (∀ w, s.graph.cached? d.cache = some (.copy w) →
        d.read g₂ = .ok (some (.boxed old)) ∧ Value.Renews [(b, y)] old new) := by
  have ha := hs.anchored _ hd
  obtain ⟨hlater, hc₁, mid, hmid, _, hread₁⟩ := Handle.setBelow_entry ha hany hr h₁
  have ha₁ := ha.later hlater
  have ht : g₁.Targets d.cache ↔ s.graph.Targets d.cache := by simp only [Graph.Targets, hc₁]
  by_cases hcopy : ∃ w, s.graph.cached? d.cache = some (.copy w)
  · obtain ⟨w, hw⟩ := hcopy
    have hkept : ∀ g, g.cached? d.cache = s.graph.cached? d.cache →
        d.read g = .ok (some (.boxed old)) := by
      intro g hc
      rw [← hr, Entry.read_of_copy hw, Entry.read_of_copy (hc.trans hw)]
    obtain ⟨_, hc₂, new, hnew, hstores, _⟩ :=
      Handle.setBelow_entry ha₁ hany (hkept g₁ hc₁) h₂
    refine ⟨new, fun hn => hstores (mt ht.1 hn), fun hne => absurd hw (hne w), ?_⟩
    exact fun _ _ => ⟨hkept g₂ (hc₂.trans hc₁), hnew⟩
  · have hne : ∀ w, s.graph.cached? d.cache ≠ some (.copy w) := fun w hw => hcopy ⟨w, hw⟩
    have hsplit : ∀ f ∈ [(a, x)], f.1 ∉ [(b, y)].map (·.1) := by simpa using hab
    obtain ⟨_, _, new, hnew, hstores, hread₂⟩ := Handle.setBelow_entry ha₁ hany (hread₁ hne) h₂
    refine ⟨new, fun hn => hstores (mt ht.1 hn), fun _ => ⟨hread₂ ?_, hmid.append hnew hsplit⟩, ?_⟩
    · exact fun w hw => hne w (hc₁ ▸ hw)
    · exact fun w hw => absurd hw (hne w)

end

/-- The entry of a map of interfaces. -/
def stake : Entry := ⟨.cell ⟨0⟩ [], .string "stake", .any, ⟨0⟩⟩

/-- A cell with a map that has a point in an interface, and a handle on its entry. -/
def staked : Session where
  graph := {
    cells := #[.map .string .any [(.string "stake", .boxed (.struct point [.int 1, .int 2]))]]
    caches := []
    nextCache := 1
    holds := [] }
  handles := [.entry stake, .root ⟨0⟩]

theorem built_point {g : Graph} {x y : Int64} : Built g (.boxed (.struct point [.int x, .int y])) :=
  .box (.struct (rfl : Value.structOf point [("x", .int x), ("y", .int y)] = _)
    (by simpa using ⟨.int, .int⟩))

theorem reachable_staked : staked.Reachable Built := by
  have hb : Built .empty (.map .string .any
      [(.string "stake", .boxed (.struct point [.int 1, .int 2]))]) :=
    .map (rfl : Value.mapOf .string .any
      [(.string "stake", .boxed (.struct point [.int 1, .int 2]))] = _)
      (by simpa using built_point)
  have h₁ := Session.Reachable.start.step (.alloc hb)
  have h₂ := h₁.step (.root (c := ⟨0⟩) rfl)
  exact h₂.step (.move (m := .entry (.string "stake")) (.head _) rfl)

/-- Nothing has been written through the entry, and the map keeps what both writes leave. -/
theorem fields_of_setBelow_stake : staked.Unchecked ∧ .entry stake ∈ staked.handles ∧
    stake.read staked.graph = .ok (some (.boxed (.struct point [.int 1, .int 2]))) ∧ ∃ g₁ g₂,
    (Handle.entry stake).setBelow staked.graph "x" (.int 5) = .ok g₁ ∧
    (Handle.entry stake).setBelow g₁ "y" (.int 7) = .ok g₂ ∧
    stake.Stores g₂ (.boxed (.struct point [.int 5, .int 7])) := by
  have hs := reachable_staked.unchecked
  have hr : stake.read staked.graph = .ok (some (.boxed (.struct point [.int 1, .int 2]))) := rfl
  obtain ⟨g₁, g₂, h₁, h₂, hr₂⟩ : ∃ g₁ g₂,
    (Handle.entry stake).setBelow staked.graph "x" (.int 5) = .ok g₁ ∧
    (Handle.entry stake).setBelow g₁ "y" (.int 7) = .ok g₂ ∧
    stake.read g₂ = .ok (some (.boxed (.struct point [.int 5, .int 7]))) := ⟨_, _, rfl, rfl, rfl⟩
  have hn : ¬ staked.graph.Targets stake.cache := by
    rintro ⟨_, _, h⟩
    cases h
  obtain ⟨new, hstores, hboth, _⟩ := fields_of_setBelow hs (.head _) rfl hr (by decide) h₁ h₂
  obtain ⟨hread, _⟩ := hboth fun w hw => by cases hw
  cases hr₂.symm.trans hread
  exact ⟨hs, .head _, hr, g₁, g₂, h₁, h₂, hstores hn⟩

/-- The point is written through the entry, and so the entry has a copy of its own. Both coordinates
are written below it, and the map is left with the old one in the first place. -/
theorem lost_field_stake : ∃ g g₁ g₂,
    (Handle.entry stake).set staked.graph (.boxed (.struct point [.int 1, .int 2])) = .ok g ∧
    Session.Reachable Built ⟨g, staked.handles⟩ ∧ .entry stake ∈ staked.handles ∧
    stake.elem = .any ∧
    stake.read g = .ok (some (.boxed (.struct point [.int 1, .int 2]))) ∧
    (Handle.entry stake).setBelow g "x" (.int 5) = .ok g₁ ∧
    (Handle.entry stake).setBelow g₁ "y" (.int 7) = .ok g₂ ∧
    g₂.content? ⟨0⟩ = some (.map .string .any
      [(.string "stake", .boxed (.struct point [.int 1, .int 7]))]) ∧
    ¬ Value.Renews [("x", .int 5), ("y", .int 7)] (.struct point [.int 1, .int 2])
      (.struct point [.int 1, .int 7]) := by
  refine ⟨_, _, _, rfl, reachable_staked.step (.set (.head _) built_point rfl), .head _, rfl, rfl,
    rfl, rfl, rfl, ?_⟩
  intro h
  obtain ⟨w, hw, hx⟩ := h.renewed ("x", .int 5) (.head _)
  cases hw
  simp [Value.heldAs, Value.ty] at hx

end ObjectGraph
