import ObjectGraph.Proofs.InPlace
import ObjectGraph.Proofs.Owners
import ObjectGraph.Proofs.Updates

/-! Writes to separate places of one base. Below a map entry each write puts a copy of the whole
entry back, and the second one starts from the copy that the first has left, so that neither undoes
the other. -/
namespace ObjectGraph

/-- Neither path leads on from the other. -/
def Path.Apart (q r : Path) : Prop := ¬ q <+: r ∧ ¬ r <+: q

theorem Step.hop_injective : Function.Injective Step.hop := by
  intro s s' h
  cases s <;> cases s' <;> cases h <;> rfl

theorem Path.Apart.symm {q r : Path} (h : q.Apart r) : r.Apart q := ⟨h.2, h.1⟩

theorem Path.Apart.route {q r : Path} (h : q.Apart r) : Route.Apart q.route r.route :=
  ⟨fun hp => h.1 ((List.prefix_map_iff_of_injective Step.hop_injective).1 hp),
    fun hp => h.2 ((List.prefix_map_iff_of_injective Step.hop_injective).1 hp)⟩

/-! Changes in either order -/

section

variable {α : Type} {f k : α → Except Fault α} {x y z u : α}

/-- Two changes can be made one after the other just when each can be made alone, and the order does
not matter. -/
structure CommuteAt (f k : α → Except Fault α) (x : α) : Prop where
  both : ∀ ⦃y z⦄, f x = .ok y → k x = .ok z → ∃ u, k y = .ok u ∧ f z = .ok u
  left : ∀ ⦃y u⦄, f x = .ok y → k y = .ok u → ∃ z, k x = .ok z
  right : ∀ ⦃z u⦄, k x = .ok z → f z = .ok u → ∃ y, f x = .ok y

/-- What comes of an attempt, and whether it succeeds. What fails changes nothing. -/
def attempt (f : α → Except Fault α) (x : α) : α × Bool :=
  match f x with
  | .ok y => (y, true)
  | .error _ => (x, false)

theorem attempt_ok (h : f x = .ok y) : attempt f x = (y, true) := by
  simp only [attempt, h]

theorem attempt_error (h : ¬ ∃ y, f x = .ok y) : attempt f x = (x, false) := by
  cases hf : f x with
  | ok y => exact absurd ⟨y, hf⟩ h
  | error e => simp only [attempt, hf]

/-- Both orders of two attempts come to one end, and each attempt succeeds in both or in neither. -/
theorem CommuteAt.attempt (hc : CommuteAt f k x) :
    (attempt k (attempt f x).1).1 = (attempt f (attempt k x).1).1 ∧
    (attempt f (attempt k x).1).2 = (attempt f x).2 ∧
    (attempt k (attempt f x).1).2 = (attempt k x).2 := by
  by_cases hf : ∃ y, f x = .ok y
  · obtain ⟨y, hf⟩ := hf
    by_cases hk : ∃ z, k x = .ok z
    · obtain ⟨z, hk⟩ := hk
      obtain ⟨u, hku, hfu⟩ := hc.both hf hk
      simp only [attempt_ok hf, attempt_ok hk, attempt_ok hku, attempt_ok hfu, and_self]
    · have hky : ¬ ∃ u, k y = .ok u := fun ⟨u, hu⟩ => hk (hc.left hf hu)
      simp only [attempt_ok hf, attempt_error hk, attempt_error hky, and_self]
  · by_cases hk : ∃ z, k x = .ok z
    · obtain ⟨z, hk⟩ := hk
      have hfz : ¬ ∃ u, f z = .ok u := fun ⟨u, hu⟩ => hf (hc.right hk hu)
      simp only [attempt_error hf, attempt_ok hk, attempt_error hfz, and_self]
    · simp only [attempt_error hf, attempt_error hk, and_self]

end

namespace Value

variable {v v' w w' m : Value} {q r path : Path} {t : Ty} {j l : Key}
  {f k : Value → Except Fault Value}

/-- The change leaves the type of what it changes. -/
def KeepsTy (f : Value → Except Fault Value) : Prop := ∀ ⦃w w'⦄, f w = .ok w' → w'.ty = w.ty

theorem keepsTy_change (hq : q ≠ []) : KeepsTy (change f q) := by
  intro w w' h
  cases q with
  | nil => exact absurd rfl hq
  | cons s path => exact ty_change h

theorem keepsTy_insert : KeepsTy (Value.insert j v) := fun _ _ h => ty_of_insert h

/-- What lies at a path is the same before a change at a path apart from it. -/
theorem change_before (ha : Route.Apart r.route q.route) (h : v.change f q = .ok v')
    (hk : v'.change k r = .ok w) : ∃ w', v.change k r = .ok w' := by
  obtain ⟨_, _, _, _, hput⟩ := put_of_change h
  obtain ⟨x, x', hx, hkx, _⟩ := put_of_change hk
  rw [at?_put_of_apart hput ha] at hx
  obtain ⟨w', _, hw'⟩ := change_of_at? hx hkx
  exact ⟨w', hw'⟩

theorem commuteAt_change (ha : q.Apart r) : CommuteAt (change f q) (change k r) v where
  both := by
    intro y z hy hz
    obtain ⟨x, x', hx, hfx, hput⟩ := put_of_change hy
    obtain ⟨u, u', hu, hku, hput'⟩ := put_of_change hz
    rw [← at?_put_of_apart hput ha.symm.route] at hu
    rw [← at?_put_of_apart hput' ha.route] at hx
    obtain ⟨y', hy', hc⟩ := change_of_at? hu hku
    obtain ⟨z', hz', hc'⟩ := change_of_at? hx hfx
    have hyz : y' = z' := by
      rw [put_comm hput hput' ha.route, hz'] at hy'
      exact (Option.some.inj hy').symm
    exact ⟨y', hc, hyz ▸ hc'⟩
  left := fun _ _ => change_before ha.symm.route
  right := fun _ _ => change_before ha.route

theorem commuteAt_insert (h : j ≠ l) : CommuteAt (Value.insert j v) (Value.insert l w) m where
  both := by
    intro y z hy hz
    obtain ⟨kt, t, es, rfl, rfl⟩ := insert_cases hy
    cases hz
    exact ⟨_, rfl, congrArg (fun es => Except.ok (map kt t es)) (Assoc.insert_comm h.symm)⟩
  left := by
    intro y u hy hu
    obtain ⟨kt, t, es, rfl, rfl⟩ := insert_cases hy
    exact ⟨_, rfl⟩
  right := by
    intro z u hz hu
    obtain ⟨kt, t, es, rfl, rfl⟩ := insert_cases hz
    exact ⟨_, rfl⟩

/-- What a write leaves in a slot is the value as a slot of its type keeps it. -/
theorem heldAs_of_overwrite (h : v.overwrite path m = .ok w) : w = v.heldAs w.ty := by
  unfold overwrite at h
  split at h
  · cases h
    simp [heldAs, ty_box]
  · rw [ty_of_assignTo h]
    exact (assignTo_eq_ok.1 h).2

end Value

namespace Location

variable {g g₁ g₂ g' : Graph} {p : Location} {q : Path} {v : Value}
  {f k : Value → Except Fault Value}

/-- An update that can be made after another one can be made without it. -/
theorem Anchored.update_before (ha : p.Anchored g) (hf : Value.KeepsTy f) (hk : Value.KeepsTy k)
    (hb : ∀ ⦃w w' u⦄, f w = .ok w' → k w' = .ok u → ∃ u', k w = .ok u')
    (h : p.update g f = .ok g₁) (h' : p.update g₁ k = .ok g') : ∃ g₂, p.update g k = .ok g₂ := by
  have hj : p.update g₁ k = p.update g fun w => f w >>= k :=
    ha.update_update h fun w w' _ hw' => by simp only [hw', ok_bind]
  apply ha.update_of_ty (hj.symm.trans h')
  intro w u _ hu
  obtain ⟨w', hw', hu⟩ := bind_eq_ok.1 hu
  obtain ⟨u', hu'⟩ := hb hw' hu
  refine ⟨u', hu', ?_⟩
  rw [hk hu', hk hu, hf hw']

/-- Updates of one location commute when their changes do. -/
theorem Anchored.commuteAt_update (ha : p.Anchored g) (hf : Value.KeepsTy f)
    (hk : Value.KeepsTy k) (hc : ∀ w, CommuteAt f k w) :
    CommuteAt (p.update · f) (p.update · k) g where
  both := by
    intro g₁ g₂ h h'
    obtain ⟨w, w₁, hw, hfw, _⟩ := ha.update h
    obtain ⟨_, w₂, hw', hkw, _⟩ := ha.update h'
    cases hw.symm.trans hw'
    obtain ⟨u, hku, hfu⟩ := (hc w).both hfw hkw
    -- both come to one update with both changes
    have hkf : p.update g₂ f = p.update g fun x => k x >>= f :=
      ha.update_update h' fun x x' _ hx' => by simp only [hx', ok_bind]
    have hfk : p.update g₁ k = p.update g fun x => k x >>= f := by
      apply ha.update_update h
      intro x x' hx hx'
      cases hw.symm.trans hx
      cases hfw.symm.trans hx'
      rw [hku, hkw, ok_bind, hfu]
    obtain ⟨g', hg'⟩ : ∃ g', p.update g (fun x => k x >>= f) = .ok g' := by
      apply ha.update_of_ty h'
      intro x x' hx hx'
      cases hw.symm.trans hx
      cases hkw.symm.trans hx'
      exact ⟨u, by rw [hkw, ok_bind, hfu], hf hfu⟩
    exact ⟨g', hfk.trans hg', hkf.trans hg'⟩
  left := fun _ _ => ha.update_before hf hk fun w _ _ => @(hc w).left _ _
  right := fun _ _ => ha.update_before hk hf fun w _ _ => @(hc w).right _ _

end Location

/-- Two entries of one map, with caches of their own that do not lead past a pointer. -/
structure Entry.Beside (g : Graph) (d e : Entry) : Prop where
  anchored : (Handle.entry d).Anchored g
  anchored' : (Handle.entry e).Anchored g
  host : d.host = e.host
  key : d.key ≠ e.key
  cache : d.cache ≠ e.cache
  inMap : ¬ g.Targets d.cache
  inMap' : ¬ g.Targets e.cache

theorem Entry.Beside.symm {g : Graph} {d e : Entry} (h : d.Beside g e) : e.Beside g d :=
  ⟨h.anchored', h.anchored, h.host.symm, h.key.symm, h.cache.symm, h.inMap', h.inMap⟩

namespace Handle

variable {g g₀ g₁ g' : Graph} {h h' : Handle} {p : Location} {q r : Path} {d e : Entry}
  {v w : Value} {k : Cached} {f : Value → Except Fault Value}

/-- Two handles with one base and separate places: with paths into one cell or into the value of one
entry, whose slots are not one within the other, or on entries under two keys of one map. -/
inductive Separate (g : Graph) : Handle → Handle → Prop
  | direct {p : Location} {q r : Path} (ha : q.slot.Apart r.slot) :
      Separate g (direct (p.withPath q)) (direct (p.withPath r))
  | entry {d e : Entry} (hh : d.host = e.host) (hk : d.key ≠ e.key) (hd : ¬ g.Targets d.cache)
      (he : ¬ g.Targets e.cache) : Separate g (entry d) (entry e)

/-- The slot that the handle writes has the value, and so has the cache of an entry. -/
def Holds (g : Graph) (v : Value) : Handle → Prop
  | direct p => ∃ w, (p.withPath p.path.slot).read g = .ok w ∧ w = v.heldAs w.ty
  | entry e => g.cached? e.cache = some (.copy v) ∧
    ∃ k t es, e.host.read g = .ok (.map k t es) ∧ Assoc.get? e.key es = some (v.heldAs e.elem)

/-- A write to a slot is a change in an update of the whole. -/
theorem set_direct : (direct (p.withPath q)).set g v =
    (p.withPath []).update g (Value.change (v.overwrite q) q.slot) := by
  have hstore : (direct (p.withPath q)).set g v =
      (p.withPath ([] ++ q.slot)).update g (v.overwrite q) := by
    cases p <;> rfl
  rw [hstore, Location.update_append]

theorem commuteAt_direct (hp : (direct p).Anchored g) (ha : q.slot.Apart r.slot) :
    CommuteAt ((direct (p.withPath q)).set · v) ((direct (p.withPath r)).set · w) g := by
  have hp : (p.withPath []).Anchored g := Location.anchored_withPath.2 hp
  have hq : q.slot ≠ [] := fun he => ha.1 (he ▸ List.nil_prefix)
  have hr : r.slot ≠ [] := fun he => ha.2 (he ▸ List.nil_prefix)
  simp only [set_direct]
  exact hp.commuteAt_update (Value.keepsTy_change hq) (Value.keepsTy_change hr) fun _ =>
    Value.commuteAt_change ha

theorem set_entry_iff (hn : ¬ g.Targets e.cache) : (entry e).set g v = .ok g' ↔
    ∃ stored g₀, v.assignTo e.elem = .ok stored ∧
      e.host.update g (Value.insert e.key stored) = .ok g₀ ∧
      g' = g₀.setCache e.cache (.copy v) := by
  constructor
  · intro hs
    rcases Graph.storeEntry_cases hs with ⟨c, path, ht, _⟩ | ⟨_, h⟩
    · exact absurd ⟨c, path, ht⟩ hn
    · exact h
  · rintro ⟨stored, g₀, ha, hu, rfl⟩
    have hs : (entry e).set g v = _ := Location.storeEntry_eq hn
    rw [hs, ha, ok_bind, hu]
    rfl

/-- A write to an entry after one to another entry of its map starts from the map that the first one
has left. The cache that the first one has set has no part in it. -/
theorem set_entry_after (hb : d.Beside g e) (hu : d.host.update g f = .ok g₀) :
    (entry e).set (g₀.setCache d.cache k) w = .ok g' ↔
    ∃ stored g₁, w.assignTo e.elem = .ok stored ∧
      e.host.update g₀ (Value.insert e.key stored) = .ok g₁ ∧
      g' = (g₁.setCache e.cache (.copy w)).setCache d.cache k := by
  obtain ⟨hhost, _, hlt⟩ := hb.anchored
  have hself : d.cache ∉ e.host.caches := hb.host ▸ Location.not_mem_caches hlt
  have hn : ¬ g₀.Targets e.cache := fun ht =>
    hb.inMap' ((Location.later_update hhost hu).targets hb.anchored'.2.1 ht)
  have hs : (entry e).set (g₀.setCache d.cache k) w =
      (·.setCache d.cache k) <$> (entry e).set g₀ w :=
    Graph.storeEntry_setCache hb.cache.symm fun _ => Location.update_setCache hself
  rw [hs, map_eq_ok]
  constructor
  · rintro ⟨g₂, hg, rfl⟩
    obtain ⟨stored, g₁, ha, hu', rfl⟩ := (set_entry_iff hn).1 hg
    exact ⟨stored, g₁, ha, hu', rfl⟩
  · rintro ⟨stored, g₁, ha, hu', rfl⟩
    exact ⟨_, (set_entry_iff hn).2 ⟨stored, g₁, ha, hu', rfl⟩, rfl⟩

theorem commuteAt_insertions (hb : d.Beside g e) :
    CommuteAt (d.host.update · (Value.insert d.key v)) (e.host.update · (Value.insert e.key w)) g :=
  hb.host ▸ hb.anchored.1.commuteAt_update Value.keepsTy_insert Value.keepsTy_insert fun _ =>
    Value.commuteAt_insert hb.key

theorem set_entry_before (hb : d.Beside g e) (hd : (entry d).set g v = .ok g₁)
    (he : (entry e).set g₁ w = .ok g') : ∃ g₂, (entry e).set g w = .ok g₂ := by
  obtain ⟨x, g₀, _, hu, rfl⟩ := (set_entry_iff hb.inMap).1 hd
  obtain ⟨y, g₂, hy, hu', rfl⟩ := (set_entry_after hb hu).1 he
  obtain ⟨g₃, hg⟩ := (commuteAt_insertions hb).left hu hu'
  exact ⟨_, (set_entry_iff hb.inMap').2 ⟨y, g₃, hy, hg, rfl⟩⟩

theorem commuteAt_entry (hb : d.Beside g e) :
    CommuteAt ((entry d).set · v) ((entry e).set · w) g where
  both := by
    intro g₁ g₂ hd he
    obtain ⟨x, a, hx, hu, rfl⟩ := (set_entry_iff hb.inMap).1 hd
    obtain ⟨y, b, hy, hu', rfl⟩ := (set_entry_iff hb.inMap').1 he
    obtain ⟨u, hau, hbu⟩ := (commuteAt_insertions hb).both hu hu'
    refine ⟨_, (set_entry_after hb hu).2 ⟨y, u, hy, hau, rfl⟩, ?_⟩
    exact (set_entry_after hb.symm hu').2 ⟨x, u, hx, hbu, Graph.setCache_comm hb.cache.symm⟩
  left := fun _ _ => set_entry_before hb
  right := fun _ _ => set_entry_before hb.symm

/-- A write leaves its value where it was written. -/
theorem holds_of_set (ha : h.Anchored g) (hn : ∀ e, h = entry e → ¬ g.Targets e.cache)
    (hs : h.set g v = .ok g') : h.Holds g' v := by
  cases h with
  | direct p =>
    obtain ⟨_, new, _, hw, hr⟩ := Location.Anchored.store ha hs
    exact ⟨new, hr, Value.heldAs_of_overwrite hw⟩
  | entry e =>
    obtain ⟨hhost, _, hlt⟩ := ha
    obtain ⟨stored, g₀, hst, hu, rfl⟩ := (set_entry_iff (hn e rfl)).1 hs
    obtain ⟨_, _, _, hi, hr⟩ := hhost.update hu
    obtain ⟨k, t, es, rfl, rfl⟩ := Value.insert_cases hi
    have hself := Location.not_mem_caches hlt
    refine ⟨Graph.cached?_setCache_self, k, t, _, (Location.read_setCache hself).trans hr, ?_⟩
    rw [← (Value.assignTo_eq_ok.1 hst).2]
    exact Assoc.get?_insert_self

end Handle

variable {s : Session} {h h' : Handle}

theorem Handle.Separate.commuteAt {v w : Value} (hs : s.Unchecked) (hh : h ∈ s.handles)
    (hh' : h' ∈ s.handles) (hsep : h.Separate s.graph h') :
    CommuteAt (h.set · v) (h'.set · w) s.graph := by
  have ha := hs.anchored h hh
  have ha' := hs.anchored h' hh'
  cases hsep with
  | @direct p q r hap =>
    have hp : (Handle.direct p).Anchored s.graph := Location.anchored_withPath.1 ha
    exact Handle.commuteAt_direct hp hap
  | @entry d e hhost hk hd he =>
    have hc : d.cache ≠ e.cache := by
      intro hc
      have hde : d = e := hs.owned d (Session.mem_entries.2 ⟨_, hh, .head _⟩) e
        (Session.mem_entries.2 ⟨_, hh', .head _⟩) hc
      exact hk (congrArg Entry.key hde)
    exact Handle.commuteAt_entry ⟨ha, ha', hhost, hk, hc, hd, he⟩

theorem Handle.Separate.symm {g : Graph} (hs : h.Separate g h') : h'.Separate g h := by
  cases hs with
  | direct ha => exact .direct ha.symm
  | entry hh hk hd he => exact .entry hh.symm hk.symm he hd

/-- The second of two writes leaves its value where it was written. -/
theorem Handle.Separate.holds {g g₁ g' : Graph} {v w : Value} (hsep : h.Separate g h')
    (ha : h.Anchored g) (ha' : h'.Anchored g) (hg : h.set g v = .ok g₁)
    (hg' : h'.set g₁ w = .ok g') : h'.Holds g' w := by
  have hl := Handle.later_set ha hg
  refine Handle.holds_of_set (ha'.later hl) ?_ hg'
  rintro e rfl ht
  cases hsep with
  | entry _ _ _ he => exact he (hl.targets ha'.2.1 ht)

/-- Writes to separate places come to one graph in either order, and whether each succeeds does not
depend on the other. After both each value is where it was written. -/
theorem set_comm {v w : Value} (hs : s.Unchecked) (hh : h ∈ s.handles) (hh' : h' ∈ s.handles)
    (hsep : h.Separate s.graph h') :
    ((attempt (h'.set · w) (attempt (h.set · v) s.graph).1).1 =
        (attempt (h.set · v) (attempt (h'.set · w) s.graph).1).1 ∧
      (attempt (h.set · v) (attempt (h'.set · w) s.graph).1).2 =
        (attempt (h.set · v) s.graph).2 ∧
      (attempt (h'.set · w) (attempt (h.set · v) s.graph).1).2 =
        (attempt (h'.set · w) s.graph).2) ∧
    ∀ g g', h.set s.graph v = .ok g → h'.set g w = .ok g' → h.Holds g' v ∧ h'.Holds g' w := by
  have hc := hsep.commuteAt (v := v) (w := w) hs hh hh'
  refine ⟨hc.attempt, ?_⟩
  intro g g' hg hg'
  obtain ⟨g₂, hg₂⟩ := hc.left hg hg'
  obtain ⟨u, hu, hu'⟩ := hc.both hg hg₂
  cases hg'.symm.trans hu
  have ha := hs.anchored h hh
  have ha' := hs.anchored h' hh'
  -- each of them is the second write in one of the orders
  exact ⟨hsep.symm.holds ha' ha hg₂ hu', hsep.holds ha ha' hg hg'⟩

/-- A point with two coordinates. -/
def point : Layout := ⟨"point", [("x", .int), ("y", .int)]⟩

/-- The value of an entry in a map of points. -/
def pin : Location := .entry (.cell ⟨0⟩ []) (.string "pin") point.ty ⟨0⟩ []

/-- A cell with a map of points, and the handles on the way to the coordinates of one of them. -/
def pinned : Session where
  graph := {
    cells := #[.map .string point.ty [(.string "pin", .struct point [.int 1, .int 2])]]
    caches := []
    nextCache := 1
    holds := [] }
  handles := [.direct (pin.withPath [.field 1]), .direct (pin.withPath [.field 0]),
    .entry ⟨.cell ⟨0⟩ [], .string "pin", point.ty, ⟨0⟩⟩, .root ⟨0⟩]

theorem unchecked_pinned : pinned.Unchecked := by
  have h₁ := Session.Unchecked.start.step (.alloc (v := .map .string point.ty
    [(.string "pin", .struct point [.int 1, .int 2])]) trivial)
  have h₂ := h₁.step (.root (c := ⟨0⟩) rfl)
  have h₃ := h₂.step (.move (m := .entry (.string "pin")) (.head _) rfl)
  have h₄ := h₃.step (.move (m := .field "x") (.head _) rfl)
  exact h₄.step (.move (m := .field "y") (.tail _ (.head _)) rfl)

/-- Both coordinates are written through one entry, in either order. -/
theorem set_comm_pinned : pinned.Unchecked ∧ ∃ x y g g',
    x ∈ pinned.handles ∧ y ∈ pinned.handles ∧ x.Separate pinned.graph y ∧
    x.set pinned.graph (.int 5) = .ok g ∧ y.set g (.int 7) = .ok g' ∧
    g'.content? ⟨0⟩ = some (.map .string point.ty
      [(.string "pin", .struct point [.int 5, .int 7])]) ∧
    (attempt (x.set · (.int 5)) (attempt (y.set · (.int 7)) pinned.graph).1).1 = g' ∧
    x.Holds g' (.int 5) ∧ y.Holds g' (.int 7) := by
  have hx : .direct (pin.withPath [.field 0]) ∈ pinned.handles := by simp [pinned]
  have hy : .direct (pin.withPath [.field 1]) ∈ pinned.handles := by simp [pinned]
  have hsep : (Handle.direct (pin.withPath [.field 0])).Separate pinned.graph
      (.direct (pin.withPath [.field 1])) := .direct (by simp [Path.Apart, Path.slot])
  obtain ⟨g, hg, g', hg', hc⟩ : ∃ g, (Handle.direct (pin.withPath [.field 0])).set pinned.graph
    (.int 5) = .ok g ∧ ∃ g', (Handle.direct (pin.withPath [.field 1])).set g (.int 7) = .ok g' ∧
    g'.content? ⟨0⟩ = some (.map .string point.ty
      [(.string "pin", .struct point [.int 5, .int 7])]) := ⟨_, rfl, _, rfl, rfl⟩
  obtain ⟨⟨horder, _⟩, hkept⟩ := set_comm (v := .int 5) (w := .int 7) unchecked_pinned hx hy hsep
  obtain ⟨hv, hw⟩ := hkept g g' hg hg'
  refine ⟨unchecked_pinned, _, _, g, g', hx, hy, hsep, hg, hg', hc, ?_, hv, hw⟩
  rw [← horder]
  simp only [attempt, hg, hg']

end ObjectGraph
