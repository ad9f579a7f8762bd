import ObjectGraph.Proofs.InPlace
import ObjectGraph.Proofs.Locality
import ObjectGraph.Proofs.ReadBack
import ObjectGraph.Proofs.Throughout

/-! Walks from a root through a well-typed graph, in which nothing is written. What the handle at
the end leads to fits the maps on the way to it, so a value of the type that is there can always be
put back into them. -/
namespace ObjectGraph

variable {g g' g₁ : Graph} {p : Location} {h h' : Handle} {e : Entry} {m : Move} {ms : List Move}
  {c : CellId} {path : Path} {cache : CacheId} {key : Key} {elem s t : Ty} {v w : Value}
  {k : Cached} {f : Value → Except Fault Value}

/-- A well-typed value that a slot of type `elem` takes. -/
structure Value.Fits (types : CellId → Option Ty) (elem : Ty) (v : Value) : Prop where
  typed : v.Typed types
  takes : v.ty = elem ∨ elem = .any

namespace Location

/-- The maps on the way to the cell can be read, and what is read in them, or copied from them, fits
them. -/
def Fitted (g : Graph) : Location → Prop
  | cell _ _ => True
  | entry host key elem cache _ => host.Fitted g ∧ (∃ m, host.read g = .ok m) ∧
    ∀ v, g.current cache key (host.read g) = .ok (some v) → v.Fits g.cellTy? elem

theorem fitted_withPath : (p.withPath path).Fitted g ↔ p.Fitted g := by
  cases p <;> rfl

theorem Anchored.read_grown (ha : p.Anchored g) (hg : g.Grown g') : p.read g' = p.read g := by
  apply read_congr
  · simp only [Graph.readable, Graph.isHeldExclusively, hg.holds, Graph.content?_congr hg.cells]
    rfl
  · intro e he
    apply hg.cached
    exact ha.lt (cache_mem_of_mem_entries (mem_entries_of_mem_chain he))

theorem Anchored.current_grown (ha : p.Anchored g) (hg : g.Grown g')
    (hi : cache.index < g.nextCache) (hn : ¬ g.Targets cache) :
    g'.current cache key (p.read g') = g.current cache key (p.read g) := by
  have hc := hg.cached cache hi
  cases hk : g.cached? cache with
  | none => simp only [Graph.current, hc, hk, ha.read_grown hg]
  | some k =>
    cases k with
    | copy v => simp only [Graph.current, hc, hk]
    | target c r => exact absurd ⟨c, r, hk⟩ hn

theorem Fitted.grown (hp : p.Fitted g) (ha : p.Anchored g) (hg : g.Grown g') : p.Fitted g' := by
  have htypes : g'.cellTy? = g.cellTy? :=
    funext fun c => congrArg _ (Graph.content?_congr hg.cells)
  induction p with
  | cell => trivial
  | entry host key elem cache path ih =>
    obtain ⟨hh, hm, hv⟩ := hp
    obtain ⟨hah, hi, _, hn⟩ := ha
    refine ⟨ih hh hah, ?_, ?_⟩
    · rw [hah.read_grown hg]
      exact hm
    · rw [hah.current_grown hg hi hn, htypes]
      exact hv

theorem Fitted.typed_read (hp : p.Fitted g) (hg : g.WellTyped) (h : p.read g = .ok v) :
    v.Typed g.cellTy? := by
  cases p with
  | cell c path =>
    obtain ⟨w, hw, hv⟩ := bind_eq_ok.1 h
    exact (hg (Graph.content?_of_readable (mapError_eq_ok.1 hw))).resolve hv
  | entry host key elem cache path =>
    obtain ⟨current, hc, hv⟩ := bind_eq_ok.1 h
    cases current with
    | none => cases hv
    | some whole => exact (hp.2.2 whole hc).typed.resolve hv

/-- An entry of a map takes what fits it, if the map can be changed. -/
theorem storeEntry_ne {change : (Value → Except Fault Value) → Except Fault Graph}
    (hn : ¬ g.Targets cache) (hv : v.ty = elem ∨ elem = .any)
    (hc : ∀ {f : Value → Except Fault Value}, (∀ w', f w = .ok w' → w'.ty = w.ty) →
      change f = .error (.notAssignable s t) → f w = .error (.notAssignable s t)) :
    g.storeEntry cache key elem change v ≠ .error (.notAssignable s t) := by
  intro h
  rw [storeEntry_eq hn, Value.assignTo_eq_heldAs hv, ok_bind] at h
  rcases bind_eq_error.1 h with h | ⟨_, _, h⟩
  · have hins := hc (fun _ hw' => Value.ty_of_insert hw') h
    cases w <;> cases hins
  · cases h

/-- What makes an update fail for a type is the new value of the part that it changes. The maps on
the way take back what was found in them. -/
theorem Fitted.update_error (hp : p.Fitted g) (ha : p.Anchored g) (hr : p.read g = .ok w)
    (hf : ∀ w', f w = .ok w' → w'.ty = w.ty) (h : p.update g f = .error (.notAssignable s t)) :
    f w = .error (.notAssignable s t) := by
  induction p generalizing f w with
  | cell c path =>
    obtain ⟨v, hv, hw⟩ := bind_eq_ok.1 hr
    have hv := Graph.content?_of_readable (mapError_eq_ok.1 hv)
    by_cases hc : g.isHeld c = true
    · simp [Location.update, Graph.update, Graph.writable, hc] at h
    · simp only [Location.update, Graph.update, Graph.writable_of_free (Bool.eq_false_iff.2 hc) hv,
        mapError_ok, ok_bind] at h
      rcases bind_eq_error.1 h with h | ⟨_, _, h⟩
      · exact Value.error_of_change (Value.at?_of_resolve hw) h
      · cases h
  | entry host key elem cache path ih =>
    obtain ⟨hh, ⟨m, hm⟩, hv⟩ := hp
    obtain ⟨hah, _, _, hn⟩ := ha
    obtain ⟨current, hcur, hw⟩ := bind_eq_ok.1 hr
    cases current with
    | none => cases hw
    | some whole =>
      have hat := Value.at?_of_resolve hw
      simp only [Location.update, hcur, ok_bind] at h
      rcases bind_eq_error.1 h with h | ⟨whole', hch, h⟩
      · exact Value.error_of_change hat h
      · obtain ⟨x, w', hx, hfx, hput⟩ := Value.put_of_change hch
        cases hat.symm.trans hx
        have hty : whole'.ty = whole.ty := Value.ty_put_of_at? hat (hf w' hfx) hput
        have hfit : whole'.ty = elem ∨ elem = .any := hty ▸ (hv whole hcur).takes
        exact absurd h (storeEntry_ne hn hfit fun hf h => ih hh hah hm hf h)

/-- A write overwrites a slot that has the type of what is read, or an interface around it. -/
theorem slot_of_read (h : p.read g = .ok w) :
    ∃ old, (p.withPath p.path.slot).read g = .ok old ∧ (w.ty = old.ty ∨ old.ty = .any) ∧
      ∀ v : Value, v.overwrite p.path old = v.assignTo old.ty := by
  by_cases hu : p.path.getLast? = some .unbox
  · obtain ⟨path, hp⟩ := List.getLast?_eq_some_iff.1 hu
    have hslot : p.path.slot = path := by simp [Path.slot, hp]
    rw [← withPath_path (p := p), hp, read_concat] at h
    obtain ⟨old, ho, hw⟩ := bind_eq_ok.1 h
    cases old <;> cases hw
    refine ⟨_, hslot ▸ ho, Or.inr rfl, fun v => ?_⟩
    simp [Value.overwrite, hu, Value.ty, Value.assignTo_any]
  · have hslot : p.path.slot = p.path := by simp [Path.slot, hu]
    rw [hslot, withPath_path]
    exact ⟨w, h, Or.inl rfl, fun v => by simp [Value.overwrite, hu]⟩

theorem Fitted.store_ne (hp : p.Fitted g) (ha : p.Anchored g) (hr : p.read g = .ok w)
    (hv : v.ty = w.ty) : p.store g v ≠ .error (.notAssignable s t) := by
  intro h
  obtain ⟨old, ho, hty, hover⟩ := slot_of_read hr
  have hf : v.overwrite p.path old = .ok (v.heldAs old.ty) :=
    (hover v).trans (Value.assignTo_eq_heldAs (hv ▸ hty))
  have hx := (fitted_withPath.2 hp).update_error (anchored_withPath.2 ha) ho ?_ h
  · cases hf.symm.trans hx
  · intro w' hw'
    cases hf.symm.trans hw'
    exact Value.ty_heldAs (hv ▸ hty)

theorem elemFor_cases (h : p.elemFor g key = .ok elem) :
    ∃ m, p.read g = .ok m ∧ m.ty = .map key.ty elem := by
  obtain ⟨m, hm, h⟩ := bind_eq_ok.1 h
  refine ⟨m, hm, ?_⟩
  cases m with
  | nilMap k t | map k t es =>
    by_cases hk : key.ty = k
    · simp only [hk, if_true] at h
      cases h
      simp only [Value.ty, hk]
    · simp only [hk, if_false] at h
      cases h
  | _ => cases h

end Location

namespace Entry

/-- Only what is below an interface is copied, and never past a pointer. -/
theorem below_copy (h : e.below g = .ok (.copy v)) :
    ¬ g.Targets e.cache ∧ e.read g = .ok (some (.boxed v)) := by
  unfold below at h
  split at h
  · obtain ⟨w, _, h⟩ := bind_eq_ok.1 h
    split at h
    · cases h
    · cases w <;> simp_all [follow]
  · rename_i hn
    obtain ⟨w, hw, h⟩ := bind_eq_ok.1 h
    refine ⟨fun ⟨c, path, ht⟩ => hn c path ht, ?_⟩
    cases w with
    | none => cases h
    | some w =>
      cases w <;> cases h
      exact hw

/-- A new entry has in its map a value of the element type, or none. -/
theorem fitted_new (hp : p.Fitted g) (ha : p.Anchored g) (hg : g.WellTyped) (hf : g.Fresh)
    (he : p.elemFor g key = .ok elem) :
    (location g.newCache.1 ⟨p, key, elem, g.newCache.2⟩).Fitted g.newCache.1 := by
  obtain ⟨m, hr, hm⟩ := Location.elemFor_cases he
  have hgr : g.Grown g.newCache.1 := Graph.grown_newCache
  have hnone : g.newCache.1.cached? g.newCache.2 = none := hf _ (Nat.le_refl _)
  have hread : p.read g.newCache.1 = .ok m := (ha.read_grown hgr).trans hr
  have hmty : m.Typed g.newCache.1.cellTy? := hp.typed_read hg hr
  rw [location_of_not_targets fun ⟨_, _, ht⟩ => by cases hnone.symm.trans ht]
  refine ⟨hp.grown ha hgr, ⟨m, hread⟩, ?_⟩
  intro v hv
  rw [hread, Location.current_uncached hnone hm] at hv
  have hv := Except.ok.inj hv
  exact ⟨hmty.part hv, Or.inl (Location.ty_part?_key hmty hm hv)⟩

/-- The content of an interface in a map of interfaces can be put back into the map. -/
theorem fitted_follow (hp : (e.location g).Fitted g) (ha : e.host.Anchored g)
    (hk : e.below g = .ok k) :
    (location (g.newCache.1.setCache g.newCache.2 k) { e with cache := g.newCache.2 }).Fitted
      (g.newCache.1.setCache g.newCache.2 k) := by
  have hgr : g.Grown (g.newCache.1.setCache g.newCache.2 k) := Graph.grown_setCache_newCache
  have hset : (g.newCache.1.setCache g.newCache.2 k).cached? g.newCache.2 = some k :=
    Graph.cached?_setCache_self
  cases k with
  | target c path =>
    rw [location_of_target hset]
    trivial
  | copy u =>
    obtain ⟨hn, hr⟩ := below_copy hk
    rw [location_of_not_targets hn] at hp
    rw [location_of_not_targets (Graph.not_targets_of_copy hset)]
    obtain ⟨hh, hread, hv⟩ := hp
    refine ⟨hh.grown ha hgr, ?_, ?_⟩
    · rw [ha.read_grown hgr]
      exact hread
    · intro v hcur
      rw [Location.current_copied hset] at hcur
      cases hcur
      have htypes : (g.newCache.1.setCache g.newCache.2 (.copy u)).cellTy? = g.cellTy? := rfl
      obtain ⟨hty, htakes⟩ := hv _ hr
      exact ⟨htypes ▸ hty.unbox, Or.inr (htakes.elim Eq.symm id)⟩

end Entry

namespace Handle

theorem fitted_move (hp : (h.location g).Fitted g) (ha : h.Anchored g) (hg : g.WellTyped)
    (hf : g.Fresh) (hm : h.move g m = .ok (g', h')) : (h'.location g').Fitted g' := by
  rcases move_cases hm with ⟨rfl, c, rfl⟩ | ⟨rfl, s, rfl⟩ | ⟨rfl, key, elem, rfl, he⟩ |
    ⟨e, k, rfl, hk, rfl, rfl⟩
  · trivial
  · exact Location.fitted_withPath.2 hp
  · exact Entry.fitted_new hp ha.location hg hf he
  · exact Entry.fitted_follow hp ha.1 hk

/-- At the end of a walk all values on the way fit the maps that they were found in. -/
theorem fitted_walk (hp : (h.location g).Fitted g) (ha : h.Anchored g) (hg : g.WellTyped)
    (hf : g.Fresh) (hw : h.walk g ms = .ok (g', h')) :
    (h'.location g').Fitted g' ∧ h'.Anchored g' := by
  induction ms generalizing g h with
  | nil =>
    cases hw
    exact ⟨hp, ha⟩
  | cons m ms ih =>
    obtain ⟨⟨g₁, h₁⟩, hm, hw⟩ := bind_eq_ok.1 hw
    have hg₁ : g₁.WellTyped := hg.congr (grown_move hm).cells
    exact ih (fitted_move hp ha hg hf hm) (ha.move hm) hg₁ ((later_move hm).fresh hf) hw

/-- A value of the type of the handle is one that all slots on the way take. -/
theorem set_ne (hp : (h.location g).Fitted g) (ha : h.Anchored g) (ht : h.ty g = .ok v.ty) :
    h.set g v ≠ .error (.notAssignable s t) := by
  cases h with
  | direct p =>
    obtain ⟨w, hw, hty⟩ := map_eq_ok.1 ht
    exact hp.store_ne ha hw hty.symm
  | entry e =>
    by_cases hn : g.Targets e.cache
    · obtain ⟨c, path, hc⟩ := hn
      rw [set_of_target hc]
      simp only [Handle.ty, Entry.ty, hc] at ht
      obtain ⟨w, hw, hty⟩ := map_eq_ok.1 ht
      exact Location.Fitted.store_ne (p := .cell c path) trivial trivial hw hty.symm
    · rw [Handle.location, Entry.location_of_not_targets hn] at hp
      obtain ⟨hh, ⟨m, hm⟩, hv⟩ := hp
      have htakes : v.ty = e.elem ∨ e.elem = .any := by
        by_cases hk : ∃ u, g.cached? e.cache = some (.copy u)
        · obtain ⟨u, hk⟩ := hk
          simp only [Handle.ty, Entry.ty, hk] at ht
          exact Except.ok.inj ht ▸ (hv u (Location.current_copied hk)).takes
        · have hk := Graph.cached?_eq_none hn fun u hu => hk ⟨u, hu⟩
          simp only [Handle.ty, Entry.ty, hk] at ht
          exact Or.inl (Except.ok.inj ht).symm
      exact Location.storeEntry_ne hn htakes fun hf h => hh.update_error ha.1 hm hf h

end Handle

end ObjectGraph
