import Mathlib.Logic.Function.Basic
import Mathlib.Logic.Relation
import ObjectGraph.Proofs.LocationTypes

/-! Runs over values in which no interface occurs. Each handle has a type and keeps it, whatever is
written in between, and so does the map that an entry was found in. -/
namespace ObjectGraph

variable {elems elems' elems'' : CacheId → Option Ty} {g g' g'' : Graph} {c : CellId} {key : Key}
  {h h' : Handle} {e : Entry} {t a : Ty} {v : Value} {k : Cached} {x : Fault} {m : Move}
  {path : Path} {d : Document} {s s' : Session}

namespace Graph

/-- The types of cells and of what caches copy stay, and caches lead past pointers for good. -/
structure Keeps (g : Graph) (elems : CacheId → Option Ty) (g' : Graph)
    (elems' : CacheId → Option Ty) : Prop where
  later : g.Later g'
  cells : ∀ c t, g.cellTy? c = some t → g'.cellTy? c = some t
  elems : ∀ i t, elems i = some t → elems' i = some t
  targets : ∀ ⦃i c path⦄, i.index < g.nextCache → g.cached? i = some (.target c path) →
    g'.cached? i = some (.target c path)

theorem Keeps.refl : g.Keeps elems g elems :=
  ⟨.refl, fun _ _ h => h, fun _ _ h => h, fun _ _ _ _ h => h⟩

theorem Keeps.trans (h : g.Keeps elems g' elems') (h' : g'.Keeps elems' g'' elems'') :
    g.Keeps elems g'' elems'' := by
  refine ⟨h.later.trans h'.later, ?_, ?_, ?_⟩
  · exact fun c t ht => h'.cells c t (h.cells c t ht)
  · exact fun i t ht => h'.elems i t (h.elems i t ht)
  · exact fun i c path hi ht => h'.targets (Nat.lt_of_lt_of_le hi h.later.le) (h.targets hi ht)

theorem keeps_alloc : g.Keeps elems (g.alloc v).1 elems :=
  ⟨later_of_caches rfl rfl, fun _ _ => cellTy?_alloc, fun _ _ h => h, fun _ _ _ _ h => h⟩

/-- Only the holds have changed. -/
theorem keeps_congr (hc : g'.cells = g.cells) (hi : g'.caches = g.caches)
    (hn : g'.nextCache = g.nextCache) : g.Keeps elems g' elems := by
  refine ⟨later_of_caches hi hn, ?_, fun _ _ h => h, ?_⟩
  · intro c t ht
    exact (congrArg (Option.map Value.ty) (content?_congr hc)).trans ht
  · intro i c path _ ht
    exact (congrArg (Assoc.get? i.index) hi).trans ht

theorem Sound.congr (hg : g.Sound elems) (hc : g'.cells = g.cells) (hi : g'.caches = g.caches)
    (hn : g'.nextCache = g.nextCache) : g'.Sound elems := by
  have htypes : g'.cellTy? = g.cellTy? := funext fun c => congrArg _ (content?_congr hc)
  have hcached : g'.cached? = g.cached? := funext fun i => by rw [cached?, cached?, hi]
  refine ⟨hg.typed.congr hc, ?_, ?_, hn ▸ hg.unused⟩
  · exact htypes ▸ hg.concrete
  · exact htypes ▸ hcached ▸ hg.cached

theorem Sound.alloc (hg : g.Sound elems) (hv : v.Typed g.cellTy?) (ht : v.ty.isConcrete = true) :
    (g.alloc v).1.Sound elems := by
  have hk : g.Keeps elems (g.alloc v).1 elems := keeps_alloc
  refine ⟨hg.typed.alloc hv, ?_, fun i k hi => (hg.cached hi).mono hk.cells hk.elems, hg.unused⟩
  intro c t hc
  obtain ⟨w, hw, rfl⟩ := exists_content hc
  rcases content?_alloc_cases hw with hw | rfl
  · exact hg.concrete (congrArg (Option.map Value.ty) hw)
  · exact ht

/-- A new cache is for an entry of any type. -/
theorem Sound.newCache (hg : g.Sound elems) (t : Ty) :
    ∃ elems', g.newCache.1.Sound elems' ∧ g.Keeps elems g.newCache.1 elems' ∧
      elems' g.newCache.2 = some t := by
  have hn : elems g.newCache.2 = none := hg.unused _ (Nat.le_refl _)
  have he : ∀ i u, elems i = some u → Function.update elems g.newCache.2 (some t) i = some u := by
    intro i u hi
    rw [Function.update_of_ne, hi]
    rintro rfl
    cases hn.symm.trans hi
  refine ⟨Function.update elems g.newCache.2 (some t), ⟨hg.typed, hg.concrete, ?_, ?_⟩,
    ⟨later_newCache, fun _ _ h => h, he, fun _ _ _ _ h => h⟩, Function.update_self ..⟩
  · exact fun i k hi => (hg.cached hi).mono (fun _ _ h => h) he
  · intro i hi
    rw [Function.update_of_ne]
    · exact hg.unused i (Nat.le_of_succ_le hi)
    · rintro rfl
      exact Nat.not_succ_le_self _ hi

/-- A new cache leads past a pointer. -/
theorem Sound.newTarget (hg : g.Sound elems)
    (hp : (Location.cell c path).HasTy g.cellTy? elems t) :
    (g.newCache.1.setCache g.newCache.2 (.target c path)).Sound elems ∧
      g.Keeps elems (g.newCache.1.setCache g.newCache.2 (.target c path)) elems := by
  have hnew : g.newCache.1.Sound elems :=
    ⟨hg.typed, hg.concrete, hg.cached, fun i hi => hg.unused i (Nat.le_of_succ_le hi)⟩
  refine ⟨hnew.setCache ⟨t, hp⟩, later_setCache_newCache, fun _ _ h => h, fun _ _ h => h, ?_⟩
  exact fun i d r hi hr => (grown_setCache_newCache.cached i hi).trans hr

end Graph

namespace Handle

/-- The type of a handle, and of the map that an entry was found in. -/
inductive HasTy (elems : CacheId → Option Ty) (g : Graph) : Handle → Ty → Prop
  | direct {p : Location} {t : Ty} (hp : p.HasTy g.cellTy? elems t) : HasTy elems g (direct p) t
  | inMap {e : Entry} (hn : ¬ g.Targets e.cache)
      (hh : e.host.HasTy g.cellTy? elems (.map e.key.ty e.elem))
      (he : elems e.cache = some e.elem) : HasTy elems g (entry e) e.elem
  | target {e : Entry} {c : CellId} {path : Path} {t : Ty}
      (hc : g.cached? e.cache = some (.target c path))
      (hh : e.host.HasTy g.cellTy? elems (.map e.key.ty e.elem))
      (hp : (Location.cell c path).HasTy g.cellTy? elems t) : HasTy elems g (entry e) t

namespace HasTy

theorem keeps (ht : h.HasTy elems g t) (ha : h.Anchored g) (hk : g.Keeps elems g' elems') :
    h.HasTy elems' g' t := by
  cases ht with
  | direct hp => exact .direct (hp.mono hk.cells hk.elems)
  | inMap hn hh he =>
    obtain ⟨_, hi, _⟩ := ha
    exact .inMap (fun ht => hn (hk.later.targets hi ht)) (hh.mono hk.cells hk.elems)
      (hk.elems _ _ he)
  | target hc hh hp =>
    obtain ⟨_, hi, _⟩ := ha
    exact .target (hk.targets hi hc) (hh.mono hk.cells hk.elems) (hp.mono hk.cells hk.elems)

theorem host (ht : (entry e).HasTy elems g t) :
    e.host.HasTy g.cellTy? elems (.map e.key.ty e.elem) := by
  cases ht <;> assumption

theorem location (ht : h.HasTy elems g t) : (h.location g).HasTy g.cellTy? elems t := by
  cases ht with
  | direct hp => exact hp
  | inMap hn hh he =>
    rw [Handle.location, Entry.location_of_not_targets hn]
    exact .entry hh he rfl
  | target hc _ hp =>
    rw [Handle.location, Entry.location_of_target hc]
    exact hp

/-- Whatever the type of a handle can be told from, it is the type that the handle has. -/
theorem ty_eq (ht : h.HasTy elems g t) (ha : h.Anchored g) (hg : g.Sound elems)
    (h : h.ty g = .ok a) : a = t := by
  cases ht with
  | direct hp =>
    obtain ⟨v, hv, rfl⟩ := map_eq_ok.1 h
    exact (hp.read ha hg hv).2
  | @inMap e hn hh he =>
    simp only [Handle.ty, Entry.ty] at h
    split at h
    · exact (Except.ok.inj h).symm
    · rename_i v hv
      cases h
      obtain ⟨_, hi⟩ := hg.cached hv
      exact Option.some.inj (hi.symm.trans he)
    · exact absurd ⟨_, _, ‹_›⟩ hn
  | @target e c path _ hc hh hp =>
    simp only [Handle.ty, Entry.ty, hc] at h
    obtain ⟨v, hv, rfl⟩ := map_eq_ok.1 h
    have hr : (Location.cell c path).read g = .ok v := hv
    exact (hp.read trivial hg hr).2

/-! Writes -/

/-- A handle takes no value of another type. -/
theorem ty_of_set (ht : h.HasTy elems g t) (ha : h.Anchored g) (hg : g.Sound elems)
    (hs : h.set g v = .ok g') : v.ty = t := by
  cases ht with
  | direct hp => exact hp.ty_of_store ha hg hs
  | @inMap e hn hh he =>
    rcases Graph.storeEntry_cases hs with ⟨c, path, hc, _⟩ | ⟨_, stored, g₀, hv, _, _⟩
    · exact absurd ⟨c, path, hc⟩ hn
    · have hec : e.elem.isConcrete = true := hh.concrete hg.concrete
      exact (Value.eq_of_assignTo hec hv).2
  | target hc hh hp => exact hp.ty_of_store trivial hg (set_of_target hc ▸ hs)

theorem set (ht : h.HasTy elems g t) (ha : h.Anchored g) (hg : g.Sound elems)
    (hv : v.Typed g.cellTy?) (hs : h.set g v = .ok g') :
    g'.Sound elems ∧ g'.cellTy? = g.cellTy? := by
  have hty := ht.ty_of_set ha hg hs
  cases ht with
  | direct hp => exact hp.store ha hg hv hs
  | @inMap e hn hh he =>
    obtain ⟨hha, _⟩ := ha
    simp only [Handle.set, Entry.store, ← hty] at hs hh he
    exact Graph.Sound.storeEntry hn he hv (fun _ _ hf hu => hh.update hha hg hf hu) hs
  | target hc hh hp => exact hp.store trivial hg hv (set_of_target hc ▸ hs)

theorem set_error (ht : h.HasTy elems g t) (ha : h.Anchored g) (hg : g.Sound elems)
    (hfree : g.holds = []) (hs : h.set g v = .error x) : x.Ordinary := by
  cases ht with
  | direct hp => exact hp.store_error ha hg hfree hs
  | @inMap e hn hh he =>
    obtain ⟨hha, _⟩ := ha
    exact Location.ordinary_storeEntry hn (fun _ _ hu => hh.update_error hha hg hfree hu) hs
  | target hc hh hp => exact hp.store_error trivial hg hfree (set_of_target hc ▸ hs)

theorem keeps_set (ht : h.HasTy elems g t) (ha : h.Anchored g) (hg : g.Sound elems)
    (hv : v.Typed g.cellTy?) (hs : h.set g v = .ok g') :
    g'.Sound elems ∧ g.Keeps elems g' elems := by
  obtain ⟨hg', htypes⟩ := ht.set ha hg hv hs
  exact ⟨hg', later_set ha hs, fun c t hc => htypes ▸ hc, fun _ _ h => h,
    fun i c path _ hc => target_set hs hc⟩

/-! Moves -/

/-- No copy is ever followed: what is below the value of an entry is the target of a pointer. -/
theorem follow_eq_target (hv : v.Typed g.cellTy?) (ht : v.ty.isConcrete = true)
    (h : Entry.follow v = .ok k) :
    ∃ c u, k = .target c [] ∧ (Location.cell c []).HasTy g.cellTy? elems u := by
  cases v with
  | pointer target c =>
    cases h
    exact ⟨c, target, rfl, .cell hv.here rfl⟩
  | boxed => cases ht
  | _ => cases h

theorem below (ht : (entry e).HasTy elems g t) (ha : (entry e).Anchored g) (hg : g.Sound elems)
    (h : e.below g = .ok k) :
    ∃ c u, k = .target c [] ∧ (Location.cell c []).HasTy g.cellTy? elems u := by
  have hc : t.isConcrete = true := ht.location.concrete hg.concrete
  cases ht with
  | inMap hn hh he =>
    obtain ⟨hha, _⟩ := ha
    unfold Entry.below at h
    split at h
    · exact absurd ⟨_, _, ‹_›⟩ hn
    · obtain ⟨v, hv, h⟩ := bind_eq_ok.1 h
      cases v with
      | none => cases h
      | some v =>
        obtain ⟨hvt, hty⟩ := Location.typed_current hg hn he (fun m hm => hh.read hha hg hm) hv
        exact follow_eq_target hvt (hty ▸ hc) h
  | @target _ c path _ ht hh hp =>
    simp only [Entry.below, ht] at h
    obtain ⟨v, hv, h⟩ := bind_eq_ok.1 h
    have hr : (Location.cell c path).read g = .ok v := hv
    obtain ⟨hvt, rfl⟩ := hp.read trivial hg hr
    cases v with
    | boxed => cases hc
    | _ => exact follow_eq_target hvt hc h

theorem move (ht : h.HasTy elems g t) (ha : h.Anchored g) (hg : g.Sound elems) (hf : g.Fresh)
    (hm : h.move g m = .ok (g', h')) :
    ∃ elems' u, g'.Sound elems' ∧ g.Keeps elems g' elems' ∧ h'.HasTy elems' g' u := by
  have hstay : ∀ {q : Location}, (∃ u, q.HasTy g.cellTy? elems u) →
      ∃ elems' u, g.Sound elems' ∧ g.Keeps elems g elems' ∧ (Handle.direct q).HasTy elems' g u :=
    fun ⟨u, hq⟩ => ⟨elems, u, hg, .refl, .direct hq⟩
  cases m with
  | elem =>
    cases h with
    | direct p =>
      obtain ⟨q, hq, hm⟩ := bind_eq_ok.1 hm
      cases hm
      exact hstay (ht.location.deref ha hg hq)
    | entry e =>
      obtain ⟨q, hq, hm⟩ := bind_eq_ok.1 hm
      cases hm
      obtain ⟨k, hk, hq⟩ := bind_eq_ok.1 hq
      cases hq
      obtain ⟨c, u, rfl, hu⟩ := ht.below ha hg hk
      obtain ⟨hg', hkeep⟩ := hg.newTarget hu
      exact ⟨elems, u, hg', hkeep, .target Graph.cached?_setCache_self ht.host hu⟩
  | field name =>
    obtain ⟨q, hq, hm⟩ := bind_eq_ok.1 hm
    cases hm
    obtain ⟨p, hp, rfl⟩ := map_eq_ok.1 hq
    exact hstay (ht.location.field ha.location hg hp)
  | index i =>
    obtain ⟨q, hq, hm⟩ := bind_eq_ok.1 hm
    cases hm
    obtain ⟨p, hp, rfl⟩ := map_eq_ok.1 hq
    exact hstay (ht.location.index ha.location hg hp)
  | entry key =>
    obtain ⟨elem, he, hm⟩ := bind_eq_ok.1 hm
    cases hm
    obtain rfl := ht.location.elemFor ha.location hg he
    obtain ⟨elems', hg', hkeep, hnew⟩ := hg.newCache elem
    refine ⟨elems', elem, hg', hkeep, .inMap ?_ (ht.location.mono hkeep.cells hkeep.elems) hnew⟩
    rintro ⟨c, path, hc⟩
    cases (hf g.newCache.2 (Nat.le_refl _)).symm.trans hc

end HasTy

end Handle

/-- Values that callers build of types in which no interface occurs. -/
def Concrete (g : Graph) (v : Value) : Prop := Built g v ∧ v.ty.isConcrete = true

namespace Session

/-- The graph and all handles that are kept have types. -/
structure Sound (elems : CacheId → Option Ty) (s : Session) : Prop where
  graph : s.graph.Sound elems
  fresh : s.graph.Fresh
  anchored : ∀ h ∈ s.handles, h.Anchored s.graph
  handles : ∀ h ∈ s.handles, ∃ t, h.HasTy elems s.graph t

theorem sound_start : Sound (fun _ => none) ⟨.empty, []⟩ := by
  refine ⟨⟨?_, ?_, ?_, fun _ _ => rfl⟩, fun _ _ => rfl, by simp, by simp⟩
  · intro c v hv
    cases hv
  · intro c t ht
    cases ht
  · intro i k hk
    cases hk

theorem Step.graph (ht : Step Concrete s s') (hs : s.Sound elems) :
    ∃ elems', s'.graph.Sound elems' ∧ s.graph.Keeps elems s'.graph elems' ∧
      ∀ h ∈ s'.handles, h ∈ s.handles ∨ ∃ t, h.HasTy elems' s'.graph t := by
  cases ht with
  | alloc hv =>
    obtain ⟨hb, hc⟩ := hv
    exact ⟨elems, hs.graph.alloc hb.typed hc, Graph.keeps_alloc, fun _ hh => Or.inl hh⟩
  | @root c v hc =>
    have hp : (Location.cell c []).HasTy s.graph.cellTy? elems v.ty :=
      .cell (congrArg (Option.map Value.ty) hc) rfl
    exact ⟨elems, hs.graph, .refl,
      List.forall_mem_cons.2 ⟨Or.inr ⟨_, .direct hp⟩, fun _ hh => Or.inl hh⟩⟩
  | move hh hm =>
    obtain ⟨t, ht⟩ := hs.handles _ hh
    obtain ⟨elems', u, hg, hk, hu⟩ := ht.move (hs.anchored _ hh) hs.graph hs.fresh hm
    exact ⟨elems', hg, hk, List.forall_mem_cons.2 ⟨Or.inr ⟨u, hu⟩, fun _ hh => Or.inl hh⟩⟩
  | set hh hv hw =>
    obtain ⟨t, ht⟩ := hs.handles _ hh
    obtain ⟨hb, _⟩ := hv
    obtain ⟨hg, hk⟩ := ht.keeps_set (hs.anchored _ hh) hs.graph hb.typed hw
    exact ⟨elems, hg, hk, fun _ hh => Or.inl hh⟩
  | write hh hw =>
    obtain ⟨t, ht⟩ := hs.handles _ hh
    obtain ⟨u, _, hw⟩ := bind_eq_ok.1 hw
    have hw := mapError_eq_ok.1 hw
    have ha := hs.anchored _ hh
    obtain ⟨hg, hk⟩ := ht.keeps_set ha hs.graph
      (Document.every_valueFor Value.byConstruction_declared) hw
    exact ⟨elems, hg, hk, fun _ hh => Or.inl hh⟩
  | hold | release =>
    exact ⟨elems, hs.graph.congr rfl rfl rfl, Graph.keeps_congr rfl rfl rfl,
      fun _ hh => Or.inl hh⟩

theorem Step.sound (ht : Step Concrete s s') (hs : s.Sound elems) :
    ∃ elems', s'.Sound elems' ∧ s.graph.Keeps elems s'.graph elems' := by
  obtain ⟨elems', hg, hk, hh⟩ := ht.graph hs
  refine ⟨elems', ⟨hg, hk.later.fresh hs.fresh, ht.anchored hs.anchored, ?_⟩, hk⟩
  intro h hmem
  rcases hh h hmem with hold | hnew
  · obtain ⟨t, ht⟩ := hs.handles h hold
    exact ⟨t, ht.keeps (hs.anchored h hold) hk⟩
  · exact hnew

theorem Reachable.sound (hs : s.Reachable Concrete) : ∃ elems, s.Sound elems := by
  induction hs with
  | start => exact ⟨_, sound_start⟩
  | step _ ht ih =>
    obtain ⟨elems, hs⟩ := ih
    obtain ⟨elems', hs', _⟩ := ht.sound hs
    exact ⟨elems', hs'⟩

theorem sound_of_run (ht : Relation.ReflTransGen (Step Concrete) s s') (hs : s.Sound elems) :
    ∃ elems', s'.Sound elems' ∧ s.graph.Keeps elems s'.graph elems' := by
  induction ht with
  | refl => exact ⟨elems, hs, .refl⟩
  | tail _ ht ih =>
    obtain ⟨elems', hs', hk⟩ := ih
    obtain ⟨elems'', hs'', hk'⟩ := ht.sound hs'
    exact ⟨elems'', hs'', hk.trans hk'⟩

end Session

/-- Where no interface occurs, cells and copies stay well-typed, handles keep their types, and so do
the maps that entries are in. With no cell held a write fails only for what is not there, or for a
value that does not fit. -/
theorem types_of_run (hs : s.Reachable Concrete)
    (hr : Relation.ReflTransGen (Session.Step Concrete) s s') :
    s'.graph.WellTyped ∧
    (∀ i v, s'.graph.cached? i = some (.copy v) → v.Typed s'.graph.cellTy?) ∧
    (∀ h ∈ s.handles, ∀ a b, h.ty s.graph = .ok a → h.ty s'.graph = .ok b → a = b) ∧
    (∀ e, .entry e ∈ s'.handles → ∀ m, e.host.read s'.graph = .ok m →
      m.ty = .map e.key.ty e.elem) ∧
    (s'.graph.holds = [] → ∀ h ∈ s'.handles, ∀ v x, h.set s'.graph v = .error x → x.Ordinary) := by
  obtain ⟨elems, hs⟩ := hs.sound
  obtain ⟨elems', hs', hk⟩ := Session.sound_of_run hr hs
  refine ⟨hs'.graph.typed, fun i v hv => (hs'.graph.cached hv).1, ?_, ?_, ?_⟩
  · intro h hh a b ha hb
    obtain ⟨t, ht⟩ := hs.handles h hh
    have hanch := hs.anchored h hh
    rw [ht.ty_eq hanch hs.graph ha,
      (ht.keeps hanch hk).ty_eq (hanch.later hk.later) hs'.graph hb]
  · intro e he m hm
    obtain ⟨t, ht⟩ := hs'.handles _ he
    obtain ⟨hha, _⟩ := hs'.anchored _ he
    exact (ht.host.read hha hs'.graph hm).2
  · intro hfree h hh v x hx
    obtain ⟨t, ht⟩ := hs'.handles h hh
    exact ht.set_error (hs'.anchored h hh) hs'.graph hfree hx

/-- The entry under a number in the first map of a list. -/
def filed : Entry := ⟨.cell ⟨0⟩ [.index 0], .int 1, .string, ⟨0⟩⟩

/-- A cell with a list of maps, and the handles on the way to an entry of the first. -/
def files (maps : List Value) : Session where
  graph := { (Graph.empty.alloc (.slice (.map .int .string) maps)).1 with nextCache := 1 }
  handles := [.entry filed, .direct (.cell ⟨0⟩ [.index 0]), .root ⟨0⟩]

theorem reachable_files : (files [.map .int .string []]).Reachable Concrete := by
  have hm : Built .empty (.map .int .string []) :=
    .map (rfl : Value.mapOf .int .string [] = _) (by simp)
  have hb : Built .empty (.slice (.map .int .string) [.map .int .string []]) :=
    .slice (rfl : Value.sliceOf (.map .int .string) [.map .int .string []] = _) (by simpa using hm)
  have hc : Concrete .empty (.slice (.map .int .string) [.map .int .string []]) := ⟨hb, rfl⟩
  have h₁ := Session.Reachable.start.step (.alloc hc)
  have h₂ := h₁.step (.root (c := ⟨0⟩) rfl)
  have h₃ := h₂.step (.move (m := .index 0) (.head _) rfl)
  exact h₃.step (.move (m := .entry (.int 1)) (.head _) rfl)

/-- The list is replaced by one of a nil map. -/
theorem step_files :
    Session.Step Concrete (files [.map .int .string []]) (files [.nilMap .int .string]) := by
  have hm : Built (files [.map .int .string []]).graph (.nilMap .int .string) :=
    .zero (t := .map .int .string)
  have hb : Built (files [.map .int .string []]).graph
      (.slice (.map .int .string) [.nilMap .int .string]) :=
    .slice (rfl : Value.sliceOf (.map .int .string) [.nilMap .int .string] = _) (by simpa using hm)
  have hr : Handle.root ⟨0⟩ ∈ (files [.map .int .string []]).handles := by simp [files]
  exact .set hr ⟨hb, rfl⟩ rfl

theorem types_of_run_files :
    (files [.map .int .string []]).Reachable Concrete ∧
    (files [.nilMap .int .string]).graph.WellTyped ∧
    (Handle.entry filed).ty (files [.map .int .string []]).graph =
      (Handle.entry filed).ty (files [.nilMap .int .string]).graph ∧
    (∃ m, filed.host.read (files [.nilMap .int .string]).graph = .ok m ∧
      m.ty = .map filed.key.ty filed.elem) ∧
    (Handle.entry filed).set (files [.nilMap .int .string]).graph (.string "a") =
      .error (.nilMap (.int 1)) ∧
    (Fault.nilMap (.int 1)).Ordinary := by
  have hset : (Handle.entry filed).set (files [.nilMap .int .string]).graph (.string "a") =
    .error (.nilMap (.int 1)) := rfl
  obtain ⟨hw, -, hty, hm, hx⟩ := types_of_run reachable_files (.single step_files)
  refine ⟨reachable_files, hw, ?_, ⟨_, rfl, hm filed (.head _) _ rfl⟩, hset, ?_⟩
  · exact congrArg Except.ok (hty (.entry filed) (.head _) _ _ rfl rfl)
  · exact hx rfl (.entry filed) (.head _) _ _ hset

end ObjectGraph
