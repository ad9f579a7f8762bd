import ObjectGraph.Proofs.Built
import ObjectGraph.Proofs.Throughout

/-! The entries of every map ascend by their keys, in each cell and in each copy that a cache has.
What callers build is in order, and so is what a change makes of it. -/
namespace ObjectGraph

variable {v v' w : Value} {hop : Hop} {r : Route} {path : Path} {key : Key} {t elem : Ty}
  {f : Value → Except Fault Value} {g g' : Graph} {c : CellId} {i cache : CacheId} {k : Cached}
  {p : Location} {e : Entry} {h h' : Handle} {m : Move} {s s' : Session}
  {Given : Graph → Value → Prop}

namespace Value

/-- The entries of a map ascend by their keys. -/
def Sorted : Value → Prop
  | map _ _ entries => Assoc.Ascending entries
  | _ => True

/-- All maps inside the value have their entries in order. -/
def Ordered : Value → Prop := Every Sorted

instance : DecidablePred Sorted
  | map .. => inferInstanceAs (Decidable (Assoc.Ascending _))
  | bool _ | int _ | float _ | string _ | struct .. | nilMap .. | nilSlice _ | slice ..
  | nilPointer _ | pointer .. | nilAny | boxed _ => isTrue trivial

instance : DecidablePred Ordered := inferInstanceAs (DecidablePred (Every _))

/-- The change leaves maps in order. -/
def KeepsOrder (f : Value → Except Fault Value) : Prop :=
  ∀ ⦃v v'⦄, v.Ordered → f v = .ok v' → v'.Ordered

theorem byConstruction_sorted : ByConstruction Sorted where
  basic {v} h := by cases v <;> trivial
  struct _ := trivial
  map ha _ := ha
  slice _ := trivial
  boxed _ := trivial

theorem Ordered.box (hv : v.Ordered) : v.box.Ordered :=
  byConstruction_sorted.box hv

theorem Ordered.assignTo (hv : v.Ordered) (h : v.assignTo t = .ok w) : w.Ordered :=
  byConstruction_sorted.assignTo hv h

theorem Sorted.setPart (hs : v.Sorted) (h : setPart w hop v = some v') : v'.Sorted := by
  rcases setPart_cases h with ⟨_, _, _, -, -, -, rfl⟩ | ⟨_, _, _, -, -, -, rfl⟩ |
    ⟨_, _, _, _, -, rfl, rfl⟩ | ⟨_, -, -, rfl⟩
  · trivial
  · trivial
  · exact Assoc.ascending_insert hs
  · trivial

theorem Ordered.setPart (hv : v.Ordered) (hw : w.Ordered) (h : Value.setPart w hop v = some v') :
    v'.Ordered :=
  Every.setPart_of_here (hv.here.setPart h) hv hw h

theorem Ordered.put (hv : v.Ordered) (hw : w.Ordered) (h : Value.put w r v = some v') :
    v'.Ordered := by
  induction r generalizing v v' with
  | nil =>
    cases h
    exact hw
  | cons hop r ih =>
    obtain ⟨u', hs, ⟨rfl, rfl⟩ | ⟨u, hu, hu'⟩⟩ := setPart_of_put h
    · exact hv.setPart hw hs
    · exact hv.setPart (ih (hv.part hu) hu') hs

theorem keepsOrder_change (hf : KeepsOrder f) : KeepsOrder (change f path) := by
  intro v v' hv h
  obtain ⟨w, w', hw, hfw, hput⟩ := put_of_change h
  exact hv.put (hf (hv.at? hw) hfw) hput

theorem keepsOrder_insert (hv : v.Ordered) : KeepsOrder (Value.insert key v) := by
  intro m m' hm h
  obtain ⟨k, t, es, rfl, rfl⟩ := insert_cases h
  have hset : setPart v (.key key) (map k t es) = some (map k t (Assoc.insert key v es)) := rfl
  exact hm.setPart hv hset

theorem keepsOrder_overwrite (hv : v.Ordered) : KeepsOrder (v.overwrite path) := by
  intro old new _ h
  unfold overwrite at h
  split at h
  · cases h
    exact hv.box
  · exact hv.assignTo h

end Value

/-! What is built -/

theorem Built.ordered (hv : Built g v) : v.Ordered :=
  hv.every Value.byConstruction_sorted fun _ _ _ => trivial

/-! Graphs in order -/

/-- A copy has its maps in order. -/
def Cached.Ordered : Cached → Prop
  | copy v => v.Ordered
  | target .. => True

namespace Graph

/-- In all cells the entries of maps are in order. -/
def Ordered (g : Graph) : Prop := ∀ ⦃c v⦄, g.content? c = some v → v.Ordered

instance : Decidable g.Ordered := decidable_of_iff _ forall_content_iff.symm

/-- In all cells, and in all copies that caches have, the entries of maps are in order. -/
structure InOrder (g : Graph) : Prop where
  cells : g.Ordered
  copies : ∀ ⦃i k⦄, g.cached? i = some k → k.Ordered

namespace InOrder

theorem throughout (hg : g.InOrder) : g.Throughout Value.Sorted :=
  ⟨hg.cells, fun _ _ hv => hg.copies hv⟩

theorem congr (hg : g.InOrder) (hc : g'.cells = g.cells) (hi : g'.caches = g.caches) :
    g'.InOrder := by
  refine ⟨fun c v hv => hg.cells (content?_congr hc ▸ hv), ?_⟩
  intro i k hk
  rw [cached?, hi] at hk
  exact hg.copies hk

theorem alloc (hg : g.InOrder) (hv : v.Ordered) : (g.alloc v).1.InOrder := by
  refine ⟨?_, hg.copies⟩
  intro c w hw
  rcases content?_alloc_cases hw with hw | rfl
  · exact hg.cells hw
  · exact hv

theorem setCache (hg : g.InOrder) (hk : k.Ordered) : (g.setCache i k).InOrder := by
  refine ⟨hg.cells, ?_⟩
  intro j l hl
  by_cases hj : j = i
  · subst hj
    cases cached?_setCache_self.symm.trans hl
    exact hk
  · exact hg.copies (cached?_setCache_ne hj ▸ hl)

theorem update (hg : g.InOrder) (hf : Value.KeepsOrder f) (h : g.update c path f = .ok g') :
    g'.InOrder := by
  obtain ⟨w, w', _, hw, hc, rfl⟩ := update_cases h
  exact ⟨forall_content_put hw hg.cells (Value.keepsOrder_change hf (hg.cells hw) hc), hg.copies⟩

theorem storeEntry {change : (Value → Except Fault Value) → Except Fault Graph} (hg : g.InOrder)
    (hc : ∀ ⦃f g₀⦄, Value.KeepsOrder f → change f = .ok g₀ → g₀.InOrder) (hv : v.Ordered)
    (h : g.storeEntry cache key elem change v = .ok g') : g'.InOrder := by
  rcases storeEntry_cases h with ⟨c, path, _, h⟩ | ⟨_, stored, g₀, hs, hu, rfl⟩
  · exact hg.update (Value.keepsOrder_overwrite hv) h
  · exact (hc (Value.keepsOrder_insert (hv.assignTo hs)) hu).setCache hv

end InOrder

end Graph

namespace Location

/-- An update leaves all maps in order, those of the copies that it puts back included. -/
theorem inOrder_update (hg : g.InOrder) (hf : Value.KeepsOrder f) (h : p.update g f = .ok g') :
    g'.InOrder := by
  induction p generalizing f g' with
  | cell => exact hg.update hf h
  | entry host key elem cache path ih =>
    obtain ⟨whole, whole', hc, hch, hs⟩ := update_entry_cases h
    have hw : whole.Ordered := hg.throughout.current (fun _ hm => every_read hg.throughout hm) hc
    exact hg.storeEntry (fun _ _ hf hu => ih hf hu) (Value.keepsOrder_change hf hw hch) hs

end Location

namespace Entry

theorem ordered_follow (hv : v.Ordered) (h : follow v = .ok k) : k.Ordered := by
  cases v <;> cases h
  · trivial
  · exact hv.unbox

theorem ordered_below (hg : g.InOrder) (h : e.below g = .ok k) : k.Ordered := by
  unfold below at h
  split at h
  · obtain ⟨w, hw, h⟩ := bind_eq_ok.1 h
    split at h
    · cases h
      trivial
    · exact ordered_follow (hg.throughout.load hw) h
  · obtain ⟨w, hw, h⟩ := bind_eq_ok.1 h
    cases w with
    | none => cases h
    | some w => exact ordered_follow (every_read hg.throughout hw) h

end Entry

namespace Handle

theorem inOrder_set (hg : g.InOrder) (hv : v.Ordered) (hs : h.set g v = .ok g') : g'.InOrder := by
  cases h with
  | direct p => exact Location.inOrder_update hg (Value.keepsOrder_overwrite hv) hs
  | entry e => exact hg.storeEntry (fun _ _ hf hu => Location.inOrder_update hg hf hu) hv hs

theorem inOrder_move (hg : g.InOrder) (hm : h.move g m = .ok (g', h')) : g'.InOrder := by
  rcases move_cases hm with ⟨rfl, _⟩ | ⟨rfl, _⟩ | ⟨rfl, _⟩ | ⟨_, _, _, hk, rfl, _⟩
  · exact hg
  · exact hg
  · exact hg.congr rfl rfl
  · have hnew : g.newCache.1.InOrder := hg.congr rfl rfl
    exact hnew.setCache (Entry.ordered_below hg hk)

end Handle

namespace Session

theorem Step.inOrder (hv : ∀ ⦃g v⦄, Given g v → v.Ordered) (ht : Step Given s s')
    (hs : s.graph.InOrder) : s'.graph.InOrder := by
  cases ht with
  | alloc hg => exact hs.alloc (hv hg)
  | root => exact hs
  | move _ hm => exact Handle.inOrder_move hs hm
  | set _ hg hw => exact Handle.inOrder_set hs (hv hg) hw
  | write _ hw =>
    obtain ⟨t, _, hw⟩ := bind_eq_ok.1 hw
    exact Handle.inOrder_set hs (Document.every_valueFor Value.byConstruction_sorted)
      (mapError_eq_ok.1 hw)
  | hold | release => exact hs.congr rfl rfl

/-- As long as the values that callers give have their maps in order, so have all cells and
copies. -/
theorem Reachable.inOrder (hv : ∀ ⦃g v⦄, Given g v → v.Ordered) (hs : s.Reachable Given) :
    s.graph.InOrder := by
  induction hs with
  | start =>
    refine ⟨fun c v hv => ?_, fun i k hk => by cases hk⟩
    simp [Graph.content?, Graph.empty] at hv
  | step _ ht ih => exact ht.inOrder hv ih

/-- No caller ever comes to a map that is out of order. -/
theorem Reachable.ordered (hs : s.Reachable Built) : s.graph.Ordered :=
  (hs.inOrder fun _ _ => Built.ordered).cells

end Session

end ObjectGraph
