import ObjectGraph.Proofs.Construction
import ObjectGraph.Proofs.KeyOrder
import ObjectGraph.Proofs.MapOrder

/-! What writes through the handles on entries make of a map. Its keys ascend and none is there
twice, and one write changes what is under one key. -/
namespace ObjectGraph

variable {key : Key} {v w m m' : Value} {g g' : Graph} {e : Entry}

namespace Value

/-- The keys of a map ascend, and none of them occurs twice. -/
def KeysAscend : Value → Prop
  | map _ _ entries =>
    (entries.map (·.1)).Pairwise Key.Before ∧ (entries.map (·.1)).Nodup
  | _ => True

/-- `new` is a map of the type of `old` that has `w` under the key, and has what `old` has under the
others. -/
structure PutUnder (key : Key) (w old new : Value) : Prop where
  kind : old.kind = .map
  ty : new.ty = old.ty
  here : new.get? key = some w
  others : ∀ j, j ≠ key → new.get? j = old.get? j
  length : ∃ n, old.length? = some n ∧
    new.length? = some (n + if (old.get? key).isNone then 1 else 0)

theorem keysAscend_iff : v.KeysAscend ↔ v.Sorted := by
  cases v with
  | map k t es =>
    have hp : (es.map (·.1)).Pairwise Key.Before ↔ Assoc.Ascending es := by
      rw [List.pairwise_map, Assoc.Ascending]
      simp only [Key.compare_eq_lt]
    refine ⟨fun h => hp.1 h.1, fun h => ⟨hp.2 h, (hp.2 h).imp ?_⟩⟩
    rintro k _ hk rfl
    exact Key.not_before_self hk
  | _ => exact Iff.rfl

theorem every_keysAscend_iff : v.Every KeysAscend ↔ v.Ordered := by
  have he : KeysAscend = Sorted := funext fun _ => propext keysAscend_iff
  rw [he, Ordered]

theorem putUnder_insert (hs : m.Sorted) (h : Value.insert key w m = .ok m') :
    PutUnder key w m m' := by
  obtain ⟨k, t, es, rfl, rfl⟩ := insert_cases h
  have hlen : (Assoc.insert key w es).length = es.length + _ := Assoc.length_insert hs
  exact {
    kind := rfl
    ty := rfl
    here := Assoc.get?_insert_self
    others := fun _ hj => Assoc.get?_insert_ne hj
    length := ⟨es.length, rfl, congrArg some hlen⟩ }

end Value

/-- A write to an entry that is not past a pointer puts what the map can store under its key. -/
theorem Handle.Anchored.putUnder_set (ha : (Handle.entry e).Anchored g) (hg : g.InOrder)
    (hn : ¬ g.Targets e.cache) (h : (Handle.entry e).set g v = .ok g') :
    ∃ old new stored, e.host.read g = .ok old ∧ e.host.read g' = .ok new ∧
      v.assignTo e.elem = .ok stored ∧ Value.PutUnder e.key stored old new := by
  obtain ⟨hh, _, hlt⟩ := ha
  rcases Graph.storeEntry_cases h with ⟨c, path, ht, _⟩ | ⟨_, stored, g₀, hst, hu, rfl⟩
  · exact absurd ⟨c, path, ht⟩ hn
  · obtain ⟨old, new, ho, hi, hr⟩ := hh.update hu
    have hnew : e.host.read (g₀.setCache e.cache (.copy v)) = .ok new :=
      (Location.read_setCache (Location.not_mem_caches hlt)).trans hr
    have hsorted : old.Sorted := (Location.every_read hg.throughout ho).here
    exact ⟨old, new, stored, ho, hnew, hst, Value.putUnder_insert hsorted hi⟩

/-- The order of keys is strict and total. Maps that callers build have their keys in it, at every
depth. As long as what callers give has, all cells, caches and results of reads have, and one write
to an entry of a map changes nothing but what the map has under the key of the entry. Since what is
read has its keys in order, it may be given again. -/
theorem keys_ascend :
    IsStrictTotalOrder Key Key.Before ∧
    (∀ k l : Key, (compare k l = .lt ↔ k.Before l) ∧ (compare k l = .eq ↔ k = l)) ∧
    (∀ key elem given v, Value.mapOf key elem given = .ok v → v.KeysAscend) ∧
    (∀ g v, Built g v → v.Every Value.KeysAscend) ∧
    ∀ s : Session, s.Reachable (fun _ v => v.Every Value.KeysAscend) →
      s.graph.Throughout Value.KeysAscend ∧
      (∀ h ∈ s.handles, ∀ v, h.read s.graph = .ok (some v) → v.Every Value.KeysAscend) ∧
      ∀ e v g, .entry e ∈ s.handles → ¬ s.graph.Targets e.cache →
        (Handle.entry e).set s.graph v = .ok g →
        ∃ old new stored, e.host.read s.graph = .ok old ∧ e.host.read g = .ok new ∧
          v.assignTo e.elem = .ok stored ∧ Value.PutUnder e.key stored old new := by
  refine ⟨inferInstance, fun _ _ => ⟨Key.compare_eq_lt, Key.compare_eq_eq⟩, ?_, ?_, ?_⟩
  · intro key elem given v hv
    obtain ⟨_, _, _, _, rfl, ha, _⟩ := Value.mapOf_eq_ok.1 hv
    exact Value.keysAscend_iff.2 ha
  · exact fun g v hv => Value.every_keysAscend_iff.2 hv.ordered
  · intro s hs
    have hg : s.graph.InOrder := hs.inOrder fun _ _ => Value.every_keysAscend_iff.1
    have hk : s.graph.Throughout Value.KeysAscend := by
      refine ⟨fun _ _ hv => ?_, fun _ _ hv => ?_⟩
      · exact Value.every_keysAscend_iff.2 (hg.throughout.cells hv)
      · exact Value.every_keysAscend_iff.2 (hg.throughout.copies hv)
    refine ⟨hk, ?_, ?_⟩
    · intro h _ v hv
      cases h with
      | direct p =>
        obtain ⟨w, hw, he⟩ := map_eq_ok.1 hv
        cases he
        exact Location.every_read hk hw
      | entry e => exact Entry.every_read hk hv
    · exact fun e v g he hn hset => (hs.anchored _ he).putUnder_set hg hn hset

/-- The entry under "é", the larger one of two keys of a map. -/
def accented : Entry := ⟨.cell ⟨0⟩ [], .string "é", .int, ⟨0⟩⟩

/-- A cell with a map of numbers, and the handles on it and on one of its entries. -/
def counts : Session where
  graph := { (Graph.empty.alloc (.map .string .int [(.string "z", .int 2)])).1 with nextCache := 1 }
  handles := [.entry accented, .root ⟨0⟩]

theorem reachable_counts : counts.Reachable Built := by
  have hb : Built .empty (.map .string .int [(.string "z", .int 2)]) :=
    .map (rfl : Value.mapOf .string .int [(.string "z", .int 1), (.string "z", .int 2)] = _)
      (by simp [Built.int])
  have h₁ := Session.Reachable.start.step (.alloc hb)
  have h₂ := h₁.step (.root (c := ⟨0⟩) rfl)
  exact h₂.step (.move (m := .entry (.string "é")) (.head _) rfl)

/-- The map gets a second key, which comes after the one that it has: the bytes of "é" are larger
than that of "z". -/
theorem keys_ascend_counts :
    counts.Reachable (fun _ v => v.Every Value.KeysAscend) ∧ ∃ g old new stored,
      (Handle.entry accented).set counts.graph (.int 3) = .ok g ∧
      accented.host.read counts.graph = .ok old ∧ accented.host.read g = .ok new ∧
      Value.PutUnder (.string "é") stored old new ∧
      old.length? = some 1 ∧ new.length? = some 2 ∧
      new = .map .string .int [(.string "z", .int 2), (.string "é", .int 3)] := by
  obtain ⟨_, _, _, hb, hreach⟩ := keys_ascend
  have hs : counts.Reachable fun _ v => v.Every Value.KeysAscend := reachable_counts.mono hb
  obtain ⟨g, hg⟩ : ∃ g, (Handle.entry accented).set counts.graph (.int 3) = .ok g := ⟨_, rfl⟩
  have hn : ¬ counts.graph.Targets accented.cache := by
    rintro ⟨_, _, h⟩
    cases h
  obtain ⟨_, _, hset⟩ := hreach counts hs
  obtain ⟨old, new, stored, ho, hw, _, hput⟩ := hset accented _ g (.head _) hn hg
  cases hg
  cases ho
  have hnew : new = .map .string .int [(.string "z", .int 2), (.string "é", .int 3)] := by
    cases hw
    rfl
  exact ⟨hs, _, _, new, stored, rfl, rfl, hw, hput, rfl, hnew ▸ rfl, hnew⟩

end ObjectGraph
