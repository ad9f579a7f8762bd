import ObjectGraph.Proofs.Accessors
import ObjectGraph.Proofs.FreshWalk
import ObjectGraph.Proofs.Resolves

/-! What a handle answers when it is asked for its value, its kind, its type, whether it is nil, how
long it is. Each answer is found on a way of its own, and all of them are about one value. -/
namespace ObjectGraph

variable {g g' : Graph} {h h' : Handle} {e : Entry} {m : Move} {ms : List Move} {v w : Value}
  {x : Fault}

namespace Value

/-- The kinds of the values that can be nil are those that have a nil. -/
theorem isSome_isNil? : v.isNil?.isSome = v.kind.isNilable := by
  cases v <;> rfl

theorem isSome_length? : v.length?.isSome = v.kind.hasLength := by
  cases v <;> rfl

end Value

/-- The entry reads through to its map, and the map has no value under the key. -/
def Entry.Absent (g : Graph) (e : Entry) : Prop :=
  g.cached? e.cache = none ∧
    ∃ m, e.host.read g = .ok m ∧ m.kind = .map ∧ m.get? e.key = none

theorem Entry.read_eq_none : e.read g = .ok none ↔ e.Absent g := by
  constructor
  · intro hr
    have hr : g.current e.cache e.key (e.host.read g) = .ok none := hr
    unfold Graph.current at hr
    split at hr
    · cases hr
    · obtain ⟨_, _, hr⟩ := map_eq_ok.1 hr
      cases hr
    · rename_i hc
      obtain ⟨m, hm, hl⟩ := bind_eq_ok.1 hr
      refine ⟨hc, m, hm, ?_⟩
      cases m with
      | nilMap key elem => exact ⟨rfl, rfl⟩
      | map key elem entries => exact ⟨rfl, Except.ok.inj hl⟩
      | _ => cases hl
  · rintro ⟨hc, m, hm, hk, hget⟩
    simp only [Entry.read, Graph.current, hc, hm, ok_bind]
    cases m with
    | nilMap key elem => rfl
    | map key elem entries => exact congrArg Except.ok hget
    | _ => cases hk

namespace Handle

/-- What is answered about a value that is there. -/
structure Shows (g : Graph) (h : Handle) (v : Value) : Prop where
  get : h.get g = .ok v.unbox
  isNil : v.kind.isNilable = true → ∃ b, v.isNil? = some b ∧ h.isNil g = .ok b
  not_isNil : v.kind.isNilable = false → h.isNil g = .error (.kindMismatch .isNil v.kind)
  length : v.kind.hasLength = true →
    ∃ n, v.length? = some n ∧ h.length g = .ok n ∧ h.isEmpty g = .ok (n == 0)
  not_length : v.kind.hasLength = false →
    h.length g = .error (.kindMismatch .length v.kind) ∧
    h.isEmpty g = .error (.kindMismatch .length v.kind)

/-- What is answered where no value is. Only an entry that its map does not have gives one. -/
structure ShowsNothing (g : Graph) (h : Handle) : Prop where
  fails : ∃ x, h.isNil g = .error x ∧ h.length g = .error x ∧ h.isEmpty g = .error x
  get : ∀ w, h.get g = .ok w ↔ ∃ e, h = .entry e ∧ e.Absent g ∧ w = e.elem.zero.unbox

theorem isValid_eq : h.isValid g = (h.value? g).isSome := by
  simp only [isValid, value?]
  split <;> rfl

theorem kind_eq : h.kind g = match h.ty g with
    | .ok t => t.kind
    | .error _ => .invalid := by
  have hcell : ∀ p : Location, p.kind g = match Value.ty <$> p.read g with
      | .ok t => t.kind
      | .error _ => .invalid := by
    intro p
    simp only [Location.kind]
    cases p.read g <;> rfl
  cases h with
  | direct p => exact hcell p
  | entry e =>
    simp only [Handle.kind, Entry.kind, Handle.ty, Entry.ty]
    cases g.cached? e.cache with
    | none => rfl
    | some k =>
      cases k with
      | copy v => rfl
      | target c path => exact hcell (.cell c path)

theorem present_of_value (hv : h.value? g = some v) : h.present g = .ok v := by
  have hr := value?_eq_some.1 hv
  cases h with
  | direct p =>
    obtain ⟨w, hw, he⟩ := map_eq_ok.1 hr
    cases he
    exact hw
  | entry e =>
    have hr : e.read g = .ok (some v) := hr
    simp only [present, hr, ok_bind]
    rfl

theorem shows_of_value (hv : h.value? g = some v) : h.Shows g v := by
  have hp := present_of_value hv
  have hnil : v.isNil?.isSome = v.kind.isNilable := Value.isSome_isNil?
  have hlength : v.length?.isSome = v.kind.hasLength := Value.isSome_length?
  refine ⟨get_of_read (value?_eq_some.1 hv), ?_, ?_, ?_, ?_⟩
  · intro hk
    obtain ⟨b, hb⟩ := Option.isSome_iff_exists.1 (hnil.trans hk)
    exact ⟨b, hb, by simp only [isNil, hp, ok_bind, hb]; rfl⟩
  · intro hk
    have hb := Option.isSome_eq_false_iff.1 (hnil.trans hk)
    simp only [isNil, hp, ok_bind, Option.isNone_iff_eq_none.1 hb]
  · intro hk
    obtain ⟨n, hn⟩ := Option.isSome_iff_exists.1 (hlength.trans hk)
    have hl : h.length g = .ok n := by simp only [Handle.length, hp, ok_bind, hn]; rfl
    exact ⟨n, hn, hl, by rw [isEmpty, hl, ok_map]⟩
  · intro hk
    have hn := Option.isSome_eq_false_iff.1 (hlength.trans hk)
    have hl : h.length g = .error (.kindMismatch .length v.kind) := by
      simp only [Handle.length, hp, ok_bind, Option.isNone_iff_eq_none.1 hn]
    exact ⟨hl, by rw [isEmpty, hl, error_map]⟩

theorem fails_of_present (hp : h.present g = .error x) :
    h.isNil g = .error x ∧ h.length g = .error x ∧ h.isEmpty g = .error x := by
  have hl : h.length g = .error x := by rw [Handle.length, hp, error_bind]
  exact ⟨by rw [isNil, hp, error_bind], hl, by rw [isEmpty, hl, error_map]⟩

theorem showsNothing_of_value (hv : h.value? g = none) : h.ShowsNothing g := by
  cases h with
  | direct p =>
    cases hr : p.read g with
    | ok v =>
      have hsome : (direct p).value? g = some v := value?_direct hr
      cases hv.symm.trans hsome
    | error x =>
      refine ⟨⟨x, fails_of_present hr⟩, fun w => ?_⟩
      simp only [Handle.get, hr, error_map, reduceCtorEq, false_and, exists_false]
  | entry e =>
    cases hr : e.read g with
    | error x =>
      have habsent : ¬ e.Absent g := fun ha => by cases hr.symm.trans (Entry.read_eq_none.2 ha)
      refine ⟨⟨x, fails_of_present (by rw [present, hr, error_bind])⟩, fun w => ?_⟩
      simp only [Handle.get, hr, error_bind, reduceCtorEq, entry.injEq, exists_eq_left', habsent,
        false_and]
    | ok current =>
      cases current with
      | some v =>
        have hsome : (entry e).value? g = some v := value?_eq_some.2 hr
        cases hv.symm.trans hsome
      | none =>
        have habsent := Entry.read_eq_none.1 hr
        have hget : (entry e).get g = .ok e.elem.zero.unbox := by
          rw [Handle.get, hr, ok_bind]
          rfl
        refine ⟨⟨.absentEntry e.key, fails_of_present (by rw [present, hr, ok_bind])⟩, fun w => ?_⟩
        simp only [hget, Except.ok.injEq, entry.injEq, exists_eq_left', habsent, true_and, eq_comm]

/-- The type of a handle is that of its value, if the map of an entry that reads through to it has
values of its element type. -/
theorem ty_of_value (hv : h.value? g = some v)
    (he : ∀ e, h = .entry e → g.cached? e.cache = none → v.ty = e.elem) : h.ty g = .ok v.ty := by
  have hr := value?_eq_some.1 hv
  cases h with
  | direct p =>
    obtain ⟨w, hw, hs⟩ := map_eq_ok.1 hr
    cases hs
    rw [Handle.ty, hw, ok_map]
  | entry e =>
    have hr : e.read g = .ok (some v) := hr
    simp only [Handle.ty, Entry.ty]
    cases hc : g.cached? e.cache with
    | none => rw [he e rfl hc]
    | some k =>
      cases k with
      | copy w =>
        cases (Entry.read_of_copy hc).symm.trans hr
        rfl
      | target c path =>
        have hl : g.load c path = .ok v := (Entry.read_target_iff hc).1 hr
        simp only [hl, ok_map]

/-- A move through a well-typed graph leads to a handle of the type of its value. -/
theorem ty_of_move (hp : (h.location g).Fitted g) (ha : h.Anchored g) (hg : g.WellTyped)
    (hm : h.move g m = .ok (g', h')) (hv : h'.value? g' = some v) : h'.ty g' = .ok v.ty := by
  refine ty_of_value hv ?_
  rintro e rfl hc
  rcases move_cases hm with ⟨_, _, he⟩ | ⟨_, _, he⟩ | ⟨rfl, key, elem, he, hel⟩ |
    ⟨_, k, _, _, rfl, he⟩
  · cases he
  · cases he
  · -- a new entry has in its map a value of the element type, or none
    cases he
    obtain ⟨map, hr, hty⟩ := Location.elemFor_cases hel
    have hread : (h.location g).read g.newCache.1 = .ok map :=
      (ha.location.read_grown Graph.grown_newCache).trans hr
    have hr : g.newCache.1.current g.newCache.2 key ((h.location g).read g.newCache.1) =
        .ok (some v) := value?_eq_some.1 hv
    rw [hread, Location.current_uncached hc hty] at hr
    exact Location.ty_part?_key (hp.typed_read hg ‹_›) hty (Except.ok.inj hr)
  · cases he
    cases hc.symm.trans Graph.cached?_setCache_self

theorem ty_of_walk (hp : (h.location g).Fitted g) (ha : h.Anchored g) (hg : g.WellTyped)
    (hf : g.Fresh) (hstart : ∀ v, h.value? g = some v → h.ty g = .ok v.ty)
    (hw : h.walk g ms = .ok (g', h')) (hv : h'.value? g' = some v) : h'.ty g' = .ok v.ty := by
  induction ms generalizing g h with
  | nil =>
    cases hw
    exact hstart v hv
  | cons m ms ih =>
    obtain ⟨⟨g₁, h₁⟩, hm, hw⟩ := bind_eq_ok.1 hw
    have hg₁ : g₁.WellTyped := hg.congr (grown_move hm).cells
    exact ih (fitted_move hp ha hg hf hm) (ha.move hm) hg₁ ((later_move hm).fresh hf)
      (fun _ hv => ty_of_move hp ha hg hm hv) hw

end Handle

/-- All answers of a handle are about one value, or about none. From a root of a well-typed graph a
walk leads to a handle that has the type of its value as well. -/
theorem observers_agree {s : Session} (hs : s.Unchecked) :
    (∀ h : Handle, h.isValid s.graph = (h.value? s.graph).isSome ∧
      (h.kind s.graph = match h.ty s.graph with
        | .ok t => t.kind
        | .error _ => .invalid) ∧
      (∀ v, h.value? s.graph = some v → h.Shows s.graph v) ∧
      (h.value? s.graph = none → h.ShowsNothing s.graph)) ∧
    ∀ c ms g h v, s.graph.WellTyped → (Handle.root c).walk s.graph ms = .ok (g, h) →
      h.value? g = some v → h.ty g = .ok v.ty := by
  refine ⟨fun h => ⟨Handle.isValid_eq, Handle.kind_eq, fun v hv => Handle.shows_of_value hv,
    Handle.showsNothing_of_value⟩, ?_⟩
  intro c ms g h v hg hw hv
  have hroot : ∀ v, (Handle.root c).value? s.graph = some v →
      (Handle.root c).ty s.graph = .ok v.ty :=
    fun v hv => Handle.ty_of_value hv fun _ he => by cases he
  exact Handle.ty_of_walk (h := .root c) trivial trivial hg hs.fresh hroot hw hv

/-- The interface in a gauge is not nil and has no length, a gauge that is not there is a zero one,
and a walk leads to the interface again. -/
theorem observers_agree_gauges : gauges.Unchecked ∧
    (Handle.direct level).isNil gauges.graph = .ok false ∧
    (Handle.direct level).length gauges.graph = .error (.kindMismatch .length .interface) ∧
    (Handle.entry outlet).get gauges.graph = .ok gauge.ty.zero ∧
    gauges.graph.WellTyped ∧
    ∃ g h, (Handle.root ⟨0⟩).walk gauges.graph [.entry (.string "inlet"), .field "level"] =
        .ok (g, h) ∧
      h.value? g = some (.boxed (.int 3)) ∧ h.ty g = .ok .any := by
  obtain ⟨hall, hwalk⟩ := observers_agree unchecked_gauges
  obtain ⟨-, -, hshows, -⟩ := hall (.direct level)
  obtain ⟨-, -, -, hnothing⟩ := hall (.entry outlet)
  have hlevel := hshows (.boxed (.int 3)) rfl
  obtain ⟨b, hb, hnil⟩ := hlevel.isNil rfl
  cases hb
  have houtlet : outlet.Absent gauges.graph := ⟨rfl, _, rfl, rfl, rfl⟩
  have hget := ((hnothing rfl).get gauge.ty.zero).2 ⟨outlet, rfl, houtlet, rfl⟩
  have htyped : gauges.graph.WellTyped := by decide
  obtain ⟨g, h, hw, hv⟩ : ∃ g h, (Handle.root ⟨0⟩).walk gauges.graph
      [.entry (.string "inlet"), .field "level"] = .ok (g, h) ∧
      h.value? g = some (.boxed (.int 3)) := ⟨_, _, rfl, rfl⟩
  exact ⟨unchecked_gauges, hnil, (hlevel.not_length rfl).1, hget, htyped, g, h, hw, hv,
    hwalk _ _ g h _ htyped hw hv⟩

end ObjectGraph
