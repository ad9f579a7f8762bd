import Mathlib.Data.List.Nodup
import ObjectGraph.Proofs.Built
import ObjectGraph.Proofs.InPlace

/-! What constructors make of the values given to them. They refuse the first that does not fit;
where all fit, each slot holds the last value given for it, and the whole is well-typed. -/
namespace ObjectGraph

variable {types : CellId → Option Ty} {layout : Layout} {key : KeyTy} {t : Ty} {v w : Value}
  {r : Refusal} {name : String} {e : String × Value} {p : Key × Value}

/-- The last of the values given under a name or a key. -/
def lastGiven {κ : Type} [BEq κ] (k : κ) (given : List (κ × Value)) : Option Value :=
  given.reverse.lookup k

theorem lastGiven_cons {κ : Type} [BEq κ] {k : κ} {e : κ × Value} {given : List (κ × Value)} :
    lastGiven k (e :: given) =
      (lastGiven k given).or (if k == e.1 then some e.2 else none) := by
  obtain ⟨j, w⟩ := e
  rw [lastGiven, lastGiven, List.reverse_cons, List.lookup_append]
  cases h : k == j <;> simp [List.lookup_cons, h]

/-- The order of the values under a key stays, whatever becomes of each. -/
theorem lastGiven_map {κ : Type} [BEq κ] [LawfulBEq κ] {k : κ} {f : κ → Value → Value}
    {given : List (κ × Value)} :
    lastGiven k (given.map fun e => (e.1, f e.1 e.2)) = (lastGiven k given).map (f k) := by
  induction given with
  | nil => rfl
  | cons e given ih =>
    rw [List.map_cons, lastGiven_cons, lastGiven_cons, ih, Option.map_or]
    congr 1
    by_cases h : k = e.1
    · simp [h]
    · simp [beq_false_of_ne h]

/-! One slot -/

/-- A slot of the type takes the value. -/
def Ty.Takes (t : Ty) (v : Value) : Prop := v.ty = t ∨ t = .any

/-- A slot of the type does not take the value. -/
inductive Ty.Refuses (t : Ty) (v : Value) : Refusal → Prop
  | unfit (h : ¬ t.Takes v) : t.Refuses v (.unfit (.notAssignable v.ty t))

theorem Ty.toKey?_eq_some : t.toKey? = some key ↔ t = key.ty := by
  cases t <;> cases key <;> simp [toKey?, KeyTy.ty]

theorem KeyTy.ty_inj {j : KeyTy} : key.ty = j.ty ↔ key = j := by
  cases key <;> cases j <;> simp [ty]

theorem KeyTy.ofTy_eq_ok : KeyTy.ofTy t = .ok key ↔ t = key.ty := by
  rw [← Ty.toKey?_eq_some, ofTy]
  cases t.toKey? <;> simp

theorem KeyTy.ofTy_eq_error :
    KeyTy.ofTy t = .error r ↔ (∀ key : KeyTy, t ≠ key.ty) ∧ r = .keyType t := by
  simp only [ne_eq, ← Ty.toKey?_eq_some, ofTy]
  cases t.toKey? <;> simp [eq_comm]

namespace Value

theorem fit_eq_ok : v.fit t = .ok w ↔ t.Takes v ∧ w = v.heldAs t :=
  mapError_eq_ok.trans assignTo_eq_ok

theorem fit_eq_error : v.fit t = .error r ↔ t.Refuses v r := by
  rw [fit, mapError_eq_error]
  constructor
  · rintro ⟨x, hx, rfl⟩
    by_cases ht : t.Takes v
    · cases (assignTo_eq_heldAs ht).symm.trans hx
    · cases (assignTo_error ht).symm.trans hx
      exact .unfit ht
  · rintro ⟨ht⟩
    exact ⟨_, assignTo_error ht, rfl⟩

end Value

/-! Structs -/

namespace Layout

/-- There is a field of the name, and it takes the value. -/
def Takes (layout : Layout) (e : String × Value) : Prop :=
  ∃ t, (e.1, t) ∈ layout.fields ∧ t.Takes e.2

/-- There is no field of the name, or it does not take the value. -/
inductive Refuses (layout : Layout) (e : String × Value) : Refusal → Prop
  | noField (h : ∀ t, (e.1, t) ∉ layout.fields) : layout.Refuses e (.noField layout.name e.1)
  | unfit {t : Ty} {r : Refusal} (ht : (e.1, t) ∈ layout.fields) (hr : t.Refuses e.2 r) :
    layout.Refuses e r

/-- The type of the field of a name. -/
def fieldTy (layout : Layout) (name : String) : Ty := (layout.fields.lookup name).getD .any

/-- A value for a field, as the field holds it. -/
def check (layout : Layout) (e : String × Value) : Except Refusal (String × Value) :=
  match layout.fields.lookup e.1 with
  | some t => (e.1, ·) <$> e.2.fit t
  | none => .error (.noField layout.name e.1)

/-- Puts the value for a field into its place. -/
def place (layout : Layout) (fields : List Value) (e : String × Value) : List Value :=
  match layout.fieldIndex? e.1 with
  | some i => fields.set i e.2
  | none => fields

/-- What a field of a new struct holds: the last value given for it, or the zero of its type. -/
def filled (given : List (String × Value)) (field : String × Ty) : Value :=
  match lastGiven field.1 given with
  | some v => v.heldAs field.2
  | none => field.2.zero

/-- No two fields have one name, so a name has one type. -/
theorem lookup_eq_some (hn : (layout.fields.map (·.1)).Nodup) :
    layout.fields.lookup name = some t ↔ (name, t) ∈ layout.fields := by
  constructor
  · intro h
    obtain ⟨l₁, l₂, hl, _⟩ := List.lookup_eq_some_iff.1 h
    exact hl ▸ List.mem_append_right l₁ (.head l₂)
  · intro h
    cases hl : layout.fields.lookup name with
    | none => exact absurd (List.lookup_eq_none_iff.1 hl _ h) (by simp)
    | some u =>
      obtain ⟨l₁, l₂, hl, _⟩ := List.lookup_eq_some_iff.1 hl
      have hu : (name, u) ∈ layout.fields := hl ▸ List.mem_append_right l₁ (.head l₂)
      exact congrArg (some ·.2) (List.inj_on_of_nodup_map hn hu h rfl)

theorem lookup_eq_none : layout.fields.lookup name = none ↔ ∀ t, (name, t) ∉ layout.fields := by
  rw [List.lookup_eq_none_iff]
  constructor
  · exact fun h t ht => absurd (h _ ht) (by simp)
  · rintro h ⟨n, t⟩ hf
    exact bne_iff_ne.2 fun hn => h t (hn ▸ hf)

theorem fieldIndex?_eq_none : layout.fieldIndex? name = none ↔ ∀ t, (name, t) ∉ layout.fields := by
  rw [← lookup_eq_none, List.lookup_eq_none_iff, fieldIndex?, List.findIdx?_eq_none_iff]
  simp only [beq_eq_false_iff_ne, bne_iff_ne, ne_comm]

theorem fieldTy_of_mem (hn : (layout.fields.map (·.1)).Nodup) (h : (name, t) ∈ layout.fields) :
    layout.fieldTy name = t := by
  rw [fieldTy, (lookup_eq_some hn).2 h, Option.getD_some]

theorem check_of_mem (hn : (layout.fields.map (·.1)).Nodup) (h : (e.1, t) ∈ layout.fields) :
    layout.check e = (e.1, ·) <$> e.2.fit t := by
  rw [check, (lookup_eq_some hn).2 h]

theorem check_of_forall_not_mem (h : ∀ t, (e.1, t) ∉ layout.fields) :
    layout.check e = .error (.noField layout.name e.1) := by
  rw [check, lookup_eq_none.2 h]

theorem check_eq_ok (hn : (layout.fields.map (·.1)).Nodup) (e y : String × Value) :
    layout.check e = .ok y ↔ layout.Takes e ∧ y = (e.1, e.2.heldAs (layout.fieldTy e.1)) := by
  by_cases h : ∃ t, (e.1, t) ∈ layout.fields
  · obtain ⟨t, ht⟩ := h
    rw [check_of_mem hn ht, fieldTy_of_mem hn ht, map_eq_ok]
    constructor
    · rintro ⟨w, hw, rfl⟩
      obtain ⟨hv, rfl⟩ := Value.fit_eq_ok.1 hw
      exact ⟨⟨t, ht, hv⟩, rfl⟩
    · rintro ⟨⟨u, hu, hv⟩, rfl⟩
      obtain rfl : t = u := (fieldTy_of_mem hn ht).symm.trans (fieldTy_of_mem hn hu)
      exact ⟨_, Value.fit_eq_ok.2 ⟨hv, rfl⟩, rfl⟩
  · rw [check_of_forall_not_mem (not_exists.1 h)]
    constructor
    · nofun
    · rintro ⟨⟨t, ht, _⟩, _⟩
      exact absurd ⟨t, ht⟩ h

theorem check_eq_error (hn : (layout.fields.map (·.1)).Nodup) (e : String × Value) (r : Refusal) :
    layout.check e = .error r ↔ layout.Refuses e r := by
  constructor
  · intro hc
    by_cases h : ∃ t, (e.1, t) ∈ layout.fields
    · obtain ⟨t, ht⟩ := h
      rw [check_of_mem hn ht, map_eq_error] at hc
      exact .unfit ht (Value.fit_eq_error.1 hc)
    · rw [check_of_forall_not_mem (not_exists.1 h)] at hc
      cases hc
      exact .noField (not_exists.1 h)
  · rintro (h | ⟨ht, hr⟩)
    · exact check_of_forall_not_mem h
    · rw [check_of_mem hn ht, map_eq_error]
      exact Value.fit_eq_error.2 hr

/-- Only the field of the name changes. -/
theorem place_map (hn : (layout.fields.map (·.1)).Nodup) (h : String × Ty → Value) :
    layout.place (layout.fields.map h) e =
      layout.fields.map fun f => if f.1 = e.1 then e.2 else h f := by
  unfold place fieldIndex?
  cases hi : layout.fields.findIdx? (·.1 == e.1) with
  | none =>
    refine List.map_congr_left fun f hf => ?_
    have hne : f.1 ≠ e.1 := by simpa using List.findIdx?_eq_none_iff.1 hi f hf
    rw [if_neg hne]
  | some i =>
    obtain ⟨hlt, hie, _⟩ := List.findIdx?_eq_some_iff_getElem.1 hi
    refine List.ext_getElem (by simp) fun j hj _ => ?_
    have hj : j < layout.fields.length := by simpa using hj
    have hie : layout.fields[i].1 = e.1 := beq_iff_eq.1 hie
    -- the first field of the name is the only one
    have hij : layout.fields[j].1 = e.1 ↔ i = j := by
      constructor
      · intro hje
        have hget : (layout.fields.map (·.1))[i]? = (layout.fields.map (·.1))[j]? := by
          simp [hlt, hj, hie, hje]
        exact (List.getElem?_inj (by simpa using hlt) hn).1 hget
      · rintro rfl
        exact hie
    simp only [List.getElem_set, List.getElem_map, hij]

/-- Each field has the last value that was put into it. -/
theorem foldl_place (hn : (layout.fields.map (·.1)).Nodup) {given : List (String × Value)}
    (h : String × Ty → Value) :
    given.foldl layout.place (layout.fields.map h) =
      layout.fields.map fun f => (lastGiven f.1 given).getD (h f) := by
  induction given generalizing h with
  | nil => rfl
  | cons e given ih =>
    rw [List.foldl_cons, place_map hn, ih]
    refine List.map_congr_left fun f _ => ?_
    rw [lastGiven_cons]
    cases lastGiven f.1 given with
    | some v => rfl
    | none => by_cases hf : f.1 = e.1 <;> simp [hf]

end Layout

namespace Value

theorem setField_eq (layout : Layout) (fields : List Value) (e : String × Value) :
    setField layout e.1 e.2 fields = layout.place fields <$> layout.check e := by
  unfold setField Layout.check Layout.place
  cases hi : layout.fieldIndex? e.1 with
  | none =>
    rw [Layout.lookup_eq_none.2 (Layout.fieldIndex?_eq_none.1 hi)]
    rfl
  | some i =>
    cases layout.fields.lookup e.1 with
    | none => rfl
    | some t => cases h : e.2.fit t <;> simp [hi, h]

theorem structOf_eq {given : List (String × Value)} :
    structOf layout given =
      (fun ys => .struct layout (ys.foldl layout.place (Ty.zeros layout.fields))) <$>
        given.mapM layout.check := by
  rw [structOf, foldlM_eq_map_mapM (setField_eq layout)]
  cases given.mapM layout.check <;> rfl

theorem zeros_eq_map {fields : List (String × Ty)} : Ty.zeros fields = fields.map (·.2.zero) := by
  induction fields with
  | nil => rfl
  | cons f fields ih => rw [Ty.zeros, ih, List.map_cons]

theorem structOf_eq_ok (hn : (layout.fields.map (·.1)).Nodup) {given : List (String × Value)} :
    structOf layout given = .ok v ↔ (∀ e ∈ given, layout.Takes e) ∧
      v = .struct layout (layout.fields.map (Layout.filled given)) := by
  have hfilled : (given.map fun e => (e.1, e.2.heldAs (layout.fieldTy e.1))).foldl layout.place
      (Ty.zeros layout.fields) = layout.fields.map (Layout.filled given) := by
    rw [zeros_eq_map, Layout.foldl_place hn]
    refine List.map_congr_left fun f hf => ?_
    rw [lastGiven_map (f := fun n v => v.heldAs (layout.fieldTy n)), Layout.fieldTy_of_mem hn hf,
      Layout.filled]
    cases lastGiven f.1 given <;> rfl
  rw [structOf_eq, map_eq_ok]
  constructor
  · rintro ⟨ys, hys, rfl⟩
    obtain ⟨hall, rfl⟩ := (mapM_eq_ok_map (Layout.check_eq_ok hn)).1 hys
    exact ⟨hall, by rw [hfilled]⟩
  · rintro ⟨hall, rfl⟩
    exact ⟨_, (mapM_eq_ok_map (Layout.check_eq_ok hn)).2 ⟨hall, rfl⟩, by rw [hfilled]⟩

theorem structOf_eq_error (hn : (layout.fields.map (·.1)).Nodup)
    {given : List (String × Value)} :
    structOf layout given = .error r ↔ First layout.Takes layout.Refuses given r := by
  rw [structOf_eq, map_eq_error, mapM_eq_error (Layout.check_eq_ok hn) (Layout.check_eq_error hn)]

end Value

/-! Maps -/

/-- A map of the types takes the entry. -/
def TakesEntry (key : KeyTy) (elem : Ty) (p : Key × Value) : Prop :=
  p.1.ty = key ∧ elem.Takes p.2

/-- The key has another type, or else the value does not fit. -/
inductive RefusesEntry (key : KeyTy) (elem : Ty) (p : Key × Value) : Refusal → Prop
  | mismatch (h : p.1.ty ≠ key) : RefusesEntry key elem p (.keyMismatch p.1 key.ty)
  | unfit {r : Refusal} (h : p.1.ty = key) (hr : elem.Refuses p.2 r) : RefusesEntry key elem p r

/-- An entry for a map, as the map holds it. -/
def checkEntry (key : KeyTy) (elem : Ty) (p : Key × Value) : Except Refusal (Key × Value) :=
  if p.1.ty = key then (p.1, ·) <$> p.2.fit elem else .error (.keyMismatch p.1 key.ty)

theorem checkEntry_eq_ok (p q : Key × Value) :
    checkEntry key t p = .ok q ↔ TakesEntry key t p ∧ q = (p.1, p.2.heldAs t) := by
  unfold checkEntry TakesEntry
  split
  · rw [map_eq_ok]
    constructor
    · rintro ⟨w, hw, rfl⟩
      obtain ⟨hv, rfl⟩ := Value.fit_eq_ok.1 hw
      exact ⟨⟨‹_›, hv⟩, rfl⟩
    · rintro ⟨⟨_, hv⟩, rfl⟩
      exact ⟨_, Value.fit_eq_ok.2 ⟨hv, rfl⟩, rfl⟩
  · simp [*]

theorem checkEntry_eq_error (p : Key × Value) (r : Refusal) :
    checkEntry key t p = .error r ↔ RefusesEntry key t p r := by
  constructor
  · intro hc
    unfold checkEntry at hc
    split at hc
    · exact .unfit ‹_› (Value.fit_eq_error.1 (map_eq_error.1 hc))
    · cases hc
      exact .mismatch ‹_›
  · rintro (h | ⟨h, hr⟩)
    · rw [checkEntry, if_neg h]
    · rw [checkEntry, if_pos h, map_eq_error]
      exact Value.fit_eq_error.2 hr

namespace Value

theorem mapOf_eq {given : List (Key × Value)} :
    mapOf key.ty t given = (fun es => .map key t (Assoc.ofList es)) <$>
      given.mapM (checkEntry key t) := by
  have hf : ∀ (es : List (Key × Value)) (p : Key × Value),
      (if p.1.ty = key then return Assoc.insert p.1 (← p.2.fit t) es
        else .error (.keyMismatch p.1 key.ty)) =
      (fun q => Assoc.insert q.1 q.2 es) <$> checkEntry key t p := by
    intro es p
    unfold checkEntry
    split
    · cases p.2.fit t <;> rfl
    · rfl
  rw [mapOf, KeyTy.ofTy_eq_ok.2 rfl, ok_bind, foldlM_eq_map_mapM hf]
  cases given.mapM (checkEntry key t) <;> rfl

theorem mapOf_error {k : Ty} {given : List (Key × Value)} (hk : ∀ key : KeyTy, k ≠ key.ty) :
    mapOf k t given = .error (.keyType k) := by
  rw [mapOf, KeyTy.ofTy_eq_error.2 ⟨hk, rfl⟩, error_bind]

theorem mapOf_eq_ok {k : Ty} {given : List (Key × Value)} :
    mapOf k t given = .ok v ↔ ∃ key entries, k = key.ty ∧ (∀ p ∈ given, TakesEntry key t p) ∧
      v = .map key t entries ∧ Assoc.Ascending entries ∧
      ∀ j, Assoc.get? j entries = (lastGiven j given).map (·.heldAs t) := by
  have hget : ∀ j : Key, Assoc.get? j (Assoc.ofList (given.map fun p => (p.1, p.2.heldAs t))) =
      (lastGiven j given).map (·.heldAs t) := fun j =>
    Assoc.get?_ofList.trans (lastGiven_map (f := fun _ v => v.heldAs t))
  constructor
  · intro h
    by_cases hk : ∃ key : KeyTy, k = key.ty
    · obtain ⟨key, rfl⟩ := hk
      rw [mapOf_eq, map_eq_ok] at h
      obtain ⟨es, hes, rfl⟩ := h
      obtain ⟨hall, rfl⟩ := (mapM_eq_ok_map checkEntry_eq_ok).1 hes
      exact ⟨key, _, rfl, hall, rfl, Assoc.ascending_ofList, hget⟩
    · cases (mapOf_error (not_exists.1 hk)).symm.trans h
  · rintro ⟨key, entries, rfl, hall, rfl, hasc, hes⟩
    obtain rfl : entries = Assoc.ofList (given.map fun p => (p.1, p.2.heldAs t)) :=
      Assoc.eq_of_get? hasc Assoc.ascending_ofList fun j => (hes j).trans (hget j).symm
    rw [mapOf_eq, map_eq_ok]
    exact ⟨_, (mapM_eq_ok_map checkEntry_eq_ok).2 ⟨hall, rfl⟩, rfl⟩

theorem mapOf_eq_error {k : Ty} {given : List (Key × Value)} :
    mapOf k t given = .error r ↔ (∀ key : KeyTy, k ≠ key.ty) ∧ r = .keyType k ∨
      ∃ key : KeyTy, k = key.ty ∧ First (TakesEntry key t) (RefusesEntry key t) given r := by
  by_cases hk : ∃ key : KeyTy, k = key.ty
  · obtain ⟨key, rfl⟩ := hk
    rw [mapOf_eq, map_eq_error, mapM_eq_error checkEntry_eq_ok checkEntry_eq_error]
    constructor
    · exact fun h => Or.inr ⟨key, rfl, h⟩
    · rintro (⟨hno, _⟩ | ⟨j, hj, h⟩)
      · exact absurd rfl (hno key)
      · obtain rfl := KeyTy.ty_inj.1 hj
        exact h
  · rw [mapOf_error (not_exists.1 hk)]
    constructor
    · intro h
      cases h
      exact Or.inl ⟨not_exists.1 hk, rfl⟩
    · rintro (⟨_, rfl⟩ | ⟨key, hkey, _⟩)
      · rfl
      · exact absurd ⟨key, hkey⟩ hk

/-! Slices -/

theorem sliceOf_eq {items : List Value} :
    sliceOf t items = .slice t <$> items.mapM (·.fit t) := by
  rw [sliceOf]
  cases items.mapM (·.fit t) <;> rfl

theorem sliceOf_eq_ok {items : List Value} :
    sliceOf t items = .ok v ↔
      (∀ w ∈ items, t.Takes w) ∧ v = .slice t (items.map (·.heldAs t)) := by
  rw [sliceOf_eq, map_eq_ok]
  constructor
  · rintro ⟨ws, hws, rfl⟩
    obtain ⟨hall, rfl⟩ := (mapM_eq_ok_map fun _ _ => fit_eq_ok).1 hws
    exact ⟨hall, rfl⟩
  · rintro ⟨hall, rfl⟩
    exact ⟨_, (mapM_eq_ok_map fun _ _ => fit_eq_ok).2 ⟨hall, rfl⟩, rfl⟩

theorem sliceOf_eq_error {items : List Value} :
    sliceOf t items = .error r ↔ First t.Takes t.Refuses items r := by
  rw [sliceOf_eq, map_eq_error, mapM_eq_error (fun _ _ => fit_eq_ok) fun _ _ => fit_eq_error]

/-! Well-typed results -/

/-- What one constructor makes of some values. -/
inductive MadeOf : List Value → Value → Prop
  | struct {layout : Layout} {given : List (String × Value)} {v : Value}
      (h : structOf layout given = .ok v) : MadeOf (given.map (·.2)) v
  | map {key elem : Ty} {given : List (Key × Value)} {v : Value}
      (h : mapOf key elem given = .ok v) : MadeOf (given.map (·.2)) v
  | slice {elem : Ty} {items : List Value} {v : Value} (h : sliceOf elem items = .ok v) :
      MadeOf items v
  | box {v : Value} : MadeOf [v] v.box
  | unbox {v : Value} : MadeOf [v] v.unbox
  | assign {v w : Value} {t : Ty} (h : v.assignTo t = .ok w) : MadeOf [v] w
  | zero {t : Ty} : MadeOf [] t.zero

/-- What holds by construction passes from the values given to what is made of them. -/
theorem MadeOf.every {P : Value → Prop} (hP : ByConstruction P) {given : List Value}
    (hv : MadeOf given v) (hg : ∀ w ∈ given, Every P w) : Every P v := by
  cases hv with
  | struct h => exact hP.structOf (List.forall_mem_map.1 hg) h
  | map h => exact hP.mapOf (List.forall_mem_map.1 hg) h
  | slice h => exact hP.sliceOf hg h
  | box => exact hP.box (hg _ (.head _))
  | unbox => exact (hg _ (.head _)).unbox
  | assign h => exact hP.assignTo (hg _ (.head _)) h
  | zero => exact Ty.every_zero hP _

end Value

/-! Pointers -/

namespace Graph

variable {g : Graph} {c : CellId}

theorem content?_alloc_ne (h : c ≠ (g.alloc v).2) : (g.alloc v).1.content? c = g.content? c := by
  have hi : c.index ≠ g.cells.size := fun hc => h (by cases c; simp_all [alloc])
  simp [content?, alloc, Array.getElem?_push, hi]

theorem content?_alloc_none : g.content? (g.alloc v).2 = none := by
  simp [content?, alloc]

/-- A pointer leads to a cell of its own, in which the value is. -/
theorem pointerTo_spec {g : Graph} : ∃ c, (g.pointerTo v).2 = .pointer v.ty c ∧
    g.content? c = none ∧ (g.pointerTo v).1.content? c = some v ∧
    ∀ d, d ≠ c → (g.pointerTo v).1.content? d = g.content? d :=
  ⟨_, rfl, content?_alloc_none (v := v), content?_alloc_self, fun _ => content?_alloc_ne⟩

theorem typed_pointerTo (hg : g.WellTyped) (hv : v.Typed g.cellTy?) :
    (g.pointerTo v).1.WellTyped ∧ (g.pointerTo v).2.Typed (g.pointerTo v).1.cellTy? := by
  refine ⟨hg.alloc hv, Value.typed_leaf rfl ?_⟩
  exact congrArg (Option.map Value.ty) content?_alloc_self

end Graph

namespace Value

/-- Constructors make exactly what is asked for, of values that all fit, and refuse the first in
order that does not. Of well-typed values they make well-typed ones, and no interface in another. -/
theorem made_exactly :
    (∀ (layout : Layout) (given : List (String × Value)), layout.Made →
      (∀ v, structOf layout given = .ok v ↔ (∀ e ∈ given, layout.Takes e) ∧
        v = .struct layout (layout.fields.map (Layout.filled given))) ∧
      ∀ r, structOf layout given = .error r ↔ First layout.Takes layout.Refuses given r) ∧
    (∀ (k elem : Ty) (given : List (Key × Value)),
      (∀ v, mapOf k elem given = .ok v ↔ ∃ key entries, k = KeyTy.ty key ∧
        (∀ p ∈ given, TakesEntry key elem p) ∧ v = .map key elem entries ∧
        Assoc.Ascending entries ∧ ∀ j, v.get? j = (lastGiven j given).map (·.heldAs elem)) ∧
      ∀ r, mapOf k elem given = .error r ↔ (∀ key : KeyTy, k ≠ key.ty) ∧ r = .keyType k ∨
        ∃ key : KeyTy, k = key.ty ∧ First (TakesEntry key elem) (RefusesEntry key elem) given r) ∧
    (∀ (elem : Ty) (items : List Value),
      (∀ v, sliceOf elem items = .ok v ↔ (∀ w ∈ items, elem.Takes w) ∧
        v = .slice elem (items.map (·.heldAs elem))) ∧
      ∀ r, sliceOf elem items = .error r ↔ First elem.Takes elem.Refuses items r) ∧
    (∀ (given : List Value) (v : Value), MadeOf given v →
      (∀ types, (∀ w ∈ given, w.Typed types) → v.Typed types) ∧
      ((∀ w ∈ given, w.BoxedOnce) → v.BoxedOnce)) ∧
    ∀ (g : Graph) (v : Value),
      (∃ c, (g.pointerTo v).2 = .pointer v.ty c ∧ g.content? c = none ∧
        (g.pointerTo v).1.content? c = some v ∧
        ∀ d, d ≠ c → (g.pointerTo v).1.content? d = g.content? d) ∧
      (g.WellTyped → v.Typed g.cellTy? →
        (g.pointerTo v).1.WellTyped ∧ (g.pointerTo v).2.Typed (g.pointerTo v).1.cellTy?) := by
  refine ⟨?structs, ?maps, ?slices, ?typed, ?pointers⟩
  case structs =>
    exact fun layout given hl =>
      ⟨fun v => structOf_eq_ok hl.nodup, fun r => structOf_eq_error hl.nodup⟩
  case maps =>
    refine fun k elem given => ⟨fun v => mapOf_eq_ok.trans ?_, fun r => mapOf_eq_error⟩
    refine exists₂_congr fun key entries => and_congr_right fun _ => and_congr_right fun _ => ?_
    exact and_congr_right fun hv => by rw [hv]; rfl
  case slices => exact fun elem items => ⟨fun v => sliceOf_eq_ok, fun r => sliceOf_eq_error⟩
  case typed =>
    exact fun given v hv => ⟨fun types => hv.every byConstruction_declared,
      hv.every byConstruction_plain⟩
  case pointers => exact fun g v => ⟨Graph.pointerTo_spec, Graph.typed_pointerTo⟩

/-- One field takes any value. -/
def tank : Layout := ⟨"Tank", [("label", .any), ("level", .int)]⟩

theorem made_tank : tank.Made := by
  have hlabel : (⟨"Tank", []⟩ : Layout).addField "label" .any =
    .ok ⟨"Tank", [("label", .any)]⟩ := rfl
  have hlevel : (⟨"Tank", [("label", .any)]⟩ : Layout).addField "level" .int = .ok tank := rfl
  exact .field (.field .new hlabel) hlevel

theorem made_exactly_tank :
    structOf tank [("label", .int 1), ("label", .string "a")] =
      .ok (.struct tank [.boxed (.string "a"), .int 0]) ∧
    structOf tank [("level", .int 3), ("level", .bool true), ("size", .int 1)] =
      .error (.unfit (.notAssignable .bool .int)) ∧
    (∃ v, mapOf .int .any [(.int 2, .int 5), (.int 1, .nilAny), (.int 2, .bool true)] = .ok v ∧
      v.get? (.int 2) = some (.boxed (.bool true)) ∧ v.get? (.int 3) = none ∧
      v.Typed fun _ => none) ∧
    sliceOf .int [.int 1, .nilAny, .bool true] = .error (.unfit (.notAssignable .any .int)) ∧
    (Graph.empty.pointerTo (.int 1)).1.WellTyped := by
  obtain ⟨hs, hm, hl, ht, hp⟩ := made_exactly
  refine ⟨?_, ?_, ?_, ?_, ?_⟩
  · exact ((hs tank _ made_tank).1 _).2 ⟨by simp [Layout.Takes, Ty.Takes, tank], rfl⟩
  · refine ((hs tank _ made_tank).2 _).2
      ⟨[("level", .int 3)], ("level", .bool true), _, rfl, ?_, ?_⟩
    · simp [Layout.Takes, Ty.Takes, tank, ty]
    · exact .unfit (t := .int) (by simp [tank]) (.unfit (by simp [Ty.Takes, ty]))
  · obtain ⟨v, hv⟩ : ∃ v, mapOf .int .any
        [(.int 2, .int 5), (.int 1, .nilAny), (.int 2, .bool true)] = .ok v := ⟨_, rfl⟩
    obtain ⟨_, _, _, _, _, _, hget⟩ := ((hm ..).1 v).1 hv
    exact ⟨v, hv, hget (.int 2), hget (.int 3), (ht _ v (.map hv)).1 _ (by decide)⟩
  · refine ((hl ..).2 _).2 ⟨[.int 1], .nilAny, _, rfl, ?_, ?_⟩
    · simp [Ty.Takes, ty]
    · exact .unfit (by simp [Ty.Takes, ty])
  · exact ((hp _ _).2 (by decide) (by decide)).1

end Value

end ObjectGraph
