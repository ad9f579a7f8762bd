import ObjectGraph.Proofs.Outcome
import ObjectGraph.Proofs.Session

/-! The values that callers build. A constructor takes its parts only in the types that it declares
for them, puts the entries of a map in order, and boxes no interface; a new slot holds the zero of
its type, and a document loads in the same way. So what is built is well-typed. -/
namespace ObjectGraph

variable {P : Value → Prop} {types : CellId → Option Ty} {g : Graph} {v w : Value} {t : Ty}

/-- A layout that its fields were added to one by one. -/
inductive Layout.Made : Layout → Prop
  | new {name : String} : Made ⟨name, []⟩
  | field {l l' : Layout} {name : String} {t : Ty} (hl : Made l)
      (ha : l.addField name t = .ok l') : Made l'

/-- A field is added only under a name of its own. -/
theorem Layout.Made.nodup {l : Layout} (hl : l.Made) : (l.fields.map (·.1)).Nodup := by
  induction hl with
  | new => exact .nil
  | @field l l' name t _ ha ih =>
    cases hi : l.fieldIndex? name with
    | some i => simp [addField, hi] at ha
    | none =>
      have hnew : name ∉ l.fields.map (·.1) := by
        intro hm
        obtain ⟨e, he, rfl⟩ := List.mem_map.1 hm
        exact absurd (List.findIdx?_eq_none_iff.1 hi e he) (by simp)
      simp only [addField, hi, Except.ok.injEq] at ha
      subst ha
      rw [List.map_append, List.nodup_append]
      refine ⟨ih, by simp, ?_⟩
      intro a hma b hb hab
      obtain rfl := List.mem_singleton.1 hb
      exact hnew (hab ▸ hma)

namespace Value

/-- A value with no parts that is no pointer to a cell. -/
def Basic : Value → Prop
  | bool _ | int _ | float _ | string _ | nilMap .. | nilSlice _ | nilPointer _ | nilAny => True
  | _ => False

/-- `P` holds of what constructors put together, whatever parts it has of the types it declares. -/
structure ByConstruction (P : Value → Prop) : Prop where
  basic {v : Value} (h : v.Basic) : P v
  struct {layout : Layout} {fields : List Value} (h : fields.map ty = layout.fields.map (·.2)) :
    P (struct layout fields)
  map {key : KeyTy} {elem : Ty} {entries : List (Key × Value)} (ha : Assoc.Ascending entries)
    (h : ∀ e ∈ entries, e.1.ty = key ∧ e.2.ty = elem) : P (map key elem entries)
  slice {elem : Ty} {items : List Value} (h : ∀ w ∈ items, w.ty = elem) : P (slice elem items)
  boxed {w : Value} (h : w.ty ≠ .any) : P (boxed w)

theorem byConstruction_declared : ByConstruction (Declared types) where
  basic {v} h := by cases v <;> trivial
  struct h := h
  map _ h := h
  slice h := h
  boxed _ := trivial

theorem byConstruction_plain : ByConstruction Plain where
  basic {v} h := by cases v <;> trivial
  struct _ := trivial
  map _ _ := trivial
  slice _ := trivial
  boxed h := h

namespace ByConstruction

theorem leaf (hP : ByConstruction P) (h : v.Basic) : Every P v := by
  refine (every_leaf ?_).2 (hP.basic h)
  cases v <;> first | rfl | cases h

theorem box (hP : ByConstruction P) (hv : Every P v) : Every P v.box :=
  hv.box hP.boxed

theorem assignTo (hP : ByConstruction P) (hv : Every P v) (h : v.assignTo t = .ok w) :
    Every P w := by
  rcases assignTo_cases h with ⟨rfl, _⟩ | ⟨rfl, _⟩
  · exact hv
  · exact hP.box hv

end ByConstruction

theorem typed_leaf (hi : v.inside = []) (hd : Declared types v) : v.Typed types :=
  (every_leaf hi).2 hd

end Value

theorem Ty.ty_zeros {fields : List (String × Ty)} :
    (Ty.zeros fields).map Value.ty = fields.map (·.2) := by
  induction fields with
  | nil => rfl
  | cons f fields ih => rw [Ty.zeros, List.map_cons, List.map_cons, Ty.ty_zero, ih]

mutual
theorem Ty.every_zero (hP : Value.ByConstruction P) : (t : Ty) → Value.Every P t.zero
  | .struct _ fields => .intro (hP.struct Ty.ty_zeros) (Ty.every_zeros hP fields)
  | .bool | .int | .float | .string | .map _ _ | .slice _ | .pointer _ | .any => hP.leaf trivial

theorem Ty.every_zeros (hP : Value.ByConstruction P) :
    (fields : List (String × Ty)) → ∀ v ∈ Ty.zeros fields, Value.Every P v
  | [] => by simp [Ty.zeros]
  | (_, t) :: fields => List.forall_mem_cons.2 ⟨Ty.every_zero hP t, Ty.every_zeros hP fields⟩
end

namespace Value

theorem Typed.box (hv : v.Typed types) : v.box.Typed types :=
  byConstruction_declared.box hv

theorem Typed.assignTo (hv : v.Typed types) (h : v.assignTo t = .ok w) : w.Typed types :=
  byConstruction_declared.assignTo hv h

theorem getElem?_of_findIdx? {fields : List (String × Ty)} {name : String} {i : Nat}
    (hi : fields.findIdx? (·.1 == name) = some i) (ht : fields.lookup name = some t) :
    (fields.map (·.2))[i]? = some t := by
  induction fields generalizing i with
  | nil => cases ht
  | cons field fields ih =>
    obtain ⟨n, s⟩ := field
    by_cases hn : n = name
    · subst hn
      obtain rfl : 0 = i := by simpa [List.findIdx?_cons] using hi
      obtain rfl : s = t := by simpa [List.lookup_cons] using ht
      rfl
    · have hb : (name == n) = false := by simpa using Ne.symm hn
      simp only [List.findIdx?_cons, beq_iff_eq, hn, if_false, Option.map_eq_some_iff] at hi
      simp only [List.lookup_cons, hb] at ht
      obtain ⟨j, hj, rfl⟩ := hi
      exact ih hj ht

/-- All that putting a value into a field can be. -/
theorem setField_cases {layout : Layout} {name : String} {fields fields' : List Value}
    (h : setField layout name v fields = .ok fields') :
    ∃ i t w, layout.fieldIndex? name = some i ∧ layout.fields.lookup name = some t ∧
      v.fit t = .ok w ∧ fields' = fields.set i w := by
  unfold setField at h
  split at h
  · obtain ⟨w, hfit, h⟩ := bind_eq_ok.1 h
    cases h
    exact ⟨_, _, w, ‹_›, ‹_›, hfit, rfl⟩
  · cases h

namespace ByConstruction

/-- What a slot takes is of the type of the slot. -/
theorem fit (hP : ByConstruction P) (hv : Every P v) (h : v.fit t = .ok w) :
    Every P w ∧ w.ty = t :=
  ⟨hP.assignTo hv (mapError_eq_ok.1 h), ty_of_assignTo (mapError_eq_ok.1 h)⟩

theorem setField (hP : ByConstruction P) {layout : Layout} {name : String}
    {fields fields' : List Value} (hv : Every P v)
    (hty : fields.map ty = layout.fields.map (·.2)) (hall : ∀ w ∈ fields, Every P w)
    (h : setField layout name v fields = .ok fields') :
    fields'.map ty = layout.fields.map (·.2) ∧ ∀ w ∈ fields', Every P w := by
  obtain ⟨i, t, w, hi, ht, hfit, rfl⟩ := setField_cases h
  obtain ⟨hw, rfl⟩ := hP.fit hv hfit
  have hi : (fields.map ty)[i]? = some w.ty := hty ▸ getElem?_of_findIdx? hi ht
  constructor
  · obtain ⟨hlt, hi⟩ := List.getElem?_eq_some_iff.1 hi
    rw [List.map_set, ← hi, List.set_getElem_self, hty]
  · intro u hu
    rcases List.mem_or_eq_of_mem_set hu with hu | rfl
    · exact hall u hu
    · exact hw

theorem structOf (hP : ByConstruction P) {layout : Layout} {given : List (String × Value)}
    (hg : ∀ e ∈ given, Every P e.2) (h : structOf layout given = .ok v) : Every P v := by
  obtain ⟨fields, hf, h⟩ := bind_eq_ok.1 h
  cases h
  have hfields : fields.map ty = layout.fields.map (·.2) ∧ ∀ w ∈ fields, Every P w :=
    foldlM_induction (P := fun fields : List Value =>
      fields.map ty = layout.fields.map (·.2) ∧ ∀ w ∈ fields, Every P w)
      (fun _ e he _ hb h => hP.setField (hg e he) hb.1 hb.2 h)
      ⟨Ty.ty_zeros, Ty.every_zeros hP _⟩ hf
  exact .intro (hP.struct hfields.1) hfields.2

/-- A map is built by insertions into the empty one. -/
theorem mapOf (hP : ByConstruction P) {key elem : Ty} {given : List (Key × Value)}
    (hg : ∀ e ∈ given, Every P e.2) (h : mapOf key elem given = .ok v) : Every P v := by
  obtain ⟨k, _, h⟩ := bind_eq_ok.1 h
  obtain ⟨entries, he, h⟩ := bind_eq_ok.1 h
  cases h
  have hentries : Assoc.Ascending entries ∧
      ∀ e ∈ entries, Every P e.2 ∧ e.1.ty = k ∧ e.2.ty = elem := by
    refine foldlM_induction (P := fun entries : List (Key × Value) =>
      Assoc.Ascending entries ∧ ∀ e ∈ entries, Every P e.2 ∧ e.1.ty = k ∧ e.2.ty = elem)
      ?_ ⟨.nil, by simp⟩ he
    intro es e hm es' hes h
    obtain ⟨hasc, hall⟩ := hes
    split at h
    · rename_i hk
      obtain ⟨w, hw, h⟩ := bind_eq_ok.1 h
      cases h
      obtain ⟨hw, hty⟩ := hP.fit (hg e hm) hw
      refine ⟨Assoc.ascending_insert hasc, ?_⟩
      intro e' he'
      rcases Assoc.mem_insert he' with rfl | he'
      · exact ⟨hw, hk, hty⟩
      · exact hall e' he'
    · cases h
  obtain ⟨hasc, hall⟩ := hentries
  exact every_map.2 ⟨hP.map hasc fun e he => (hall e he).2, fun e he => (hall e he).1⟩

theorem sliceOf (hP : ByConstruction P) {elem : Ty} {items : List Value}
    (hg : ∀ w ∈ items, Every P w) (h : sliceOf elem items = .ok v) : Every P v := by
  obtain ⟨ws, hws, h⟩ := bind_eq_ok.1 h
  cases h
  have hall : ∀ w ∈ ws, Every P w ∧ w.ty = elem := by
    intro w hw
    obtain ⟨u, hu, hfit⟩ := exists_of_mem_mapM hws w hw
    exact hP.fit (hg u hu) hfit
  exact every_slice.2 ⟨hP.slice fun w hw => (hall w hw).2, fun w hw => (hall w hw).1⟩

end ByConstruction

end Value

/-- What holds by construction, and of pointers to cells, holds of all that is built. -/
theorem Built.every (hP : Value.ByConstruction P)
    (hp : ∀ c w, g.content? c = some w → P (.pointer w.ty c)) (hv : Built g v) :
    v.Every P := by
  induction hv with
  | zero => exact Ty.every_zero hP _
  | bool | int | float | string => exact hP.leaf trivial
  | struct hv _ ih => exact hP.structOf ih hv
  | map hv _ ih => exact hP.mapOf ih hv
  | slice hv _ ih => exact hP.sliceOf ih hv
  | pointer hc => exact (Value.every_leaf rfl).2 (hp _ _ hc)
  | box _ ih => exact hP.box ih
  | unbox _ ih => exact ih.unbox

/-- Whatever is built is well-typed, and its pointers lead to cells of their target types. -/
theorem Built.typed (hv : Built g v) : v.Typed g.cellTy? :=
  hv.every Value.byConstruction_declared fun _ _ hc => congrArg (Option.map Value.ty) hc

/-! Documents -/

namespace Document

mutual
/-- The value that a document loads as is put together from those of its parts, in interfaces. -/
theorem every_value (hP : Value.ByConstruction P) : (d : Document) → d.value.Every P
  | .null | .bool _ | .float _ | .string _ => hP.leaf trivial
  | .int i => by
    rw [value]
    split <;> exact hP.leaf trivial
  | .array items => by
    have hall := every_boxedValues hP items
    exact Value.every_slice.2 ⟨hP.slice fun v hv => (hall v hv).2, fun v hv => (hall v hv).1⟩
  | .object members => by
    have hall := fun e he => every_boxedMembers hP members e (Assoc.mem_ofList he)
    exact Value.every_map.2
      ⟨hP.map Assoc.ascending_ofList fun e he => (hall e he).2, fun e he => (hall e he).1⟩

theorem every_boxedValues (hP : Value.ByConstruction P) :
    (ds : List Document) → ∀ v ∈ boxedValues ds, v.Every P ∧ v.ty = .any
  | [] => by simp [boxedValues]
  | d :: ds => List.forall_mem_cons.2
    ⟨⟨hP.box (every_value hP d), Value.ty_box⟩, every_boxedValues hP ds⟩

theorem every_boxedMembers (hP : Value.ByConstruction P) : (ms : List (String × Document)) →
    ∀ e ∈ boxedMembers ms, e.2.Every P ∧ e.1.ty = .string ∧ e.2.ty = .any
  | [] => by simp [boxedMembers]
  | (_, d) :: ms => List.forall_mem_cons.2
    ⟨⟨hP.box (every_value hP d), rfl, Value.ty_box⟩, every_boxedMembers hP ms⟩
end

theorem every_valueFor (hP : Value.ByConstruction P) {d : Document} : (d.valueFor t).Every P := by
  have hd := every_value hP d
  unfold valueFor
  split
  · exact Ty.every_zero hP _
  · exact hP.leaf trivial
  · exact hd

end Document

end ObjectGraph
