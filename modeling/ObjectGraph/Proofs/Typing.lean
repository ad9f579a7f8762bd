import ObjectGraph.Graph
import ObjectGraph.Proofs.Route

/-! Well-typed values and graphs. A value in the place of another of its type leaves the whole
well-typed. -/
namespace ObjectGraph

namespace Value

variable {P : Value → Prop} {v v' w u : Value} {hop : Hop} {r : Route} {path : Path} {key : Key}
  {types : CellId → Option Ty}

/-- The values directly inside a value. The target of a pointer is not inside it. -/
def inside : Value → List Value
  | struct _ fields => fields
  | map _ _ entries => entries.map (·.2)
  | slice _ items => items
  | boxed w => [w]
  | _ => []

/-- `P` holds of the value and of all values inside it. -/
inductive Every (P : Value → Prop) : Value → Prop
  | intro {v : Value} (here : P v) (inner : ∀ w ∈ v.inside, Every P w) : Every P v

/-- The parts of a value have the types that it declares for them, and the cell of a pointer,
by the types of the cells, its target type. -/
def Declared (types : CellId → Option Ty) : Value → Prop
  | struct layout fields => fields.map ty = layout.fields.map (·.2)
  | map key elem entries => ∀ e ∈ entries, e.1.ty = key ∧ e.2.ty = elem
  | slice elem items => ∀ w ∈ items, w.ty = elem
  | pointer target c => types c = some target
  | _ => True

def Typed (types : CellId → Option Ty) : Value → Prop := Every (Declared types)

/-- What an interface holds is no interface. -/
def Plain : Value → Prop
  | boxed w => w.ty ≠ .any
  | _ => True

/-- No interface directly holds an interface. -/
def BoxedOnce : Value → Prop := Every Plain

/-- `P` asks of the parts of a value nothing but their types. -/
def Steady (P : Value → Prop) : Prop :=
  ∀ {hop : Hop} {v w v' : Value}, P v →
    (v.partTy? hop = some w.ty ∨ ∃ u, v.part? hop = some u ∧ u.ty = w.ty) →
    setPart w hop v = some v' → P v'

theorem sizeOf_lt_of_mem_inside (h : w ∈ v.inside) : sizeOf w < sizeOf v := by
  cases v with
  | struct layout fields =>
    have hlt : sizeOf w < sizeOf fields := List.sizeOf_lt_of_mem h
    simp only [struct.sizeOf_spec]
    omega
  | map key elem entries =>
    obtain ⟨⟨k, u⟩, he, rfl⟩ := List.mem_map.1 h
    have hlt : sizeOf (k, u) < sizeOf entries := List.sizeOf_lt_of_mem he
    simp only [map.sizeOf_spec, Prod.mk.sizeOf_spec] at hlt ⊢
    omega
  | slice elem items =>
    have hlt : sizeOf w < sizeOf items := List.sizeOf_lt_of_mem h
    simp only [slice.sizeOf_spec]
    omega
  | boxed u =>
    obtain rfl := List.mem_singleton.1 h
    simp only [boxed.sizeOf_spec]
    omega
  | _ => cases h

/-- What holds of a value if it holds of all values directly inside it holds of every value. -/
theorem inside_induction {C : Value → Prop} (step : ∀ v, (∀ w ∈ v.inside, C w) → C v) (v : Value) :
    C v :=
  step v fun w _ => inside_induction step w
  termination_by sizeOf v
  decreasing_by exact sizeOf_lt_of_mem_inside ‹_›

theorem mem_inside_of_part? (h : v.part? hop = some u) : u ∈ v.inside := by
  cases hop <;> cases v <;> simp_all [part?, inside]
  case field.struct => exact List.mem_of_getElem? h
  case index.slice => exact List.mem_of_getElem? h
  case key.map k _ _ _ => exact ⟨k, Assoc.mem_of_get? h⟩

theorem mem_inside_setPart (h : setPart w hop v = some v') (hu : u ∈ v'.inside) :
    u = w ∨ u ∈ v.inside := by
  rcases setPart_cases h with ⟨_, _, _, -, rfl, -, rfl⟩ | ⟨_, _, _, -, rfl, -, rfl⟩ |
    ⟨_, _, _, _, -, rfl, rfl⟩ | ⟨_, -, rfl, rfl⟩
  · exact (List.mem_or_eq_of_mem_set hu).symm
  · exact (List.mem_or_eq_of_mem_set hu).symm
  · obtain ⟨e, he, rfl⟩ := List.mem_map.1 hu
    rcases Assoc.mem_insert he with rfl | he
    · exact Or.inl rfl
    · exact Or.inr (List.mem_map_of_mem he)
  · exact Or.inl (by simpa [inside] using hu)

namespace Every

theorem here (h : Every P v) : P v := by
  obtain ⟨hp, _⟩ := h
  exact hp

theorem part (h : Every P v) (hu : v.part? hop = some u) : Every P u := by
  obtain ⟨_, hi⟩ := h
  exact hi u (mem_inside_of_part? hu)

theorem at? (h : Every P v) (hu : Value.at? r v = some u) : Every P u := by
  induction r generalizing v with
  | nil => cases hu; exact h
  | cons hop r ih =>
    obtain ⟨x, hx, hu⟩ := Option.bind_eq_some_iff.1 hu
    exact ih (h.part hx) hu

theorem resolve (h : Every P v) (hw : v.resolve path = .ok w) : Every P w :=
  h.at? (at?_of_resolve hw)

theorem lookup (h : Every P v) (hw : v.lookup key = .ok (some w)) : Every P w := by
  cases v with
  | map k t es =>
    have hp : (map k t es).part? (.key key) = some w := Except.ok.inj hw
    exact h.part hp
  | _ => cases hw

theorem unbox (h : Every P v) : Every P v.unbox := by
  cases v with
  | boxed w =>
    have hp : (boxed w).part? .content = some w := rfl
    exact h.part hp
  | _ => exact h

/-- Inside the whole nothing is new but the part that was put there. -/
theorem setPart_of_here (hp : P v') (hv : Every P v) (hw : Every P w)
    (h : Value.setPart w hop v = some v') : Every P v' := by
  obtain ⟨_, hi⟩ := hv
  refine .intro hp fun u hu => ?_
  rcases mem_inside_setPart h hu with rfl | hu
  · exact hw
  · exact hi u hu

theorem setPart (hP : Steady P) (hv : Every P v) (hw : Every P w)
    (ht : v.partTy? hop = some w.ty ∨ ∃ u, v.part? hop = some u ∧ u.ty = w.ty)
    (h : Value.setPart w hop v = some v') : Every P v' :=
  hv.setPart_of_here (hP hv.here ht h) hw h

/-- What holds of all values inside two values holds of all inside the one after the other has
been put into one of its slots. -/
theorem put (hP : Steady P) (hv : Every P v) (hw : Every P w) (ht : slotTy? r v = some w.ty)
    (h : Value.put w r v = some v') : Every P v' := by
  induction r generalizing v v' with
  | nil => cases h; exact hw
  | cons hop r ih =>
    obtain ⟨u', hs, ⟨rfl, rfl⟩ | ⟨u, hu, hu'⟩⟩ := setPart_of_put h
    · exact hv.setPart hP hw (Or.inl ht) hs
    · cases r with
      | nil => cases hu'; exact hv.setPart hP hw (Or.inl ht) hs
      | cons next r =>
        have ht : slotTy? (next :: r) u = some w.ty := by simpa [slotTy?, hu] using ht
        exact hv.setPart hP (ih (hv.part hu) ht hu') (Or.inr ⟨u, hu, (ty_put hu').symm⟩) hs

end Every

/-! Properties of all inner values are decidable if they are of each -/

theorem every_iff : Every P v ↔ P v ∧ ∀ w ∈ v.inside, Every P w :=
  ⟨fun ⟨h, hi⟩ => ⟨h, hi⟩, fun ⟨h, hi⟩ => .intro h hi⟩

theorem every_struct {l : Layout} {vs : List Value} :
    Every P (struct l vs) ↔ P (struct l vs) ∧ ∀ w ∈ vs, Every P w :=
  every_iff

theorem every_map {k : KeyTy} {t : Ty} {es : List (Key × Value)} :
    Every P (map k t es) ↔ P (map k t es) ∧ ∀ e ∈ es, Every P e.2 :=
  every_iff.trans (by simp only [inside, List.forall_mem_map])

theorem every_slice {t : Ty} {vs : List Value} :
    Every P (slice t vs) ↔ P (slice t vs) ∧ ∀ w ∈ vs, Every P w :=
  every_iff

theorem every_boxed : Every P (boxed w) ↔ P (boxed w) ∧ Every P w :=
  every_iff.trans (by simp [inside])

theorem every_leaf (h : v.inside = []) : Every P v ↔ P v :=
  every_iff.trans (by simp [h])

mutual
/-- Decides whether `P` holds of all values inside a value. -/
def decideEvery [DecidablePred P] : (v : Value) → Decidable (Every P v)
  | struct _ vs =>
    have := decideAll vs
    decidable_of_iff _ every_struct.symm
  | map _ _ es =>
    have := decideEntries es
    decidable_of_iff _ every_map.symm
  | slice _ vs =>
    have := decideAll vs
    decidable_of_iff _ every_slice.symm
  | boxed w =>
    have := decideEvery w
    decidable_of_iff _ every_boxed.symm
  | bool _ | int _ | float _ | string _ | nilMap .. | nilSlice _ | nilPointer _ | pointer ..
  | nilAny =>
    decidable_of_iff _ (every_leaf rfl).symm
  termination_by structural v => v

def decideAll [DecidablePred P] : (vs : List Value) → Decidable (∀ w ∈ vs, Every P w)
  | [] => isTrue (by simp)
  | v :: vs =>
    have := decideEvery v
    have := decideAll vs
    decidable_of_iff (Every P v ∧ ∀ w ∈ vs, Every P w) (by simp)
  termination_by structural vs => vs

def decideEntries [DecidablePred P] : (es : List (Key × Value)) → Decidable (∀ e ∈ es, Every P e.2)
  | [] => isTrue (by simp)
  | (_, v) :: es =>
    have := decideEvery v
    have := decideEntries es
    decidable_of_iff (Every P v ∧ ∀ e ∈ es, Every P e.2) (by simp)
  termination_by structural es => es
end

instance [DecidablePred P] : DecidablePred (Every P) := decideEvery

instance : DecidablePred (Declared types)
  | struct .. => inferInstanceAs (Decidable (_ = _))
  | map .. => inferInstanceAs (Decidable (∀ e ∈ _, _ ∧ _))
  | slice .. => inferInstanceAs (Decidable (∀ w ∈ _, _ = _))
  | pointer .. => inferInstanceAs (Decidable (_ = _))
  | bool _ | int _ | float _ | string _ | nilMap .. | nilSlice _ | nilPointer _ | nilAny
  | boxed _ =>
    isTrue trivial

instance : DecidablePred Plain
  | boxed _ => inferInstanceAs (Decidable (_ ≠ _))
  | bool _ | int _ | float _ | string _ | struct .. | nilMap .. | map .. | nilSlice _ | slice ..
  | nilPointer _ | pointer .. | nilAny => isTrue trivial

instance : DecidablePred (Typed types) := inferInstanceAs (DecidablePred (Every _))

instance : DecidablePred BoxedOnce := inferInstanceAs (DecidablePred (Every _))
/-! Well-typed values -/

theorem partTy?_of_part? (hv : Declared types v) (h : v.part? hop = some u) :
    v.partTy? hop = some u.ty := by
  cases hop with
  | key k =>
    cases v with
    | map => simp [partTy?, hv _ (Assoc.mem_of_get? h)]
    | _ => cases h
  | _ => exact congrArg (Option.map ty) h

theorem slotTy?_of_at? (hv : v.Typed types) (h : at? r v = some u) :
    slotTy? r v = some u.ty := by
  induction r generalizing v with
  | nil => cases h; rfl
  | cons hop r ih =>
    obtain ⟨x, hx, hu⟩ := Option.bind_eq_some_iff.1 h
    cases r with
    | nil => cases hu; exact partTy?_of_part? hv.here hx
    | cons next r => simpa [slotTy?, hx] using ih (hv.part hx) hu

theorem ty_put_of_slotTy? (ht : slotTy? r v = some w.ty) (h : put w r v = some v') :
    v'.ty = v.ty := by
  cases r with
  | nil =>
    cases h
    exact (Option.some.inj ht).symm
  | cons hop r => exact ty_put h

theorem steady_declared : Steady (Declared types) := by
  intro hop v w v' hv ht h
  have ht : v.partTy? hop = some w.ty := by
    rcases ht with ht | ⟨u, hu, ht⟩
    · exact ht
    · rw [partTy?_of_part? hv hu, ht]
  rcases setPart_cases h with ⟨i, layout, fields, rfl, rfl, hi, rfl⟩ |
    ⟨i, elem, items, rfl, rfl, hi, rfl⟩ | ⟨k, key, elem, entries, rfl, rfl, rfl⟩ |
    ⟨_, rfl, rfl, rfl⟩
  · have ht : fields[i].ty = w.ty := by simpa [partTy?, part?, hi] using ht
    have hs : (fields.map ty).set i w.ty = fields.map ty := by
      rw [← ht, ← List.getElem_map ty (h := by simpa using hi), List.set_getElem_self]
    exact (List.map_set.trans hs).trans hv
  · have ht : items[i].ty = w.ty := by simpa [partTy?, part?, hi] using ht
    intro x hx
    rcases List.mem_or_eq_of_mem_set hx with hx | rfl
    · exact hv x hx
    · rw [← ht, hv _ (List.getElem_mem hi)]
  · have ht : k.ty = key ∧ elem = w.ty := by simpa [partTy?] using ht
    intro e he
    rcases Assoc.mem_insert he with rfl | he
    · exact ⟨ht.1, ht.2.symm⟩
    · exact hv e he
  · trivial

theorem steady_plain : Steady Plain := by
  intro hop v w v' hv ht h
  rcases setPart_cases h with ⟨_, _, _, -, rfl, -, rfl⟩ | ⟨_, _, _, -, rfl, -, rfl⟩ |
    ⟨_, _, _, _, -, rfl, rfl⟩ | ⟨u, rfl, rfl, rfl⟩
  · trivial
  · trivial
  · trivial
  · have ht : u.ty = w.ty := by simpa [partTy?, part?] using ht
    exact fun hw => hv (ht.trans hw)

/-- A slot keeps a value of its own type as it is, and an interface keeps any in a box. -/
theorem assignTo_cases {t : Ty} (h : v.assignTo t = .ok w) :
    (w = v ∧ v.ty = t) ∨ (w = v.box ∧ t = .any) := by
  unfold assignTo at h
  split at h
  · cases h
    exact Or.inl ⟨rfl, ‹_›⟩
  · split at h
    · rename_i hn ha
      cases h
      exact Or.inr ⟨rfl, by simpa [Ty.isAssignableTo, hn] using ha⟩
    · cases h

theorem box_of_ty_ne (h : v.ty ≠ .any) : v.box = boxed v := by
  cases v <;> first | rfl | exact absurd rfl h

/-- A value in an interface has the properties of the value itself, if it was none already. -/
theorem Every.box (hv : Every P v) (hb : v.ty ≠ .any → P (boxed v)) : Every P v.box := by
  by_cases h : v.ty = .any
  · cases v <;> first | exact hv | cases h
  · rw [box_of_ty_ne h]
    exact .intro (hb h) fun u hu => List.mem_singleton.1 hu ▸ hv

/-- Well-typed values stay so as cells are added. -/
theorem Typed.mono {types' : CellId → Option Ty} (hv : v.Typed types)
    (h : ∀ c t, types c = some t → types' c = some t) : v.Typed types' := by
  induction hv with
  | @intro v hd _ ih =>
    refine .intro ?_ ih
    cases v with
    | pointer target c => exact h c target hd
    | _ => exact hd

theorem Typed.heldAs (hv : v.Typed types) (t : Ty) : (v.heldAs t).Typed types := by
  unfold Value.heldAs
  split
  · exact Every.box hv fun _ => trivial
  · exact hv

theorem BoxedOnce.heldAs (hv : v.BoxedOnce) (t : Ty) : (v.heldAs t).BoxedOnce := by
  unfold Value.heldAs
  split
  · exact Every.box hv id
  · exact hv

theorem ty_heldAs {t : Ty} (h : v.ty = t ∨ t = .any) : (v.heldAs t).ty = t := by
  unfold heldAs
  split
  · rw [ty_box]
    exact Eq.symm ‹_›
  · exact h.resolve_right ‹_›

end Value

namespace Graph

variable {g g' : Graph} {c : CellId} {v old : Value}

/-- The type of the content of a cell. -/
def cellTy? (g : Graph) (c : CellId) : Option Ty := (g.content? c).map Value.ty

/-- Every cell has a well-typed content, whose pointers lead to cells of their target types. -/
def WellTyped (g : Graph) : Prop := ∀ ⦃c v⦄, g.content? c = some v → v.Typed g.cellTy?

/-- No interface in any cell directly holds an interface. -/
def BoxedOnce (g : Graph) : Prop := ∀ ⦃c v⦄, g.content? c = some v → v.BoxedOnce

theorem forall_content_iff {P : Value → Prop} {g : Graph} :
    (∀ ⦃c v⦄, g.content? c = some v → P v) ↔ ∀ v ∈ g.cells.toList, P v := by
  constructor
  · intro h v hv
    obtain ⟨i, hi⟩ := List.mem_iff_getElem?.1 hv
    exact h (c := ⟨i⟩) (by simpa [content?] using hi)
  · intro h c v hv
    exact h v (by simpa using Array.mem_of_getElem? hv)

instance {g : Graph} : Decidable g.WellTyped := decidable_of_iff _ forall_content_iff.symm
instance {g : Graph} : Decidable g.BoxedOnce := decidable_of_iff _ forall_content_iff.symm

theorem content?_congr (h : g'.cells = g.cells) : g'.content? c = g.content? c := by
  simp [content?, h]

theorem BoxedOnce.congr (hb : g.BoxedOnce) (h : g'.cells = g.cells) : g'.BoxedOnce :=
  fun _ _ hv => hb (content?_congr h ▸ hv)

theorem WellTyped.congr (ht : g.WellTyped) (h : g'.cells = g.cells) : g'.WellTyped := by
  have hc : g'.cellTy? = g.cellTy? := funext fun c => congrArg _ (content?_congr h)
  intro c v hv
  rw [hc]
  exact ht (content?_congr h ▸ hv)

theorem cellTy?_alloc {t : Ty} (h : g.cellTy? c = some t) : (g.alloc v).1.cellTy? c = some t := by
  obtain ⟨w, hw, rfl⟩ := Option.map_eq_some_iff.1 h
  exact congrArg (Option.map Value.ty) (content?_alloc hw)

/-- A new cell with a well-typed content leaves the graph well-typed. -/
theorem WellTyped.alloc (hg : g.WellTyped) (hv : v.Typed g.cellTy?) : (g.alloc v).1.WellTyped := by
  intro c w hw
  have hw : w.Typed g.cellTy? := by
    rcases content?_alloc_cases hw with hw | rfl
    · exact hg hw
    · exact hv
  exact hw.mono fun _ _ => cellTy?_alloc

theorem cellTy?_put (hc : g.content? c = some old) (ht : v.ty = old.ty) :
    (g.put c v).cellTy? = g.cellTy? := by
  funext d
  unfold cellTy?
  by_cases hd : d = c
  · subst hd
    simp [content?_put_self hc, hc, ht]
  · rw [content?_put_ne hd]

/-- A property of the contents of all cells stays, if the new content of one has it. -/
theorem forall_content_put {P : Value → Prop} (hc : g.content? c = some old)
    (h : ∀ ⦃d w⦄, g.content? d = some w → P w) (hv : P v) :
    ∀ ⦃d w⦄, (g.put c v).content? d = some w → P w := by
  intro d w hw
  by_cases hd : d = c
  · subst hd
    cases (content?_put_self hc).symm.trans hw
    exact hv
  · exact h (content?_put_ne hd ▸ hw)

end Graph

end ObjectGraph
