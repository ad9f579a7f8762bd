import Mathlib.Data.List.Forall2
import ObjectGraph.Proofs.Typing
import ObjectGraph.Value.Equal

/-! Equality of values is symmetric and transitive, and equal values have one type. What keeps a
value from being equal to itself is a NaN inside it, at any depth; what a pointer leads to is not
looked at. -/
namespace ObjectGraph

/-! Lists whose members are related one by one -/

section
variable {α : Type} {R : α → α → Prop} {xs ys zs : List α}

theorem forall₂_symm (hR : ∀ x ∈ xs, ∀ y, R x y → R y x) (h : List.Forall₂ R xs ys) :
    List.Forall₂ R ys xs := by
  induction h with
  | nil => exact .nil
  | cons hxy _ ih =>
    obtain ⟨hx, hxs⟩ := List.forall_mem_cons.1 hR
    exact .cons (hx _ hxy) (ih hxs)

theorem forall₂_trans (hR : ∀ x ∈ xs, ∀ y z, R x y → R y z → R x z) (h : List.Forall₂ R xs ys)
    (h' : List.Forall₂ R ys zs) : List.Forall₂ R xs zs := by
  induction h generalizing zs with
  | nil => exact h'
  | cons hxy _ ih =>
    obtain ⟨hx, hxs⟩ := List.forall_mem_cons.1 hR
    cases h' with
    | cons hyz h' => exact .cons (hx _ _ hxy hyz) (ih hxs h')

end

namespace Binary64

variable {x y z : Binary64}

theorem equal_symm (h : x.equal y = true) : y.equal x = true := by
  simp only [equal, Bool.and_eq_true, Bool.or_eq_true, beq_iff_eq] at h ⊢
  obtain ⟨⟨hx, hy⟩, h⟩ := h
  exact ⟨⟨hy, hx⟩, h.imp Eq.symm And.symm⟩

/-- The two zeros are equal to each other and to no other number. -/
theorem equal_trans (h : x.equal y = true) (h' : y.equal z = true) : x.equal z = true := by
  simp only [equal, Bool.and_eq_true, Bool.or_eq_true, beq_iff_eq] at h h' ⊢
  obtain ⟨⟨hx, _⟩, rfl | ⟨hzx, hzy⟩⟩ := h
  · exact ⟨⟨hx, h'.1.2⟩, h'.2⟩
  · obtain ⟨⟨_, hz⟩, rfl | ⟨_, hzz⟩⟩ := h'
    · exact ⟨⟨hx, hz⟩, Or.inr ⟨hzx, hzy⟩⟩
    · exact ⟨⟨hx, hz⟩, Or.inr ⟨hzx, hzz⟩⟩

theorem equal_self_iff : x.equal x = true ↔ x.isNaN = false := by
  simp [equal]

end Binary64

namespace Value

variable {u v w : Value}

/-- Two values that differ in what is inside them, if they differ at all. -/
@[mk_iff]
inductive Alike : Value → Value → Prop
  | bool {b : Bool} : Alike (bool b) (bool b)
  | int {i : Int64} : Alike (int i) (int i)
  | float {x y : Binary64} (h : x.equal y = true) : Alike (float x) (float y)
  | string {s : String} : Alike (string s) (string s)
  | struct {layout : Layout} {vs ws : List Value} : Alike (struct layout vs) (struct layout ws)
  | nilMap {key : KeyTy} {elem : Ty} : Alike (nilMap key elem) (nilMap key elem)
  | map {key : KeyTy} {elem : Ty} {es fs : List (Key × Value)} (h : es.map (·.1) = fs.map (·.1)) :
      Alike (map key elem es) (map key elem fs)
  | nilSlice {elem : Ty} : Alike (nilSlice elem) (nilSlice elem)
  | slice {elem : Ty} {vs ws : List Value} : Alike (slice elem vs) (slice elem ws)
  | nilPointer {target : Ty} : Alike (nilPointer target) (nilPointer target)
  | pointer {target : Ty} {c : CellId} : Alike (pointer target c) (pointer target c)
  | nilAny : Alike nilAny nilAny
  | boxed {v w : Value} : Alike (boxed v) (boxed w)

/-- The value is no NaN. What is inside it may be one. -/
def NotNaN : Value → Prop
  | float x => x.isNaN = false
  | _ => True

instance : DecidablePred NotNaN
  | float _ => inferInstanceAs (Decidable (_ = _))
  | bool _ | int _ | string _ | struct .. | nilMap .. | map .. | nilSlice _ | slice ..
  | nilPointer _ | pointer .. | nilAny | boxed _ => isTrue trivial

theorem equalItems_iff {vs ws : List Value} :
    equalItems vs ws = true ↔ List.Forall₂ (fun v w => equal v w = true) vs ws := by
  induction vs generalizing ws with
  | nil => cases ws <;> simp [equalItems]
  | cons v vs ih => cases ws <;> simp [equalItems, ih]

theorem equalEntries_iff {es fs : List (Key × Value)} :
    equalEntries es fs = true ↔ es.map (·.1) = fs.map (·.1) ∧
      List.Forall₂ (fun v w => equal v w = true) (es.map (·.2)) (fs.map (·.2)) := by
  induction es generalizing fs with
  | nil => cases fs <;> simp [equalEntries]
  | cons e es ih =>
    cases fs with
    | nil => simp [equalEntries]
    | cons f fs =>
      simp only [equalEntries, Bool.and_eq_true, beq_iff_eq, ih, List.map_cons, List.cons.injEq,
        List.forall₂_cons]
      tauto

/-- Values are equal when they are alike and what is inside them is equal one by one. -/
theorem equal_iff : equal v w = true ↔
    Alike v w ∧ List.Forall₂ (fun x y => equal x y = true) v.inside w.inside := by
  constructor
  · intro h
    unfold equal at h
    split at h <;> simp_all [alike_iff, inside, equalItems_iff, equalEntries_iff]
  · rintro ⟨ha, hi⟩
    cases ha <;> simp_all [equal, inside, equalItems_iff, equalEntries_iff]

theorem Alike.symm (h : Alike v w) : Alike w v := by
  cases h with
  | float h => exact .float (Binary64.equal_symm h)
  | map h => exact .map h.symm
  | _ => constructor

theorem Alike.trans (h : Alike u v) (h' : Alike v w) : Alike u w := by
  cases h with
  | float h =>
    cases h' with
    | float h' => exact .float (Binary64.equal_trans h h')
  | map h =>
    cases h' with
    | map h' => exact .map (h.trans h')
  | _ =>
    cases h'
    constructor

theorem Alike.ty (h : Alike v w) : v.ty = w.ty := by
  cases h <;> rfl

theorem alike_self_iff : Alike v v ↔ NotNaN v := by
  cases v <;> simp [alike_iff, NotNaN, Binary64.equal_self_iff]

/-! Each law of what is alike at the top holds at every depth -/

theorem equal_symm (h : equal v w = true) : equal w v = true := by
  induction v using inside_induction generalizing w with
  | step v ih =>
    obtain ⟨ha, hi⟩ := equal_iff.1 h
    exact equal_iff.2 ⟨ha.symm, forall₂_symm (fun x hx y => ih x hx) hi⟩

theorem equal_trans (h : equal u v = true) (h' : equal v w = true) : equal u w = true := by
  induction u using inside_induction generalizing v w with
  | step u ih =>
    obtain ⟨ha, hi⟩ := equal_iff.1 h
    obtain ⟨ha', hi'⟩ := equal_iff.1 h'
    exact equal_iff.2 ⟨ha.trans ha', forall₂_trans (fun x hx y z => ih x hx) hi hi'⟩

theorem equal_self_iff : equal v v = true ↔ v.Every NotNaN := by
  induction v using inside_induction with
  | step v ih =>
    rw [equal_iff, alike_self_iff, List.forall₂_same, every_iff]
    exact and_congr_right fun _ => forall₂_congr ih

end Value

/-- Equality is symmetric and transitive, and equal values have one type. A value is equal to itself
just when no NaN is in it, and two pointers are equal only if they lead to one cell. -/
theorem equal_laws (u v w : Value) :
    (v.equal w = w.equal v) ∧
    (u.equal v = true → v.equal w = true → u.equal w = true) ∧
    (v.equal w = true → v.ty = w.ty) ∧
    (v.equal v = true ↔ v.Every Value.NotNaN) ∧
    ∀ s t c d, c ≠ d → (Value.pointer s c).equal (.pointer t d) = false := by
  refine ⟨?_, Value.equal_trans, fun h => (Value.equal_iff.1 h).1.ty, Value.equal_self_iff, ?_⟩
  · exact Bool.eq_iff_iff.2 ⟨Value.equal_symm, Value.equal_symm⟩
  · intro s t c d hcd
    simp [Value.equal, hcd]

/-- A map with a pointer and with a number. -/
def measured (x : Binary64) : Value :=
  .map .string .any
    [(.string "low", .boxed (.float x)), (.string "next", .boxed (.pointer .float ⟨0⟩))]

/-- Measurements of the two zeros are not the same and yet equal, and a measurement of a NaN is not
equal to itself. -/
theorem equal_laws_measured : measured ⟨0⟩ ≠ measured ⟨0x8000000000000000⟩ ∧
    (measured ⟨0⟩).equal (measured ⟨0x8000000000000000⟩) = true ∧
    (measured ⟨0x8000000000000000⟩).equal (measured ⟨0⟩) = true ∧
    (measured ⟨0⟩).equal (measured ⟨0⟩) = true ∧
    (measured ⟨0x7ff8000000000000⟩).equal (measured ⟨0x7ff8000000000000⟩) = false := by
  have hne : measured ⟨0⟩ ≠ measured ⟨0x8000000000000000⟩ := by simp [measured]
  have heq : (measured ⟨0⟩).equal (measured ⟨0x8000000000000000⟩) = true := by decide
  have hnan : ¬ (measured ⟨0x7ff8000000000000⟩).Every Value.NotNaN := by decide
  obtain ⟨hsymm, htrans, -⟩ :=
    equal_laws (measured ⟨0⟩) (measured ⟨0x8000000000000000⟩) (measured ⟨0⟩)
  obtain ⟨-, -, -, hself, -⟩ :=
    equal_laws (measured ⟨0⟩) (measured ⟨0x7ff8000000000000⟩) (measured ⟨0⟩)
  have hback : (measured ⟨0x8000000000000000⟩).equal (measured ⟨0⟩) = true := hsymm.trans heq
  exact ⟨hne, heq, hback, htrans heq hback, Bool.eq_false_iff.2 fun h => hnan (hself.1 h)⟩

end ObjectGraph
