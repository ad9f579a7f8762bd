import Mathlib.Data.List.Forall2

/-! How results pass through a sequence of operations that may fail. -/
namespace ObjectGraph

variable {ε δ α β γ : Type} {x : Except ε α} {k : α → Except ε β} {a : α} {b : β} {e : ε}

@[simp] theorem ok_bind : (Except.ok a >>= k) = k a := rfl

@[simp] theorem error_bind : ((Except.error e : Except ε α) >>= k) = .error e := rfl

@[simp] theorem ok_map {f : α → β} : (f <$> (.ok a : Except ε α)) = .ok (f a) := rfl

@[simp] theorem error_map {f : α → β} : (f <$> (.error e : Except ε α)) = .error e := rfl

theorem bind_eq_ok : (x >>= k) = .ok b ↔ ∃ a, x = .ok a ∧ k a = .ok b := by
  cases x <;> simp

theorem bind_eq_error : (x >>= k) = .error e ↔ x = .error e ∨ ∃ a, x = .ok a ∧ k a = .error e := by
  cases x <;> simp

theorem map_eq_ok {f : α → β} : (f <$> x) = .ok b ↔ ∃ a, x = .ok a ∧ f a = b := by
  cases x <;> simp

theorem map_eq_error {f : α → β} : (f <$> x) = .error e ↔ x = .error e := by
  cases x <;> simp

@[simp] theorem mapError_ok {f : ε → δ} : (.ok a : Except ε α).mapError f = .ok a := rfl

@[simp] theorem mapError_error {f : ε → δ} : (.error e : Except ε α).mapError f = .error (f e) :=
  rfl

theorem mapError_eq_ok {f : ε → δ} : x.mapError f = .ok a ↔ x = .ok a := by
  cases x <;> simp

theorem mapError_eq_error {f : ε → δ} {e : δ} :
    x.mapError f = .error e ↔ ∃ e', x = .error e' ∧ f e' = e := by
  cases x <;> simp

/-- What each step of a fold keeps, the fold keeps. -/
theorem foldlM_induction {f : β → α → Except ε β} {P : β → Prop} {xs : List α} {c : β}
    (hf : ∀ b, ∀ a ∈ xs, ∀ b', P b → f b a = .ok b' → P b') (hb : P b)
    (h : xs.foldlM f b = .ok c) : P c := by
  induction xs generalizing b with
  | nil =>
    cases h
    exact hb
  | cons a xs ih =>
    rw [List.foldlM_cons] at h
    obtain ⟨b', hb', h⟩ := bind_eq_ok.1 h
    exact ih (fun b a ha => hf b a (.tail _ ha)) (hf b a (.head _) b' hb hb') h

theorem mapM_eq_ok {f : α → Except ε β} {xs : List α} {ys : List β} :
    xs.mapM f = .ok ys ↔ List.Forall₂ (fun a b => f a = .ok b) xs ys := by
  induction xs generalizing ys with
  | nil => cases ys <;> simp [pure, Except.pure]
  | cons a xs ih =>
    rw [List.mapM_cons, bind_eq_ok, List.forall₂_cons_left_iff]
    constructor
    · rintro ⟨b, hb, h⟩
      obtain ⟨bs, hbs, h⟩ := bind_eq_ok.1 h
      cases h
      exact ⟨b, bs, hb, ih.1 hbs, rfl⟩
    · rintro ⟨b, bs, hb, hbs, rfl⟩
      exact ⟨b, hb, bind_eq_ok.2 ⟨bs, ih.2 hbs, rfl⟩⟩

/-- Where each member has one possible result, so has the list. -/
theorem mapM_eq_ok_map {f : α → Except ε β} {P : α → Prop} {g : α → β}
    (hf : ∀ a b, f a = .ok b ↔ P a ∧ b = g a) {xs : List α} {ys : List β} :
    xs.mapM f = .ok ys ↔ (∀ a ∈ xs, P a) ∧ ys = xs.map g := by
  induction xs generalizing ys with
  | nil => simp [pure, Except.pure, eq_comm]
  | cons a xs ih =>
    rw [List.mapM_cons, bind_eq_ok, List.forall_mem_cons, List.map_cons]
    constructor
    · rintro ⟨b, hb, h⟩
      obtain ⟨bs, hbs, h⟩ := bind_eq_ok.1 h
      cases h
      obtain ⟨ha, rfl⟩ := (hf a b).1 hb
      obtain ⟨hxs, rfl⟩ := ih.1 hbs
      exact ⟨⟨ha, hxs⟩, rfl⟩
    · rintro ⟨⟨ha, hxs⟩, rfl⟩
      exact ⟨g a, (hf a _).2 ⟨ha, rfl⟩, bind_eq_ok.2 ⟨xs.map g, ih.2 ⟨hxs, rfl⟩, rfl⟩⟩

/-- Some member of the list has the outcome `e`, and `P` holds of all before it. -/
def First (P : α → Prop) (R : α → ε → Prop) (xs : List α) (e : ε) : Prop :=
  ∃ before x after, xs = before ++ x :: after ∧ (∀ y ∈ before, P y) ∧ R x e

theorem first_cons {P : α → Prop} {R : α → ε → Prop} {xs : List α} :
    First P R (a :: xs) e ↔ R a e ∨ P a ∧ First P R xs e := by
  constructor
  · rintro ⟨before, x, after, hxs, hb, hx⟩
    cases before with
    | nil =>
      cases hxs
      exact Or.inl hx
    | cons y before =>
      cases hxs
      obtain ⟨ha, hb⟩ := List.forall_mem_cons.1 hb
      exact Or.inr ⟨ha, before, x, after, rfl, hb, hx⟩
  · rintro (ha | ⟨ha, before, x, after, rfl, hb, hx⟩)
    · exact ⟨[], a, xs, rfl, by simp, ha⟩
    · exact ⟨a :: before, x, after, rfl, List.forall_mem_cons.2 ⟨ha, hb⟩, hx⟩

/-- A list fails as the first of its members does that fails. -/
theorem mapM_eq_error {f : α → Except ε β} {P : α → Prop} {g : α → β} {R : α → ε → Prop}
    (hf : ∀ a b, f a = .ok b ↔ P a ∧ b = g a) (hr : ∀ a e, f a = .error e ↔ R a e)
    {xs : List α} : xs.mapM f = .error e ↔ First P R xs e := by
  induction xs with
  | nil => simp [pure, Except.pure, First]
  | cons a xs ih =>
    rw [List.mapM_cons, first_cons, bind_eq_error, hr, ← ih]
    constructor
    · rintro (ha | ⟨b, hb, h⟩)
      · exact Or.inl ha
      · exact Or.inr ⟨((hf a b).1 hb).1, by simpa [map_eq_error] using h⟩
    · rintro (ha | ⟨ha, h⟩)
      · exact Or.inl ha
      · exact Or.inr ⟨g a, (hf a _).2 ⟨ha, rfl⟩, bind_eq_error.2 (Or.inl h)⟩

/-- A fold that checks each member apart from what it folds checks all of them first. -/
theorem foldlM_eq_map_mapM {f : β → α → Except ε β} {check : α → Except ε γ} {put : β → γ → β}
    (hf : ∀ b a, f b a = put b <$> check a) {xs : List α} :
    xs.foldlM f b = (fun cs => cs.foldl put b) <$> xs.mapM check := by
  induction xs generalizing b with
  | nil => rfl
  | cons a xs ih =>
    rw [List.foldlM_cons, List.mapM_cons, hf]
    cases check a with
    | error e => rfl
    | ok c =>
      rw [ok_map, ok_bind, ok_bind, ih]
      cases xs.mapM check <;> rfl

/-- What is collected is made of the members of the list. -/
theorem exists_of_mem_mapM {f : α → Except ε β} {xs : List α} {ys : List β}
    (h : xs.mapM f = .ok ys) : ∀ b ∈ ys, ∃ a ∈ xs, f a = .ok b := by
  induction xs generalizing ys with
  | nil =>
    cases h
    simp
  | cons a xs ih =>
    rw [List.mapM_cons] at h
    obtain ⟨c, hc, h⟩ := bind_eq_ok.1 h
    obtain ⟨cs, hcs, h⟩ := bind_eq_ok.1 h
    cases h
    intro b hb
    rcases List.mem_cons.1 hb with rfl | hb
    · exact ⟨a, .head _, hc⟩
    · obtain ⟨a', ha', hf⟩ := ih hcs b hb
      exact ⟨a', .tail _ ha', hf⟩

end ObjectGraph
