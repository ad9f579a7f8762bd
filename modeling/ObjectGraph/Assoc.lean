/-! Lists of pairs in ascending order of their keys. The look-up laws of
insertion hold of every list, ordered or not. -/
namespace ObjectGraph.Assoc
variable {κ α : Type} [Ord κ] {k j : κ} {a b : α} {es : List (κ × α)}

/-- The value of the first pair with key `k`. -/
def get? (k : κ) : List (κ × α) → Option α
  | [] => none
  | (k', a) :: es => match compare k k' with
    | .eq => some a
    | _ => get? k es

/-- Puts `a` under `k`: in place of the value there, or before the first larger key. -/
def insert (k : κ) (a : α) : List (κ × α) → List (κ × α)
  | [] => [(k, a)]
  | (k', a') :: es => match compare k k' with
    | .lt => (k, a) :: (k', a') :: es
    | .eq => (k, a) :: es
    | .gt => (k', a') :: insert k a es

/-- Of several pairs with one key the last stays. -/
def ofList (ps : List (κ × α)) : List (κ × α) :=
  ps.foldl (fun es p => insert p.1 p.2 es) []

/-- The keys ascend strictly, so none occurs twice. -/
def Ascending (es : List (κ × α)) : Prop :=
  es.Pairwise fun p q => compare p.1 q.1 = .lt

instance : Decidable (Ascending es) := inferInstanceAs (Decidable (List.Pairwise _ _))

theorem get?_insert_self [Std.ReflOrd κ] : get? k (insert k a es) = some a := by
  induction es with
  | nil => simp [insert, get?, Std.ReflOrd.compare_self]
  | cons e es ih =>
    obtain ⟨k', a'⟩ := e
    simp only [insert]
    split <;> simp [get?, Std.ReflOrd.compare_self, *]

theorem get?_insert_ne [Std.LawfulEqOrd κ] [Std.OrientedOrd κ] (h : j ≠ k) :
    get? j (insert k a es) = get? j es := by
  have hjk : compare j k ≠ .eq := fun he => h (Std.LawfulEqOrd.eq_of_compare he)
  induction es with
  | nil => cases hc : compare j k <;> simp_all [insert, get?]
  | cons e es ih =>
    obtain ⟨k', a'⟩ := e
    simp only [insert]
    split
    · cases hc : compare j k <;> simp_all [get?]
    · rename_i hk
      cases Std.LawfulEqOrd.eq_of_compare hk
      cases hc : compare j k <;> simp_all [get?]
    · simp [get?, ih]

theorem insert_insert [Std.ReflOrd κ] : insert k b (insert k a es) = insert k b es := by
  induction es with
  | nil => simp [insert, Std.ReflOrd.compare_self]
  | cons e es ih =>
    obtain ⟨k', a'⟩ := e
    cases hc : compare k k' <;> simp [insert, Std.ReflOrd.compare_self, hc, ih]

theorem insert_comm_of_lt [Std.LawfulEqOrd κ] [Std.TransOrd κ] (h : compare j k = .lt) :
    insert k a (insert j b es) = insert j b (insert k a es) := by
  have hk : compare k j = .gt := Std.OrientedCmp.gt_iff_lt.2 h
  induction es with
  | nil => simp [insert, h, hk]
  | cons e es ih =>
    obtain ⟨l, c⟩ := e
    cases hj : compare j l with
    | lt => cases hl : compare k l <;> simp [insert, h, hk, hj, hl]
    | eq =>
      cases Std.LawfulEqOrd.eq_of_compare hj
      simp [insert, hk]
    | gt =>
      have hl : compare k l = .gt := Std.TransCmp.gt_trans hk hj
      simp [insert, hj, hl, ih]

/-- Two keys may be put in in either order, into any list. -/
theorem insert_comm [Std.LawfulEqOrd κ] [Std.TransOrd κ] (h : j ≠ k) :
    insert k a (insert j b es) = insert j b (insert k a es) := by
  cases hc : compare j k with
  | lt => exact insert_comm_of_lt hc
  | eq => exact absurd (Std.LawfulEqOrd.eq_of_compare hc) h
  | gt => exact (insert_comm_of_lt (Std.OrientedCmp.gt_iff_lt.1 hc)).symm

theorem mem_of_get? [Std.LawfulEqOrd κ] (h : get? k es = some a) : (k, a) ∈ es := by
  induction es with
  | nil => cases h
  | cons e es ih =>
    obtain ⟨k', a'⟩ := e
    cases hc : compare k k' with
    | eq =>
      cases Std.LawfulEqOrd.eq_of_compare hc
      simp_all [get?]
    | lt | gt => exact .tail _ (ih (by simpa [get?, hc] using h))

/-- Insertion brings in no pair but the new one. -/
theorem mem_insert {e : κ × α} (h : e ∈ insert k a es) : e = (k, a) ∨ e ∈ es := by
  induction es with
  | nil => exact Or.inl (by simpa [insert] using h)
  | cons e' es ih =>
    obtain ⟨k', a'⟩ := e'
    cases hc : compare k k' <;> simp_all [insert] <;> grind

/-- A new key brings in one pair. -/
theorem insert_perm [Std.LawfulEqOrd κ] (h : k ∉ es.map (·.1)) :
    (insert k a es).Perm ((k, a) :: es) := by
  induction es with
  | nil => exact .refl _
  | cons e es ih =>
    obtain ⟨k', a'⟩ := e
    have hk : k ≠ k' := List.ne_of_not_mem_cons h
    have hes : k ∉ es.map (·.1) := List.not_mem_of_not_mem_cons h
    cases hc : compare k k' with
    | lt =>
      simp only [insert, hc]
      exact .refl _
    | eq => exact absurd (Std.LawfulEqOrd.eq_of_compare hc) hk
    | gt =>
      simp only [insert, hc]
      exact ((ih hes).cons _).trans (.swap ..)

theorem ofList_perm [Std.LawfulEqOrd κ] {ps : List (κ × α)} (h : (ps.map (·.1)).Nodup) :
    (ofList ps).Perm ps := by
  have hfold : ∀ (ps acc : List (κ × α)), ((acc ++ ps).map (·.1)).Nodup →
      (ps.foldl (fun es p => insert p.1 p.2 es) acc).Perm (acc ++ ps) := by
    intro ps
    induction ps with
    | nil => simp
    | cons p ps ih =>
      intro acc hn
      have hmid : ((p :: (acc ++ ps)).map (·.1)).Nodup :=
        (List.perm_middle.map Prod.fst).nodup hn
      have hp : p.1 ∉ acc.map (·.1) := by
        have hall := (List.nodup_cons.1 hmid).1
        rw [List.map_append, List.mem_append, not_or] at hall
        exact hall.1
      have hins := (insert_perm (a := p.2) hp).append_right ps
      have hn' : ((insert p.1 p.2 acc ++ ps).map (·.1)).Nodup :=
        (hins.map (·.1)).symm.nodup hmid
      exact (ih _ hn').trans (hins.trans List.perm_middle.symm)
  exact hfold ps [] h

/-- What is found is what was put in last. -/
theorem get?_ofList [Std.LawfulEqOrd κ] [Std.OrientedOrd κ] [BEq κ] [LawfulBEq κ]
    {ps : List (κ × α)} : get? k (ofList ps) = ps.reverse.lookup k := by
  have hfold : ∀ (ps acc : List (κ × α)),
      get? k (ps.foldl (fun es p => insert p.1 p.2 es) acc) =
        (ps.reverse.lookup k).or (get? k acc) := by
    intro ps
    induction ps with
    | nil => simp
    | cons p ps ih =>
      intro acc
      obtain ⟨j, b⟩ := p
      rw [List.foldl_cons, ih, List.reverse_cons, List.lookup_append, Option.or_assoc]
      congr 1
      by_cases hk : k = j
      · subst hk
        simp [get?_insert_self]
      · have hb : (k == j) = false := beq_false_of_ne hk
        simp [get?_insert_ne hk, List.lookup_cons, hb]
  exact (hfold ps []).trans Option.or_none

/-! Ascending lists -/

theorem insert_of_forall_lt [Std.OrientedOrd κ] (h : ∀ e ∈ es, compare e.1 k = .lt) :
    insert k a es = es ++ [(k, a)] := by
  induction es with
  | nil => rfl
  | cons e es ih =>
    obtain ⟨k', a'⟩ := e
    have hk : compare k k' = .gt := Std.OrientedCmp.gt_iff_lt.2 (h _ (.head _))
    simp [insert, hk, ih fun e he => h e (.tail _ he)]

/-- Pairs that already ascend stay as they are. -/
theorem ofList_of_ascending [Std.OrientedOrd κ] (h : Ascending es) : ofList es = es := by
  have hfold : ∀ {ps acc : List (κ × α)}, Ascending (acc ++ ps) →
      ps.foldl (fun es p => insert p.1 p.2 es) acc = acc ++ ps := by
    intro ps
    induction ps with
    | nil => simp
    | cons p ps ih =>
      intro acc ha
      have hlt : ∀ e ∈ acc, compare e.1 p.1 = .lt := fun e he =>
        (List.pairwise_append.1 ha).2.2 e he p (.head _)
      rw [List.foldl_cons, insert_of_forall_lt hlt, ih (by simpa using ha)]
      simp
  exact hfold h

/-- No two pairs of an ascending list have one key, so each is found under its own. -/
theorem get?_of_mem [Std.LawfulEqOrd κ] [Std.OrientedOrd κ] (h : Ascending es)
    (hm : (k, a) ∈ es) : get? k es = some a := by
  induction es with
  | nil => cases hm
  | cons e es ih =>
    obtain ⟨hlt, hes⟩ := List.pairwise_cons.1 h
    rcases List.mem_cons.1 hm with rfl | hm
    · simp [get?, Std.ReflOrd.compare_self]
    · have hgt : compare k e.1 = .gt := Std.OrientedCmp.gt_iff_lt.2 (hlt _ hm)
      simp only [get?, hgt]
      exact ih hes hm

theorem mem_iff_get? [Std.LawfulEqOrd κ] [Std.OrientedOrd κ] (h : Ascending es) :
    (k, a) ∈ es ↔ get? k es = some a :=
  ⟨get?_of_mem h, mem_of_get?⟩

/-- Ascending lists in which the same is found are the same. -/
theorem eq_of_get? [Std.LawfulEqOrd κ] [Std.OrientedOrd κ] {fs : List (κ × α)}
    (hes : Ascending es) (hfs : Ascending fs) (h : ∀ k, get? k es = get? k fs) : es = fs := by
  have hnodup : ∀ {ps : List (κ × α)}, Ascending ps → ps.Nodup := by
    refine fun hps => hps.imp fun {p q} hlt hpq => ?_
    rw [hpq, Std.ReflOrd.compare_self] at hlt
    cases hlt
  have hperm : es.Perm fs := by
    refine (List.perm_ext_iff_of_nodup (hnodup hes) (hnodup hfs)).2 fun ⟨k, a⟩ => ?_
    rw [mem_iff_get? hes, mem_iff_get? hfs, h]
  refine hperm.eq_of_pairwise (fun p q _ _ hpq hqp => ?_) hes hfs
  cases hpq.symm.trans (Std.OrientedCmp.gt_iff_lt.2 hqp)

/-- To put in what is there changes nothing. -/
theorem insert_of_get? [Std.LawfulEqOrd κ] [Std.OrientedOrd κ] (h : Ascending es)
    (hk : get? k es = some a) : insert k a es = es := by
  induction es with
  | nil => cases hk
  | cons e es ih =>
    obtain ⟨k', a'⟩ := e
    obtain ⟨hlt, hes⟩ := List.pairwise_cons.1 h
    cases hc : compare k k' with
    | eq =>
      cases Std.LawfulEqOrd.eq_of_compare hc
      have ha : a' = a := by simpa [get?, hc] using hk
      simp [insert, ha]
    | lt =>
      -- the key is smaller than all that are there
      have hm : (k, a) ∈ es := mem_of_get? (by simpa [get?, hc] using hk)
      have hgt : compare k k' = .gt := Std.OrientedCmp.gt_iff_lt.2 (hlt _ hm)
      cases hc.symm.trans hgt
    | gt =>
      have hk : get? k es = some a := by simpa [get?, hc] using hk
      simp [insert, hc, ih hes hk]

/-- A key that was not there brings in one pair, and any other key none. -/
theorem length_insert [Std.LawfulEqOrd κ] [Std.OrientedOrd κ] (h : Ascending es) :
    (insert k a es).length = es.length + if (get? k es).isNone then 1 else 0 := by
  induction es with
  | nil => rfl
  | cons e es ih =>
    obtain ⟨k', a'⟩ := e
    obtain ⟨hlt, hes⟩ := List.pairwise_cons.1 h
    cases hc : compare k k' with
    | eq => simp [insert, get?, hc]
    | gt => simp [insert, get?, hc, ih hes, Nat.add_right_comm]
    | lt =>
      -- the key is smaller than all that are there
      have hnone : get? k es = none := by
        rw [Option.eq_none_iff_forall_ne_some]
        intro b hb
        have hgt : compare k k' = .gt := Std.OrientedCmp.gt_iff_lt.2 (hlt _ (mem_of_get? hb))
        cases hc.symm.trans hgt
      simp [insert, get?, hc, hnone]

theorem ascending_insert [Std.LawfulEqOrd κ] [Std.TransOrd κ] (h : Ascending es) :
    Ascending (insert k a es) := by
  induction es with
  | nil => simp [insert, Ascending]
  | cons e es ih =>
    obtain ⟨k', a'⟩ := e
    obtain ⟨hk', hes⟩ := List.pairwise_cons.1 h
    cases hc : compare k k' with
    | lt =>
      simp only [insert, hc]
      refine List.pairwise_cons.2 ⟨fun e he => ?_, h⟩
      obtain rfl | he := List.mem_cons.1 he
      · exact hc
      · exact Std.TransCmp.lt_trans hc (hk' e he)
    | eq =>
      cases Std.LawfulEqOrd.eq_of_compare hc
      simp only [insert, hc]
      exact List.pairwise_cons.2 ⟨hk', hes⟩
    | gt =>
      simp only [insert, hc]
      refine List.pairwise_cons.2 ⟨fun e he => ?_, ih hes⟩
      obtain rfl | he := mem_insert he
      · exact Std.OrientedCmp.gt_iff_lt.1 hc
      · exact hk' e he

theorem ascending_ofList [Std.LawfulEqOrd κ] [Std.TransOrd κ] {ps : List (κ × α)} :
    Ascending (ofList ps) := by
  have hfold : ∀ {ps acc : List (κ × α)}, Ascending acc →
      Ascending (ps.foldl (fun es p => insert p.1 p.2 es) acc) := by
    intro ps
    induction ps with
    | nil => exact id
    | cons p ps ih => exact fun ha => ih (ascending_insert ha)
  exact hfold List.Pairwise.nil

theorem mem_ofList {ps : List (κ × α)} {e : κ × α} (h : e ∈ ofList ps) : e ∈ ps := by
  have hfold : ∀ {ps acc : List (κ × α)}, e ∈ ps.foldl (fun es p => insert p.1 p.2 es) acc →
      e ∈ acc ∨ e ∈ ps := by
    intro ps
    induction ps with
    | nil => exact Or.inl
    | cons p ps ih =>
      intro acc he
      rcases ih he with he | he
      · rcases mem_insert he with rfl | he
        · exact Or.inr (.head _)
        · exact Or.inl he
      · exact Or.inr (.tail _ he)
  exact (hfold h).resolve_left List.not_mem_nil

/-! Pairs with other keys in the same order -/

section map

variable {κ' β : Type} [Ord κ'] {f : κ → κ'} {g : α → β}

theorem get?_map (hf : ∀ a b, compare (f a) (f b) = compare a b) :
    get? (f k) (es.map (Prod.map f g)) = (get? k es).map g := by
  induction es with
  | nil => rfl
  | cons e es ih =>
    obtain ⟨k', a'⟩ := e
    cases hc : compare k k' <;> simp [get?, hf, hc, ih]

theorem insert_map (hf : ∀ a b, compare (f a) (f b) = compare a b) :
    insert (f k) (g a) (es.map (Prod.map f g)) = (insert k a es).map (Prod.map f g) := by
  induction es with
  | nil => rfl
  | cons e es ih =>
    obtain ⟨k', a'⟩ := e
    cases hc : compare k k' <;> simp [insert, hf, hc, ih]

theorem ascending_map (hf : ∀ a b, compare (f a) (f b) = compare a b) (h : Ascending es) :
    Ascending (es.map (Prod.map f g)) :=
  List.pairwise_map.2 (h.imp fun he => (hf _ _).trans he)

end map

end ObjectGraph.Assoc
