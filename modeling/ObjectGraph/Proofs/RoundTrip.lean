import ObjectGraph.Proofs.Documents
import ObjectGraph.Proofs.Outcome

/-! Documents that are loaded and printed again. Nothing but what a document holds decides whether
it comes back as it was. -/
namespace ObjectGraph.Document

variable {d : Document} {members printed : List (String × Document)} {es : List (Key × Value)}
  {follow : CellId → Except DocumentFault Document}

/-- The names of the members that are printed are the texts of the keys. -/
theorem names_of_membersBy (h : Value.membersBy follow es = .ok printed) :
    printed.map (·.1) = es.map (·.1.text) := by
  induction es generalizing printed with
  | nil =>
    cases h
    rfl
  | cons e es ih =>
    obtain ⟨k, v⟩ := e
    obtain ⟨d, _, h⟩ := bind_eq_ok.1 h
    obtain ⟨ds, hds, h⟩ := bind_eq_ok.1 h
    cases h
    simp [ih hds, Key.memberName_eq]

theorem ascending_iff_names {α : Type} {ms : List (String × α)} :
    Assoc.Ascending ms ↔ (ms.map (·.1)).Pairwise (compare · · = .lt) := by
  simp [Assoc.Ascending, List.pairwise_map]

/-- Only members that ascend can be printed as they were, as the members of an object that is
printed ascend. -/
theorem membersBy_of_documentBy
    (h : (object members).value.documentBy follow = .ok (object members)) :
    Assoc.Ascending members ∧ Value.membersBy follow (entries members) = .ok members := by
  rw [value, Value.documentBy, boxedMembers_eq] at h
  obtain ⟨printed, hp, h⟩ := bind_eq_ok.1 h
  have hm : Assoc.ofList printed = members := Document.object.inj (Except.ok.inj h)
  have ha : Assoc.Ascending members := hm ▸ Assoc.ascending_ofList
  have he : Assoc.ofList (entries members) = entries members :=
    Assoc.ofList_of_ascending (Assoc.ascending_map (fun _ _ => compare_string) ha)
  rw [he] at hp
  have hnames : printed.map (·.1) = members.map (·.1) := by
    rw [names_of_membersBy hp, entries, List.map_map]
    rfl
  have hpa : Assoc.Ascending printed := by
    rw [ascending_iff_names, hnames, ← ascending_iff_names]
    exact ha
  rw [Assoc.ofList_of_ascending hpa] at hm
  exact ⟨ha, hm ▸ hp⟩

mutual
theorem standard_of_documentBy : (d : Document) → d.value.documentBy follow = .ok d → d.Standard
  | null, _ => .null
  | bool _, _ => .bool
  | int i, h => by
    cases hi : asInt64? i with
    | some n => exact asInt64?_eq_some.1 hi ▸ standard_int n
    | none =>
      rw [value, hi, Value.documentBy, ofFloat] at h
      split at h <;> cases h
  | float x, h => by
    rw [value, Value.documentBy, ofFloat] at h
    split at h
    · exact .float ‹_›
    · cases h
  | string _, _ => .string
  | array items, h => by
    rw [value, Value.documentBy] at h
    obtain ⟨ds, hds, h⟩ := bind_eq_ok.1 h
    cases h
    exact .array (standard_of_documentsBy items hds)
  | object members, h => by
    obtain ⟨ha, hm⟩ := membersBy_of_documentBy h
    rw [← boxedMembers_eq] at hm
    exact .object ha (standard_of_membersBy members hm)

theorem standard_of_documentsBy : (ds : List Document) →
    Value.documentsBy follow (boxedValues ds) = .ok ds → ∀ d ∈ ds, d.Standard
  | [], _ => by simp
  | d :: ds, h => by
    rw [boxedValues, Value.documentsBy, documentBy_box] at h
    obtain ⟨c, hc, h⟩ := bind_eq_ok.1 h
    obtain ⟨cs, hcs, h⟩ := bind_eq_ok.1 h
    cases h
    exact List.forall_mem_cons.2 ⟨standard_of_documentBy d hc, standard_of_documentsBy ds hcs⟩

theorem standard_of_membersBy : (ms : List (String × Document)) →
    Value.membersBy follow (boxedMembers ms) = .ok ms → ∀ e ∈ ms, e.2.Standard
  | [], _ => by simp
  | (name, d) :: ms, h => by
    rw [boxedMembers, Value.membersBy, documentBy_box] at h
    obtain ⟨c, hc, h⟩ := bind_eq_ok.1 h
    obtain ⟨cs, hcs, h⟩ := bind_eq_ok.1 h
    cases h
    exact List.forall_mem_cons.2 ⟨standard_of_documentBy d hc, standard_of_membersBy ms hcs⟩
end

/-- In any graph a document that is loaded prints as itself just when its integers have 64 bits, its
floats are finite, and the members of its objects ascend, at every depth. -/
theorem document_value_iff (g : Graph) : d.value.document g = .ok d ↔ d.Standard :=
  ⟨standard_of_documentBy d, documentBy_value⟩

end ObjectGraph.Document
