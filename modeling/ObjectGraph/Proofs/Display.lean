import Mathlib.Logic.Relation
import ObjectGraph.Proofs.Typing
import ObjectGraph.Value.Display

/-! The text of a value, written piece by piece with a record of the cells that are read for it. One
pointer at most is followed, and every other one is written as an address, so the writing comes to
an end in every graph. -/
namespace ObjectGraph

/-- A piece of a text. -/
inductive Piece where
  | chars (s : String)
  | address (c : CellId)
  deriving Repr

/-- What is still to be written: a piece, or a value, of which a pointer at the top is followed or
not. -/
inductive Task where
  | piece (p : Piece)
  | value (follow : Bool) (v : Value)
  deriving Repr

/-- A text that is being written, with the cells that were read for it. -/
structure Writing where
  todo : List Task
  written : List Piece
  read : List CellId
  deriving Repr

namespace Piece

def text (name : CellId → String) : Piece → String
  | chars s => s
  | address c => name c

def cell? : Piece → Option CellId
  | chars _ => none
  | address c => some c

end Piece

namespace Value

/-- What is written for a value, unless it is a pointer that is followed. Only through the box of an
interface a pointer may still be at the top. -/
def tasks (follow : Bool) : Value → List Task
  | bool b => [.piece (.chars (if b then "true" else "false"))]
  | int i => [.piece (.chars i.toInt.repr)]
  | float x => [.piece (.chars x.text)]
  | string s => [.piece (.chars s)]
  | struct _ fields => .piece (.chars "\x7b") ::
    [.piece (.chars " ")].intercalate (fields.map fun v => [.value false v]) ++
      [.piece (.chars "\x7d")]
  | nilMap .. => [.piece (.chars "map["), .piece (.chars "]")]
  | map _ _ entries => .piece (.chars "map[") ::
    [.piece (.chars " ")].intercalate (entries.map fun e =>
      [.piece (.chars (e.1.text ++ ":")), .value false e.2]) ++ [.piece (.chars "]")]
  | nilSlice _ => [.piece (.chars "["), .piece (.chars "]")]
  | slice _ items => .piece (.chars "[") ::
    [.piece (.chars " ")].intercalate (items.map fun v => [.value false v]) ++
      [.piece (.chars "]")]
  | nilPointer _ | nilAny => [.piece (.chars "<nil>")]
  | pointer _ c => [.piece (.address c)]
  | boxed v => [.value follow v]

/-- The cell of a pointer, which may be in interfaces. -/
def outermost? : Value → Option CellId
  | pointer _ c => some c
  | boxed v => v.outermost?
  | _ => none

/-- The cell that a pointer names. -/
def cell? : Value → Option CellId
  | pointer _ c => some c
  | _ => none

/-- The cells that pointers at any depth name, in the order of the pointers. -/
def pointers (v : Value) : List CellId :=
  v.cell?.toList ++ v.inside.attach.flatMap fun w => pointers w.1
  termination_by sizeOf v
  decreasing_by exact sizeOf_lt_of_mem_inside w.2

/-- What there is to see of a value: the target of an outermost pointer, if it can be read. -/
def shown (g : Graph) (v : Value) : Value :=
  match v.outermost? with
  | some c =>
    match g.readable c with
    | .ok target => target
    | .error _ => v
  | none => v

theorem pointers_eq {v : Value} : v.pointers = v.cell?.toList ++ v.inside.flatMap pointers := by
  rw [pointers]
  simp

end Value

namespace Writing

/-- One step of the writing; none is left when nothing is to be written. -/
def step (g : Graph) : Writing → Option Writing
  | ⟨[], _, _⟩ => none
  | ⟨.piece p :: todo, written, read⟩ => some ⟨todo, written ++ [p], read⟩
  | ⟨.value true (.pointer _ c) :: todo, written, read⟩ =>
    match g.readable c with
    | .ok v => some ⟨.piece (.chars "&") :: .value false v :: todo, written, read ++ [c]⟩
    | .error _ => some ⟨.piece (.address c) :: todo, written, read ++ [c]⟩
  | ⟨.value follow v :: todo, written, read⟩ => some ⟨v.tasks follow ++ todo, written, read⟩

/-- The writing of a value that stands alone. -/
def start (v : Value) : Writing := ⟨[.value true v], [], []⟩

/-- One writing comes after the other. -/
def Runs (g : Graph) : Writing → Writing → Prop :=
  Relation.ReflTransGen fun w w' => w.step g = some w'

end Writing

/-- The tasks write `text`, in which the pointers to `cells` are addresses, and for that they have
`read` read. What is to be written after them does not matter. -/
def Spells (g : Graph) (tasks : List Task) (text : (CellId → String) → String)
    (cells read : List CellId) : Prop :=
  ∃ ps, (∀ todo written before, Writing.Runs g ⟨tasks ++ todo, written, before⟩
      ⟨todo, written ++ ps, before ++ read⟩) ∧
    (∀ address, String.join (ps.map (Piece.text address)) = text address) ∧
    ps.filterMap Piece.cell? = cells

variable {g : Graph} {c : CellId} {v : Value} {s : String} {ts us : List Task}
  {text text' : (CellId → String) → String} {cells cells' read read' : List CellId}

namespace Spells

theorem append (h : Spells g ts text cells read) (h' : Spells g us text' cells' read') :
    Spells g (ts ++ us) (fun a => text a ++ text' a) (cells ++ cells') (read ++ read') := by
  obtain ⟨ps, hruns, htext, hcells⟩ := h
  obtain ⟨qs, hruns', htext', hcells'⟩ := h'
  refine ⟨ps ++ qs, ?_, ?_, ?_⟩
  · intro todo written before
    have hfirst := hruns (us ++ todo) written before
    have hthen := hruns' todo (written ++ ps) (before ++ read)
    simp only [List.append_assoc] at hfirst hthen ⊢
    exact hfirst.trans hthen
  · intro address
    rw [List.map_append, String.join_append, htext, htext']
  · rw [List.filterMap_append, hcells, hcells']

theorem nil : Spells g [] (fun _ => "") [] [] :=
  ⟨[], fun _ _ _ => by simp only [List.append_nil, List.nil_append]; exact .refl, fun _ => rfl, rfl⟩

theorem chars (s : String) : Spells g [.piece (.chars s)] (fun _ => s) [] [] :=
  ⟨[.chars s], fun _ _ _ => by rw [List.append_nil]; exact .single rfl,
    fun _ => by simp [Piece.text, String.join], rfl⟩

theorem address : Spells g [.piece (.address c)] (fun a => a c) [c] [] :=
  ⟨[.address c], fun _ _ _ => by rw [List.append_nil]; exact .single rfl,
    fun _ => by simp [Piece.text, String.join], rfl⟩

/-- What a step puts in the place of the tasks is written after it. -/
theorem of_step (us : List Task) (read : List CellId)
    (hs : ∀ todo written before, Writing.step g ⟨ts ++ todo, written, before⟩ =
      some ⟨us ++ todo, written, before ++ read⟩) (h : Spells g us text cells read') :
    Spells g ts text cells (read ++ read') := by
  obtain ⟨ps, hruns, hps⟩ := h
  refine ⟨ps, fun todo written before => .head (hs todo written before) ?_, hps⟩
  rw [← List.append_assoc]
  exact hruns todo written (before ++ read)

/-- A value that is no followed pointer is written by its tasks. -/
theorem value {follow : Bool} (hf : follow = false ∨ v.cell? = none)
    (h : Spells g (v.tasks follow) text cells read) :
    Spells g [.value follow v] text cells read := by
  refine of_step (v.tasks follow) [] (fun todo written before => ?_) h
  rw [List.append_nil]
  cases follow with
  | false => cases v <;> rfl
  | true => cases v <;> first | rfl | simp [Value.cell?] at hf

section
variable {α : Type} {xs : List α} {tasks : α → List Task} {text : α → (CellId → String) → String}
  {cells : α → List CellId}

/-- Members are written one after the other, with a blank between them. -/
theorem separated (h : ∀ x ∈ xs, Spells g (tasks x) (text x) (cells x) []) :
    Spells g ([.piece (.chars " ")].intercalate (xs.map tasks))
      (fun a => " ".intercalate (xs.map (text · a))) (xs.flatMap cells) [] := by
  induction xs with
  | nil => exact nil
  | cons x xs ih =>
    obtain ⟨hx, hxs⟩ := List.forall_mem_cons.1 h
    cases xs with
    | nil => simpa using hx
    | cons y xs =>
      have hrest := (hx.append (chars " ")).append (ih hxs)
      simp only [List.append_nil] at hrest
      simpa only [List.map_cons, List.intercalate_cons_cons, String.intercalate_cons_cons,
        List.flatMap_cons] using hrest

theorem bracketed (opening closing : String)
    (h : ∀ x ∈ xs, Spells g (tasks x) (text x) (cells x) []) :
    Spells g (.piece (.chars opening) :: [.piece (.chars " ")].intercalate (xs.map tasks) ++
        [.piece (.chars closing)])
      (fun a => opening ++ " ".intercalate (xs.map (text · a)) ++ closing)
      (xs.flatMap cells) [] := by
  have hall := ((chars opening).append (separated h)).append (chars closing)
  simpa only [List.cons_append, List.nil_append, List.append_nil] using hall

end

end Spells

namespace Value

theorem nestedTexts_eq_map {address : CellId → String} {vs : List Value} :
    nestedTexts address vs = vs.map (nestedText address) := by
  induction vs with
  | nil => rfl
  | cons v vs ih => rw [nestedTexts, ih, List.map_cons]

theorem entryTexts_eq_map {address : CellId → String} {es : List (Key × Value)} :
    entryTexts address es = es.map fun e => e.1.text ++ ":" ++ e.2.nestedText address := by
  induction es with
  | nil => rfl
  | cons e es ih => rw [entryTexts, ih, List.map_cons]

/-- Inside another value no pointer is followed. -/
theorem spells_tasks (v : Value) :
    Spells g (v.tasks false) (fun a => v.nestedText a) v.pointers [] := by
  induction v using inside_induction with
  | step v ih =>
    have ih : ∀ w ∈ v.inside, Spells g [.value false w] (fun a => w.nestedText a) w.pointers [] :=
      fun w hw => .value (Or.inl rfl) (ih w hw)
    rw [pointers_eq]
    cases v with
    | struct layout fields =>
      simp only [nestedText, nestedTexts_eq_map]
      exact .bracketed "\x7b" "\x7d" ih
    | map key elem entries =>
      simp only [nestedText, entryTexts_eq_map, inside, List.flatMap_map]
      refine .bracketed "map[" "]" fun e he => ?_
      exact (Spells.chars (e.1.text ++ ":")).append (ih e.2 (List.mem_map_of_mem he))
    | slice elem items =>
      simp only [nestedText, nestedTexts_eq_map]
      exact .bracketed "[" "]" ih
    | boxed w => simpa [tasks, nestedText, inside, cell?] using ih w (.head _)
    | pointer target c => exact .address
    | nilMap key elem => exact (Spells.chars "map[").append (.chars "]")
    | nilSlice elem => exact (Spells.chars "[").append (.chars "]")
    | _ => exact .chars _

theorem pointers_shown_boxed : ((boxed v).shown g).pointers = (v.shown g).pointers := by
  have hboxed : (boxed v).pointers = v.pointers := by
    rw [pointers_eq]
    simp [cell?, inside]
  simp only [shown, outermost?]
  cases v.outermost? with
  | none => exact hboxed
  | some c => cases hr : g.readable c <;> simp only [hr, hboxed]

/-- An outermost pointer is followed. In what it leads to none is, so this is the only cell that is
read. -/
theorem spells_text (v : Value) : Spells g [.value true v] (fun a => v.text g a)
    (v.shown g).pointers v.outermost?.toList := by
  induction v using inside_induction with
  | step v ih =>
    have hv := spells_tasks (g := g) v
    cases v with
    | pointer target c =>
      have hstep : ∀ todo written before,
          Writing.step g ⟨[.value true (pointer target c)] ++ todo, written, before⟩ =
            match g.readable c with
            | .ok v => some ⟨.piece (.chars "&") :: .value false v :: todo, written, before ++ [c]⟩
            | .error _ => some ⟨.piece (.address c) :: todo, written, before ++ [c]⟩ :=
        fun _ _ _ => rfl
      cases hr : g.readable c with
      | ok w =>
        have hw := (Spells.chars "&").append (.value (Or.inl rfl) (spells_tasks (g := g) w))
        simp only [text, shown, outermost?, hr]
        exact .of_step [.piece (.chars "&"), .value false w] [c]
          (fun todo written before => by rw [hstep, hr]; rfl) hw
      | error x =>
        simp only [text, shown, outermost?, hr]
        exact .of_step [.piece (.address c)] [c]
          (fun todo written before => by rw [hstep, hr]; rfl) hv
    | boxed w =>
      rw [pointers_shown_boxed]
      exact .value (Or.inr rfl) (ih w (.head _))
    | _ => exact .value (Or.inr rfl) hv

/-- In graphs where the cell of an outermost pointer reads the same, a value has the same text. -/
theorem text_congr {g' : Graph} {address : CellId → String}
    (h : ∀ c, v.outermost? = some c → g'.readable c = g.readable c) :
    v.text g' address = v.text g address := by
  induction v using inside_induction with
  | step v ih =>
    cases v with
    | pointer target c => simp only [text, h c rfl]
    | boxed w => exact ih w (.head _) h
    | _ => rfl

end Value

namespace Writing

/-- A writing that comes to an end does so from wherever it has come. -/
theorem Runs.total {w w₁ w₂ : Writing} (h : Runs g w w₁) (hend : w₁.todo = []) (h' : Runs g w w₂) :
    Runs g w₂ w₁ := by
  have hunique : Relator.RightUnique fun w w' => step g w = some w' :=
    fun _ _ _ h h' => Option.some.inj (h.symm.trans h')
  rcases Relation.ReflTransGen.total_of_right_unique hunique h h' with h | h
  · rcases Relation.ReflTransGen.cases_head h with rfl | ⟨w, hw, _⟩
    · exact .refl
    · obtain ⟨todo, written, read⟩ := w₁
      cases hend
      cases hw
  · exact h

end Writing

/-- The writing of a value comes to an end in every graph, whatever cycles there are in it. The only
cell that it reads is that of an outermost pointer, it writes all other pointers as addresses, and
two graphs in which that cell reads the same give the same text. -/
theorem text_follows_one (g : Graph) (v : Value) :
    (∃ ps, Writing.Runs g (.start v) ⟨[], ps, v.outermost?.toList⟩ ∧
      (∀ w, Writing.Runs g (.start v) w → Writing.Runs g w ⟨[], ps, v.outermost?.toList⟩) ∧
      (∀ address, String.join (ps.map (Piece.text address)) = v.text g address) ∧
      ps.filterMap Piece.cell? = (v.shown g).pointers) ∧
    ∀ g' : Graph, (∀ c, v.outermost? = some c → g'.readable c = g.readable c) →
      ∀ address, v.text g' address = v.text g address := by
  obtain ⟨ps, hruns, htext, hcells⟩ := v.spells_text (g := g)
  have hrun : Writing.Runs g (.start v) ⟨[], ps, v.outermost?.toList⟩ := by
    simpa [Writing.start] using hruns [] [] []
  exact ⟨⟨ps, hrun, fun w hw => hrun.total rfl hw, htext, hcells⟩,
    fun g' h address => Value.text_congr h⟩

/-- A list that holds a pointer to its own cell. -/
def knot : Graph where
  cells := #[.slice .any [.boxed (.pointer (.slice .any) ⟨0⟩)]]
  caches := []
  nextCache := 0
  holds := []

/-- From the pointer the list is read once, and the pointer in it is written as an address. -/
theorem text_follows_one_knot : ∃ ps,
    Writing.Runs knot (.start (.boxed (.pointer (.slice .any) ⟨0⟩))) ⟨[], ps, [⟨0⟩]⟩ ∧
    ps.filterMap Piece.cell? = [⟨0⟩] ∧
    String.join (ps.map (Piece.text fun c => "@" ++ c.index.repr)) = "&[@0]" := by
  obtain ⟨⟨ps, hruns, -, htext, hcells⟩, -⟩ :=
    text_follows_one knot (.boxed (.pointer (.slice .any) ⟨0⟩))
  have hpointers : (Value.slice .any [.boxed (.pointer (.slice .any) ⟨0⟩)]).pointers = [⟨0⟩] := by
    simp [Value.pointers_eq, Value.cell?, Value.inside]
  exact ⟨ps, hruns, hcells.trans hpointers, htext _⟩

end ObjectGraph
