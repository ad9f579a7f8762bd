import ObjectGraph.Document.Print
import ObjectGraph.Proofs.Outcome
import ObjectGraph.Proofs.Walk

/-! Operations carried out change by change. What such a program has changed stays changed where it
fails later on, so that it could leave a write half done. It never does: all that can fail in an
operation comes before its first change. -/
namespace ObjectGraph

/-- What can be asked of a handle. -/
inductive Query where
  | value | ty | kind | get | isValid | isNil | length | isEmpty | document
  deriving DecidableEq, Repr

inductive Answer where
  | handle (h : Handle)
  | value (v : Option Value)
  | ty (t : Ty)
  | kind (k : Kind)
  | flag (b : Bool)
  | count (n : Nat)
  | document (d : Document)
  deriving Repr

/-- What can be done with a handle. -/
inductive Operation where
  | move (m : Move)
  | set (v : Value)
  | write (d : Document)
  | ask (q : Query)
  deriving Repr

namespace Handle

def answer (g : Graph) (h : Handle) : Query → Except DocumentFault Answer
  | .value => .ok (.value (h.value? g))
  | .ty => .ty <$> (h.ty g).mapError .graph
  | .kind => .ok (.kind (h.kind g))
  | .get => (.value ∘ some) <$> (h.get g).mapError .graph
  | .isValid => .ok (.flag (h.isValid g))
  | .isNil => .flag <$> (h.isNil g).mapError .graph
  | .length => .count <$> (h.length g).mapError .graph
  | .isEmpty => .flag <$> (h.isEmpty g).mapError .graph
  | .document => .document <$> h.readDocument g

/-- The answer to an operation, with the graph after it. -/
def outcome (g : Graph) (h : Handle) : Operation → Except DocumentFault (Graph × Answer)
  | .move m => do
    let (g, h) ← (h.move g m).mapError .graph
    return (g, .handle h)
  | .set v => do return (← (h.set g v).mapError .graph, .handle h)
  | .write d => do return (← h.writeDocument g d, .handle h)
  | .ask q => do return (g, ← h.answer g q)

end Handle

/-- A program on a graph. Where it fails, the graph stays as the program has left it. -/
def Act (ε α : Type) := Graph → Except ε α × Graph

namespace Act

variable {ε δ α β : Type} {a : Act ε α} {k : α → Act ε β} {g g' : Graph} {c : CellId} {path : Path}
  {f : Value → Except Fault Value}

def run (a : Act ε α) (g : Graph) : Except ε α × Graph := a g

/-- What follows a failure is not carried out. -/
instance : Monad (Act ε) where
  pure x := fun g => (.ok x, g)
  bind a k := fun g =>
    match a g with
    | (.ok x, g) => k x g
    | (.error e, g) => (.error e, g)

/-- Finds something out, or fails. -/
def find (r : Graph → Except ε α) : Act ε α := fun g => (r g, g)

def change (u : Graph → Graph) : Act ε Unit := fun g => (.ok (), u g)

def newCache : Act ε CacheId := fun g => (.ok g.newCache.2, g.newCache.1)

def mapFault (F : ε → δ) (a : Act ε α) : Act δ α := fun g => ((a g).1.mapError F, (a g).2)

/-! Operations as programs -/

def updateCell (c : CellId) (path : Path) (f : Value → Except Fault Value) : Act Fault Unit := do
  let v ← find fun g => (g.writable c).mapError .unresolved
  let v ← find fun _ => v.change f path
  change (·.put c v)

def storeCell (c : CellId) (path : Path) (v : Value) : Act Fault Unit :=
  updateCell c path.slot (v.overwrite path)

/-- Puts `v` into the map that `update` changes, and after that into the cache. -/
def storeEntry (cache : CacheId) (key : Key) (elem : Ty)
    (update : (Value → Except Fault Value) → Act Fault Unit) (v : Value) : Act Fault Unit := do
  match ← find fun g => .ok (g.cached? cache) with
  | some (.target c path) => storeCell c path v
  | _ =>
    let stored ← find fun _ => v.assignTo elem
    update (Value.insert key stored)
    change (·.setCache cache (.copy v))

/-- Below an entry a copy is changed first, and the maps and caches after it, those nearest to the
cell before the others. -/
def update : Location → (Value → Except Fault Value) → Act Fault Unit
  | .cell c path, f => updateCell c path f
  | .entry host key elem cache path, f => do
    match ← find fun g => g.current cache key (host.read g) with
    | some whole =>
      let whole ← find fun _ => whole.change f path
      storeEntry cache key elem (update host) whole
    | none => find fun _ => .error (.absentEntry key)

def set : Handle → Value → Act Fault Unit
  | .direct p, v => update (p.withPath p.path.slot) (v.overwrite p.path)
  | .entry e, v => storeEntry e.cache e.key e.elem (update e.host) v

def move (h : Handle) : Move → Act Fault Handle
  | .elem =>
    match h with
    | .direct p => do return .direct (← find (p.deref ·))
    | .entry e => do
      let cached ← find (e.below ·)
      let cache ← newCache
      change (·.setCache cache cached)
      return .entry { e with cache }
  | .field name => find (h.field · name)
  | .index i => find (h.index · i)
  | .entry key => do
    let p ← find fun g => .ok (h.location g)
    let elem ← find (p.elemFor · key)
    let cache ← newCache
    return .entry ⟨p, key, elem, cache⟩

def perform (h : Handle) : Operation → Act DocumentFault Answer
  | .move m => do return .handle (← (move h m).mapFault .graph)
  | .set v => do
    (set h v).mapFault .graph
    return .handle h
  | .write d => do
    let t ← find fun g => (h.ty g).mapError .graph
    (set h (d.valueFor t)).mapFault .graph
    return .handle h
  | .ask q => find (h.answer · q)

/-! Programs that change nothing when they fail -/

/-- The result of an operation on `g`, with the graph that it leaves: `g` itself if it failed. -/
def settle (g : Graph) : Except ε (Graph × α) → Except ε α × Graph
  | .ok (g', x) => (.ok x, g')
  | .error e => (.error e, g)

/-- The program does what `r` says, and where `r` fails it leaves the graph as it was. -/
def Settles (a : Act ε α) (r : Graph → Except ε (Graph × α)) : Prop :=
  ∀ g, a.run g = settle g (r g)

theorem run_bind_ok {x : α} (ha : a.run g = (.ok x, g')) : (a >>= k).run g = (k x).run g' := by
  simp only [run, bind] at ha ⊢
  rw [ha]

theorem run_bind_error {e : ε} (ha : a.run g = (.error e, g')) :
    (a >>= k).run g = (.error e, g') := by
  simp only [run, bind] at ha ⊢
  rw [ha]

theorem Settles.congr {r s : Graph → Except ε (Graph × α)} (ha : a.Settles r)
    (h : ∀ g, r g = s g) : a.Settles s :=
  fun g => h g ▸ ha g

theorem settles_find {r : Graph → Except ε α} : (find r).Settles fun g => Prod.mk g <$> r g := by
  intro g
  change (r g, g) = settle g (Prod.mk g <$> r g)
  cases r g <;> rfl

theorem settles_change {u : Graph → Graph} :
    (change u : Act ε Unit).Settles fun g => .ok (u g, ()) :=
  fun _ => rfl

/-- What is found out first does not stand in the way. -/
theorem settles_find_bind {r : Graph → Except ε α} {next : α → Graph → Except ε (Graph × β)}
    (hk : ∀ x, (k x).Settles (next x)) :
    (find r >>= k).Settles fun g => r g >>= fun x => next x g := by
  intro g
  have hr : (find r).run g = (r g, g) := rfl
  dsimp only
  cases hx : r g with
  | ok x =>
    rw [hx] at hr
    rw [run_bind_ok hr]
    exact hk x g
  | error e =>
    rw [hx] at hr
    rw [run_bind_error hr]
    rfl

/-- Nor does what comes at the end, if it cannot fail. -/
theorem Settles.bind {r : Graph → Except ε (Graph × α)} {u : Graph × α → Graph × β}
    (ha : a.Settles r) (hk : ∀ p, (k p.2).run p.1 = (.ok (u p).2, (u p).1)) :
    (a >>= k).Settles fun g => u <$> r g := by
  intro g
  have hr := ha g
  dsimp only
  cases hx : r g with
  | ok p =>
    rw [hx] at hr
    rw [run_bind_ok hr]
    exact hk p
  | error e =>
    rw [hx] at hr
    rw [run_bind_error hr]
    rfl

theorem Settles.mapFault {r : Graph → Except ε (Graph × α)} {F : ε → δ} (ha : a.Settles r) :
    (a.mapFault F).Settles fun g => (r g).mapError F := by
  intro g
  change ((a.run g).1.mapError F, (a.run g).2) = settle g ((r g).mapError F)
  rw [ha g]
  cases r g <;> rfl

/-! The operations are such programs -/

theorem settles_updateCell :
    (updateCell c path f).Settles fun g => (·, ()) <$> g.update c path f := by
  have hs := settles_find_bind (r := fun g => (g.writable c).mapError .unresolved) fun v =>
    settles_find_bind (r := fun _ => v.change f path) fun w => settles_change (u := (·.put c w))
  refine hs.congr fun g => ?_
  simp only [Graph.update, map_bind, map_pure]
  rfl

theorem settles_storeEntry (cache : CacheId) (key : Key) (elem : Ty) (v : Value)
    {update : (Value → Except Fault Value) → Act Fault Unit}
    {updated : Graph → (Value → Except Fault Value) → Except Fault Graph}
    (hu : ∀ f, (update f).Settles fun g => (·, ()) <$> updated g f) :
    (storeEntry cache key elem update v).Settles fun g =>
      (·, ()) <$> g.storeEntry cache key elem (updated g) v := by
  -- the cache comes last, when the map has been changed
  have hput := settles_find_bind (r := fun _ => v.assignTo elem) fun stored =>
    (hu (Value.insert key stored)).bind (k := fun _ => change (·.setCache cache (.copy v)))
      (u := fun p => (p.1.setCache cache (.copy v), ())) fun p => rfl
  intro g
  have hc : (find fun g => .ok (g.cached? cache) : Act Fault _).run g =
      (.ok (g.cached? cache), g) :=
    rfl
  have hcopy := (hput g).trans (congrArg (settle g)
    (show _ = (·, ()) <$> (do
      let stored ← v.assignTo elem
      return (← updated g (Value.insert key stored)).setCache cache (.copy v)) by
      simp only [map_eq_pure_bind, bind_assoc, pure_bind]))
  rw [storeEntry, run_bind_ok hc]
  simp only [Graph.storeEntry]
  cases g.cached? cache with
  | none => exact hcopy
  | some cached =>
    cases cached with
    | copy _ => exact hcopy
    | target c path => exact settles_updateCell g

theorem settles_update (p : Location) :
    (update p f).Settles fun g => (·, ()) <$> p.update g f := by
  induction p generalizing f with
  | cell c path => exact settles_updateCell
  | entry host key elem cache path ih =>
    intro g
    have hc : (find fun g => g.current cache key (host.read g)).run g =
      (g.current cache key (host.read g), g) := rfl
    simp only [update, Location.update]
    cases hw : g.current cache key (host.read g) with
    | error e =>
      rw [hw] at hc
      exact run_bind_error hc
    | ok current =>
      rw [hw] at hc
      rw [run_bind_ok hc]
      cases current with
      | none => rfl
      | some whole =>
        have hput := settles_find_bind (r := fun _ => whole.change f path) fun v =>
          settles_storeEntry cache key elem v fun f => ih (f := f)
        refine (hput g).trans (congrArg (settle g) ?_)
        simp only [ok_bind, map_bind]

theorem settles_set (h : Handle) (v : Value) :
    (set h v).Settles fun g => (·, ()) <$> h.set g v := by
  cases h with
  | direct p => exact settles_update (p.withPath p.path.slot)
  | entry e => exact settles_storeEntry e.cache e.key e.elem v fun f => settles_update e.host

theorem settles_move (h : Handle) (m : Move) : (move h m).Settles fun g => h.move g m := by
  cases m with
  | elem =>
    cases h with
    | direct p =>
      have hs := (settles_find (r := fun g => p.deref g)).bind
        (k := fun q => (pure (.direct q) : Act Fault Handle)) (u := fun r => (r.1, .direct r.2))
        fun _ => rfl
      refine hs.congr fun g => ?_
      simp only [map_eq_pure_bind, bind_assoc, pure_bind]
      rfl
    | entry e =>
      have hs := (settles_find (r := fun g => e.below g)).bind
        (k := fun cached => (do
          let cache ← newCache
          change (·.setCache cache cached)
          return .entry { e with cache } : Act Fault Handle))
        (u := fun r => (r.1.newCache.1.setCache r.1.newCache.2 r.2,
          .entry { e with cache := r.1.newCache.2 })) fun _ => rfl
      refine hs.congr fun g => ?_
      simp only [Handle.move, Handle.elem, Entry.deref, map_eq_pure_bind, bind_assoc, pure_bind]
  | field name =>
    refine settles_find.congr fun g => ?_
    simp only [Handle.move, map_eq_pure_bind]
  | index i =>
    refine settles_find.congr fun g => ?_
    simp only [Handle.move, map_eq_pure_bind]
  | entry key =>
    have hs := settles_find_bind (r := fun g => .ok (h.location g)) fun p =>
      (settles_find (r := fun g => p.elemFor g key)).bind
        (k := fun elem => (do
          let cache ← newCache
          return .entry ⟨p, key, elem, cache⟩ : Act Fault Handle))
        (u := fun r => (r.1.newCache.1, .entry ⟨p, key, r.2, r.1.newCache.2⟩)) fun _ => rfl
    refine hs.congr fun g => ?_
    simp only [Handle.move, Handle.entryAt, ok_bind, map_eq_pure_bind, bind_assoc, pure_bind]

theorem settles_perform (h : Handle) (op : Operation) :
    (perform h op).Settles fun g => h.outcome g op := by
  have hset : ∀ v, ((set h v).mapFault .graph >>= fun _ =>
      (pure (.handle h) : Act DocumentFault Answer)).Settles fun g =>
        (·, .handle h) <$> (h.set g v).mapError .graph := by
    intro v
    have hs := ((settles_set h v).mapFault (F := .graph)).bind
      (k := fun _ => (pure (.handle h) : Act DocumentFault Answer)) (u := fun r => (r.1, .handle h))
      fun _ => rfl
    refine hs.congr fun g => ?_
    cases h.set g v <;> rfl
  cases op with
  | move m =>
    have hs := ((settles_move h m).mapFault (F := .graph)).bind
      (k := fun h => (pure (.handle h) : Act DocumentFault Answer))
      (u := fun r => (r.1, .handle r.2))
      fun _ => rfl
    refine hs.congr fun g => ?_
    simp only [Handle.outcome, map_eq_pure_bind]
  | set v =>
    refine (hset v).congr fun g => ?_
    simp only [Handle.outcome, map_eq_pure_bind]
  | write d =>
    refine (settles_find_bind fun t => hset (d.valueFor t)).congr fun g => ?_
    simp only [Handle.outcome, Handle.writeDocument, map_eq_pure_bind, bind_assoc]
  | ask q =>
    refine settles_find.congr fun g => ?_
    simp only [Handle.outcome, map_eq_pure_bind]

end Act

/-- An operation that fails, be it a read, a step or a write below any number of entries, leaves the
cells, the caches and all else as they were, and each later answer with them. One that succeeds
leaves what the operation is defined to give. -/
theorem graph_eq_of_failed (g : Graph) (h : Handle) (op : Operation) :
    (∀ e g', (Act.perform h op).run g = (.error e, g') ↔ h.outcome g op = .error e ∧ g' = g) ∧
    ∀ a g', (Act.perform h op).run g = (.ok a, g') ↔ h.outcome g op = .ok (g', a) := by
  have hr : (Act.perform h op).run g = Act.settle g (h.outcome g op) := Act.settles_perform h op g
  rw [hr]
  cases h.outcome g op with
  | ok r =>
    obtain ⟨g₁, b⟩ := r
    constructor
    · intro e g'
      simp [Act.settle]
    · intro a g'
      simp [Act.settle, and_comm]
  | error x =>
    constructor
    · intro e g'
      simp [Act.settle, eq_comm]
    · intro a g'
      simp [Act.settle]

end ObjectGraph
