import ObjectGraph.Proofs.Chains

/-! Graphs whose caches may lead to any location. Nothing keeps such caches from leading in a
circle, so an operation is given a number of levels, and each map of an entry and each target of a
pointer that it comes to takes one. On the caches of a graph it comes to what it comes to there, in
as many levels as the handle has maps around it. -/
namespace ObjectGraph

/-- What a cache has in it, if a pointer may lead anywhere. -/
inductive Link where
  | copy (v : Value)
  | target (p : Location)

/-- In a graph pointers lead to cells. -/
def Link.of : Cached → Link
  | .copy v => .copy v
  | .target c path => .target (.cell c path)

/-- Cells, whose graph has no caches of its own, and caches that may lead to any location. -/
structure Linked where
  ground : Graph
  links : List (Nat × Link)

/-- Why there is no result: a fault, or too few levels. -/
inductive Halt where
  | fault (f : Fault)
  | deep

/-! What a step finds in the value of a location -/

namespace Location

/-- How many maps the location is in, each in an entry of the next. -/
def nesting : Location → Nat
  | cell _ _ => 0
  | entry host _ _ _ _ => host.nesting + 1

/-- What is below the location, if `v` is its value. -/
def derefTo (p : Location) (v : Value) : Except Fault Location :=
  match v with
  | .pointer _ c => .ok (cell c [])
  | .boxed _ => .ok (p.step .unbox)
  | .nilPointer _ => .error (.nilDereference .pointer)
  | .nilAny => .error (.nilDereference .interface)
  | v => .error (.kindMismatch .elem v.kind)

def fieldTo (p : Location) (name : String) (v : Value) : Except Fault Location :=
  match v with
  | .struct layout _ =>
    match layout.fieldIndex? name with
    | some i => .ok (p.step (.field i))
    | none => .error (.noSuchField layout.ty name)
  | v => .error (.kindMismatch .field v.kind)

def indexTo (p : Location) (i : Nat) (v : Value) : Except Fault Location :=
  match v with
  | .nilSlice _ => .error (.indexOutOfRange i 0)
  | .slice _ items =>
    if i < items.length then .ok (p.step (.index i)) else .error (.indexOutOfRange i items.length)
  | v => .error (.kindMismatch .index v.kind)

end Location

/-- The element type of a map that is keyed as `key` is. -/
def Value.elemFor (key : Key) (v : Value) : Except Fault Ty :=
  match v with
  | .nilMap k elem | .map k elem _ =>
    if key.ty = k then .ok elem else .error (.notAssignable key.ty.ty k.ty)
  | v => .error (.kindMismatch .entry v.kind)

/-- How many maps the handle is in, that of its own entry among them. -/
def Handle.nesting : Handle → Nat
  | direct p => p.nesting
  | entry e => e.host.nesting + 1

namespace Linked

def link? (s : Linked) (i : CacheId) : Option Link := Assoc.get? i.index s.links

def setLink (s : Linked) (i : CacheId) (l : Link) : Linked :=
  { s with links := Assoc.insert i.index l s.links }

/-! Locations. Hosts and targets are come to by `visit` and `revise`, one level further in. -/

/-- The value of an entry. -/
def current (s : Linked) (visit : Location → Except Halt Value) (e : Entry) :
    Except Halt (Option Value) :=
  match s.link? e.cache with
  | some (.copy v) => .ok (some v)
  | some (.target p) => some <$> visit p
  | none => do ((← visit e.host).lookup e.key).mapError .fault

def readVia (s : Linked) (visit : Location → Except Halt Value) : Location → Except Halt Value
  | .cell c path => (s.ground.load c path).mapError .fault
  | .entry host key elem cache path => do
    match ← s.current visit ⟨host, key, elem, cache⟩ with
    | some whole => (whole.resolve path).mapError .fault
    | none => .error (.fault (.absentEntry key))

/-- The value at a location, read in no more than `n` levels, the location's own among them. -/
def visit (s : Linked) : Nat → Location → Except Halt Value
  | 0 => fun _ => .error .deep
  | n + 1 => s.readVia (s.visit n)

/-- Writes to an entry: past a pointer to its target, else into the map and the cache. -/
def storeVia (s : Linked)
    (revise : Location → (Value → Except Fault Value) → Except Halt Linked) (e : Entry)
    (v : Value) : Except Halt Linked :=
  match s.link? e.cache with
  | some (.target p) => revise (p.withPath p.path.slot) (v.overwrite p.path)
  | _ => do
    let stored ← (v.assignTo e.elem).mapError .fault
    return (← revise e.host (Value.insert e.key stored)).setLink e.cache (.copy v)

def updateVia (s : Linked) (visit : Location → Except Halt Value)
    (revise : Location → (Value → Except Fault Value) → Except Halt Linked) (p : Location)
    (f : Value → Except Fault Value) : Except Halt Linked :=
  match p with
  | .cell c path => do return { s with ground := ← (s.ground.update c path f).mapError .fault }
  | .entry host key elem cache path => do
    let e : Entry := ⟨host, key, elem, cache⟩
    match ← s.current visit e with
    | some whole => s.storeVia revise e (← (whole.change f path).mapError .fault)
    | none => .error (.fault (.absentEntry key))

/-- Changes the value at a location in no more than `n` levels, the location's own among them. -/
def revise (s : Linked) : Nat → Location → (Value → Except Fault Value) → Except Halt Linked
  | 0 => fun _ _ => .error .deep
  | n + 1 => s.updateVia (s.visit n) (s.revise n)

/-! Handles, in no more than `n` levels below their own -/

def location (s : Linked) : Handle → Location
  | .direct p => p
  | .entry e =>
    match s.link? e.cache with
    | some (.target p) => p
    | _ => .entry e.host e.key e.elem e.cache []

def read (s : Linked) (n : Nat) : Handle → Except Halt (Option Value)
  | .direct p => some <$> s.visit (n + 1) p
  | .entry e => s.current (s.visit n) e

def set (s : Linked) (n : Nat) (h : Handle) (v : Value) : Except Halt Linked :=
  match h with
  | .direct p => s.revise (n + 1) (p.withPath p.path.slot) (v.overwrite p.path)
  | .entry e => s.storeVia (s.revise n) e v

def newCache (s : Linked) : Linked × CacheId :=
  ({ s with ground := s.ground.newCache.1 }, s.ground.newCache.2)

/-- What is one level below the entry's value. -/
def below (s : Linked) (n : Nat) (e : Entry) : Except Halt Link :=
  match s.link? e.cache with
  | some (.target p) => do return .target (← (p.derefTo (← s.visit n p)).mapError .fault)
  | _ => do
    match ← s.current (s.visit n) e with
    | some v => (Link.of <$> Entry.follow v).mapError .fault
    | none => .error (.fault (.absentEntry e.key))

def move (s : Linked) (n : Nat) (h : Handle) : Move → Except Halt (Linked × Handle)
  | .elem =>
    match h with
    | .direct p => do return (s, .direct (← (p.derefTo (← s.visit (n + 1) p)).mapError .fault))
    | .entry e => do
      let link ← s.below n e
      let (s, cache) := s.newCache
      return (s.setLink cache link, .entry { e with cache })
  | .field name => do
    let p := s.location h
    return (s, .direct (← (p.fieldTo name (← s.visit (n + 1) p)).mapError .fault))
  | .index i => do
    let p := s.location h
    return (s, .direct (← (p.indexTo i (← s.visit (n + 1) p)).mapError .fault))
  | .entry key => do
    let p := s.location h
    let elem ← ((← s.visit (n + 1) p).elemFor key).mapError .fault
    let (s, cache) := s.newCache
    return (s, .entry ⟨p, key, elem, cache⟩)

/-! A circle -/

/-- No number of levels is enough to read an entry whose cache leads to the entry itself. -/
theorem visit_circle {s : Linked} {host : Location} {key : Key} {elem : Ty} {cache : CacheId}
    {path : Path} (h : s.link? cache = some (.target (.entry host key elem cache path))) (n : Nat) :
    s.visit n (.entry host key elem cache path) = .error .deep := by
  induction n with
  | zero => rfl
  | succ n ih => simp only [visit, readVia, current, h, ih, error_map, error_bind]

end Linked

/-! Results with levels and without -/

/-- The result with levels is the one without, or the levels were too few. -/
inductive Meets {α β : Type} (enough : Prop) (φ : β → α) : Except Halt α → Except Fault β → Prop
  | ok {b : β} : Meets enough φ (.ok (φ b)) (.ok b)
  | fault {f : Fault} : Meets enough φ (.error (.fault f)) (.error f)
  | deep {r : Except Fault β} (h : ¬ enough) : Meets enough φ (.error .deep) r

namespace Meets

variable {α β γ δ : Type} {enough enough' : Prop} {φ : β → α} {ψ : δ → γ} {a : Except Halt α}
  {b : Except Fault β}

theorem mono (h : Meets enough φ a b) (he : enough' → enough) : Meets enough' φ a b := by
  cases h with
  | ok => exact .ok
  | fault => exact .fault
  | deep hn => exact .deep fun h => hn (he h)

theorem mapError {r : Except Fault β} : Meets enough id (r.mapError .fault) r := by
  cases r with
  | error f => exact .fault
  | ok b => exact .ok (φ := id)

theorem lift {r : Except Fault β} : Meets enough φ ((φ <$> r).mapError .fault) r := by
  cases r with
  | error f => exact .fault
  | ok b => exact .ok

theorem bind {k : α → Except Halt γ} {k' : β → Except Fault δ} (h : Meets enough φ a b)
    (hk : ∀ x, Meets enough ψ (k (φ x)) (k' x)) : Meets enough ψ (a >>= k) (b >>= k') := by
  cases h with
  | ok => exact hk _
  | fault => exact .fault
  | deep hn => exact .deep hn

theorem map {F : α → γ} {F' : β → δ} (h : Meets enough φ a b) (hF : ∀ x, F (φ x) = ψ (F' x)) :
    Meets enough ψ (F <$> a) (F' <$> b) := by
  cases h with
  | ok =>
    rw [ok_map, ok_map, hF]
    exact .ok
  | fault => exact .fault
  | deep hn => exact .deep hn

theorem eq (h : Meets enough φ a b) (he : enough) : a = (φ <$> b).mapError .fault := by
  cases h with
  | ok | fault => rfl
  | deep hn => exact absurd he hn

theorem of_ok {x : α} (h : Meets enough φ a b) (ha : a = .ok x) : ∃ y, b = .ok y ∧ x = φ y := by
  cases h with
  | ok =>
    cases ha
    exact ⟨_, rfl, rfl⟩
  | fault | deep => cases ha

end Meets

/-! What is done in a graph -/

/-- The graph with caches that lead where its own lead. -/
def Graph.linked (g : Graph) : Linked where
  ground := { g with caches := [] }
  links := g.caches.map (Prod.map id Link.of)

variable {g : Graph} {n : Nat} {p : Location} {e : Entry} {h : Handle} {v : Value} {m : Move}
  {c : CellId} {path : Path} {i : CacheId} {k : Cached} {f : Value → Except Fault Value}

theorem link?_linked : g.linked.link? i = (g.cached? i).map Link.of :=
  Assoc.get?_map fun _ _ => rfl

theorem setLink_linked : g.linked.setLink i (Link.of k) = (g.setCache i k).linked :=
  congrArg (Linked.mk g.linked.ground) (Assoc.insert_map fun _ _ => rfl)

theorem setLink_newCache :
    g.linked.newCache.1.setLink g.linked.newCache.2 (Link.of k) =
      (g.newCache.1.setCache g.newCache.2 k).linked :=
  setLink_linked (g := g.newCache.1)

theorem update_linked :
    g.linked.ground.update c path f = (fun g' => g'.linked.ground) <$> g.update c path f := by
  -- neither the caches nor their number has a part in it
  have hw : g.linked.ground.writable c = g.writable c := rfl
  unfold Graph.update
  rw [hw]
  cases g.writable c with
  | error u => rfl
  | ok w =>
    rw [mapError_ok, ok_bind, ok_bind]
    cases w.change f path <;> rfl

namespace Linked

theorem meets_current {visit : Location → Except Halt Value}
    (hv : ∀ p, Meets (p.nesting < n) id (visit p) (p.read g)) :
    Meets (e.host.nesting < n) id (g.linked.current visit e) (e.read g) := by
  unfold current Entry.read Graph.current
  rw [link?_linked]
  cases g.cached? e.cache with
  | none => exact (hv e.host).bind fun _ => .mapError
  | some k =>
    cases k with
    | copy v => exact .ok (φ := id)
    | target c path =>
      -- the target is in a cell, so one level is enough
      exact ((hv (.cell c path)).mono Nat.zero_lt_of_lt).map fun _ => rfl

theorem meets_visit : Meets (p.nesting < n) id (g.linked.visit n p) (p.read g) := by
  induction n generalizing p with
  | zero => exact .deep (Nat.not_lt_zero _)
  | succ n ih =>
    cases p with
    | cell c path => exact .mapError
    | entry host key elem cache path =>
      have hc := meets_current (e := ⟨host, key, elem, cache⟩) (fun p => ih (p := p))
      refine (hc.mono Nat.lt_of_succ_lt_succ).bind fun current => ?_
      cases current with
      | none => exact .fault
      | some whole => exact .mapError

theorem meets_storeVia {revise : Location → (Value → Except Fault Value) → Except Halt Linked}
    (hr : ∀ p f, Meets (p.nesting < n) Graph.linked (revise p f) (p.update g f)) :
    Meets (e.host.nesting < n) Graph.linked (g.linked.storeVia revise e v) (e.store g v) := by
  unfold storeVia Entry.store Graph.storeEntry
  rw [link?_linked]
  -- an empty cache and a copy are written in one way
  have hput : Meets (e.host.nesting < n) Graph.linked
      (do
        let stored ← (v.assignTo e.elem).mapError .fault
        return (← revise e.host (Value.insert e.key stored)).setLink e.cache (.copy v))
      (do
        let stored ← v.assignTo e.elem
        return (← e.host.update g (Value.insert e.key stored)).setCache e.cache (.copy v)) :=
    Meets.mapError.bind fun stored => (hr e.host _).map fun _ => setLink_linked (k := .copy v)
  cases g.cached? e.cache with
  | none => exact hput
  | some k =>
    cases k with
    | copy w => exact hput
    | target c path =>
      exact (hr (.cell c path.slot) _).mono Nat.zero_lt_of_lt

theorem meets_revise : Meets (p.nesting < n) Graph.linked (g.linked.revise n p f)
    (p.update g f) := by
  induction n generalizing p f with
  | zero => exact .deep (Nat.not_lt_zero _)
  | succ n ih =>
    cases p with
    | cell c path =>
      rw [revise, updateVia, Location.update, update_linked]
      cases hu : g.update c path f with
      | error x => exact .fault
      | ok g' =>
        obtain ⟨_, _, _, _, _, rfl⟩ := Graph.update_cases hu
        exact .ok
    | entry host key elem cache path =>
      have hc := meets_current (e := ⟨host, key, elem, cache⟩) fun p =>
        meets_visit (g := g) (n := n) (p := p)
      have hs : ∀ w, Meets (host.nesting + 1 < n + 1) Graph.linked _ _ := fun w =>
        (meets_storeVia (e := ⟨host, key, elem, cache⟩) (v := w) fun _ _ => ih).mono
          Nat.lt_of_succ_lt_succ
      refine (hc.mono Nat.lt_of_succ_lt_succ).bind fun current => ?_
      cases current with
      | none => exact .fault
      | some whole => exact Meets.mapError.bind hs

theorem meets_below : Meets (e.host.nesting < n) Link.of (g.linked.below n e) (e.below g) := by
  have hread : Meets (e.host.nesting < n) id (g.linked.current (g.linked.visit n) e) (e.read g) :=
    meets_current fun _ => meets_visit
  have hfollow : Meets (e.host.nesting < n) Link.of
      (do
        match ← g.linked.current (g.linked.visit n) e with
        | some v => (Link.of <$> Entry.follow v).mapError .fault
        | none => .error (.fault (.absentEntry e.key)))
      (do
        match ← e.read g with
        | some v => Entry.follow v
        | none => .error (.absentEntry e.key)) := by
    refine hread.bind fun current => ?_
    cases current with
    | none => exact .fault
    | some v => exact .lift
  unfold below Entry.below
  rw [link?_linked]
  cases g.cached? e.cache with
  | none => exact hfollow
  | some k =>
    cases k with
    | copy w => exact hfollow
    | target c path =>
      have hv : Meets (e.host.nesting < n) id (g.linked.visit n (.cell c path)) (g.load c path) :=
        (meets_visit (p := .cell c path)).mono Nat.zero_lt_of_lt
      refine hv.bind fun v => ?_
      cases v with
      | pointer target d => exact .ok (b := Cached.target d [])
      | boxed w => exact .ok (b := Cached.target c (path ++ [.unbox]))
      | _ => exact .fault

/-! Handles -/

theorem location_linked : g.linked.location h = h.location g := by
  cases h with
  | direct p => rfl
  | entry e =>
    unfold location Handle.location Entry.location
    dsimp only
    rw [link?_linked]
    cases g.cached? e.cache with
    | none => rfl
    | some k => cases k <;> rfl

theorem nesting_location : (h.location g).nesting ≤ h.nesting := by
  cases h with
  | direct p => exact Nat.le_refl _
  | entry e =>
    unfold Handle.location Entry.location
    dsimp only
    split
    · exact Nat.zero_le _
    · exact Nat.le_refl _

theorem meets_read : Meets (h.nesting ≤ n) id (g.linked.read n h) (h.read g) := by
  cases h with
  | direct p => exact (meets_visit.mono Nat.lt_succ_of_le).map fun _ => rfl
  | entry e => exact meets_current fun _ => meets_visit

theorem meets_set : Meets (h.nesting ≤ n) Graph.linked (g.linked.set n h v) (h.set g v) := by
  cases h with
  | direct p =>
    refine meets_revise.mono fun hn => ?_
    have hp : (p.withPath p.path.slot).nesting = p.nesting := by cases p <;> rfl
    rw [hp]
    exact Nat.lt_succ_of_le hn
  | entry e => exact meets_storeVia fun _ _ => meets_revise

theorem meets_move : Meets (h.nesting ≤ n) (Prod.map Graph.linked id) (g.linked.move n h m)
    (h.move g m) := by
  have hvisit : Meets (h.nesting ≤ n) id (g.linked.visit (n + 1) (h.location g))
      ((h.location g).read g) :=
    meets_visit.mono fun hn => Nat.lt_succ_of_le (Nat.le_trans nesting_location hn)
  have hstep : ∀ next : Value → Except Fault Location,
      Meets (h.nesting ≤ n) (Prod.map Graph.linked id)
        (do
          let v ← g.linked.visit (n + 1) (h.location g)
          return (g.linked, Handle.direct (← (next v).mapError .fault)))
        (do
          let q ← (h.location g).read g >>= next
          return (g, Handle.direct q)) := by
    intro next
    rw [bind_assoc]
    exact hvisit.bind fun _ => Meets.mapError.bind fun q => .ok (b := (g, Handle.direct q))
  cases m with
  | elem =>
    cases h with
    | direct p => exact hstep p.derefTo
    | entry e =>
      dsimp only [move, Handle.move, Handle.elem, Entry.deref]
      rw [bind_assoc]
      refine (meets_below.mono Nat.lt_of_succ_le).bind fun k => ?_
      rw [setLink_newCache]
      exact .ok (b := (_, Handle.entry { e with cache := g.newCache.2 }))
  | field name =>
    dsimp only [move, Handle.move, Handle.field]
    rw [location_linked, bind_map_left]
    exact hstep ((h.location g).fieldTo name)
  | index i =>
    dsimp only [move, Handle.move, Handle.index]
    rw [location_linked, bind_map_left]
    exact hstep ((h.location g).indexTo i)
  | entry key =>
    dsimp only [move, Handle.move, Handle.entryAt, Location.elemFor]
    rw [location_linked, bind_assoc]
    refine hvisit.bind fun v => (Meets.mapError (r := v.elemFor key)).bind fun t => ?_
    exact .ok (b := (g.newCache.1, Handle.entry _))

end Linked

end ObjectGraph
