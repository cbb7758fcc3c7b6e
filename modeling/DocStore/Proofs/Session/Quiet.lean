import DocStore.Proofs.Codec.Growth
import DocStore.Proofs.Session.Planning
import DocStore.Proofs.Store.Writing

/-! Work in a session that leaves all documents as they are, and the steps that writing and finding
by identifier are made of. -/

namespace DocStore

open Value

namespace Session

def stored (s : Session) (b : Nat) : Collection := s.store.collectionAt (s.binding b).collection

def withStored (s : Session) (b : Nat) (c : Collection) : Session :=
  { s with store := s.store.putCollection (s.binding b).collection c }

/-- Nothing but names of classes, identifiers seen, cursors and the journal differ. -/
structure Quiet (b : Nat) (s t : Session) : Prop where
  catalog : t.catalog = s.catalog
  settings : t.settings = s.settings
  grown : Registry.Grown s.catalog s.registry t.registry
  collection : (t.binding b).collection = (s.binding b).collection
  store : s.store.Same t.store

variable {b : Nat} {s t u : Session}

theorem Quiet.trans (h : Quiet b s t) (h' : Quiet b t u) : Quiet b s u where
  catalog := h'.catalog.trans h.catalog
  settings := h'.settings.trans h.settings
  grown := by
    have hg := h'.grown
    rw [h.catalog] at hg
    exact h.grown.trans hg
  collection := h'.collection.trans h.collection
  store := h.store.trans h'.store

theorem quiet_withNames {names : Registry} (h : Registry.Grown s.catalog s.registry names)
    (journal : List LogRecord) : Quiet b s (s.withNames names journal) :=
  ⟨rfl, rfl, h, rfl, ⟨rfl, fun _ => .refl _⟩⟩

theorem quiet_withRead {v : Store} (h : s.store.Same v) (ids : IdSet) :
    Quiet b s (s.withRead b ids v) := by
  refine ⟨rfl, rfl, .refl _ _, ?_, h⟩
  unfold withRead binding
  by_cases hb : b < s.bindings.length
  · simp [hb]
  · simp [hb]

theorem quiet_store {v : Store} (h : s.store.Same v) : Quiet b s { s with store := v } :=
  ⟨rfl, rfl, .refl _ _, rfl, h⟩

theorem debug_run (b : Nat) (words : String → String) (s : Session) :
    debug b words s = (.ok (), (debug b words s).2) := rfl

theorem quiet_debug (b : Nat) (words : String → String) (s : Session) :
    Quiet b s (debug b words s).2 := quiet_withNames (.refl _ _) _

theorem missing_run (b : Nat) (id : Value) (s : Session) :
    missing b id s = (.error (.notFound id (s.binding b).name), s) := rfl

theorem putIds_run (b : Nat) (ids : IdSet) (s : Session) :
    putIds b ids s = (.ok (), s.withRead b ids s.store) := rfl

theorem onCollection_run {α : Type} {f : Nat → Storing α} {a : Except Error α} {v : Store}
    (h : f (s.binding b).collection s.store = (a, v)) :
    onCollection b f s = (a, { s with store := v }) := by
  unfold onCollection
  rw [bind_of_ok (run_get s), onStore_run h]

theorem idQuery_run (v : Uuid) (s : Session) :
    idQuery (uuid v) s = (.ok (dict [(str s.schema.idField, uuid v)]), s) := rfl

theorem see_run (b : Nat) (v : Uuid) (s : Session) :
    ∃ ids, (((s.binding b).ids.add (uuid v)) = .ok ids) ∧
      putIds b ids s = (.ok (), s.withRead b ids s.store) := by
  obtain ⟨ids, hids⟩ := add_hashable (show (uuid v).hashable = true from rfl) (s.binding b).ids
  exact ⟨ids, hids, putIds_run b ids s⟩

end Session

namespace Store

variable {s : Store} {n : Nat}

theorem onCollection_run {α : Type} {f : Collection → Except Error (α × Collection)} {a : α}
    {c : Collection} (h : f (s.collectionAt n) = .ok (a, c)) :
    onCollection n f s = (.ok a, s.putCollection n c) := by
  unfold onCollection
  rw [h]

end Store

/-- The query for an identifier, as a filter is compiled to it. -/
def idCondition (u : Uuid) : Value := dict [(str "$eq", uuid u)]

def Plan.forId (name : String) (u : Uuid) (limit : Nat) : Plan :=
  ⟨dict [(str name, idCondition u)], null, list [], int 0, int limit⟩

section Planned

variable {cat : Catalog} {sc : Schema} {depth : Value} {n : String} {r : Registry}

theorem Field.ofText_of_named (h : fieldNameFault? n = none) (t : TypeSpec) :
    Field.ofText n t = .ok ⟨n, t, h⟩ := by
  unfold Field.ofText
  split
  · rfl
  · next hf => simp [h] at hf

def Filter.hasId (h : fieldNameFault? n = none) (u : Uuid) : Filter :=
  .field ⟨n, .object, h⟩ .equal (uuid u)

theorem compile_comparison {f : Field} {op : Operator} {word : String} {v w : Value}
    (hd : related .gt (int 1) depth = some false) (hop : op.condition? = some word)
    (hv : Filter.operand cat sc op v r = (.ok w, r)) :
    Filter.compile cat sc depth "" (.field f op v) r =
      (.ok (dict [(str f.name, dict [(str word, w)])]), r) := by
  have hcheck : Filter.checkDepth depth 1 = .ok () := by
    simp [Filter.checkDepth, hd]
  unfold Filter.compile
  rw [Filter.compileAt, hcheck, bind_of_ok (run_liftExcept _ r), String.empty_append]
  unfold Filter.compileField
  rw [hop]
  dsimp only
  rw [bind_of_ok hv]
  rfl

theorem addEntries_new {query : Entries} {condition : Value} (h : fieldNameFault? n = none)
    (hq : Entries.get? (str n) query = none) :
    Merged.addEntries query [(str n, condition)] = ⟨query ++ [(str n, condition)], .ok ()⟩ := by
  have hg := isGroupKey_of_name (startsWithDollar_of_named h)
  simp only [isGroupKey, Bool.or_eq_false_iff] at hg
  simp [Merged.addEntries, Merged.addEntry, hg.1, hg.2, hq, Entries.put_of_absent condition hq]

/-- A comparison is added to a query that has none for its field. -/
theorem compileAll_comparison {query : Entries} {fs : List Filter} {f : Field} {op : Operator}
    {word : String} {v w : Value} (hd : related .gt (int 1) depth = some false)
    (hop : op.condition? = some word) (hv : Filter.operand cat sc op v r = (.ok w, r))
    (hq : Entries.get? (str f.name) query = none) :
    Filter.compileAll cat sc depth query (.field f op v :: fs) r =
      Filter.compileAll cat sc depth (query ++ [(str f.name, dict [(str word, w)])]) fs r := by
  rw [Filter.compileAll, bind_of_ok (compile_comparison hd hop hv)]
  simp only [addEntries_new f.named hq]

theorem compileAll_hasId (h : fieldNameFault? n = none)
    (hd : related .gt (int 1) depth = some false) (u : Uuid) :
    Filter.compileAll cat sc depth [] [.hasId h u] r = (.ok [(str n, idCondition u)], r) :=
  compileAll_comparison hd rfl rfl rfl

theorem ofDescription_hasId (h : fieldNameFault? n = none)
    (hd : related .gt (int 1) depth = some false) (u : Uuid) (limit : Nat) :
    Plan.ofDescription cat sc depth ⟨[.hasId h u], [], [], 0, limit⟩ r =
      (.ok (.forId n u limit), r) :=
  bind_of_ok (compileAll_hasId h hd u)

end Planned

namespace Session

variable {b : Nat} {s : Session}

theorem byId_run (h : fieldNameFault? s.schema.idField = none) (u : Uuid) :
    byId (uuid u) s = (.ok ⟨[.hasId h u], [], [], 0, 0⟩, s) := by
  have hmake : Filter.make ⟨s.schema.idField, .object, h⟩ .equal (uuid u) = .ok (.hasId h u) := rfl
  unfold byId
  rw [bind_of_ok (run_get s), Field.ofText_of_named h, bind_of_ok (run_liftExcept _ s), hmake,
    bind_of_ok (run_liftExcept _ s)]
  rfl

theorem planId_run (h : fieldNameFault? s.schema.idField = none)
    (hd : related .gt (int 1) s.settings.maxDepth = some false) (u : Uuid) (limit : Nat) :
    ∃ t, plan ⟨[.hasId h u], [], [], 0, limit⟩ s = (.ok (.forId s.schema.idField u limit), t) ∧
      Quiet b s t := by
  obtain ⟨j, hj⟩ := plan_run (ofDescription_hasId h hd u limit)
  exact ⟨_, hj, quiet_withNames (.refl _ _) j⟩

theorem planEverything_run (s : Session) :
    ∃ t, plan .everything s = (.ok .everything, t) ∧ Quiet b s t := by
  have hdesc : Plan.ofDescription s.catalog s.schema s.settings.maxDepth .everything s.registry =
      (.ok .everything, s.registry) := rfl
  obtain ⟨j, hj⟩ := plan_run hdesc
  exact ⟨_, hj, quiet_withNames (.refl _ _) j⟩

end Session

end DocStore
