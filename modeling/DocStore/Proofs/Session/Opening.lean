import DocStore.Proofs.Session.Quiet

/-! Collections as a session finds them when it asks for them the first time: empty, and with their
documents' identifiers where the store has them. -/

namespace DocStore

open Value

namespace Store

def withCollection (s : Store) (name : Value) : Store :=
  { s with names := s.names ++ [(name, s.collections.length)],
           collections := s.collections ++ [.empty name s.idField] }

end Store

namespace Session

/-- A binding stands for an empty collection of a store that has identifiers where the session has
them: under one name, which is no path. Filters may be made of one comparison at least. -/
structure Opens (s : Session) (b : Nat) : Prop where
  name : SingleName s.schema.idField
  depth : related .gt (int 1) s.settings.maxDepth = some false
  made : (s.binding b).collection < s.store.collections.length
  idField : (s.stored b).idField = s.schema.idField
  empty : (s.stored b).documents = []

variable {s : Session} {n : String}

/-- The names that the settings give to fields can be names of fields. -/
def Named (s : Session) : Prop :=
  ∀ v ∈ [s.settings.idField, s.settings.classField, s.settings.revisionField],
    ∃ i, fieldName v = .ok i

theorem bind_run (hn : collectionName (str n) = .ok n) (hs : s.Named) (k : Nat) :
    bind (str n) k s = (.ok s.bindings.length,
      { s with bindings := s.bindings ++ [⟨n, k, .empty⟩] }) := by
  obtain ⟨i, hi⟩ := hs s.settings.idField (by simp)
  obtain ⟨c, hc⟩ := hs s.settings.classField (by simp)
  obtain ⟨r, hr⟩ := hs s.settings.revisionField (by simp)
  unfold bind
  rw [hn, bind_of_ok (run_liftExcept _ s), bind_of_ok (run_get s), hi,
    bind_of_ok (run_liftExcept _ s), hc, bind_of_ok (run_liftExcept _ s), hr,
    bind_of_ok (run_liftExcept _ s), bind_of_ok (run_get s)]
  rfl

def withCollection (s : Session) (n : String) : Session :=
  { s with
    store := { s.store.withCollection (str n) with
      journal := s.store.journal ++ [.debug sessionLog s!"Bound collection '{n}'"] }
    bindings := s.bindings ++ [⟨n, s.store.collections.length, .empty⟩]
    bound := s.bound ++ [(n, s.bindings.length)] }

theorem collection_run (hn : collectionName (str n) = .ok n) (hs : s.Named)
    (hbound : s.bound.lookup n = none) (hstore : s.store.numberOf? (str n) = none) :
    collection (str n) s = (.ok s.bindings.length, s.withCollection n) := by
  have hmade : Store.collection (str n) s.store =
      (.ok s.store.collections.length, s.store.withCollection (str n)) := by
    unfold Store.collection
    rw [hstore]
    rfl
  have hnamed : ({ s with store := s.store.withCollection (str n) } : Session).Named := hs
  unfold collection
  rw [hn, bind_of_ok (run_liftExcept _ s), bind_of_ok (run_get s), hbound]
  dsimp only
  rw [bind_of_ok (onStore_run hmade), bind_of_ok (bind_run hn hnamed _)]
  rfl

theorem withCollection_opens (hid : s.store.idField = s.schema.idField)
    (hname : SingleName s.schema.idField)
    (hdepth : related .gt (int 1) s.settings.maxDepth = some false) (n : String) :
    (s.withCollection n).Opens s.bindings.length := by
  have hbinding : ((s.withCollection n).binding s.bindings.length).collection =
      s.store.collections.length := by
    simp [withCollection, binding]
  have hstored : (s.withCollection n).stored s.bindings.length =
      .empty (str n) s.store.idField := by
    unfold stored
    rw [hbinding]
    simp [withCollection, Store.collectionAt, Store.withCollection]
  refine ⟨hname, hdepth, ?_, ?_, ?_⟩
  · rw [hbinding]
    simp [withCollection, Store.withCollection]
  · rw [hstored]
    exact hid
  · rw [hstored]
    rfl

/-- A collection that is asked for under a new name is bound, and it is empty. -/
theorem collection_opens (hn : collectionName (str n) = .ok n) (hs : s.Named)
    (hbound : s.bound.lookup n = none) (hstore : s.store.numberOf? (str n) = none)
    (hid : s.store.idField = s.schema.idField) (hname : SingleName s.schema.idField)
    (hdepth : related .gt (int 1) s.settings.maxDepth = some false) :
    ∃ t, collection (str n) s = (.ok s.bindings.length, t) ∧ t.Opens s.bindings.length :=
  ⟨s.withCollection n, collection_run hn hs hbound hstore, withCollection_opens hid hname hdepth n⟩

end Session

end DocStore
