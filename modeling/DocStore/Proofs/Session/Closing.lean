import DocStore.Catalog.Models
import DocStore.Proofs.Session.Releasing
import DocStore.Proofs.Store.Operations
import DocStore.Session.Migration

/-! Closing a session. The first closing saves the store or fails as writing the snapshot does;
every later one does nothing, also after one that failed. -/

namespace DocStore

open Value

namespace Session

variable {s t : Session} {b : Nat} {d : Description}

/-- Operations on a session, whose collections are known by the numbers of their bindings. -/
inductive Operation
  | collection (name : Value)
  | dropCollection (name : Value)
  | insert (b : Nat) (object : Value)
  | replace (b : Nat) (object : Value)
  | persist (b : Nat) (object : Value)
  | delete (b : Nat) (object : Value)
  | count (b : Nat) (d : Description)
  | first (b : Nat) (d : Description)
  | createIndexes (b : Nat) (fields : List Value)
  | removeField (b : Nat) (field : Value)
  | renameField (b : Nat) (field target : Value)
  | replaceRevisionClass (b : Nat) (revision cls : Value)
  | drop (b : Nat)
  | onStore (op : Store.Operation)
  | close

def Operation.perform : Operation → Working Unit
  | .collection name => discard (Session.collection name)
  | .dropCollection name => Session.dropCollection name
  | .insert b object => Session.insert b object
  | .replace b object => Session.replace b object
  | .persist b object => Session.persist b object
  | .delete b object => Session.delete b object
  | .count b d => discard (Session.count b d)
  | .first b d => discard (Session.first b d)
  | .createIndexes b fields => discard (Session.createIndexes b fields)
  | .removeField b field => discard (Session.removeField b field)
  | .renameField b field target => discard (Session.renameField b field target)
  | .replaceRevisionClass b revision c => discard (Session.replaceRevisionClass b revision c)
  | .drop b => Session.drop b
  | .onStore op => Session.onStore op.perform
  | .close => Session.close

/-- What operations leave behind, each whether it succeeded or not. -/
def after (s : Session) (ops : List Operation) : Session :=
  ops.foldl (fun s op => (op.perform s).2) s

theorem after_snoc (s : Session) (ops : List Operation) (op : Operation) :
    s.after (ops ++ [op]) = (op.perform (s.after ops)).2 := by
  simp [after]

/-- Neither the settings differ, nor the file, nor whether the session is closed. -/
structure Retains (s t : Session) : Prop where
  settings : t.settings = s.settings
  saved : t.saved = s.saved
  closed : t.closed = s.closed

instance : IsPreorder Session Retains where
  refl _ := ⟨rfl, rfl, rfl⟩
  trans _ _ _ h h' := ⟨h'.settings.trans h.settings, h'.saved.trans h.saved,
    h'.closed.trans h.closed⟩

theorem retains_onStore {α : Type} (x : Storing α) : Within Retains (onStore x) := fun _ =>
  ⟨rfl, rfl, rfl⟩

theorem retains_naming {α : Type} (x : Naming α) : Within Retains (naming x) := fun _ =>
  ⟨rfl, rfl, rfl⟩

theorem retains_note (r : LogRecord) : Within Retains (note r) := retains_onStore _

theorem retains_debug (b : Nat) (words : String → String) : Within Retains (debug b words) :=
  within_bind within_get fun _ => retains_note _

theorem retains_info (b : Nat) (words : String → String) : Within Retains (info b words) :=
  within_bind within_get fun _ => retains_note _

theorem retains_onCollection {α : Type} (b : Nat) (f : Nat → Storing α) :
    Within Retains (onCollection b f) := within_bind within_get fun _ => retains_onStore _

theorem retains_putIds (b : Nat) (ids : IdSet) : Within Retains (putIds b ids) := fun _ =>
  ⟨rfl, rfl, rfl⟩

theorem retains_document (object : Value) : Within Retains (document object) :=
  within_bind within_get fun _ => retains_naming _

theorem retains_idQuery (id : Value) : Within Retains (idQuery id) :=
  within_bind within_get fun _ => within_bind (retains_naming _) fun _ => within_pure _

theorem retains_missing (b : Nat) (id : Value) : Within Retains (missing b id) :=
  within_bind within_get fun _ => within_throw _

theorem retains_bind (name : Value) (n : Nat) : Within Retains (bind name n) := by
  unfold bind
  refine within_bind (within_liftExcept _) fun _ => within_bind within_get fun _ =>
    within_bind (within_liftExcept _) fun _ => within_bind (within_liftExcept _) fun _ =>
    within_bind (within_liftExcept _) fun _ => within_bind within_get fun _ =>
    within_bind (fun _ => ?_) fun _ => within_pure _
  exact ⟨rfl, rfl, rfl⟩

theorem retains_collection (name : Value) : Within Retains (collection name) := by
  unfold collection
  refine within_bind (within_liftExcept _) fun n => within_bind within_get fun s => ?_
  split
  · exact within_pure _
  · refine within_bind (retains_onStore _) fun _ => within_bind (retains_bind _ _) fun _ =>
      within_bind (fun _ => ?_) fun _ => within_bind (retains_note _) fun _ => within_pure _
    exact ⟨rfl, rfl, rfl⟩

theorem retains_dropCollection (name : Value) : Within Retains (dropCollection name) := by
  refine within_step (within_throw _) fun _ => within_bind (fun _ => ?_) fun _ =>
    within_bind (retains_onStore _) fun _ => retains_note _
  exact ⟨rfl, rfl, rfl⟩

theorem retains_insert (b : Nat) (object : Value) : Within Retains (insert b object) :=
  within_bind (retains_document object) fun _ => within_bind (retains_onCollection b _) fun _ =>
    within_bind (within_liftExcept _) fun _ => within_bind within_get fun _ =>
    within_bind (within_liftExcept _) fun _ => within_bind (retains_putIds b _) fun _ =>
    retains_debug b _

theorem retains_replace (b : Nat) (object : Value) : Within Retains (replace b object) := by
  refine within_bind (retains_document object) fun _ => within_bind (within_liftExcept _) fun id =>
    within_bind (retains_idQuery id) fun _ => within_bind (retains_onCollection b _) fun found => ?_
  cases found with
  | none => exact retains_missing b id
  | some _ => exact retains_debug b _

theorem retains_persist (b : Nat) (object : Value) : Within Retains (persist b object) := by
  refine within_bind (within_liftExcept _) fun _ => within_bind within_get fun _ =>
    within_bind (within_liftExcept _) fun known => ?_
  cases known with
  | true => exact retains_replace b object
  | false => exact retains_insert b object

theorem retains_delete (b : Nat) (object : Value) : Within Retains (delete b object) := by
  refine within_bind within_get fun s =>
    within_ite (within_bind (within_liftExcept _) ?rest) (within_bind (within_pure _) ?rest)
  intro id
  refine within_bind (retains_idQuery id) fun _ =>
    within_bind (retains_onCollection b _) fun found => ?_
  cases found with
  | none => exact retains_missing b id
  | some _ => exact retains_debug b _

theorem retains_plan (d : Description) : Within Retains (plan d) := by
  intro s
  obtain ⟨names, j, h⟩ := plan_names d s
  rw [h]
  exact ⟨rfl, rfl, rfl⟩

theorem retains_count (b : Nat) (d : Description) : Within Retains (count b d) :=
  within_bind (retains_plan d) fun _ => retains_onCollection b _

theorem retains_first (b : Nat) (d : Description) : Within Retains (first b d) := by
  intro s
  obtain ⟨names, j, hstart⟩ :=
    start_names b ⟨d.filterStack, d.sortStack, d.fields, d.skipped, 1⟩ false s
  rcases first_cases b d s with ⟨e, t, hr, hfirst⟩ | ⟨r, t, x, hr, _, hfirst⟩
  · obtain rfl : t = s.withNames names j := by rw [← hstart, hr]
    rw [hfirst]
    exact ⟨rfl, rfl, rfl⟩
  · obtain rfl : t = s.withNames names j := by rw [← hstart, hr]
    rw [hfirst]
    exact ⟨rfl, rfl, rfl⟩

theorem retains_ensureIndexes (b : Nat) (fields : List Value) :
    Within Retains (ensureIndexes b fields) := by
  induction fields with
  | nil => exact within_pure _
  | cons f fields ih =>
    exact within_bind (within_liftExcept _) fun _ => within_bind (retains_onCollection b _) fun _ =>
      within_bind ih fun _ => within_pure _

theorem retains_createIndexes (b : Nat) (fields : List Value) :
    Within Retains (createIndexes b fields) :=
  within_bind (retains_ensureIndexes b fields) fun _ => within_bind (retains_info b _) fun _ =>
    within_pure _

theorem retains_updateAll (b : Nat) (query update : Value) :
    Within Retains (updateAll b query update) :=
  within_bind (retains_onCollection b _) fun _ => within_pure _

/-- What the changes to a whole collection end with: the update, a note of it, and the number. -/
theorem retains_updating (b : Nat) (query update : Value) (words : Nat → String → String) :
    Within Retains (do
      let n ← updateAll b query update
      info b (words n)
      pure n) :=
  within_bind (retains_updateAll b query update) fun _ => within_bind (retains_info b _) fun _ =>
    within_pure _

theorem retains_removeField (b : Nat) (field : Value) : Within Retains (removeField b field) :=
  within_bind (within_liftExcept _) fun _ => retains_updating b _ _ _

theorem retains_renameField (b : Nat) (field target : Value) :
    Within Retains (renameField b field target) := by
  unfold renameField
  refine within_bind (within_liftExcept _) fun f => within_bind (within_liftExcept _) fun g => ?_
  dsimp only
  split
  · exact within_bind (within_throw _) fun _ => retains_updating b _ _ _
  · exact retains_updating b _ _ _

theorem retains_replaceRevisionClass (b : Nat) (revision cls : Value) :
    Within Retains (replaceRevisionClass b revision cls) := by
  have hrest (c : String) : Within Retains (do
      let s ← get
      let revisionField ← liftExcept (Field.ofText s.schema.revisionField (.cls (.kind .int)))
      let classField ← liftExcept (Field.ofText s.schema.classField (.cls (.kind .str)))
      let old ← liftExcept (Filter.make revisionField .equal revision)
      let other ← liftExcept (Filter.make classField .notEqual cls)
      let query ← naming (Filter.compileAll s.catalog s.schema s.settings.maxDepth [] [old, other])
      let n ← updateAll b (dict query) (dict [(str "$set", dict [(str s.schema.classField, cls)])])
      info b fun name =>
        s!"Moved {n} documents of revision {revision.display} to class '{c}' in '{name}'"
      pure n) :=
    within_bind within_get fun _ => within_bind (within_liftExcept _) fun _ =>
      within_bind (within_liftExcept _) fun _ => within_bind (within_liftExcept _) fun _ =>
      within_bind (within_liftExcept _) fun _ => within_bind (retains_naming _) fun _ =>
      retains_updating b _ _ _
  unfold replaceRevisionClass
  split
  · dsimp only
    split
    · exact within_bind (within_throw _) hrest
    · exact within_bind (within_pure _) hrest
  · exact within_bind (within_throw _) hrest

theorem retains_drop (b : Nat) : Within Retains (drop b) :=
  within_bind (retains_onCollection b _) fun _ => retains_info b _

theorem retains_perform {op : Operation} (h : op ≠ .close) : Within Retains op.perform := by
  cases op with
  | collection name => exact within_discard (retains_collection name)
  | dropCollection name => exact retains_dropCollection name
  | insert b object => exact retains_insert b object
  | replace b object => exact retains_replace b object
  | persist b object => exact retains_persist b object
  | delete b object => exact retains_delete b object
  | count b d => exact within_discard (retains_count b d)
  | first b d => exact within_discard (retains_first b d)
  | createIndexes b fields => exact within_discard (retains_createIndexes b fields)
  | removeField b field => exact within_discard (retains_removeField b field)
  | renameField b field target => exact within_discard (retains_renameField b field target)
  | replaceRevisionClass b revision c =>
    exact within_discard (retains_replaceRevisionClass b revision c)
  | drop b => exact retains_drop b
  | onStore op => exact retains_onStore _
  | close => exact absurd rfl h

/-! Closing -/

theorem close_again (h : s.closed = true) : close s = (.ok (), s) := by
  unfold close
  rw [bind_of_ok (run_get s), if_pos h]
  rfl

/-- How closing an open session ends: with the file of what the store holds, or with the failure
to write that file, which leaves the old one. -/
inductive Closes (s : Session) : Except Error Unit × Session → Prop
  | saved (file : List UInt8) (t : Session) (hsnapshot : s.store.snapshot = .ok file)
      (hclosed : t.closed = true) (hsaved : t.saved = some file)
      (hsame : t.store.snapshot = .ok file) : Closes s (.ok (), t)
  | failed (e : Error) (hsnapshot : s.store.snapshot = .error e) :
      Closes s (.error e, { s with closed := true })

theorem close_open {path : String} (h : s.closed = false)
    (hpath : snapshotPath? s.settings = some path) : s.Closes (close s) := by
  let t : Session := { s with closed := true }
  have hmark : (modify fun s => { s with closed := true } : Working Unit) s = (.ok (), t) := rfl
  have hlift : (liftExcept t.store.snapshot : Storing (List UInt8)) t.store =
      (t.store.snapshot, t.store) := run_liftExcept _ _
  unfold close
  rw [bind_of_ok (run_get s), if_neg (by simp [h]), bind_of_ok hmark, bind_of_ok (run_get t)]
  have hpath' : snapshotPath? t.settings = some path := hpath
  simp only [hpath']
  cases hsnapshot : s.store.snapshot with
  | error e =>
    have hsnapshot' : t.store.snapshot = .error e := hsnapshot
    rw [hsnapshot'] at hlift
    have hsave : Store.save path t.store = (.error e, t.store) := by
      unfold Store.save
      rw [bind_of_ok (run_get t.store), hsnapshot', bind_of_error hlift]
    rw [bind_of_error (onStore_run hsave)]
    exact .failed e hsnapshot
  | ok file =>
    have hsnapshot' : t.store.snapshot = .ok file := hsnapshot
    rw [hsnapshot'] at hlift
    obtain ⟨u, hsave, hsame⟩ : ∃ u, Store.save path t.store = (.ok file, u) ∧
        u.snapshot = .ok file := by
      refine ⟨(Store.save path t.store).2, ?_, ?_⟩
      · unfold Store.save
        rw [bind_of_ok (run_get t.store), hsnapshot', bind_of_ok hlift]
        rfl
      · unfold Store.save
        rw [bind_of_ok (run_get t.store), hsnapshot', bind_of_ok hlift]
        exact hsnapshot
    rw [bind_of_ok (onStore_run hsave)]
    exact .saved file _ hsnapshot rfl rfl hsame

theorem retains_after {ops : List Operation} (h : .close ∉ ops) : s.Retains (s.after ops) := by
  induction ops using List.reverseRecOn with
  | nil => exact refl_of Retains s
  | append_singleton ops op ih =>
    rw [List.mem_append, List.mem_singleton, not_or] at h
    rw [after_snoc]
    exact trans_of Retains (ih h.1) (retains_perform (Ne.symm h.2) _)

/-- A session is closed if another one was. -/
abbrev StaysClosed (s t : Session) : Prop := s.closed = true → t.closed = true

instance : IsPreorder Session StaysClosed where
  refl _ h := h
  trans _ _ _ h h' hs := h' (h hs)

theorem Retains.staysClosed (h : s.Retains t) : s.StaysClosed t := fun hs => h.closed.trans hs

theorem closed_close (s : Session) : (close s).2.closed = true := by
  cases h : s.closed with
  | true =>
    rw [close_again h]
    exact h
  | false =>
    let t : Session := { s with closed := true }
    have hmark : (modify fun s => { s with closed := true } : Working Unit) s = (.ok (), t) := rfl
    have hnote : Within StaysClosed (note (.info sessionLog "Session closed")) :=
      fun u => (retains_note _ u).staysClosed
    unfold close
    rw [bind_of_ok (run_get s), if_neg (by simp [h]), bind_of_ok hmark, bind_of_ok (run_get t)]
    cases snapshotPath? t.settings with
    | none => exact hnote t rfl
    | some path =>
      have hsave : Within StaysClosed (do
          let bytes ← onStore (Store.save path)
          modify fun s => { s with saved := some bytes }
          note (.info sessionLog "Session closed")) :=
        within_bind (fun u => (retains_onStore _ u).staysClosed) fun _ =>
          within_bind (fun _ hu => hu) fun _ => hnote
      exact hsave t rfl

theorem closed_of_mem {ops : List Operation} (h : .close ∈ ops) : (s.after ops).closed = true := by
  induction ops using List.reverseRecOn with
  | nil => cases h
  | append_singleton ops op ih =>
    rw [after_snoc]
    by_cases hop : op = .close
    · rw [hop]
      exact closed_close _
    · have hmem : .close ∈ ops := by
        rcases List.mem_append.mp h with h | h
        · exact h
        · exact absurd (List.mem_singleton.mp h).symm hop
      exact (retains_perform hop _).staysClosed (ih hmem)

/-- The first time a session is closed, its store is saved or the failure is told; whichever it
was, to close it again does nothing. -/
theorem close_after {path : String} (hopen : s.closed = false)
    (hpath : snapshotPath? s.settings = some path) (ops : List Operation) :
    (.close ∉ ops → (s.after ops).Closes (close (s.after ops))) ∧
      (.close ∈ ops → close (s.after ops) = (.ok (), s.after ops)) := by
  refine ⟨fun h => ?_, fun h => close_again (closed_of_mem h)⟩
  have hretains := retains_after (s := s) h
  exact close_open (hretains.closed.trans hopen)
    ((congrArg snapshotPath? hretains.settings).trans hpath)

/-- A session over an empty store, which is saved to a file. -/
def filedSession : Session :=
  onEmptyStore Models.catalog { Settings.standard with snapshotPath := str "tasks.snapshot" }
    .empty 0

def taskOf (data : Value) : Value :=
  .record "Task" [(str "id", uuid (Uuid.ofNat 2)), (str "title", str "t"), (str "data", data)]

theorem close_after_insert :
    filedSession.closed = false ∧ snapshotPath? filedSession.settings = some "tasks.snapshot" ∧
      .close ∉ [Operation.collection (str "tasks"), .insert 0 (taskOf null)] ∧
      (filedSession.after [.collection (str "tasks"), .insert 0 (taskOf null)]).Closes
        (close (filedSession.after [.collection (str "tasks"), .insert 0 (taskOf null)])) := by
  have hmem : .close ∉ [Operation.collection (str "tasks"), .insert 0 (taskOf null)] := by simp
  exact ⟨rfl, rfl, hmem, (close_after rfl rfl _).1 hmem⟩

/-- A closing that fails is followed by one that succeeds without a file being written, though the
store could be saved by then. -/
theorem unsaved_closing :
    ¬ ∀ ops : List Operation,
      (∀ before, before ++ [.close] <+: ops → (close (filedSession.after before)).1 ≠ .ok ()) →
      (close (filedSession.after ops)).1 = .ok () →
      ∃ file, (close (filedSession.after ops)).2.saved = some file ∧
        (close (filedSession.after ops)).2.store.snapshot = .ok file := by
  intro h
  let ops : List Operation := [.collection (str "tasks"), .insert 0 (taskOf .handle), .close,
    .delete 0 (uuid (Uuid.ofNat 2))]
  have hfails : ∀ before, before ++ [.close] <+: ops →
      (close (filedSession.after before)).1 ≠ .ok () := by
    intro before hbefore
    have hsplit : before = [.collection (str "tasks"), .insert 0 (taskOf .handle)] := by
      rcases before with _ | ⟨a, _ | ⟨b, _ | ⟨c, _ | ⟨d, rest⟩⟩⟩⟩ <;>
        simp_all [ops, List.cons_prefix_cons]
    rw [hsplit]
    intro hok
    cases hok
  have hclose : close (filedSession.after ops) = (.ok (), filedSession.after ops) :=
    close_again (closed_of_mem (by simp [ops]))
  obtain ⟨file, hsaved, _⟩ := h ops hfails (congrArg Prod.fst hclose)
  have hnone : (filedSession.after ops).saved = none := rfl
  rw [hclose, hnone] at hsaved
  cases hsaved

end Session

end DocStore
