import DocStore.Proofs.Session.ObjectMap
import DocStore.Proofs.Session.Quiet

/-! Sessions whose collection holds a map: what they write into it, and what they find. -/

namespace DocStore

open Value

variable {d : Decoder} {b : Nat} {m m' : ObjectMap d} {s t : Session} {o : Item d} {u : Uuid}

namespace Session

/-- The collection of a binding holds the documents of a map, in order, and the classes of the
items have the names that the documents were written with. -/
structure Holding (d : Decoder) (b : Nat) (m : ObjectMap d) (s : Session) : Prop where
  catalog : s.catalog = d.catalog
  schema : s.schema = d.schema
  grown : Registry.Grown d.catalog d.registry s.registry
  depth : related .gt (int 1) s.settings.maxDepth = some false
  name : SingleName d.schema.idField
  made : (s.binding b).collection < s.store.collections.length
  idField : (s.stored b).idField = d.schema.idField
  documents : (s.stored b).documents = shelved m.filed
  named : ∀ o ∈ m.items, Registry.Grown d.catalog o.names s.registry
  carried : ∀ o ∈ m.items, o.Carried

theorem Holding.quiet (h : Holding d b m s) (hq : Quiet b s t) : Holding d b m t := by
  have hgrown : Registry.Grown d.catalog s.registry t.registry := by
    have hg := hq.grown
    rwa [h.catalog] at hg
  have hsame : (s.stored b).Same (t.stored b) := by
    unfold stored
    rw [hq.collection]
    exact hq.store.collections _
  refine ⟨hq.catalog.trans h.catalog, ?_, h.grown.trans hgrown, ?_, h.name, ?_, ?_, ?_, ?_,
    h.carried⟩
  · have hs := h.schema
    unfold Session.schema at hs ⊢
    rwa [hq.settings]
  · rw [hq.settings]
    exact h.depth
  · have hm := h.made
    rw [hq.collection, hq.store.size]
    exact hm
  · exact hsame.idField.trans h.idField
  · exact hsame.documents.trans h.documents
  · exact fun o ho => (h.named o ho).trans hgrown

/-- A write puts another collection in the place of the one that is bound. Its items were there
before, or their classes have their names by now. -/
theorem Holding.write {c : Collection} (h : Holding d b m s) (hid : c.idField = d.schema.idField)
    (hd : c.documents = shelved m'.filed) (hitems : ∀ o ∈ m'.items, o ∈ m.items ∨
      Registry.Grown d.catalog o.names s.registry ∧ o.Carried) :
    Holding d b m' (s.withStored b c) := by
  have hput : (s.store.putCollection (s.binding b).collection c).collectionAt
      (s.binding b).collection = c := by
    rw [Store.collectionAt_putCollection, if_pos ⟨rfl, h.made⟩]
  have hknown : ∀ o ∈ m'.items, Registry.Grown d.catalog o.names s.registry ∧ o.Carried := by
    intro o ho
    rcases hitems o ho with hm | hnew
    · exact ⟨h.named o hm, h.carried o hm⟩
    · exact hnew
  refine ⟨h.catalog, h.schema, h.grown, h.depth, h.name, ?_, ?_, ?_, fun o ho => (hknown o ho).1,
    fun o ho => (hknown o ho).2⟩
  · have hm := h.made
    simpa [withStored, Store.putCollection, binding] using hm
  · exact (congrArg Collection.idField hput).trans hid
  · exact (congrArg Collection.documents hput).trans hd

theorem Holding.filed (h : Holding d b m s) : Filed (s.stored b).idField m.filed := by
  intro p hp
  obtain ⟨o, ho, rfl⟩ := List.mem_map.mp hp
  rw [h.idField]
  exact h.carried o ho

theorem Holding.single (h : Holding d b m s) : SingleName (s.stored b).idField := by
  rw [h.idField]
  exact h.name

theorem Holding.entries (h : Holding d b m s) (hc : o.Carried) :
    Entries.get? (str (s.stored b).idField) o.entries = some (uuid o.id) := by
  rw [h.idField]
  exact hc

theorem document_run (h : Holding d b m s) (o : Item d) :
    ∃ t, document o.object s = (.ok (dict o.entries), t) ∧ Holding d b m t ∧
      Registry.Grown d.catalog o.names t.registry := by
  obtain ⟨names, hw, hg⟩ := o.written_onward h.grown
  rw [← h.catalog, ← h.schema] at hw
  have hgrown := (Codec.toDocument_steady s.catalog s.schema o.object).grows hw
  refine ⟨{ s with registry := names }, ?_, h.quiet ?_, hg⟩
  · unfold document
    rw [bind_of_ok (run_get s), naming_run hw]
  · exact quiet_withNames hgrown s.store.journal

theorem insert_fresh (h : Holding d b m s) (hc : o.Carried) (hm : ¬ m.Has o.id) :
    ∃ t, insert b o.object s = (.ok (), t) ∧ Holding d b (m.insert o hm) t := by
  obtain ⟨t, ht, hh, hnames⟩ := document_run h o
  obtain ⟨w, hw, hwrite⟩ : ∃ w, onCollection b (fun n => Store.insert n (dict o.entries)) t =
      (.ok (), w) ∧ Holding d b (m.insert o hm) w := by
    have hfiled : (m.insert o hm).filed = m.filed ++ [(o.id, o.entries)] := by
      simp [ObjectMap.filed, Item.filed, ObjectMap.insert]
    have hput := Store.insert_run (Collection.insert_fresh hh.documents (hh.entries hc)
      (ObjectMap.not_has_filed.mp hm) t.store.issued)
    refine ⟨_, onCollection_run hput, hh.write hh.idField (congrArg shelved hfiled.symm) ?_⟩
    intro p hp
    rcases List.mem_append.mp hp with hp | hp
    · exact .inl hp
    · rw [List.mem_singleton.mp hp]
      exact .inr ⟨hnames, hc⟩
  obtain ⟨ids, hids, hsee⟩ := see_run b o.id w
  have hrun : insert b o.object s =
      debug b (fun name => s!"Inserted {(uuid o.id).display} into '{name}'")
        (w.withRead b ids w.store) := by
    unfold insert
    rw [bind_of_ok ht, bind_of_ok hw, o.identified, bind_of_ok (run_liftExcept _ w),
      bind_of_ok (run_get w), hids, bind_of_ok (run_liftExcept _ w), bind_of_ok hsee]
  exact ⟨_, hrun.trans (debug_run b _ _),
    hwrite.quiet ((quiet_withRead (.refl _) ids).trans (quiet_debug b _ _))⟩

theorem insert_taken (h : Holding d b m s) (hc : o.Carried) (hm : m.Has o.id) :
    ∃ f n t, insert b o.object s = (.error (.duplicate f (uuid o.id) n), t) ∧
      Holding d b m t := by
  obtain ⟨t, ht, hh, _⟩ := document_run h o
  have hput := Store.insert_error (Collection.insert_taken hh.documents (hh.entries hc)
    (ObjectMap.has_filed.mp hm) t.store.issued)
  have hrun : insert b o.object s = (.error (.duplicate (t.stored b).idField (uuid o.id)
      (t.stored b).name.display), t) := by
    unfold insert
    rw [bind_of_ok ht, bind_of_error (onCollection_run hput)]
  exact ⟨_, _, t, hrun, hh⟩

theorem change_run {α : Type} {f : Collection → Except Error (α × Collection)} {a : α}
    {c : Collection} (h : f (s.stored b) = .ok (a, c)) :
    onCollection b (fun n => Store.onCollection n f) s = (.ok a, s.withStored b c) :=
  onCollection_run (Store.onCollection_run h)

theorem Holding.unchanged (h : Holding d b m s) : Holding d b m (s.withStored b (s.stored b)) :=
  h.write h.idField h.documents fun _ ho => .inl ho

theorem replace_missing (h : Holding d b m s) (hm : ¬ m.Has o.id) :
    ∃ n t, replace b o.object s = (.error (.notFound (uuid o.id) n), t) ∧ Holding d b m t := by
  obtain ⟨t, ht, hh, _⟩ := document_run h o
  have hnone := Collection.replaceFirst_absent hh.single (.inl rfl) hh.documents hh.filed
    (ObjectMap.not_has_filed.mp hm) (dict o.entries)
  rw [hh.idField, ← hh.schema] at hnone
  have hrun : replace b o.object s = (.error (.notFound (uuid o.id)
      ((t.withStored b (t.stored b)).binding b).name), t.withStored b (t.stored b)) := by
    unfold replace
    rw [bind_of_ok ht, o.identified, bind_of_ok (run_liftExcept _ t), bind_of_ok (idQuery_run _ t),
      bind_of_ok (change_run hnone)]
    exact missing_run b _ _
  exact ⟨_, _, hrun, hh.unchanged⟩

theorem replace_present (h : Holding d b m s) (hc : o.Carried) (hm : m.Has o.id) :
    ∃ t, replace b o.object s = (.ok (), t) ∧ Holding d b (m.replace o) t := by
  obtain ⟨t, ht, hh, hnames⟩ := document_run h o
  obtain ⟨before, x, after, hitems, hx, hbefore, hafter⟩ := ObjectMap.split_of_has hm
  rw [← hx] at hbefore hafter
  have hreplaced := ObjectMap.replace_split hitems hbefore hafter hx.symm
  have hfiled : m.filed = before.map Item.filed ++ (o.id, x.entries) :: after.map Item.filed := by
    simp [ObjectMap.filed, Item.filed, hitems, hx]
  have hfiled' : (m.replace o).filed =
      before.map Item.filed ++ (o.id, o.entries) :: after.map Item.filed := by
    simp [ObjectMap.filed, Item.filed, hreplaced]
  have hdocuments := hh.documents
  have hids := hh.filed
  rw [hfiled] at hdocuments hids
  have hfound := Collection.replaceFirst_present hh.single (.inl rfl) hdocuments hids
    (by simpa [Item.filed, hx] using hbefore) (hh.entries hc)
  rw [← hfiled', hh.idField, ← hh.schema] at hfound
  have hwrite : Holding d b (m.replace o)
      (t.withStored b ((t.stored b).written (shelved (m.replace o).filed))) := by
    refine hh.write hh.idField rfl fun p hp => ?_
    rcases ObjectMap.mem_replace hp with rfl | hp
    · exact .inr ⟨hnames, hc⟩
    · exact .inl hp
  have hrun : replace b o.object s = debug b
      (fun name => s!"Replaced {(uuid o.id).display} in '{name}'")
      (t.withStored b ((t.stored b).written (shelved (m.replace o).filed))) := by
    unfold replace
    rw [bind_of_ok ht, o.identified, bind_of_ok (run_liftExcept _ t), bind_of_ok (idQuery_run _ t),
      bind_of_ok (change_run hfound)]
  exact ⟨_, hrun.trans (debug_run b _ _), hwrite.quiet (quiet_debug b _ _)⟩

theorem delete_object (h : Holding d b m s) (o : Item d) :
    delete b o.object s = delete b (uuid o.id) s := by
  have hi := o.identifiable
  have hno : ¬ s.catalog.isIdentifiable (uuid o.id) = true := Bool.false_ne_true
  rw [← h.catalog] at hi
  unfold delete
  rw [bind_of_ok (run_get s), bind_of_ok (run_get s), if_pos hi, if_neg hno, o.identified]
  rfl

theorem delete_missing (h : Holding d b m s) (hm : ¬ m.Has u) :
    ∃ n t, delete b (uuid u) s = (.error (.notFound (uuid u) n), t) ∧ Holding d b m t := by
  have hnone := Collection.removeFirst_absent h.single (.inl rfl) h.documents h.filed
    (ObjectMap.not_has_filed.mp hm)
  rw [h.idField, ← h.schema] at hnone
  have hno : ¬ s.catalog.isIdentifiable (uuid u) = true := Bool.false_ne_true
  have hrun : delete b (uuid u) s = (.error (.notFound (uuid u)
      ((s.withStored b (s.stored b)).binding b).name), s.withStored b (s.stored b)) := by
    unfold delete
    rw [bind_of_ok (run_get s), if_neg hno, bind_of_ok (run_pure _ s)]
    beta_reduce
    rw [bind_of_ok (idQuery_run u s), bind_of_ok (change_run hnone)]
    exact missing_run b _ _
  exact ⟨_, _, hrun, h.unchanged⟩

theorem delete_present (h : Holding d b m s) (hm : m.Has u) :
    ∃ t, delete b (uuid u) s = (.ok (), t) ∧ Holding d b (m.remove u) t := by
  obtain ⟨before, x, after, hitems, rfl, hbefore, hafter⟩ := ObjectMap.split_of_has hm
  have hremoved := ObjectMap.remove_split hitems hbefore hafter
  have hfiled : m.filed = before.map Item.filed ++ (x.id, x.entries) :: after.map Item.filed := by
    simp [ObjectMap.filed, Item.filed, hitems]
  have hfiled' : (m.remove x.id).filed = before.map Item.filed ++ after.map Item.filed := by
    simp [ObjectMap.filed, hremoved]
  have hdocuments := h.documents
  have hids := h.filed
  rw [hfiled] at hdocuments hids
  have hfound := Collection.removeFirst_present h.single (.inl rfl) hdocuments hids
    (by simpa [Item.filed] using hbefore)
  rw [← hfiled', h.idField, ← h.schema] at hfound
  have hno : ¬ s.catalog.isIdentifiable (uuid x.id) = true := Bool.false_ne_true
  have hwrite : Holding d b (m.remove x.id)
      (s.withStored b ((s.stored b).written (shelved (m.remove x.id).filed))) :=
    h.write h.idField rfl fun p hp => .inl (List.mem_of_mem_filter hp)
  have hrun : delete b (uuid x.id) s = debug b
      (fun name => s!"Deleted {(uuid x.id).display} from '{name}'")
      (s.withStored b ((s.stored b).written (shelved (m.remove x.id).filed))) := by
    unfold delete
    rw [bind_of_ok (run_get s), if_neg hno, bind_of_ok (run_pure _ s)]
    beta_reduce
    rw [bind_of_ok (idQuery_run x.id s), bind_of_ok (change_run hfound)]
  exact ⟨_, hrun.trans (debug_run b _ _), hwrite.quiet (quiet_debug b _ _)⟩

end Session

end DocStore
