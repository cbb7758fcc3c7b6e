import DocStore.Proofs.Document.Entries
import DocStore.Proofs.Store.Operations

/-! Loading collections: documents under identifiers that differ are inserted in their order, and
indexes come back from their names. -/

namespace DocStore

open Value

def Collection.indexed (c : Collection) (name : String) : Collection :=
  ⟨c.name, c.idField, c.documents, c.indexes ++ [name], c.reads, c.writes⟩

namespace Store

variable {s t u : Store} {n : Nat}

/-- What a store holds under a name. -/
structure Content where
  name : Value
  documents : List Value
  indexes : List String

def contents (s : Store) : List Content :=
  s.names.map fun p => ⟨p.1, (s.collectionAt p.2).documents.values, (s.collectionAt p.2).indexes⟩

/-- What a snapshot says about a content. -/
def Content.entry (c : Content) : Value × Value :=
  (c.name, dict [(str "documents", list c.documents), (str "indexes", list (c.indexes.map str))])

/-- Of the named collections and the others, only the one with this number may differ. -/
structure Only (n : Nat) (s t : Store) : Prop where
  names : t.names = s.names
  idField : t.idField = s.idField
  size : t.collections.length = s.collections.length
  others : ∀ m, m ≠ n → t.collectionAt m = s.collectionAt m

/-- A collection holds so much, and all else is as it was. -/
structure Filled (n : Nat) (s t : Store) (documents : Entries) (indexes : List String) : Prop
    extends Only n s t where
  field : (t.collectionAt n).idField = (s.collectionAt n).idField
  documents : (t.collectionAt n).documents = documents
  indexes : (t.collectionAt n).indexes = indexes

theorem Filled.refl (n : Nat) (s : Store) :
    Filled n s s (s.collectionAt n).documents (s.collectionAt n).indexes :=
  ⟨⟨rfl, rfl, rfl, fun _ _ => rfl⟩, rfl, rfl, rfl⟩

theorem Filled.trans {documents documents' : Entries} {indexes indexes' : List String}
    (h : Filled n s t documents indexes) (h' : Filled n t u documents' indexes') :
    Filled n s u documents' indexes' :=
  ⟨⟨h'.names.trans h.names, h'.idField.trans h.idField, h'.size.trans h.size,
    fun m hm => (h'.others m hm).trans (h.others m hm)⟩, h'.field.trans h.field, h'.documents,
    h'.indexes⟩

theorem filled_putCollection (hn : n < s.collections.length) {c : Collection}
    (hc : c.idField = (s.collectionAt n).idField) :
    Filled n s (s.putCollection n c) c.documents c.indexes := by
  have hself : (s.putCollection n c).collectionAt n = c := by
    rw [collectionAt_putCollection, if_pos ⟨rfl, hn⟩]
  refine ⟨⟨rfl, rfl, List.length_set, fun m hm => ?_⟩, by rw [hself, hc], by rw [hself],
    by rw [hself]⟩
  rw [collectionAt_putCollection, if_neg fun h => hm h.1]

/-! Documents -/

/-- A document with an identifier it can stand under. -/
def Identified (idField : String) (p : Value × Value) : Prop :=
  p.1.hashable = true ∧ ∃ ps, p.2 = dict ps ∧ Entries.get? (str idField) ps = some p.1

theorem insertEntries_run {c : Collection} {id : Value} {ps : Entries}
    (hid : Entries.get? (str c.idField) ps = some id) (hh : id.hashable = true)
    (hnew : Entries.contains id c.documents = false) :
    c.insertEntries ps = .ok (c.written (c.documents ++ [(id, dict ps)])) := by
  simp [Collection.insertEntries, hid, hh, hnew]

theorem insert_filled {p : Value × Value} (hn : n < s.collections.length)
    (hp : Identified (s.collectionAt n).idField p)
    (hnew : Entries.contains p.1 (s.collectionAt n).documents = false) :
    ∃ t, insert n p.2 s = (.ok (), t) ∧
      Filled n s t ((s.collectionAt n).documents ++ [p]) (s.collectionAt n).indexes := by
  obtain ⟨id, document⟩ := p
  obtain ⟨hh, ps, rfl, hid⟩ := hp
  have hident : Collection.identified (s.collectionAt n).idField (dict ps) s.issued =
      (.ok ps, s.issued) := by
    simp [Collection.identified, Entries.contains, hid, run_pure]
  have hinsert : (s.collectionAt n).insert (dict ps) s.issued =
      (.ok ((s.collectionAt n).written ((s.collectionAt n).documents ++ [(id, dict ps)])),
        s.issued) := by
    unfold Collection.insert
    rw [bind_of_ok hident, insertEntries_run hid hh hnew]
    rfl
  have hfilled : Filled n s (s.putCollection n
      ((s.collectionAt n).written ((s.collectionAt n).documents ++ [(id, dict ps)])))
      ((s.collectionAt n).documents ++ [(id, dict ps)]) (s.collectionAt n).indexes :=
    filled_putCollection hn rfl
  exact ⟨_, insert_run hinsert, hfilled⟩

theorem insertAll_filled {qs : Entries} (hn : n < s.collections.length)
    (hq : ∀ p ∈ qs, Identified (s.collectionAt n).idField p)
    (ha : Entries.Apart ((s.collectionAt n).documents ++ qs).keys) :
    ∃ t, insertAll n qs.values s = (.ok (), t) ∧
      Filled n s t ((s.collectionAt n).documents ++ qs) (s.collectionAt n).indexes := by
  induction qs generalizing s with
  | nil =>
    rw [List.append_nil]
    exact ⟨s, rfl, .refl n s⟩
  | cons p qs ih =>
    obtain ⟨hp, hrest⟩ := List.forall_mem_cons.mp hq
    have hkeys : ((s.collectionAt n).documents ++ p :: qs).keys =
        (s.collectionAt n).documents.keys ++ p.1 :: Entries.keys qs := by
      simp [Entries.keys]
    have hnew : Entries.contains p.1 (s.collectionAt n).documents = false := by
      rw [Entries.contains_eq_false_iff]
      rw [hkeys, Entries.Apart, List.pairwise_append] at ha
      exact fun q hmem => ha.2.2 q.1 (List.mem_map_of_mem hmem) p.1 (by simp)
    obtain ⟨t, ht, hft⟩ := insert_filled hn hp hnew
    have happend : (t.collectionAt n).documents ++ qs =
        (s.collectionAt n).documents ++ p :: qs := by
      rw [hft.documents, List.append_assoc, List.singleton_append]
    obtain ⟨u, hu, hfu⟩ := ih (s := t) (by rw [hft.size]; exact hn)
      (by rw [hft.field]; exact hrest) (by rw [happend]; exact ha)
    rw [happend, hft.indexes] at hfu
    refine ⟨u, ?_, hft.trans hfu⟩
    change insertAll n (p.2 :: Entries.values qs) s = _
    rw [insertAll, bind_of_ok ht, hu]

/-! Indexes -/

theorem splitIndexName_append (field direction : String) (h : '_' ∉ direction.toList) :
    splitIndexName (field ++ "_" ++ direction) = (field, direction) := by
  have htake : ((field ++ "_" ++ direction).toList.reverse.takeWhile (· ≠ '_')).reverse =
      direction.toList := by
    have hall : ∀ c ∈ direction.toList.reverse, (decide (c ≠ '_')) = true := by
      intro c hc
      have hne : c ≠ '_' := fun he => h (he ▸ List.mem_reverse.mp hc)
      simpa using hne
    have hrev : (field ++ "_" ++ direction).toList.reverse =
        direction.toList.reverse ++ '_' :: field.toList.reverse := by
      simp [String.toList_append]
    rw [hrev, List.takeWhile_append_of_pos hall]
    simp
  have hlength : (field ++ "_" ++ direction).length =
      field.toList.length + 1 + direction.toList.length := by
    simp only [← String.length_toList, String.toList_append, List.length_append]
    rfl
  have hfield : (field ++ "_" ++ direction).toList.take field.toList.length = field.toList := by
    simp [String.toList_append]
  unfold splitIndexName
  simp only [htake, hlength]
  rw [if_neg (by omega), Nat.add_sub_cancel, Nat.add_sub_cancel, hfield, String.ofList_toList,
    String.ofList_toList]

theorem split_of_directed {name : String} (h : Collection.Directed name) :
    ∃ field direction d, splitIndexName name = (field, direction) ∧
      (str direction).toInteger = .ok d ∧ Collection.isDirection (int d) = true ∧
      Collection.indexName (str field) (int d) = name := by
  obtain ⟨field, rfl | rfl⟩ := h
  · have hsplit := splitIndexName_append field "1" (by decide)
    rw [String.append_assoc] at hsplit
    refine ⟨field, "1", 1, hsplit, rfl, by decide, ?_⟩
    rw [Collection.indexName_eq]
    rfl
  · have hsplit := splitIndexName_append field "-1" (by decide)
    rw [String.append_assoc] at hsplit
    refine ⟨field, "-1", -1, hsplit, rfl, by decide, ?_⟩
    rw [Collection.indexName_eq]
    rfl

theorem ensureIndex_filled {field : Value} {d : Int} (hn : n < s.collections.length)
    (hd : Collection.isDirection (int d) = true)
    (hnew : Collection.indexName field (int d) ∉ (s.collectionAt n).indexes) :
    ∃ t, ensureIndex n field (int d) s = (.ok (Collection.indexName field (int d)), t) ∧
      Filled n s t (s.collectionAt n).documents
        ((s.collectionAt n).indexes ++ [Collection.indexName field (int d)]) := by
  generalize hname : Collection.indexName field (int d) = name at hnew ⊢
  have hindex : (s.collectionAt n).ensureIndex field (int d) =
      .ok (name, true, (s.collectionAt n).indexed name) := by
    rw [Collection.isDirection] at hd
    simp only [Collection.ensureIndex, hd, hname, if_true]
    rw [if_neg (by simpa using hnew)]
    rfl
  have hon : onCollection n (fun c => (c.ensureIndex field (int d)).map
      fun r => ((r.1, r.2.1), r.2.2)) s =
      (.ok (name, true), s.putCollection n ((s.collectionAt n).indexed name)) := by
    simp only [onCollection, hindex, Except.map]
  have hfilled : Filled n s (s.putCollection n ((s.collectionAt n).indexed name))
      (s.collectionAt n).documents ((s.collectionAt n).indexes ++ [name]) :=
    filled_putCollection hn rfl
  unfold ensureIndex
  rw [bind_of_ok (run_get s), bind_of_ok hon]
  exact ⟨_, rfl, ⟨⟨rfl, rfl, hfilled.size, hfilled.others⟩, hfilled.field, hfilled.documents,
    hfilled.indexes⟩⟩

theorem loadIndexes_filled {names : List String} (hn : n < s.collections.length)
    (hd : ∀ name ∈ names, Collection.Directed name)
    (ho : ((s.collectionAt n).indexes ++ names).Nodup) :
    ∃ t, loadIndexes n (names.map str) s = (.ok (), t) ∧
      Filled n s t (s.collectionAt n).documents ((s.collectionAt n).indexes ++ names) := by
  induction names generalizing s with
  | nil =>
    rw [List.append_nil]
    exact ⟨s, rfl, .refl n s⟩
  | cons name names ih =>
    obtain ⟨hname, hrest⟩ := List.forall_mem_cons.mp hd
    obtain ⟨field, direction, d, hsplit, hint, hdirection, rfl⟩ := split_of_directed hname
    have hnew : Collection.indexName (str field) (int d) ∉ (s.collectionAt n).indexes := by
      intro hmem
      exact (List.nodup_append.mp ho).2.2 _ hmem _ (by simp) rfl
    obtain ⟨t, ht, hft⟩ := ensureIndex_filled hn hdirection hnew
    have happend : (t.collectionAt n).indexes ++ names =
        (s.collectionAt n).indexes ++ Collection.indexName (str field) (int d) :: names := by
      rw [hft.indexes, List.append_assoc, List.singleton_append]
    obtain ⟨u, hu, hfu⟩ := ih (s := t) (by rw [hft.size]; exact hn) hrest
      (by rw [happend]; exact ho)
    rw [happend, hft.documents] at hfu
    refine ⟨u, ?_, hft.trans hfu⟩
    have hlift : ∀ r : Store, (liftExcept (str direction).toInteger : Storing Int) r = (.ok d, r) :=
      fun r => by rw [run_liftExcept, hint]
    rw [List.map_cons, loadIndexes, hsplit]
    dsimp only
    rw [bind_of_ok (hlift s), bind_of_ok ht, hu]

/-! Collections -/

/-- A content that can be loaded: its documents differ in their identifiers. -/
structure Content.Loadable (idField : String) (c : Content) : Prop where
  identified : ∃ qs : Entries, c.documents = qs.values ∧ Entries.Apart qs.keys ∧
    ∀ p ∈ qs, Identified idField p
  once : c.indexes.Nodup
  directed : ∀ name ∈ c.indexes, Collection.Directed name

theorem numberOf?_of_apart {name : Value} (h : ∀ k ∈ s.collectionNames, equal k name = false) :
    s.numberOf? name = none := by
  rw [numberOf?, Option.map_eq_none_iff, List.find?_eq_none]
  intro p hp
  simp [h p.1 (List.mem_map_of_mem hp)]

/-- A new collection is empty, and those before it stay. -/
theorem collection_run {name : Value} (h : ∀ k ∈ s.collectionNames, equal k name = false) :
    ∃ t, collection name s = (.ok s.collections.length, t) ∧
      t.names = s.names ++ [(name, s.collections.length)] ∧ t.idField = s.idField ∧
      t.collections.length = s.collections.length + 1 ∧
      t.collectionAt s.collections.length = .empty name s.idField ∧
      ∀ m, m ≠ s.collections.length → t.collectionAt m = s.collectionAt m := by
  refine ⟨{ s with names := s.names ++ [(name, s.collections.length)],
                   collections := s.collections ++ [Collection.empty name s.idField] },
    ?_, rfl, rfl, by simp, ?_, fun m hm => ?_⟩
  · rw [collection, numberOf?_of_apart h]
  · rw [collectionAt_append, if_pos rfl]
  · rw [collectionAt_append, if_neg hm]

theorem itemsUnder_documents (c : Content) : itemsUnder "documents"
    [(str "documents", list c.documents), (str "indexes", list (c.indexes.map str))] =
      .ok c.documents := by
  simp [itemsUnder, Entries.get?, iterate?, sequence?]

theorem itemsUnder_indexes (c : Content) : itemsUnder "indexes"
    [(str "documents", list c.documents), (str "indexes", list (c.indexes.map str))] =
      .ok (c.indexes.map str) := by
  simp [itemsUnder, Entries.get?, iterate?, sequence?]

theorem contents_filled {c : Content} (hi : s.Inside)
    (hn : u.names = s.names ++ [(c.name, s.collections.length)])
    (hat : ∀ m, m ≠ s.collections.length → u.collectionAt m = s.collectionAt m)
    (hd : (u.collectionAt s.collections.length).documents.values = c.documents)
    (hx : (u.collectionAt s.collections.length).indexes = c.indexes) :
    u.contents = s.contents ++ [c] := by
  have hold : s.names.map (fun p => (⟨p.1, (u.collectionAt p.2).documents.values,
      (u.collectionAt p.2).indexes⟩ : Content)) = s.contents := by
    refine List.map_congr_left fun p hp => ?_
    rw [hat p.2 (hi p hp).ne]
  rw [contents, hn, List.map_append, hold, List.map_singleton, hd, hx]

/-- One collection is loaded after what is there: first all of its documents, then its indexes. -/
theorem loadContent_run {c : Content} (hi : s.Inside)
    (ha : ∀ k ∈ s.collectionNames, equal k c.name = false) (hc : c.Loadable s.idField)
    (rest : Entries) : ∃ t, loadCollections (c.entry :: rest) s = loadCollections rest t ∧
      t.idField = s.idField ∧ t.contents = s.contents ++ [c] ∧ t.Inside := by
  obtain ⟨⟨qs, hqs, hapart, hid⟩, honce, hdirected⟩ := hc
  obtain ⟨r, hr, hnames, hfield, hsize, hempty, hold⟩ := collection_run ha
  have hn : s.collections.length < r.collections.length := by omega
  have hid' : ∀ p ∈ qs, Identified (r.collectionAt s.collections.length).idField p := by
    rwa [hempty]
  obtain ⟨t, ht, hft⟩ := insertAll_filled hn hid' (by rw [hempty]; exact hapart)
  have honce' : ((t.collectionAt s.collections.length).indexes ++ c.indexes).Nodup := by
    rwa [hft.indexes, hempty]
  obtain ⟨u, hu, hfu⟩ := loadIndexes_filled (by rw [hft.size]; exact hn) hdirected honce'
  have hall := hft.trans hfu
  refine ⟨u, ?_, ?_, ?_, ?_⟩
  · have hdocuments : ∀ w : Store, (liftExcept (itemsUnder "documents" [(str "documents",
        list c.documents), (str "indexes", list (c.indexes.map str))]) :
        Storing (List Value)) w = (.ok c.documents, w) :=
      fun w => by rw [run_liftExcept, itemsUnder_documents]
    have hindexes : ∀ w : Store, (liftExcept (itemsUnder "indexes" [(str "documents",
        list c.documents), (str "indexes", list (c.indexes.map str))]) :
        Storing (List Value)) w = (.ok (c.indexes.map str), w) :=
      fun w => by rw [run_liftExcept, itemsUnder_indexes]
    rw [← hqs] at ht
    rw [Content.entry, loadCollections, bind_of_ok hr]
    dsimp only
    rw [bind_of_ok (hdocuments r), bind_of_ok ht, bind_of_ok (hindexes t), bind_of_ok hu]
  · rw [hall.idField, hfield]
  · refine contents_filled hi (by rw [hall.names, hnames]) (fun m hm => ?_) ?_ ?_
    · rw [hall.others m hm, hold m hm]
    · rw [hall.documents, hft.documents, hempty, hqs]
      rfl
    · rw [hall.indexes, hft.indexes, hempty]
      rfl
  · intro p hp
    rw [hall.names, hnames] at hp
    rw [hall.size, hsize]
    rcases List.mem_append.mp hp with hp | hp
    · exact Nat.lt_succ_of_lt (hi p hp)
    · rw [List.mem_singleton.mp hp]
      exact Nat.lt_succ_self _

theorem names_contents (s : Store) : s.contents.map Content.name = s.collectionNames := by
  rw [contents, List.map_map]
  rfl

/-- Collections that differ in their names are loaded in their order. -/
theorem loadCollections_run {cs : List Content} (hi : s.Inside)
    (ha : Entries.Apart (s.collectionNames ++ cs.map Content.name))
    (hc : ∀ c ∈ cs, c.Loadable s.idField) :
    ∃ t, loadCollections (cs.map Content.entry) s = (.ok (), t) ∧ t.idField = s.idField ∧
      t.contents = s.contents ++ cs := by
  induction cs generalizing s with
  | nil => exact ⟨s, rfl, rfl, (List.append_nil _).symm⟩
  | cons c cs ih =>
    obtain ⟨hfirst, hrest⟩ := List.forall_mem_cons.mp hc
    have hnew : ∀ k ∈ s.collectionNames, equal k c.name = false := by
      rw [List.map_cons, Entries.Apart, List.pairwise_append] at ha
      exact fun k hk => ha.2.2 k hk c.name (by simp)
    obtain ⟨t, ht, hfield, hcontents, hinside⟩ :=
      loadContent_run hi hnew hfirst (cs.map Content.entry)
    have hnames : t.collectionNames = s.collectionNames ++ [c.name] := by
      rw [← names_contents, hcontents, List.map_append, names_contents]
      rfl
    obtain ⟨u, hu, hufield, hucontents⟩ := ih hinside
      (by rw [hnames, List.append_assoc]; exact ha) (by rw [hfield]; exact hrest)
    refine ⟨u, by rw [List.map_cons, ht, hu], by rw [hufield, hfield], ?_⟩
    rw [hucontents, hcontents, List.append_assoc, List.singleton_append]

/-- What a snapshot says is what a store holds that was loaded from it, whatever was there. -/
theorem load_run {file : List UInt8} {idField : String} {cs : List Content}
    (hf : Snapshot.unpack file = .ok (dict (cs.map Content.entry)))
    (ha : Entries.Apart (cs.map Content.name)) (hc : ∀ c ∈ cs, c.Loadable idField)
    (path : String) (s : Store) : ∃ t, load file idField path s = (.ok (), t) ∧
      t.idField = idField ∧ t.contents = cs := by
  have hi : ({ s with idField := idField, names := [] } : Store).Inside := by simp [Inside]
  obtain ⟨t, ht, hfield, hcontents⟩ := loadCollections_run hi ha hc
  have hlift : (liftExcept (Snapshot.unpack file) : Storing Value) s =
      (.ok (dict (cs.map Content.entry)), s) := by
    rw [run_liftExcept, hf]
  rw [load, bind_of_ok hlift]
  dsimp only
  unfold replacing
  rw [bind_of_ok ht]
  exact ⟨_, rfl, hfield, hcontents⟩

end Store

end DocStore
