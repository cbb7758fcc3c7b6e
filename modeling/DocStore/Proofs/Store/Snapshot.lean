import DocStore.Proofs.Store.Loading
import DocStore.Proofs.Wire.Limits

/-! Snapshots: what a store held when it was saved is what one that is loaded holds, in the same
order. -/

namespace DocStore

open Value Wire

theorem Value.hashable_of_single {v : Value} (h : v.single = true) : v.hashable = true := by
  cases v <;> first | rfl | cases h

theorem Entries.get?_received (n : String) (ps : Entries) :
    Entries.get? (str n) (receivedEntries ps) = (Entries.get? (str n) ps).map received := by
  rw [receivedEntries_eq]
  induction ps with
  | nil => rfl
  | cons p ps ih =>
    rw [List.map_cons, Entries.get?, Entries.get?, ih]
    split <;> rfl

namespace Store

variable {N : String → Prop} {s : Store} {file : List UInt8} {idField : String}

/-- Documents whose identifier comes back as it was. -/
def Returns (idField : String) (d : Value) : Prop :=
  ∃ ps id, d = dict ps ∧ Entries.get? (str idField) ps = some id ∧ id.single = true ∧
    id.received = id

def identifier (idField : String) : Value → Value
  | dict ps => (Entries.get? (str idField) ps).getD null
  | _ => null

/-- A content as it is read back. -/
def Content.received (c : Content) : Content := ⟨c.name, c.documents.map Value.received, c.indexes⟩

theorem identified_received {d : Value} (h : Returns idField d) :
    Identified idField (identifier idField d, d.received) := by
  obtain ⟨ps, id, rfl, hid, hs, hr⟩ := h
  have hget : identifier idField (dict ps) = id := by
    rw [identifier, hid]
    rfl
  rw [hget]
  refine ⟨hashable_of_single hs, receivedEntries ps, rfl, ?_⟩
  rw [Entries.get?_received, hid, Option.map_some, hr]

/-- Documents under keys that differ have identifiers that differ. -/
theorem equal_identifiers {c : Collection} {p q : Value × Value} (hc : c.Orderly N)
    (hp : p ∈ c.documents) (hq : q ∈ c.documents) (hrp : Returns c.idField p.2)
    (hrq : Returns c.idField q.2)
    (h : equal (identifier c.idField p.2) (identifier c.idField q.2) = true) :
    equal p.1 q.1 = true := by
  have hunder : ∀ {p : Value × Value}, p ∈ c.documents → Returns c.idField p.2 →
      Under p.1 (identifier c.idField p.2) ∧ (identifier c.idField p.2).single = true := by
    intro p hp hr
    obtain ⟨ps, hps, hu⟩ := hc.stands p hp
    obtain ⟨qs, id, hqs, hid, hs, _⟩ := hr
    obtain rfl : ps = qs := Value.dict.inj (hps.symm.trans hqs)
    rw [hps, identifier]
    refine ⟨hu, ?_⟩
    rw [hid]
    exact hs
  obtain ⟨hup, hsp⟩ := hunder hp hrp
  obtain ⟨huq, hsq⟩ := hunder hq hrq
  exact hup.equal_keys huq hsp hsq h

theorem loadable_received {c : Collection} (hc : c.Orderly N)
    (hr : ∀ d ∈ c.documents.values, Returns c.idField d)
    (hd : ∀ name ∈ c.indexes, Collection.Directed name) (name : Value) :
    Content.Loadable c.idField (Content.received ⟨name, c.documents.values, c.indexes⟩) := by
  have hdocument : ∀ p ∈ c.documents, Returns c.idField p.2 :=
    fun p hp => hr p.2 (List.mem_map_of_mem hp)
  refine ⟨⟨c.documents.map fun p => (identifier c.idField p.2, p.2.received), ?_, ?_, ?_⟩,
    hc.once, hd⟩
  · simp [Content.received, Entries.values]
  · have hapart := List.pairwise_map.mp hc.apart
    rw [Entries.keys, List.map_map, Entries.Apart, List.pairwise_map]
    refine hapart.imp_of_mem fun hp hq hne => ?_
    rw [← Bool.not_eq_true] at hne ⊢
    exact fun he => hne (equal_identifiers hc hp hq (hdocument _ hp) (hdocument _ hq) he)
  · intro q hq
    obtain ⟨p, hp, rfl⟩ := List.mem_map.mp hq
    exact identified_received (hdocument p hp)

/-- All that a snapshot is made of. -/
def snapshotValue (s : Store) : Value :=
  dict [(str "version", int Snapshot.version),
    (str "collections", dict (s.contents.map Content.entry))]

theorem snapshot_eq (s : Store) : s.snapshot = pack s.snapshotValue := by
  rw [snapshotValue, contents, List.map_map]
  rfl

theorem received_entry (c : Content) : (c.entry.1, c.entry.2.received) = c.received.entry := by
  have htexts : (c.indexes.map str).map Value.received = c.indexes.map str := by
    rw [List.map_map]
    rfl
  simp only [Content.entry, Content.received, Value.received, receivedEntries, receivedEntry,
    receivedList_eq, htexts]

theorem content_received (s : Store) : Snapshot.content s.snapshotValue.received =
    .ok (dict (s.contents.map fun c => c.received.entry)) := by
  have hentries : receivedEntries (s.contents.map Content.entry) =
      s.contents.map fun c => c.received.entry := by
    rw [receivedEntries_eq, List.map_map]
    exact List.map_congr_left fun c _ => received_entry c
  have hversion : equal (int Snapshot.version) (int Snapshot.version) = true := by decide
  simp [snapshotValue, Value.received, receivedEntries, receivedEntry, hentries, Snapshot.content,
    Entries.get?, hversion]

theorem unpack_snapshot (hl : Legible s.snapshotValue) (h : s.snapshot = .ok file) :
    Snapshot.unpack file = .ok (dict (s.contents.map fun c => c.received.entry)) := by
  rw [snapshot_eq] at h
  rw [Snapshot.unpack, unpack_pack hl h]
  exact content_received s

/-! What was saved is loaded -/

/-- Stores whose snapshots can be read: names are texts or bytes, the directions of indexes are
integers, and documents are what packing leaves as it is, up to tuples and offsets, under
identifiers that come back. -/
structure Restorable (s : Store) : Prop where
  names : ∀ name ∈ s.collectionNames, isKey name = true
  directed : ∀ c ∈ s.contents, ∀ name ∈ c.indexes, Collection.Directed name
  legible : ∀ c ∈ s.contents, ∀ d ∈ c.documents, Legible d
  returns : ∀ c ∈ s.contents, ∀ d ∈ c.documents, Returns s.idField d

theorem legible_entry {c : Content} (h : ∀ d ∈ c.documents, Legible d) : Legible c.entry.2 := by
  have hdocuments : Legible (list c.documents) := .list h
  have hindexes : Legible (list (c.indexes.map str)) := .list fun x hx => by
    obtain ⟨name, _, rfl⟩ := List.mem_map.mp hx
    exact .str name
  exact .dict (by simp [isKey]) (by simp) (by simp [hdocuments, hindexes])

theorem Restorable.isKey_name (hr : s.Restorable) {c : Content} (hc : c ∈ s.contents) :
    isKey c.name = true := by
  refine hr.names c.name ?_
  rw [← names_contents]
  exact List.mem_map_of_mem hc

theorem distinct_entries (hs : s.Orderly N) (hr : s.Restorable) :
    (s.contents.map Content.entry).Pairwise fun p q => p.1 ≠ q.1 := by
  have hapart := hs.apart
  rw [← names_contents, Entries.Apart, List.pairwise_map] at hapart
  rw [List.pairwise_map]
  refine hapart.imp_of_mem fun {a b} _ hb hne he => ?_
  have heq : equal a.name b.name = true := (equal_key (hr.isKey_name hb)).mpr he
  rw [heq] at hne
  cases hne

theorem legible_snapshotValue (hs : s.Orderly N) (hr : s.Restorable) : Legible s.snapshotValue := by
  have hcollections : Legible (dict (s.contents.map Content.entry)) := by
    refine .dict ?_ (distinct_entries hs hr) ?_
    · intro p hp
      obtain ⟨c, hc, rfl⟩ := List.mem_map.mp hp
      exact hr.isKey_name hc
    · intro p hp
      obtain ⟨c, hc, rfl⟩ := List.mem_map.mp hp
      exact legible_entry (hr.legible c hc)
  exact .dict (by simp [isKey]) (by simp) (by simp [hcollections, Legible.int])

theorem loadable_of_mem (hs : s.Orderly N) (hr : s.Restorable) :
    ∀ c ∈ s.contents.map Content.received, c.Loadable s.idField := by
  intro c hc
  obtain ⟨d, hd, rfl⟩ := List.mem_map.mp hc
  have hreturns := hr.returns d hd
  have hdirected := hr.directed d hd
  obtain ⟨p, hp, rfl⟩ := List.mem_map.mp hd
  rw [← hs.idField p hp] at hreturns ⊢
  exact loadable_received (hs.collections p.2) hreturns hdirected p.1

theorem load_snapshot (hs : s.Orderly N) (hr : s.Restorable) (h : s.snapshot = .ok file)
    (path : String) (s₀ : Store) : ∃ t, load file s.idField path s₀ = (.ok (), t) ∧
      t.idField = s.idField ∧ t.contents = s.contents.map Content.received := by
  have hunpack := unpack_snapshot (legible_snapshotValue hs hr) h
  have hentries : s.contents.map (fun c => c.received.entry) =
      (s.contents.map Content.received).map Content.entry := by
    rw [List.map_map]
    rfl
  have hnames : (s.contents.map Content.received).map Content.name = s.collectionNames := by
    rw [List.map_map, ← names_contents]
    rfl
  rw [hentries] at hunpack
  exact load_run hunpack (hnames ▸ hs.apart) (loadable_of_mem hs hr) path s₀

theorem save_eq_ok {path : String} {t : Store} (h : save path s = (.ok file, t)) :
    s.snapshot = .ok file := by
  unfold save at h
  rw [bind_of_ok (run_get s)] at h
  obtain ⟨a, hsnapshot, h⟩ := liftExcept_bind_eq_ok h
  obtain ⟨_, _, _, h⟩ := bind_eq_ok_iff.mp h
  obtain ⟨_, _, _, h⟩ := bind_eq_ok_iff.mp h
  obtain ⟨hfile, _⟩ := Prod.mk.inj h
  rw [hsnapshot, ← hfile]

theorem save_of_snapshot (h : s.snapshot = .ok file) (path : String) :
    ∃ t, save path s = (.ok file, t) := by
  have hlift : (liftExcept s.snapshot : Storing (List UInt8)) s = (.ok file, s) := by
    rw [run_liftExcept, h]
  unfold save
  rw [bind_of_ok (run_get s), bind_of_ok hlift]
  exact ⟨_, rfl⟩

/-- Names and numbers of documents are those that were saved. -/
theorem load_of_save {idField path : String} {issued : Nat} {ops : List Operation} {t : Store}
    (hr : ((empty idField issued).after ops).Restorable)
    (h : save path ((empty idField issued).after ops) = (.ok file, t)) (path' : String)
    (s₀ : Store) :
    ∃ u, load file ((empty idField issued).after ops).idField path' s₀ = (.ok (), u) ∧
      u.collectionNames = ((empty idField issued).after ops).collectionNames ∧
      u.contents.map (fun c => c.documents.length) =
        ((empty idField issued).after ops).contents.map fun c => c.documents.length := by
  have hs := orderly_run idField issued ops
  obtain ⟨u, hu, _, hcontents⟩ := load_snapshot hs hr (save_eq_ok h) path' s₀
  refine ⟨u, hu, ?_, ?_⟩
  · rw [← names_contents, hcontents, List.map_map, ← names_contents]
    rfl
  · rw [hcontents, List.map_map]
    exact List.map_congr_left fun c _ => List.length_map _

/-- A document with a point in time five microseconds east of universal time. -/
def eastward : List Operation :=
  [.collection (str "c"), .insert 0 (dict [(str "_id", int 1),
    (str "at", datetime { DateTime.midnight default with offset := some ⟨5, by decide⟩ })])]

theorem contents_eastward : ((empty "_id" 0).after eastward).contents =
    [⟨str "c", [dict [(str "_id", int 1),
      (str "at", datetime { DateTime.midnight default with offset := some ⟨5, by decide⟩ })]],
      []⟩] := rfl

theorem snapshot_eastward : ∃ file, ((empty "_id" 0).after eastward).snapshot = .ok file :=
  ⟨_, rfl⟩

theorem restorable_eastward : ((empty "_id" 0).after eastward).Restorable := by
  have hdocument : Legible (dict [(str "_id", int 1),
      (str "at", datetime { DateTime.midnight default with offset := some ⟨5, by decide⟩ })]) := by
    refine .dict (by simp [isKey]) (by simp) ?_
    simp only [List.forall_mem_cons]
    exact ⟨.int 1, .datetime _, by simp⟩
  refine ⟨?_, ?_, ?_, ?_⟩
  · rw [← names_contents, contents_eastward]
    simp [isKey]
  · rw [contents_eastward]
    simp
  · rw [contents_eastward]
    simpa using hdocument
  · rw [contents_eastward]
    simp only [List.forall_mem_cons]
    exact ⟨⟨⟨_, _, rfl, rfl, rfl, rfl⟩, by simp⟩, by simp⟩

theorem load_of_save_eastward : ((empty "_id" 0).after eastward).Restorable ∧ ∃ file t u,
    save "s" ((empty "_id" 0).after eastward) = (.ok file, t) ∧
      load file "_id" "s" (empty "_id" 0) = (.ok (), u) ∧
      u.collectionNames = ((empty "_id" 0).after eastward).collectionNames ∧
      u.contents.map (fun c => c.documents.length) =
        ((empty "_id" 0).after eastward).contents.map fun c => c.documents.length := by
  obtain ⟨file, hfile⟩ := snapshot_eastward
  obtain ⟨t, ht⟩ := save_of_snapshot hfile "s"
  obtain ⟨u, hu, hnames, hsizes⟩ := load_of_save restorable_eastward ht "s" (empty "_id" 0)
  exact ⟨restorable_eastward, file, t, u, ht, hu, hnames, hsizes⟩

/-- A dictionary under numbers is saved, but what was saved is not loaded. -/
def numbered : List Operation :=
  [.collection (str "c"), .insert 0 (dict [(str "_id", int 1), (str "m", dict [(int 1, str "a")])])]

theorem numbered_unreadable : ∃ file t,
    save "s" ((empty "_id" 0).after numbered) = (.ok file, t) ∧
      ∃ e u, load file "_id" "s" (empty "_id" 0) = (.error e, u) := ⟨_, _, rfl, _, _, rfl⟩

/-! Nothing is lost of what fits -/

/-- How deep documents may be: packing goes through the snapshot, the collections, one of these and
the list of its documents first. -/
def documentDepth : Nat := maxDepth - 4

structure Content.Fits (idField : String) (c : Content) : Prop where
  name : ∃ n, c.name = str n ∧ (utf8 n).length < 2 ^ 32
  few : c.documents.length < 2 ^ 32
  documents : ∀ d ∈ c.documents, Storable documentDepth d
  identified : ∀ d ∈ c.documents, ∃ ps id, d = dict ps ∧
    Entries.get? (str idField) ps = some id ∧ id.hashable = true
  fewIndexes : c.indexes.length < 2 ^ 32
  indexes : ∀ name ∈ c.indexes, (utf8 name).length < 2 ^ 32

def Fits (s : Store) : Prop := s.names.length < 2 ^ 32 ∧ ∀ c ∈ s.contents, c.Fits s.idField

theorem single_of_common {v : Value} (h : Common v) : v.single = true := by
  cases h <;> rfl

theorem common_of_storable {levels : Nat} {v : Value} (h : Storable levels v)
    (hh : v.hashable = true) : Common v := by
  cases h with
  | common hv => exact hv
  | list _ _ => cases hh
  | dict _ _ _ _ => cases hh

theorem returns_of_storable {levels : Nat} {ps : Entries} {id : Value}
    (h : Storable levels (dict ps)) (hid : Entries.get? (str idField) ps = some id)
    (hh : id.hashable = true) : Returns idField (dict ps) := by
  cases h with
  | common hv => cases hv
  | dict _ _ _ hvalues =>
    have hcommon := common_of_storable (hvalues _ (Entries.mem_of_get? hid)) hh
    exact ⟨ps, id, rfl, hid, single_of_common hcommon, hcommon.received_eq⟩

theorem directed_contents (hs : s.Orderly Collection.Directed) :
    ∀ c ∈ s.contents, ∀ name ∈ c.indexes, Collection.Directed name := by
  intro c hc
  obtain ⟨p, _, rfl⟩ := List.mem_map.mp hc
  exact (hs.collections p.2).named

theorem Fits.restorable (h : s.Fits) (hs : s.Orderly Collection.Directed) : s.Restorable := by
  refine ⟨fun name hname => ?_, directed_contents hs,
    fun c hc d hd => ((h.2 c hc).documents d hd).legible, fun c hc d hd => ?_⟩
  · rw [← names_contents] at hname
    obtain ⟨c, hc, rfl⟩ := List.mem_map.mp hname
    obtain ⟨n, hn, _⟩ := (h.2 c hc).name
    rw [hn]
    rfl
  · obtain ⟨ps, id, rfl, hid, hh⟩ := (h.2 c hc).identified d hd
    exact returns_of_storable ((h.2 c hc).documents _ hd) hid hh

theorem Fits.received (h : s.Fits) : s.contents.map Content.received = s.contents := by
  have hsame : ∀ c ∈ s.contents, c.received = c := by
    intro c hc
    have hdocuments : c.documents.map Value.received = c.documents.map id :=
      List.map_congr_left fun d hd => ((h.2 c hc).documents d hd).received_eq
    rw [Content.received, hdocuments, List.map_id]
  rw [List.map_congr_left hsame, List.map_id']

theorem storable_entry {c : Content} (h : c.Fits idField) :
    Storable (documentDepth + 2) c.entry.2 := by
  have hdocuments : Storable (documentDepth + 1) (list c.documents) := .list h.few h.documents
  have hindexes : Storable (documentDepth + 1) (list (c.indexes.map str)) := by
    refine .list (by rw [List.length_map]; exact h.fewIndexes) fun x hx => ?_
    obtain ⟨name, hname, rfl⟩ := List.mem_map.mp hx
    exact .common (.str (h.indexes name hname))
  refine .dict (by simp) ⟨by simp, by simp⟩ ?_ (by simp [hdocuments, hindexes])
  simp only [List.forall_mem_cons]
  exact ⟨.str (short (by decide)), .str (short (by decide)), by simp⟩

theorem Fits.storable (h : s.Fits) (hs : s.Orderly Collection.Directed) :
    Storable maxDepth s.snapshotValue := by
  have hcollections : Storable (documentDepth + 3) (dict (s.contents.map Content.entry)) := by
    refine .dict (by rw [List.length_map, contents, List.length_map]; exact h.1) ⟨?_, ?_⟩ ?_ ?_
    · intro p hp
      obtain ⟨c, hc, rfl⟩ := List.mem_map.mp hp
      obtain ⟨n, hn, _⟩ := (h.2 c hc).name
      exact ⟨n, hn⟩
    · exact distinct_entries hs (h.restorable hs)
    · intro p hp
      obtain ⟨c, hc, rfl⟩ := List.mem_map.mp hp
      obtain ⟨n, hn, hshort⟩ := (h.2 c hc).name
      rw [Content.entry, hn]
      exact .str hshort
    · intro p hp
      obtain ⟨c, hc, rfl⟩ := List.mem_map.mp hp
      exact storable_entry (h.2 c hc)
  have hversion : Storable (documentDepth + 3) (int Snapshot.version) :=
    .common (.int (by decide) (by decide))
  have hdepth : maxDepth = documentDepth + 4 := rfl
  rw [hdepth]
  refine .dict (by simp) ⟨by simp, by simp⟩ ?_ (by simp [hcollections, hversion])
  simp only [List.forall_mem_cons]
  exact ⟨.str (short (by decide)), .str (short (by decide)), by simp⟩

/-- What was saved is loaded as it was: names, documents and indexes, all in their order. -/
theorem load_save {idField : String} {issued : Nat} {ops : List Operation}
    (hops : ∀ op ∈ ops, op.Directed) (h : ((empty idField issued).after ops).Fits)
    (path path' : String) (s₀ : Store) :
    ∃ file t u, save path ((empty idField issued).after ops) = (.ok file, t) ∧
      load file ((empty idField issued).after ops).idField path' s₀ = (.ok (), u) ∧
      u.idField = ((empty idField issued).after ops).idField ∧
      u.contents = ((empty idField issued).after ops).contents := by
  have hs := orderly_directed idField issued hops
  obtain ⟨file, hfile⟩ := (h.storable hs).packAt
  obtain ⟨t, ht⟩ := save_of_snapshot ((snapshot_eq _).trans hfile) path
  obtain ⟨u, hu, hfield, hcontents⟩ :=
    load_snapshot hs (h.restorable hs) ((snapshot_eq _).trans hfile) path' s₀
  exact ⟨file, t, u, ht, hu, hfield, hcontents.trans h.received⟩

/-- Two collections, one of them empty, and an index over a field with an underscore. -/
def agenda : List Operation :=
  [.collection (str "notes"), .collection (str "later"),
    .insert 0 (dict [(str "_id", int 1), (str "at", datetime (.midnight default))]),
    .index 0 (str "sent_at") (int (-1)), .index 0 (str "at") (int 1)]

theorem contents_agenda : ((empty "_id" 0).after agenda).contents =
    [⟨str "notes", [dict [(str "_id", int 1), (str "at", datetime (.midnight default))]],
      ["sent_at_-1", "at_1"]⟩, ⟨str "later", [], []⟩] := rfl

theorem fits_agenda : ((empty "_id" 0).after agenda).Fits := by
  have hdocument : Storable documentDepth
      (dict [(str "_id", int 1), (str "at", datetime (.midnight default))]) := by
    refine .dict (by simp) ⟨by simp, by simp⟩ ?_ ?_
    · simp only [List.forall_mem_cons]
      exact ⟨.str (short (by decide)), .str (short (by decide)), by simp⟩
    · simp only [List.forall_mem_cons]
      exact ⟨.common (.int (by decide) (by decide)), .common (.datetime rfl), by simp⟩
  refine ⟨by decide, ?_⟩
  rw [contents_agenda]
  simp only [List.forall_mem_cons]
  refine ⟨⟨⟨_, rfl, short (by decide)⟩, by simp, by simpa using hdocument, ?_, by simp, ?_⟩,
    ⟨⟨_, rfl, short (by decide)⟩, by simp, by simp, by simp, by simp, by simp⟩, by simp⟩
  · intro d hd
    rw [List.mem_singleton.mp hd]
    exact ⟨_, _, rfl, rfl, rfl⟩
  · simp only [List.forall_mem_cons]
    exact ⟨short (by decide), short (by decide), by simp⟩

theorem directed_agenda : ∀ op ∈ agenda, op.Directed := by
  simp [agenda, Operation.Directed]

theorem load_save_agenda : (∀ op ∈ agenda, op.Directed) ∧
    ((empty "_id" 0).after agenda).Fits ∧ ∃ file t u,
    save "s" ((empty "_id" 0).after agenda) = (.ok file, t) ∧
      load file "_id" "s" (empty "_id" 7) = (.ok (), u) ∧ u.idField = "_id" ∧
      u.contents = ((empty "_id" 0).after agenda).contents :=
  ⟨directed_agenda, fits_agenda, load_save directed_agenda fits_agenda "s" "s" (empty "_id" 7)⟩

/-- An offset of less than a second is lost. -/
theorem eastward_lost : ∃ file t u,
    save "s" ((empty "_id" 0).after eastward) = (.ok file, t) ∧
      load file "_id" "s" (empty "_id" 0) = (.ok (), u) ∧
      u.contents ≠ ((empty "_id" 0).after eastward).contents := by
  obtain ⟨file, hfile⟩ := snapshot_eastward
  obtain ⟨t, ht⟩ := save_of_snapshot hfile "s"
  obtain ⟨u, hu, _, hcontents⟩ := load_snapshot (orderly_run "_id" 0 eastward)
    restorable_eastward hfile "s" (empty "_id" 0)
  refine ⟨file, t, u, ht, hu, fun he => ?_⟩
  rw [hcontents, contents_eastward] at he
  simp [Content.received, Value.received, receivedEntries, receivedEntry, DateTime.kept,
    Offset.kept] at he

end Store

end DocStore
