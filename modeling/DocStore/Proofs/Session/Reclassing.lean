import DocStore.Proofs.Query.Update
import DocStore.Proofs.Session.Migrating
import DocStore.Proofs.Store.Orderly

/-! Moving the documents of a revision to another class. Just those that are of the revision and
not of the class yet get it, and once they have it there is nothing left to do. -/

namespace DocStore

open Value

variable {n c : String} {revision : Value} {ps : Entries} {sc : Schema}

theorem equalsAny_str (c : String) : equalsAny [str c] (str c) = true := by
  simp [equalsAny, isNull, candidates, strictEqual, isBool]

/-- Of a revision, and not of a class. -/
def awaited (sc : Schema) (revision : Value) (c : String) : Entries :=
  [(str sc.revisionField, dict [(str "$eq", revision)]),
    (str sc.classField, dict [(str "$ne", str c)])]

def awaiting (sc : Schema) (revision : Value) (c : String) : Value := dict (awaited sc revision c)

def classed (sc : Schema) (c : String) : Value → Value
  | dict ps => dict (Entries.put (str sc.classField) (str c) ps)
  | d => d

def classing (sc : Schema) (c : String) : Value := setting [(sc.classField, str c)]

section Document

variable (hcls : SingleName sc.classField)
include hcls

theorem matchesQuery_awaiting (hrev : SingleName sc.revisionField) (revision : Value) (c : String)
    (ps : Entries) : matchesQuery (dict ps) (awaiting sc revision c) =
      .ok (equalsAny (Entries.get? (str sc.revisionField) ps).toList revision &&
        !equalsAny (Entries.get? (str sc.classField) ps).toList (str c)) := by
  have hold := matchesEntry_entry hrev (show startsWithDollar "$eq" = true from rfl) ps revision
  have hother := matchesEntry_entry hcls (show startsWithDollar "$ne" = true from rfl) ps (str c)
  rw [awaiting, awaited, matchesQuery, matchesEntries, hold, matchesEntries, hother]
  simp only [holdsOperator, matchesEntries]
  cases equalsAny (Entries.get? (str sc.revisionField) ps).toList revision <;>
    cases equalsAny (Entries.get? (str sc.classField) ps).toList (str c) <;> rfl

theorem matchesQuery_classed (hrev : SingleName sc.revisionField) (revision : Value) (c : String)
    (ps : Entries) :
    matchesQuery (classed sc c (dict ps)) (awaiting sc revision c) = .ok false := by
  rw [classed, matchesQuery_awaiting hcls hrev, Entries.get?_put_here, Option.toList_some,
    equalsAny_str]
  simp

theorem applyUpdate_classing
    (h : equalsAny (Entries.get? (str sc.classField) ps).toList (str c) = false) :
    applyUpdate (dict ps) (classing sc c) = ⟨classed sc c (dict ps), .ok true⟩ := by
  have hseg : segments sc.classField = [sc.classField] := segments_of_no_dot hcls.undotted
  have hholds : holdsAt [sc.classField] (str c) (dict ps) ≠ true := by
    intro hholds
    obtain ⟨w, hw, he, _⟩ := holdsAt_eq_true hholds
    obtain ⟨v, hv, hvw⟩ := Option.bind_eq_some_iff.mp hw
    cases hvw
    rw [hv, equal_str_right.mp he, Option.toList_some, equalsAny_str] at h
    cases h
  rw [classing, applyUpdate_setting]
  change setAll [(str sc.classField, str c)] false (dict ps) = _
  rw [setAll, hseg, if_neg hholds]
  rfl

end Document

namespace Collection

variable {idField : String} {p : Value × Value}

section Awaited

variable (hrev : SingleName sc.revisionField) (hcls : SingleName sc.classField)
include hrev hcls

theorem matched_awaiting_iff (hp : p.2 = dict ps) :
    matched (awaiting sc revision c) p = true ↔
      EqualAt p.2 sc.revisionField revision ∧ ¬ EqualAt p.2 sc.classField (str c) := by
  have hquery := matchesQuery_awaiting hcls hrev revision c ps
  rw [← hp] at hquery
  rw [matched_of_ok hquery, hp, equalAt_entry_iff hrev, equalAt_entry_iff hcls, Bool.and_eq_true,
    Bool.not_eq_true', Bool.not_eq_true]

theorem classing_awaiting (hp : p.2 = dict ps)
    (hm : matched (awaiting sc revision c) p = true) :
    applyUpdate p.2 (classing sc c) = ⟨classed sc c p.2, .ok true⟩ := by
  have hother := ((matched_awaiting_iff hrev hcls hp).mp hm).2
  rw [hp, equalAt_entry_iff hcls, Bool.not_eq_true] at hother
  rw [hp]
  exact applyUpdate_classing hcls hother

theorem classed_ne (hp : p.2 = dict ps) (hm : matched (awaiting sc revision c) p = true) :
    classed sc c p.2 ≠ p.2 := by
  intro hsame
  have hother := ((matched_awaiting_iff hrev hcls hp).mp hm).2
  rw [← hsame, hp, classed, equalAt_entry_iff hcls, Entries.get?_put_here] at hother
  exact hother (equalsAny_str c)

/-- The class is not the identifier, which stays what it was. -/
theorem unstopped_classing (hid : idField ≠ sc.classField) (hstands : Stands idField p)
    (hself : equal p.1 p.1 = true) (e : Error) :
    ¬ Stops idField (awaiting sc revision c) (classing sc c) p
      (matched (awaiting sc revision c) p) e := by
  obtain ⟨ps, hp, hequal⟩ := hstands.equal hself
  intro hstops
  cases hstops with
  | matching he =>
    rw [hp, matchesQuery_awaiting hcls hrev] at he
    cases he
  | applying hm he =>
    rw [classing_awaiting hrev hcls hp hm] at he
    cases he
  | identifier hm he hchanged =>
    rw [classing_awaiting hrev hcls hp hm, hp] at he
    cases he
    rw [Entries.get?_put_other hid, hequal] at hchanged
    cases hchanged

/-- What has got its class does not match any more. -/
theorem settled_classed (hp : p.2 = dict ps) (hm : matched (awaiting sc revision c) p = true) :
    Settled (awaiting sc revision c) (classing sc c)
      (applyUpdate p.2 (classing sc c)).document := by
  rw [classing_awaiting hrev hcls hp hm, hp]
  exact ⟨false, matchesQuery_classed hcls hrev revision c ps, by simp⟩

theorem updateEntries_classing {ds : Entries} (hid : idField ≠ sc.classField)
    (hstands : ∀ p ∈ ds, Stands idField p ∧ equal p.1 p.1 = true) (revision : Value) (c : String) :
    ∃ counts, updateEntries idField (awaiting sc revision c) (classing sc c) true ds =
        ⟨ds.map fun p => if matched (awaiting sc revision c) p then (p.1, classed sc c p.2) else p,
          counts, .ok ()⟩ ∧
      counts.modified = ds.countP (matched (awaiting sc revision c)) := by
  have hok : (updateEntries idField (awaiting sc revision c) (classing sc c) true ds).result =
      .ok () := ok_of_unstopped fun p hp =>
    unstopped_classing hrev hcls hid (hstands p hp).1 (hstands p hp).2
  have hfinished := finished_of_ok hok
  have happly : ∀ p ∈ ds, matched (awaiting sc revision c) p = true →
      applyUpdate p.2 (classing sc c) = ⟨classed sc c p.2, .ok true⟩ := by
    intro p hp hm
    obtain ⟨ps, hps, _⟩ := (hstands p hp).1
    exact classing_awaiting hrev hcls hps hm
  have hdocuments :
      (updateEntries idField (awaiting sc revision c) (classing sc c) true ds).documents =
        ds.map fun p =>
          if matched (awaiting sc revision c) p then (p.1, classed sc c p.2) else p := by
    rw [documents_of_finished hfinished]
    refine List.map_congr_left fun p hp => ?_
    by_cases hm : matched (awaiting sc revision c) p = true
    · rw [renewed, if_pos hm, if_pos hm, happly p hp hm]
    · rw [renewed, if_neg hm, if_neg hm]
  refine ⟨_, by rw [← hdocuments, ← hok], ?_⟩
  rw [modified_of_finished hfinished]
  refine List.countP_congr fun p hp => ?_
  rw [Bool.and_eq_true, and_iff_left_iff_imp]
  intro hm
  exact changes_of_ok (congrArg Updated.result (happly p hp hm))

end Awaited

end Collection

namespace Session

variable {b m : Nat} {s t : Session}

/-- Revisions that documents are asked for. -/
def IsRevision (v : Value) : Prop := v = null ∨ ∃ n, v = int n

theorem make_revision (h : fieldNameFault? n = none) (hx : IsRevision revision) :
    Filter.make ⟨n, .cls (.kind .int), h⟩ .equal revision =
      .ok (.field ⟨n, .cls (.kind .int), h⟩ .equal revision) := by
  rcases hx with rfl | ⟨k, rfl⟩
  · rfl
  · rfl

theorem compileAll_awaited {depth : Value} (cat : Catalog) (r : Registry)
    (hrev : fieldNameFault? sc.revisionField = none) (hcls : fieldNameFault? sc.classField = none)
    (hne : sc.classField ≠ sc.revisionField) (hd : related .gt (int 1) depth = some false)
    (hx : IsRevision revision) (c : String) (t t' : TypeSpec) :
    Filter.compileAll cat sc depth [] [.field ⟨sc.revisionField, t, hrev⟩ .equal revision,
      .field ⟨sc.classField, t', hcls⟩ .notEqual (str c)] r = (.ok (awaited sc revision c), r) := by
  have hkept : Filter.operand cat sc .equal revision r = (.ok revision, r) := by
    rcases hx with rfl | ⟨k, rfl⟩
    · rfl
    · rfl
  rw [compileAll_comparison hd rfl hkept rfl, compileAll_comparison hd rfl rfl]
  · rfl
  · exact Entries.get?_past (by simpa using hne.symm) []

theorem replaceRevisionClass_run (hrev : SingleName s.schema.revisionField)
    (hcls : SingleName s.schema.classField) (hne : s.schema.classField ≠ s.schema.revisionField)
    (hd : related .gt (int 1) s.settings.maxDepth = some false) (hx : IsRevision revision)
    (hc : c ≠ "")
    (h : updateAll b (awaiting s.schema revision c) (classing s.schema c) s = (.ok m, t)) :
    ∃ j, replaceRevisionClass b revision (str c) s = (.ok m, t.withNames t.registry j) := by
  have hcompile := compileAll_awaited s.catalog s.registry hrev.named hcls.named hne hd hx c
    (.cls (.kind .int)) (.cls (.kind .str))
  obtain ⟨j, hj⟩ := info_run b (fun name =>
    s!"Moved {m} documents of revision {revision.display} to class '{c}' in '{name}'") t
  refine ⟨j, ?_⟩
  unfold replaceRevisionClass
  dsimp only
  rw [if_neg hc, bind_of_ok (run_pure c s), bind_of_ok (run_get s),
    Field.ofText_of_named hrev.named, bind_of_ok (run_liftExcept _ s),
    Field.ofText_of_named hcls.named, bind_of_ok (run_liftExcept _ s),
    make_revision hrev.named hx, bind_of_ok (run_liftExcept _ s)]
  have hmake : Filter.make ⟨s.schema.classField, .cls (.kind .str), hcls.named⟩ .notEqual (str c) =
      .ok (.field ⟨s.schema.classField, .cls (.kind .str), hcls.named⟩ .notEqual (str c)) := rfl
  have hnaming : naming (Filter.compileAll s.catalog s.schema s.settings.maxDepth [] _) s =
      (.ok (awaited s.schema revision c), s) := naming_run hcompile
  have hset : updateAll b (dict (awaited s.schema revision c))
      (dict [(str "$set", dict [(str s.schema.classField, str c)])]) s = (.ok m, t) := h
  rw [hmake, bind_of_ok (run_liftExcept _ s), bind_of_ok hnaming, bind_of_ok hset, bind_of_ok hj]
  rfl

/-- Documents that were due have got a class, and differ by it; everything else is as before. -/
structure Reclassed (b : Nat) (revision : Value) (c : String) (due : Value × Value → Bool)
    (s t : Session) : Prop where
  due_iff : ∀ p ∈ (s.stored b).documents, due p = true ↔
    EqualAt p.2 s.schema.revisionField revision ∧ ¬ EqualAt p.2 s.schema.classField (str c)
  documents : (t.stored b).documents = (s.stored b).documents.map fun p =>
    if due p then (p.1, classed s.schema c p.2) else p
  differs : ∀ p ∈ (s.stored b).documents, due p = true → classed s.schema c p.2 ≠ p.2
  beside : ∀ k, (s.binding k).collection ≠ (s.binding b).collection →
    (t.stored k).documents = (s.stored k).documents

/-- The documents of a revision get a class that they do not have, as many as are counted, and no
others do. Doing it again changes nothing. Identifiers are to be equal to themselves, as all are but
NaN and handles. -/
theorem replaceRevisionClass_again (hrev : SingleName s.schema.revisionField)
    (hcls : SingleName s.schema.classField) (hne : s.schema.classField ≠ s.schema.revisionField)
    (hid : (s.stored b).idField ≠ s.schema.classField)
    (hd : related .gt (int 1) s.settings.maxDepth = some false)
    (hstands : ∀ p ∈ (s.stored b).documents,
      Collection.Stands (s.stored b).idField p ∧ equal p.1 p.1 = true)
    (hx : IsRevision revision) (hc : c ≠ "") :
    ∃ due t u, Reclassed b revision c due s t ∧
      replaceRevisionClass b revision (str c) s = (.ok ((s.stored b).documents.countP due), t) ∧
      replaceRevisionClass b revision (str c) t = (.ok 0, u) ∧
      ∀ k, (u.stored k).documents = (t.stored k).documents := by
  have hshape : ∀ p ∈ (s.stored b).documents, ∃ ps, p.2 = dict ps := by
    intro p hp
    obtain ⟨ps, hps, _⟩ := (hstands p hp).1
    exact ⟨ps, hps⟩
  obtain ⟨counts, hpass, hcount⟩ :=
    Collection.updateEntries_classing hrev hcls hid hstands revision c
  have hmodified := (congrArg (fun x => x.counts.modified) hpass).trans hcount
  have hupdate := updateAll_eq_ok_iff.mpr ⟨congrArg Collection.Pass.result hpass, hmodified, rfl⟩
  have hsettled := (settled_updateAll_iff hupdate).mpr fun p hp hm _ => by
    obtain ⟨ps, hps⟩ := hshape p hp
    exact Collection.settled_classed hrev hcls hps hm
  obtain ⟨j, hrun⟩ := replaceRevisionClass_run hrev hcls hne hd hx hc hupdate
  -- what was written to the journal between the two runs is no matter
  let t := (s.passed b (awaiting s.schema revision c) (classing s.schema c)).withNames s.registry j
  obtain ⟨u, hidle, hsame⟩ : ∃ u, updateAll b (awaiting t.schema revision c)
      (classing t.schema c) t = (.ok 0, u) ∧
        ∀ k, (u.stored k).documents = (t.stored k).documents := updateAll_idle_iff.mpr hsettled
  obtain ⟨_, hagain⟩ := replaceRevisionClass_run (s := t) hrev hcls hne hd hx hc hidle
  refine ⟨_, t, _, ⟨fun p hp => ?_, ?_, fun p hp hm => ?_, fun k hk => ?_⟩, hrun, hagain, hsame⟩
  · obtain ⟨ps, hps⟩ := hshape p hp
    exact Collection.matched_awaiting_iff hrev hcls hps
  · have hstored := (stored_passed s b b (awaiting s.schema revision c) (classing s.schema c)).2
    rw [if_pos rfl] at hstored
    exact hstored.trans (congrArg Collection.Pass.documents hpass)
  · obtain ⟨ps, hps⟩ := hshape p hp
    exact Collection.classed_ne hrev hcls hps hm
  · have hstored := (stored_passed s b k (awaiting s.schema revision c) (classing s.schema c)).2
    rwa [if_neg hk] at hstored

/-- Two of four are of the revision, and one of them has the class already, be it in a list. -/
def enrolled : Entries :=
  [(int 1, dict [(str "_id", int 1), (str "class", str "Person"), (str "revision", int 1)]),
    (int 2, dict [(str "_id", int 2), (str "class", list [str "Human"]), (str "revision", int 1)]),
    (int 3, dict [(str "revision", list [int 0, int 2]), (str "_id", int 3)]),
    (int 4, dict [(str "_id", int 4)])]

theorem enrolled_stands :
    ∀ p ∈ enrolled, Collection.Stands "_id" p ∧ equal p.1 p.1 = true := by
  intro p hp
  simp only [enrolled, List.mem_cons, List.not_mem_nil, or_false] at hp
  rcases hp with rfl | rfl | rfl | rfl
  · exact ⟨⟨_, rfl, .inl rfl⟩, rfl⟩
  · exact ⟨⟨_, rfl, .inl rfl⟩, rfl⟩
  · exact ⟨⟨_, rfl, .inl rfl⟩, rfl⟩
  · exact ⟨⟨_, rfl, .inl rfl⟩, rfl⟩

theorem replaceRevisionClass_enrolled : ∃ due t u,
    Reclassed 0 (int 1) "Human" due (holding enrolled) t ∧
      replaceRevisionClass 0 (int 1) (str "Human") (holding enrolled) = (.ok 1, t) ∧
      replaceRevisionClass 0 (int 1) (str "Human") t = (.ok 0, u) ∧
      ∀ k, (u.stored k).documents = (t.stored k).documents := by
  have hrev : SingleName "revision" := ⟨by decide +kernel, by decide⟩
  have hcls : SingleName "class" := ⟨by decide +kernel, by decide⟩
  have hne : "class" ≠ "revision" := by decide
  have hid : "_id" ≠ "class" := by decide
  obtain ⟨due, t, u, hdone, hrun, hagain⟩ :=
    replaceRevisionClass_again (s := holding enrolled) (b := 0) (c := "Human") hrev hcls hne hid
      rfl enrolled_stands (.inr ⟨1, rfl⟩) (by decide)
  have hdue : ∀ k ps, (k, dict ps) ∈ enrolled → due (k, dict ps) =
      (equalsAny (Entries.get? (str "revision") ps).toList (int 1) &&
        !equalsAny (Entries.get? (str "class") ps).toList (str "Human")) := by
    intro k ps hp
    rw [Bool.eq_iff_iff, Bool.and_eq_true, Bool.not_eq_true', ← Bool.not_eq_true,
      ← equalAt_entry_iff hrev, ← equalAt_entry_iff hcls]
    exact hdone.due_iff (k, dict ps) hp
  have hcount : ((holding enrolled).stored 0).documents.countP due = 1 := by
    change enrolled.countP due = 1
    simp only [enrolled, List.mem_cons, List.not_mem_nil, or_false] at hdue
    simp only [enrolled, List.countP_cons, List.countP_nil]
    rw [hdue _ _ (by simp), hdue _ _ (by simp), hdue _ _ (by simp), hdue _ _ (by simp)]
    rfl
  refine ⟨due, t, u, hdone, ?_, hagain⟩
  rw [hcount] at hrun
  exact hrun

end Session

end DocStore
