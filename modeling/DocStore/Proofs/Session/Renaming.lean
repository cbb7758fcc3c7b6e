import DocStore.Proofs.Filter.Embedded
import DocStore.Proofs.Query.Update
import DocStore.Proofs.Session.Migrating
import DocStore.Proofs.Store.InPlace

/-! Giving a field another name. What stands at one path is moved to another, and the field can be
renamed again without effect where its old path does not come to something at the new one. -/

namespace DocStore

open Value

variable {f g : String} {d v : Value} {path : List String}

def moves (f g : String) : Entries := [(str "$rename", dict [(str f, str g)])]

def moving (f g : String) : Value := dict (moves f g)

theorem embodies_moves (f g : String) : (Objects.ofEntries (moves f g)).Embodies (moving f g) :=
  Objects.embodies_ofEntries (.dict (by simp [moves]) (by
    simp only [moves, List.forall_mem_singleton]
    exact .dict (by simp) (by simp [Single.str])))

/-- A value that is moved to a new path is not met at the old one: the paths are apart, or the old
one goes on from the new one and leads past the value. -/
inductive Clears (old new : List String) (v : Value) : Prop
  | apart (h : Aloof old new)
  | below {rest : List String} {found : List Value} (h : old = new ++ rest)
      (hv : getPath rest v = none) (hl : lookup rest v = .ok found)

theorem Lacks.lookup (h : Lacks path d) : lookup path d = .ok [] := by
  induction h with
  | missing h => rw [Value.lookup, lookupEntry_eq, h]
  | entry hv _ ih =>
    rw [Value.lookup, lookupEntry_eq, hv]
    exact ih

theorem matchesQuery_having (hn : fieldNameFault? f = none) (d : Value) :
    matchesQuery d (Session.having f) =
      (lookup (segments f) d).map fun found => !found.isEmpty := by
  rw [Session.having, matchesQuery_single, matchesEntry_of_name (startsWithDollar_of_named hn)]
  cases hl : lookup (segments f) d with
  | error e => simp [matchesField, lookupPath, hl, Except.map]
  | ok found =>
    rw [matchesField_operators hl rfl, holdsOperators_single]
    simp [holdsOperator, truthy, Except.map]

theorem applyUpdate_moving (f g : String) (d : Value) :
    applyUpdate d (moving f g) = renameAll [(str f, str g)] false d := by
  have hknown : applyUpdate d (moving f g) =
      runUpdate [(str "$rename", dict [(str f, str g)])] d :=
    applyUpdate_known d (by simp [moves]) (by simp [moves, Entries.keys, isUpdateOperator])
  rw [hknown]
  simp only [runUpdate, operands, removals, Entries.get?, equal_str]
  rfl

section Moved

variable (hne : f ≠ g)
include hne

theorem moving_absent (h : getPath (segments f) d = none) :
    applyUpdate d (moving f g) = ⟨d, .ok false⟩ := by
  rw [applyUpdate_moving, renameAll, if_neg hne, popAt_absent h]
  rfl

theorem moving_present (h : getPath (segments f) d = some v) :
    ∃ ps qs, d = dict ps ∧ Entries.popPath (segments f) ps = some (v, qs) ∧
      ((∃ rs, Entries.setPath v (segments g) qs = .ok rs ∧
          applyUpdate d (moving f g) = ⟨dict rs, .ok true⟩) ∨
        ∃ e, applyUpdate d (moving f g) = ⟨dict qs, .error e⟩) := by
  obtain ⟨ps, qs, hd, hpop, hat⟩ := popAt_present h
  refine ⟨ps, qs, hd, hpop, ?_⟩
  rw [applyUpdate_moving, renameAll, if_neg hne, hat]
  simp only [setAt]
  cases Entries.setPath _ (segments g) qs with
  | ok rs => exact .inl ⟨rs, rfl, rfl⟩
  | error e => exact .inr ⟨e, rfl⟩

theorem moving_idle_iff :
    (applyUpdate d (moving f g)).result = .ok false ↔ getPath (segments f) d = none := by
  cases hv : getPath (segments f) d with
  | none => exact iff_of_true (by rw [moving_absent hne hv]) rfl
  | some v =>
    obtain ⟨ps, qs, _, _, ⟨rs, _, happly⟩ | ⟨e, happly⟩⟩ := moving_present hne hv
    · simp [happly]
    · simp [happly]

theorem moving_changes (hv : getPath (segments f) d = some v)
    (h : (applyUpdate d (moving f g)).result = .ok true) :
    ∃ ps qs rs, d = dict ps ∧ Entries.popPath (segments f) ps = some (v, qs) ∧
      Entries.setPath v (segments g) qs = .ok rs ∧
      (applyUpdate d (moving f g)).document = dict rs := by
  obtain ⟨ps, qs, hd, hpop, ⟨rs, hset, happly⟩ | ⟨e, happly⟩⟩ := moving_present hne hv
  · exact ⟨ps, qs, rs, hd, hpop, hset, by rw [happly]⟩
  · rw [happly] at h
    cases h

theorem settled_moving_iff (hn : fieldNameFault? f = none) :
    Collection.Settled (Session.having f) (moving f g) d ↔
      getPath (segments f) d = none ∧ ∃ found, lookup (segments f) d = .ok found := by
  unfold Collection.Settled
  rw [matchesQuery_having hn, moving_idle_iff hne]
  constructor
  · rintro ⟨b, hb, hidle⟩
    obtain ⟨found, hl, he⟩ := except_map_eq_ok.mp hb
    refine ⟨?_, found, hl⟩
    -- what stands at the path is found there, so that the document matches
    by_contra hsome
    obtain ⟨v, hv⟩ := Option.ne_none_iff_exists'.mp hsome
    rw [lookup_of_getPath hv] at hl
    cases hl
    exact hsome (hidle he.symm)
  · rintro ⟨hnone, found, hl⟩
    exact ⟨!found.isEmpty, by rw [hl]; rfl, fun _ => hnone⟩

/-- Once a value was moved, there is nothing left to move just where it clears the old path. -/
theorem settled_moved_iff (hn : fieldNameFault? f = none) (hu : Unrepeated d)
    (hv : getPath (segments f) d = some v)
    (h : (applyUpdate d (moving f g)).result = .ok true) :
    Collection.Settled (Session.having f) (moving f g) (applyUpdate d (moving f g)).document ↔
      Clears (segments f) (segments g) v := by
  obtain ⟨ps, qs, rs, rfl, hpop, hset, hd⟩ := moving_changes hne hv h
  have hnew : getPath (segments g) (dict rs) = some v :=
    Entries.getPath_setPath (segments_ne_nil g) hset
  rw [hd, settled_moving_iff hne hn]
  constructor
  · rintro ⟨hold, found, hl⟩
    by_cases hbelow : segments g <+: segments f
    · obtain ⟨rest, hrest⟩ := hbelow
      rw [← hrest, getPath_append, hnew, Option.bind_some] at hold
      rw [← hrest, lookup_past hnew] at hl
      exact .below hrest.symm hold hl
    · refine .apart ⟨fun habove => ?_, hbelow⟩
      obtain ⟨rest, hrest⟩ := habove
      rw [← hrest, getPath_append, hold] at hnew
      cases hnew
  · intro hclears
    cases hclears with
    | apart haloof =>
      have hlacks : Lacks (segments f) (dict rs) :=
        Entries.lacks_setPath hset haloof.symm (Entries.lacks_popPath hu hpop)
      exact ⟨hlacks.getPath, [], hlacks.lookup⟩
    | @below rest found hrest hgone hl =>
      rw [hrest, getPath_append, hnew, Option.bind_some, lookup_past hnew]
      exact ⟨hgone, found, hl⟩

end Moved

namespace Session

variable {b n : Nat} {field target : Value} {s t : Session}

section Run

variable (hf : nameOfField field = .ok f) (hg : nameOfField target = .ok g)
include hf hg

theorem renameField_run (hne : f ≠ g) (h : updateAll b (having f) (moving f g) s = (.ok n, t)) :
    ∃ j, renameField b field target s = (.ok n, t.withNames t.registry j) := by
  obtain ⟨j, hj⟩ := info_run b
    (fun name => s!"Renamed field '{f}' to '{g}' on {n} documents in '{name}'") t
  refine ⟨j, ?_⟩
  unfold renameField
  rw [hf, bind_of_ok (run_liftExcept _ s), hg, bind_of_ok (run_liftExcept _ s), if_neg hne]
  dsimp only
  unfold moving moves at h
  rw [bind_of_ok h, bind_of_ok hj]
  rfl

theorem renameField_eq_ok (h : renameField b field target s = (.ok n, t)) :
    f ≠ g ∧ ∃ u j, updateAll b (having f) (moving f g) s = (.ok n, u) ∧
      t = u.withNames u.registry j := by
  have hne : f ≠ g := by
    rintro rfl
    unfold renameField at h
    rw [hf, bind_of_ok (run_liftExcept _ s), hg, bind_of_ok (run_liftExcept _ s), if_pos rfl] at h
    cases h
  refine ⟨hne, ?_⟩
  rcases hu : updateAll b (having f) (moving f g) s with ⟨e | m, u⟩
  · unfold renameField at h
    unfold moving moves at hu
    rw [hf, bind_of_ok (run_liftExcept _ s), hg, bind_of_ok (run_liftExcept _ s), if_neg hne] at h
    dsimp only at h
    rw [bind_of_error hu] at h
    cases h
  · obtain ⟨j, hj⟩ := renameField_run hf hg hne hu
    rw [hj] at h
    cases h
    exact ⟨u, j, rfl, rfl⟩

/-- Renaming does nothing where its update does nothing. -/
theorem renameField_idle_iff (hne : f ≠ g) :
    (∃ u, renameField b field target t = (.ok 0, u) ∧
      ∀ c, (u.stored c).documents = (t.stored c).documents) ↔
      ∀ p ∈ (t.stored b).documents, Collection.Settled (having f) (moving f g) p.2 := by
  rw [← updateAll_idle_iff]
  constructor
  · rintro ⟨v, hv, hsame⟩
    obtain ⟨_, u, j, hupdate, rfl⟩ := renameField_eq_ok hf hg hv
    exact ⟨u, hupdate, hsame⟩
  · rintro ⟨u, hupdate, hsame⟩
    obtain ⟨j, hj⟩ := renameField_run hf hg hne hupdate
    exact ⟨_, hj, hsame⟩

end Run

/-- Renaming a field in documents as objects. -/
def renameEach (idField f g : String) (docs : List (Value × Objects)) : Collection.Pass Objects :=
  Objects.updateEach idField (having f) (.ofEntries (moves f g)) true docs

theorem alike_renameEach {docs : List (Value × Objects)}
    (hd : Collection.Paired Objects.Embodies docs (s.stored b).documents) (f g : String) :
    Collection.Alike Objects.Embodies (renameEach (s.stored b).idField f g docs)
      (s.pass b (having f) (moving f g)) :=
  Objects.alike_updateEach (embodies_moves f g) _ _ true hd

/-- What was renamed is left alone afterwards, where no value that was moved is met under the old
name. -/
theorem settled_renamed_iff (hne : f ≠ g) (hn : fieldNameFault? f = none)
    (hu : ∀ p ∈ (s.stored b).documents, Unrepeated p.2)
    (h : updateAll b (having f) (moving f g) s = (.ok n, t)) :
    (∀ p ∈ (t.stored b).documents, Collection.Settled (having f) (moving f g) p.2) ↔
      ∀ p ∈ (s.stored b).documents, ∀ v, getPath (segments f) p.2 = some v →
        Clears (segments f) (segments g) v := by
  rw [settled_updateAll_iff h]
  have hfinished := Collection.finished_of_ok (updateAll_eq_ok_iff.mp h).1
  refine forall_congr' fun p => forall_congr' fun hp => ⟨?_, fun hclears hm hc => ?_⟩
  · intro hagain v hv
    have hm : Collection.matched (having f) p = true := by
      refine Collection.matched_of_ok ?_
      rw [matchesQuery_having hn, lookup_of_getPath hv]
      rfl
    have hresult := Collection.applied_of_finished hfinished hp hm
    have hc : Collection.changes (moving f g) p = true := by
      by_contra hsame
      rw [Bool.eq_false_iff.mpr hsame, moving_idle_iff hne, hv] at hresult
      cases hresult
    rw [hc] at hresult
    exact (settled_moved_iff hne hn (hu p hp) hv hresult).mp (hagain hm hc)
  · have hresult := Collection.applied_of_finished hfinished hp hm
    rw [hc] at hresult
    cases hv : getPath (segments f) p.2 with
    | none =>
      rw [moving_absent hne hv] at hresult
      cases hresult
    | some v => exact (settled_moved_iff hne hn (hu p hp) hv hresult).mpr (hclears v hv)

/-- Renaming a field in objects, no dictionary of them at two places, counts and leaves what
renaming it in the values does. Renaming it once more has nothing to do, in the values as in the
objects, just where no value that was moved is met under the old name again. -/
theorem renameField_again (hf : nameOfField field = .ok f) (hg : nameOfField target = .ok g)
    (hn : fieldNameFault? f = none) (hu : ∀ p ∈ (s.stored b).documents, Unrepeated p.2)
    {docs : List (Value × Objects)}
    (hd : Collection.Paired Objects.Embodies docs (s.stored b).documents)
    (h : renameField b field target s = (.ok n, t)) :
    let first := renameEach (s.stored b).idField f g docs
    let second := renameEach (s.stored b).idField f g first.documents
    (first.result = .ok () ∧ first.counts.modified = n ∧
      Collection.Paired Objects.Embodies first.documents (t.stored b).documents) ∧
    ((∃ u, renameField b field target t = (.ok 0, u) ∧
        ∀ c, (u.stored c).documents = (t.stored c).documents) ↔
      ∀ p ∈ (s.stored b).documents, ∀ v, getPath (segments f) p.2 = some v →
        Clears (segments f) (segments g) v) ∧
    (second.result = .ok () ∧ second.counts.modified = 0 ↔
      ∀ p ∈ (s.stored b).documents, ∀ v, getPath (segments f) p.2 = some v →
        Clears (segments f) (segments g) v) := by
  obtain ⟨hne, u, j, hupdate, rfl⟩ := renameField_eq_ok hf hg h
  have hsettled := settled_renamed_iff hne hn hu hupdate
  obtain ⟨hok, hcount, rfl⟩ := updateAll_eq_ok_iff.mp hupdate
  obtain ⟨hid, hstored⟩ := stored_passed s b b (having f) (moving f g)
  rw [if_pos rfl] at hstored
  have hfirst := alike_renameEach hd f g
  have hpaired : Collection.Paired Objects.Embodies
      (renameEach (s.stored b).idField f g docs).documents
      ((s.passed b (having f) (moving f g)).stored b).documents := by
    rw [hstored]
    exact hfirst.documents
  have hsecond := alike_renameEach hpaired f g
  rw [hid] at hsecond
  refine ⟨⟨hfirst.result.trans hok, (congrArg Collection.Counts.modified hfirst.counts).trans hcount,
    hpaired⟩, (renameField_idle_iff hf hg hne).trans hsettled, ?_⟩
  rw [hsecond.result, hsecond.counts]
  exact Collection.updateEntries_idle_iff.trans hsettled

def lodged : Entries :=
  [(int 1, dict [(str "_id", int 1), (str "a", dict [(str "b", str "Rome")])]),
    (int 2, dict [(str "_id", int 2), (str "a", null)])]

theorem lodged_unrepeated : ∀ p ∈ lodged, Unrepeated p.2 := by
  simp only [lodged, List.forall_mem_cons, unrepeated_dict]
  refine ⟨?_, ?_, by simp⟩
  · exact ⟨by simp, .other (by simp), ⟨by simp, .other (by simp), by simp⟩, by simp⟩
  · exact ⟨by simp, .other (by simp), .other (by simp), by simp⟩

theorem lodged_clears : ∀ p ∈ lodged, ∀ v, getPath (segments "a.b") p.2 = some v →
    Clears (segments "a.b") (segments "a") v := by
  have hold : segments "a.b" = ["a", "b"] := rfl
  have hnew : segments "a" = ["a"] := rfl
  rw [hold, hnew]
  intro p hp v hv
  simp only [lodged, List.mem_cons, List.not_mem_nil, or_false] at hp
  have hrest : ["a", "b"] = ["a"] ++ ["b"] := rfl
  rcases hp with rfl | rfl
  · cases hv
    exact .below hrest rfl rfl
  · cases hv

def lodgedObjects : List (Value × Objects) :=
  [(int 1, .ofEntries [(str "_id", int 1), (str "a", dict [(str "b", str "Rome")])]),
    (int 2, .ofEntries [(str "_id", int 2), (str "a", null)])]

theorem lodged_embodied : Collection.Paired Objects.Embodies lodgedObjects lodged := by
  have hfirst : (dict [(str "_id", int 1), (str "a", dict [(str "b", str "Rome")])]).Single := by
    refine .dict (by simp [equal_str]) ?_
    simp only [List.forall_mem_cons, List.not_mem_nil, false_imp_iff, implies_true, and_true]
    exact ⟨.int 1, .dict (by simp) (by simp [Single.str])⟩
  have hsecond : (dict [(str "_id", int 2), (str "a", null)]).Single := by
    refine .dict (by simp [equal_str]) ?_
    simp only [List.forall_mem_cons, List.not_mem_nil, false_imp_iff, implies_true, and_true]
    exact ⟨.int 2, .other (fun _ => rfl) rfl⟩
  exact .cons ⟨rfl, Objects.embodies_ofEntries hfirst⟩
    (.cons ⟨rfl, Objects.embodies_ofEntries hsecond⟩ .nil)

theorem renameField_again_lodged : ∃ t,
    nameOfField (str "a.b") = .ok "a.b" ∧ nameOfField (str "a") = .ok "a" ∧
      fieldNameFault? "a.b" = none ∧
      (∀ p ∈ ((holding lodged).stored 0).documents, Unrepeated p.2) ∧
      Collection.Paired Objects.Embodies lodgedObjects ((holding lodged).stored 0).documents ∧
      renameField 0 (str "a.b") (str "a") (holding lodged) = (.ok 1, t) ∧
      (renameEach "_id" "a.b" "a" lodgedObjects).counts.modified = 1 ∧
      ∃ u, renameField 0 (str "a.b") (str "a") t = (.ok 0, u) ∧
        ∀ c, (u.stored c).documents = (t.stored c).documents := by
  obtain ⟨t, ht⟩ : ∃ t, renameField 0 (str "a.b") (str "a") (holding lodged) =
      (.ok 1, t) := ⟨_, rfl⟩
  have hn : fieldNameFault? "a.b" = none := by decide
  have hstored : ((holding lodged).stored 0).documents = lodged := rfl
  have hu : ∀ p ∈ ((holding lodged).stored 0).documents, Unrepeated p.2 := by
    rw [hstored]
    exact lodged_unrepeated
  have hd : Collection.Paired Objects.Embodies lodgedObjects
      ((holding lodged).stored 0).documents := by
    rw [hstored]
    exact lodged_embodied
  obtain ⟨⟨_, hcount, _⟩, hagain, _⟩ := renameField_again rfl rfl hn hu hd ht
  refine ⟨t, rfl, rfl, hn, hu, hd, ht, hcount, hagain.mpr ?_⟩
  rw [hstored]
  exact lodged_clears

/-- One dictionary under two keys, in a document that can be stored. -/
def twinned : Objects :=
  ⟨[.dict [(str "c", .leaf (int 1))],
    .dict [(str "_id", .leaf (int 1)), (str "a", .ref 0), (str "b", .ref 0)]], 1⟩

/-- A field that is moved into a document of its own name is moved again, and so is one that is
moved from one name of an object to another name of the same. -/
theorem renameField_deeper :
    (∃ t u,
      renameField 0 (str "a") (str "a.b")
          (holding [(int 1, dict [(str "_id", int 1), (str "a", int 5)])]) = (.ok 1, t) ∧
        (t.stored 0).documents =
          [(int 1, dict [(str "_id", int 1), (str "a", dict [(str "b", int 5)])])] ∧
        renameField 0 (str "a") (str "a.b") t = (.ok 1, u) ∧
        (u.stored 0).documents = [(int 1,
          dict [(str "_id", int 1), (str "a", dict [(str "b", dict [(str "b", int 5)])])])]) ∧
      let first := renameEach "_id" "a.c" "b.c" [(int 1, twinned)]
      (first.result = .ok () ∧ first.counts.modified = 1) ∧
        (renameEach "_id" "a.c" "b.c" first.documents).counts.modified = 1 :=
  ⟨⟨_, _, rfl, rfl, rfl, rfl⟩, ⟨rfl, rfl⟩, rfl⟩

end Session

end DocStore
