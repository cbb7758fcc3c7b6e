import DocStore.Proofs.Session.Renaming

/-! Taking a field from all documents. Documents are looked for across arrays, but the field is
removed from embedded documents only: what is reached across an array stays where it is. -/

namespace DocStore

open Value Collection Session

variable {f : String} {d v : Value} {idField : String} {ps : Entries} {p : Value × Value}

def clearing (f : String) : Value := dict [(str "$unset", dict [(str f, int 1)])]

theorem applyUpdate_clearing (f : String) (d : Value) :
    applyUpdate d (clearing f) = unsetAll [str f] false d := by
  have hknown : applyUpdate d (clearing f) = runUpdate [(str "$unset", dict [(str f, int 1)])] d :=
    applyUpdate_known d (by simp) (by simp [Entries.keys, isUpdateOperator])
  rw [hknown]
  simp only [runUpdate, operands, removals, Entries.get?, equal_str]
  exact Updated.andThen_done _

theorem clearing_absent (h : getPath (segments f) d = none) :
    applyUpdate d (clearing f) = ⟨d, .ok false⟩ := by
  rw [applyUpdate_clearing, unsetAll, popAt_absent h]
  rfl

theorem clearing_present (hu : Unrepeated d) (h : getPath (segments f) d = some v) :
    ∃ qs, applyUpdate d (clearing f) = ⟨dict qs, .ok true⟩ ∧ Lacks (segments f) (dict qs) := by
  obtain ⟨ps, qs, rfl, hpop, hat⟩ := popAt_present h
  refine ⟨qs, ?_, Entries.lacks_popPath hu hpop⟩
  rw [applyUpdate_clearing, unsetAll, hat]
  rfl

theorem matchesQuery_of_getPath (hn : fieldNameFault? f = none)
    (h : getPath (segments f) d = some v) : matchesQuery d (having f) = .ok true := by
  rw [matchesQuery_having hn, lookup_of_getPath h]
  rfl

theorem Lacks.matchesQuery (hn : fieldNameFault? f = none) (h : Lacks (segments f) d) :
    matchesQuery d (having f) = .ok false := by
  rw [matchesQuery_having hn, h.lookup]
  rfl

/-- Whether a field is found in a document without standing at its path. -/
def astray (f : String) (p : Value × Value) : Bool :=
  matched (having f) p && (getPath (segments f) p.2).isNone

/-- What is found but does not stand at the path is reached across an array. -/
theorem across_of_lookup {path : List String} {w : Value} {found : List Value}
    (h : lookup path d = .ok (w :: found)) (hv : getPath path d = none) :
    ∃ near far xs, path = near ++ far ∧ far ≠ [] ∧ getPath near d = some (list xs) := by
  induction path generalizing d with
  | nil => cases hv
  | cons s rest ih =>
    cases d with
    | list xs => exact ⟨[], s :: rest, xs, rfl, by simp, rfl⟩
    | dict ps =>
      rw [lookup, lookupEntry_eq] at h
      rw [getPath_dict] at hv
      cases hs : Entries.get? (str s) ps with
      | none =>
        rw [hs] at h
        cases h
      | some v =>
        rw [hs] at h hv
        obtain ⟨near, far, xs, rfl, hfar, hnear⟩ := ih h hv
        refine ⟨s :: near, far, xs, rfl, hfar, ?_⟩
        rw [getPath_dict, hs, Option.bind_some, hnear]
    | _ => cases h

theorem across_of_astray (hn : fieldNameFault? f = none) (h : astray f p = true) :
    ∃ near far xs, segments f = near ++ far ∧ far ≠ [] ∧ getPath near p.2 = some (list xs) := by
  obtain ⟨hm, hv⟩ := Bool.and_eq_true_iff.mp h
  rw [matched, matchesQuery_having hn] at hm
  cases hl : lookup (segments f) p.2 with
  | error e => simp [hl, Except.map, Except.toOption] at hm
  | ok found =>
    cases found with
    | nil => simp [hl, Except.map, Except.toOption] at hm
    | cons w found => exact across_of_lookup hl (Option.isNone_iff_eq_none.mp hv)

/-- What is left of a field once it was taken from documents. -/
structure Cleared (f : String) (ps qs : Entries) (n : Nat) : Prop where
  /-- The documents that still have it are, as they were, those in which it does not stand at its
  path. -/
  remaining : qs.filter (matched (having f)) = ps.filter (astray f)
  /-- In these there is an array on the way. -/
  across : ∀ p ∈ ps, astray f p = true →
    ∃ near far xs, segments f = near ++ far ∧ far ≠ [] ∧ getPath near p.2 = some (list xs)
  /-- The others are counted. -/
  count : n = ps.countP fun p => (getPath (segments f) p.2).isSome
  /-- It is gone, and all documents that had it are counted, just where it stood at its path in
  each of them. -/
  complete : (∀ q ∈ qs, matchesQuery q.2 (having f) = .ok false) ∧
      n = ps.countP (matched (having f)) ↔
    ∀ p ∈ ps, matchesQuery p.2 (having f) = .ok true → (getPath (segments f) p.2).isSome

section Renewed

variable (hn : fieldNameFault? f = none) (hu : Unrepeated p.2)
include hn hu

theorem changes_clearing :
    (matched (having f) p && changes (clearing f) p) = (getPath (segments f) p.2).isSome := by
  cases hv : getPath (segments f) p.2 with
  | none =>
    rw [changes_of_ok (b := false) (by rw [clearing_absent hv]), Bool.and_false]
    rfl
  | some v =>
    obtain ⟨qs, hqs, _⟩ := clearing_present hu hv
    rw [matched_of_ok (matchesQuery_of_getPath hn hv), changes_of_ok (b := true) (by rw [hqs])]
    rfl

/-- A document still has the field just where it is astray, and then it is as it was. -/
theorem renewed_clearing {b : Bool} (hb : matchesQuery p.2 (having f) = .ok b) :
    matchesQuery (renewed (clearing f) p b).2 (having f) = .ok (astray f p) ∧
      (astray f p = true → renewed (clearing f) p b = p) := by
  cases hv : getPath (segments f) p.2 with
  | none =>
    have hsame : renewed (clearing f) p b = p := by
      rw [renewed, clearing_absent hv]
      split <;> rfl
    rw [hsame, astray, hv, matched_of_ok hb, Option.isNone_none, Bool.and_true]
    exact ⟨hb, fun _ => rfl⟩
  | some v =>
    obtain ⟨qs, hqs, hlacks⟩ := clearing_present hu hv
    have htrue := matchesQuery_of_getPath hn hv
    rw [hb] at htrue
    cases htrue
    rw [renewed, if_pos rfl, hqs, astray, hv, Option.isNone_some, Bool.and_false]
    exact ⟨hlacks.matchesQuery hn, by simp⟩

end Renewed

theorem cleared_of_finished {qs : Entries} {counts : Counts} (hn : fieldNameFault? f = none)
    (hu : ∀ p ∈ ps, Unrepeated p.2)
    (h : Finished idField (having f) (clearing f) true ps qs counts) :
    Cleared f ps qs counts.modified := by
  have hread : ∀ p ∈ ps, matchesQuery p.2 (having f) = .ok (matched (having f) p) := by
    intro p hp
    obtain ⟨b, hb⟩ := h.read p hp
    rw [matched_of_ok hb, hb]
  have hnew : ∀ p ∈ ps, matchesQuery (renewed (clearing f) p (matched (having f) p)).2 (having f) =
      .ok (astray f p) := fun p hp => (renewed_clearing hn (hu p hp) (hread p hp)).1
  have hcount : counts.modified = ps.countP fun p => (getPath (segments f) p.2).isSome := by
    rw [modified_of_finished h]
    exact List.countP_congr fun p hp => by rw [changes_clearing hn (hu p hp)]
  rw [documents_of_finished h]
  refine ⟨?_, fun p _ => across_of_astray hn, hcount, ?_⟩
  · have hkept : ps.filter (matched (having f) ∘ fun p =>
        renewed (clearing f) p (matched (having f) p)) = ps.filter (astray f) :=
      List.filter_congr fun p hp => matched_of_ok (hnew p hp)
    rw [List.filter_map, hkept]
    refine (List.map_congr_left fun p hp => ?_).trans (List.map_id _)
    obtain ⟨hmem, hastray⟩ := List.mem_filter.mp hp
    exact (renewed_clearing hn (hu p hmem) (hread p hmem)).2 hastray
  · rw [List.forall_mem_map]
    constructor
    · rintro ⟨hgone, _⟩ p hp hm
      have hkept := hgone p hp
      rw [hnew p hp, astray, matched_of_ok hm, Bool.true_and] at hkept
      simpa using hkept
    · intro hat
      refine ⟨fun p hp => ?_, ?_⟩
      · rw [hnew p hp, astray]
        cases hm : matched (having f) p with
        | false => rfl
        | true =>
          have hv := hat p hp (by rw [hread p hp, hm])
          rw [Option.isNone_eq_false_iff.mpr hv]
          rfl
      · rw [hcount]
        refine List.countP_congr fun p hp => ⟨fun hv => ?_, fun hm => ?_⟩
        · obtain ⟨v, hv⟩ := Option.isSome_iff_exists.mp hv
          rw [matched_of_ok (matchesQuery_of_getPath hn hv)]
        · exact hat p hp (by rw [hread p hp, hm])

namespace Session

variable {b n : Nat} {field : Value} {s t : Session}

theorem removeField_run (hf : nameOfField field = .ok f)
    (h : updateAll b (having f) (clearing f) s = (.ok n, t)) :
    ∃ j, removeField b field s = (.ok n, t.withNames t.registry j) := by
  obtain ⟨j, hj⟩ := info_run b (fun name => s!"Removed field '{f}' from {n} documents in '{name}'") t
  refine ⟨j, ?_⟩
  unfold removeField
  unfold clearing at h
  rw [hf, bind_of_ok (run_liftExcept _ s), bind_of_ok h, bind_of_ok hj]
  rfl

theorem removeField_eq_ok (hf : nameOfField field = .ok f)
    (h : removeField b field s = (.ok n, t)) :
    ∃ u j, updateAll b (having f) (clearing f) s = (.ok n, u) ∧
      t = u.withNames u.registry j := by
  rcases hu : updateAll b (having f) (clearing f) s with ⟨e | m, u⟩
  · unfold removeField at h
    unfold clearing at hu
    rw [hf, bind_of_ok (run_liftExcept _ s), bind_of_error hu] at h
    cases h
  · obtain ⟨j, hj⟩ := removeField_run hf hu
    rw [hj] at h
    cases h
    exact ⟨u, j, rfl, rfl⟩

/-- Removing a field from a collection leaves it where it is reached across arrays only. -/
theorem removeField_cleared (hf : nameOfField field = .ok f) (hn : fieldNameFault? f = none)
    (hu : ∀ p ∈ (s.stored b).documents, Unrepeated p.2)
    (h : removeField b field s = (.ok n, t)) :
    Cleared f (s.stored b).documents (t.stored b).documents n := by
  obtain ⟨u, j, hupdate, rfl⟩ := removeField_eq_ok hf h
  obtain ⟨hok, rfl, rfl⟩ := updateAll_eq_ok_iff.mp hupdate
  have hdocuments := (stored_passed s b b (having f) (clearing f)).2
  rw [if_pos rfl] at hdocuments
  change Cleared f _ ((s.passed b (having f) (clearing f)).stored b).documents _
  rw [hdocuments]
  exact cleared_of_finished hn hu (finished_of_ok hok)

def stocked : Entries :=
  [(int 1, dict [(str "_id", int 1), (str "a", dict [(str "b", int 4)])]),
    (int 2, dict [(str "_id", int 2), (str "a", list [dict [(str "b", int 1)]])])]

theorem stocked_unrepeated : ∀ p ∈ stocked, Unrepeated p.2 := by
  simp only [stocked, List.forall_mem_cons, unrepeated_dict]
  refine ⟨?_, ?_, by simp⟩
  · exact ⟨by simp, .other (by simp), ⟨by simp, .other (by simp), by simp⟩, by simp⟩
  · exact ⟨by simp, .other (by simp), .other (by simp), by simp⟩

theorem stocked_matches : ∀ p ∈ stocked, matchesQuery p.2 (having "a.b") = .ok true := by
  have hn : isIndex "b" = false := by decide +kernel
  simp only [stocked, List.forall_mem_cons]
  refine ⟨rfl, ?_, by simp⟩
  have hl : lookup (segments "a.b") (dict [(str "_id", int 2),
      (str "a", list [dict [(str "b", int 1)]])]) = lookup ["b"] (list [dict [(str "b", int 1)]]) :=
    rfl
  rw [matchesQuery_having (by decide), hl, lookup, hn]
  rfl

theorem removeField_stocked : ∃ t,
    nameOfField (str "a.b") = .ok "a.b" ∧ fieldNameFault? "a.b" = none ∧
      (∀ p ∈ ((holding stocked).stored 0).documents, Unrepeated p.2) ∧
      removeField 0 (str "a.b") (holding stocked) = (.ok 1, t) ∧
      Cleared "a.b" stocked (t.stored 0).documents 1 := by
  obtain ⟨hfirst, hrest⟩ := List.forall_mem_cons.mp stocked_matches
  have hsecond := (List.forall_mem_cons.mp hrest).1
  have hpass : ∃ qs, (holding stocked).pass 0 (having "a.b") (clearing "a.b") =
      ⟨qs, ⟨2, 1⟩, .ok ()⟩ := by
    change ∃ qs, updateEntries "_id" _ _ true stocked = _
    rw [stocked, updateEntries_cons, hfirst]
    simp only [updateEntries_cons, hsecond]
    exact ⟨_, rfl⟩
  obtain ⟨qs, hpass⟩ := hpass
  have hname : nameOfField (str "a.b") = .ok "a.b" := rfl
  obtain ⟨j, ht⟩ := removeField_run hname
    (updateAll_eq_ok_iff.mpr ⟨by rw [hpass], by rw [hpass], rfl⟩)
  have hn : fieldNameFault? "a.b" = none := by decide
  have hu : ∀ p ∈ ((holding stocked).stored 0).documents, Unrepeated p.2 := stocked_unrepeated
  exact ⟨_, hname, hn, hu, ht, removeField_cleared hname hn hu ht⟩

/-- What is reached across an array alone is not removed. -/
theorem removeField_astray : ∃ t,
    removeField 0 (str "a.b") (holding stocked.tail) = (.ok 0, t) ∧
      (t.stored 0).documents = stocked.tail ∧
      ∀ p ∈ (t.stored 0).documents, matchesQuery p.2 (having "a.b") = .ok true := by
  have hsecond := (List.forall_mem_cons.mp (List.forall_mem_cons.mp stocked_matches).2).1
  have hpass : (holding stocked.tail).pass 0 (having "a.b") (clearing "a.b") =
      ⟨stocked.tail, ⟨1, 0⟩, .ok ()⟩ := by
    change updateEntries "_id" _ _ true stocked.tail = _
    simp only [stocked, List.tail_cons, updateEntries_cons, hsecond]
    rfl
  have hname : nameOfField (str "a.b") = .ok "a.b" := rfl
  obtain ⟨j, ht⟩ := removeField_run hname
    (updateAll_eq_ok_iff.mpr ⟨by rw [hpass], by rw [hpass], rfl⟩)
  have hstored : ((holding stocked.tail).passed 0 (having "a.b") (clearing "a.b")
      |>.stored 0).documents = stocked.tail := by
    rw [(stored_passed _ 0 0 _ _).2, if_pos rfl, hpass]
  refine ⟨_, ht, hstored, fun p hp => stocked_matches p (List.mem_of_mem_tail ?_)⟩
  rw [← hstored]
  exact hp

end Session

end DocStore
