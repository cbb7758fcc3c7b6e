import DocStore.Proofs.Store.Updating

/-! Updates of all documents that nothing stops, and what is left to do when they are run again. -/

namespace DocStore

open Value

namespace Collection

variable {idField : String} {query update : Value} {ps qs : Entries} {p : Value × Value}
  {counts : Counts}

/-- An update leaves a document as it is: it does not match, or there is nothing to change. -/
def Settled (query update d : Value) : Prop :=
  ∃ b, matchesQuery d query = .ok b ∧ (b = true → (applyUpdate d update).result = .ok false)

theorem matched_of_ok {b : Bool} (h : matchesQuery p.2 query = .ok b) : matched query p = b := by
  simp [matched, h, Except.toOption]

theorem changes_of_ok {b : Bool} (h : (applyUpdate p.2 update).result = .ok b) :
    changes update p = b := by
  simp [changes, h, Except.toOption]

theorem zip_selection (query : Value) (ps : Entries) :
    ps.zip (selection query true ps) = ps.map fun p => (p, matched query p) := by
  rw [selection, if_pos rfl, List.zip_map_right, List.zip_eq_zipWith, List.zipWith_self,
    List.map_map]
  rfl

section Gone

variable (h : Finished idField query update true ps qs counts)
include h

theorem documents_of_finished : qs = ps.map fun p => renewed update p (matched query p) := by
  rw [h.renewed.documents]
  simp [selection, List.zipWith_map_right, List.zipWith_self]

theorem modified_of_finished :
    counts.modified = ps.countP fun p => matched query p && changes update p := by
  rw [h.modified, zip_selection, List.countP_map]
  rfl

/-- Whatever matches has been updated without a failure. -/
theorem applied_of_finished (hp : p ∈ ps) (hm : matched query p = true) :
    (applyUpdate p.2 update).result = .ok (changes update p) := by
  cases hu : (applyUpdate p.2 update).result with
  | ok b => rw [changes_of_ok hu]
  | error e =>
    have hmem : (p, true) ∈ ps.zip (selection query true ps) := by
      rw [zip_selection, ← hm]
      exact List.mem_map_of_mem hp
    exact absurd (.applying rfl hu) (h.renewed.unstopped _ hmem rfl e)

end Gone

theorem finished_of_ok (h : (updateEntries idField query update true ps).result = .ok ()) :
    Finished idField query update true ps (updateEntries idField query update true ps).documents
      (updateEntries idField query update true ps).counts := by
  have houtcome := outcome_updateEntries idField query update true ps
  rw [h] at houtcome
  exact houtcome

theorem ok_of_unstopped
    (h : ∀ p ∈ ps, ∀ e, ¬ Stops idField query update p (matched query p) e) :
    (updateEntries idField query update true ps).result = .ok () := by
  have houtcome := outcome_updateEntries idField query update true ps
  cases hr : (updateEntries idField query update true ps).result with
  | ok u => rfl
  | error e =>
    rw [hr] at houtcome
    obtain ⟨k, hk⟩ := houtcome
    obtain ⟨p, hp, hstops⟩ := hk.here
    have hsel : (selection query true ps).getD k false = matched query p := by
      simp [selection, hp]
    rw [hsel] at hstops
    exact absurd hstops (h p (List.mem_of_getElem? hp) e)

theorem Settled.unstopped (h : Settled query update p.2) (e : Error) :
    ¬ Stops idField query update p (matched query p) e := by
  obtain ⟨b, hb, hsame⟩ := h
  rw [matched_of_ok hb]
  intro hstops
  cases hstops with
  | matching he =>
    rw [hb] at he
    cases he
  | applying hs he =>
    rw [hsame hs] at he
    cases he
  | identifier hs he _ =>
    have hresult := hsame hs
    rw [he] at hresult
    cases hresult

theorem Settled.renewed_eq (h : Settled query update p.2) :
    renewed update p (matched query p) = p := by
  obtain ⟨b, hb, hsame⟩ := h
  rw [matched_of_ok hb]
  cases b with
  | false => rfl
  | true =>
    have hd : (applyUpdate p.2 update).document = p.2 :=
      Updated.honest_applyUpdate p.2 update false (hsame rfl)
    rw [renewed, if_pos rfl, hd]

theorem ok_of_settled (idField : String) (h : ∀ p ∈ ps, Settled query update p.2) :
    (updateEntries idField query update true ps).result = .ok () :=
  ok_of_unstopped fun p hp => (h p hp).unstopped

/-- An update has nothing to do just where it changes none of the documents. -/
theorem updateEntries_idle_iff :
    ((updateEntries idField query update true ps).result = .ok () ∧
      (updateEntries idField query update true ps).counts.modified = 0) ↔
      ∀ p ∈ ps, Settled query update p.2 := by
  constructor
  · rintro ⟨hok, hnone⟩ p hp
    have hfinished := finished_of_ok hok
    obtain ⟨b, hb⟩ := hfinished.read p hp
    refine ⟨b, hb, fun htrue => ?_⟩
    have hm : matched query p = true := (matched_of_ok hb).trans htrue
    rw [modified_of_finished hfinished, List.countP_eq_zero] at hnone
    have hsame : changes update p = false := by
      have hp := hnone p hp
      rw [hm, Bool.true_and] at hp
      exact Bool.eq_false_iff.mpr hp
    rw [applied_of_finished hfinished hp hm, hsame]
  · intro h
    have hok := ok_of_settled idField h
    refine ⟨hok, ?_⟩
    rw [modified_of_finished (finished_of_ok hok), List.countP_eq_zero]
    intro p hp hchanged
    obtain ⟨hm, hc⟩ := Bool.and_eq_true_iff.mp hchanged
    obtain ⟨b, hb, hsame⟩ := h p hp
    rw [changes_of_ok (hsame ((matched_of_ok hb).symm.trans hm))] at hc
    cases hc

theorem updateEntries_idle (h : ∀ p ∈ ps, Settled query update p.2) :
    (updateEntries idField query update true ps).documents = ps := by
  rw [documents_of_finished (finished_of_ok (ok_of_settled idField h))]
  calc ps.map (fun p => renewed update p (matched query p))
      = ps.map id := List.map_congr_left fun p hp => (h p hp).renewed_eq
    _ = ps := List.map_id ps

/-- After an update has gone through, only documents that it changed can have something left. -/
theorem settled_after_iff (h : (updateEntries idField query update true ps).result = .ok ()) :
    (∀ q ∈ (updateEntries idField query update true ps).documents, Settled query update q.2) ↔
      ∀ p ∈ ps, matched query p = true → changes update p = true →
        Settled query update (applyUpdate p.2 update).document := by
  have hfinished := finished_of_ok h
  rw [documents_of_finished hfinished, List.forall_mem_map]
  refine forall_congr' fun p => forall_congr' fun hp => ?_
  obtain ⟨b, hb⟩ := hfinished.read p hp
  have hmatched := matched_of_ok hb
  cases b with
  | false =>
    -- what does not match has stayed, and still does not match
    rw [hmatched]
    exact iff_of_true ⟨false, hb, by simp⟩ (by simp)
  | true =>
    have hresult := applied_of_finished hfinished hp hmatched
    rw [hmatched, renewed, if_pos rfl]
    cases hc : changes update p with
    | true => simp
    | false =>
      rw [hc] at hresult
      have hd : (applyUpdate p.2 update).document = p.2 :=
        Updated.honest_applyUpdate p.2 update false hresult
      rw [hd]
      exact iff_of_true ⟨true, hb, fun _ => hresult⟩ (by simp)

end Collection

end DocStore
