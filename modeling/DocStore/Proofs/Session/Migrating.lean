import DocStore.Catalog.Models
import DocStore.Proofs.Session.Opening
import DocStore.Proofs.Store.Settling
import DocStore.Session.Migration

/-! Updates of all documents of a collection in a session, and running one again. -/

namespace DocStore

open Value

namespace Session

variable {b n : Nat} {query update : Value} {s t u : Session}

theorem info_run (b : Nat) (words : String → String) (s : Session) :
    ∃ j, info b words s = (.ok (), s.withNames s.registry j) := ⟨_, rfl⟩

/-- The pass through the documents that an update of all of them makes. -/
def pass (s : Session) (b : Nat) (query update : Value) : Collection.Pass Value :=
  Collection.updateEntries (s.stored b).idField query update true (s.stored b).documents

/-- The session once the documents have been gone through. -/
def passed (s : Session) (b : Nat) (query update : Value) : Session :=
  s.withStored b ((s.stored b).updateMany query update false true).1

theorem updateAll_run (b : Nat) (query update : Value) (s : Session) :
    updateAll b query update s =
      ((s.pass b query update).result.map fun _ => (s.pass b query update).counts.modified,
        s.passed b query update) := by
  have hrun : onCollection b (fun n => Store.throughCollection n fun c =>
      c.updateMany query update false true) s =
        ((s.pass b query update).result.map fun _ => (s.pass b query update).counts,
          s.passed b query update) := onCollection_run rfl
  unfold updateAll
  cases hr : (s.pass b query update).result with
  | ok _ =>
    rw [hr] at hrun
    rw [bind_of_ok hrun]
    rfl
  | error e =>
    rw [hr] at hrun
    rw [bind_of_error hrun]
    rfl

theorem updateAll_eq_ok_iff : updateAll b query update s = (.ok n, t) ↔
    (s.pass b query update).result = .ok () ∧ (s.pass b query update).counts.modified = n ∧
      t = s.passed b query update := by
  rw [updateAll_run]
  constructor
  · intro h
    cases hr : (s.pass b query update).result with
    | ok _ =>
      rw [hr] at h
      cases h
      exact ⟨rfl, rfl, rfl⟩
    | error e =>
      rw [hr] at h
      cases h
  · rintro ⟨hr, rfl, rfl⟩
    rw [hr]
    rfl

/-- What is written to a collection is seen through the bindings that stand for it. -/
theorem stored_withStored {c : Collection} (hid : c.idField = (s.stored b).idField)
    (hnone : (s.stored b).documents = [] → c.documents = []) (a : Nat) :
    ((s.withStored b c).stored a).idField = (s.stored a).idField ∧
      ((s.withStored b c).stored a).documents =
        if (s.binding a).collection = (s.binding b).collection then c.documents
        else (s.stored a).documents := by
  have hstored : (s.withStored b c).stored a =
      (s.store.putCollection (s.binding b).collection c).collectionAt
        (s.binding a).collection := rfl
  rw [hstored, Store.collectionAt_putCollection]
  by_cases ha : (s.binding a).collection = (s.binding b).collection
  · have hsame : s.stored a = s.stored b := by rw [stored, stored, ha]
    by_cases hb : (s.binding b).collection < s.store.collections.length
    · rw [if_pos ⟨ha, hb⟩, if_pos ha, hsame]
      exact ⟨hid, rfl⟩
    · -- a collection that is not there has no documents
      have hempty : (s.stored b).documents = [] := by
        simp [stored, Store.collectionAt, Nat.le_of_not_lt hb, Collection.empty]
      rw [if_neg fun h => hb h.2, if_pos ha, ← stored, hsame, hnone hempty]
      exact ⟨rfl, hempty⟩
  · rw [if_neg fun h => ha h.1, if_neg ha]
    exact ⟨rfl, rfl⟩

theorem stored_passed (s : Session) (b c : Nat) (query update : Value) :
    ((s.passed b query update).stored c).idField = (s.stored c).idField ∧
      ((s.passed b query update).stored c).documents =
        if (s.binding c).collection = (s.binding b).collection then
          (s.pass b query update).documents
        else (s.stored c).documents := by
  refine stored_withStored (c := ((s.stored b).updateMany query update false true).1) rfl
    (fun hnone => ?_) c
  change (s.pass b query update).documents = []
  rw [pass, hnone]
  rfl

/-- An update of all documents that changes none leaves all collections as they are. -/
theorem updateAll_idle_iff :
    (∃ u, updateAll b query update t = (.ok 0, u) ∧
      ∀ c, (u.stored c).documents = (t.stored c).documents) ↔
      ∀ p ∈ (t.stored b).documents, Collection.Settled query update p.2 := by
  constructor
  · rintro ⟨u, hu, _⟩
    obtain ⟨hok, hnone, _⟩ := updateAll_eq_ok_iff.mp hu
    exact Collection.updateEntries_idle_iff.mp ⟨hok, hnone⟩
  · intro h
    obtain ⟨hok, hnone⟩ := Collection.updateEntries_idle_iff.mpr h
    refine ⟨_, updateAll_eq_ok_iff.mpr ⟨hok, hnone, rfl⟩, fun c => ?_⟩
    rw [(stored_passed t b c query update).2]
    by_cases hc : (t.binding c).collection = (t.binding b).collection
    · rw [if_pos hc, stored, hc]
      exact Collection.updateEntries_idle h
    · rw [if_neg hc]

/-- After an update of all documents there is nothing left to do, just where each document that it
changed is one that it leaves alone. -/
theorem settled_updateAll_iff (h : updateAll b query update s = (.ok n, t)) :
    (∀ p ∈ (t.stored b).documents, Collection.Settled query update p.2) ↔
      ∀ p ∈ (s.stored b).documents, Collection.matched query p = true →
        Collection.changes update p = true →
          Collection.Settled query update (applyUpdate p.2 update).document := by
  obtain ⟨hok, _, rfl⟩ := updateAll_eq_ok_iff.mp h
  rw [(stored_passed s b b query update).2, if_pos rfl]
  exact Collection.settled_after_iff hok

/-- A session with one collection that has the given documents. -/
def holding (ps : Entries) : Session :=
  let s := (onEmptyStore Models.catalog .standard .empty 0).withCollection "people"
  s.withStored 0 ((s.stored 0).written ps)

end Session

end DocStore
