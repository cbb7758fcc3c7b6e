import DocStore.Proofs.Store.Changes
import DocStore.Proofs.Value.Mark

/-! Collections in order: no two documents stand under equal keys, each stands under its own
identifier, and no index is there twice. All changes keep this. -/

namespace DocStore

open Value

namespace Entries

variable {k : Value} {ps : Entries}

/-- No two keys are equal. -/
def Apart (keys : List Value) : Prop := keys.Pairwise fun k l => equal k l = false

theorem contains_eq_false_iff : contains k ps = false ↔ ∀ p ∈ ps, equal p.1 k = false := by
  induction ps with
  | nil => simp [contains, get?]
  | cons p ps ih =>
    unfold contains at ih ⊢
    rw [get?, List.forall_mem_cons]
    by_cases hp : equal p.1 k = true
    · simp [hp]
    · rw [if_neg hp, ih]
      simp [hp]

end Entries

open Entries

namespace Collection

variable {N : String → Prop} {c c' : Collection} {query update document field direction : Value}

/-- A document that is found under its own identifier. -/
def Stands (idField : String) (p : Value × Value) : Prop :=
  ∃ ps, p.2 = dict ps ∧ Under p.1 ((Entries.get? (str idField) ps).getD null)

/-- Where a key is equal to itself, so is the identifier to it. -/
theorem Stands.equal {idField : String} {p : Value × Value} (h : Stands idField p)
    (hself : equal p.1 p.1 = true) :
    ∃ ps, p.2 = dict ps ∧ equal ((Entries.get? (str idField) ps).getD null) p.1 = true := by
  obtain ⟨ps, hps, hid | hid⟩ := h
  · exact ⟨ps, hps, by rw [hid]; exact hself⟩
  · exact ⟨ps, hps, hid⟩

/-- Names that indexes have: a field, and whether they rise or fall. -/
def Directed (name : String) : Prop :=
  ∃ field : String, name = field ++ "_1" ∨ name = field ++ "_-1"

/-- Order among documents and indexes, the names of which satisfy a predicate. -/
structure Orderly (N : String → Prop) (c : Collection) : Prop where
  apart : Apart c.documents.keys
  stands : ∀ p ∈ c.documents, Stands c.idField p
  once : c.indexes.Nodup
  named : ∀ name ∈ c.indexes, N name

theorem orderly_empty (name : Value) (idField : String) : (empty name idField).Orderly N :=
  ⟨.nil, by simp [empty], .nil, by simp [empty]⟩

theorem orderly_drop (c : Collection) : c.drop.Orderly N :=
  ⟨.nil, by simp [drop], .nil, by simp [drop]⟩

/-- Looking through a collection changes a count only. -/
theorem Orderly.select (h : c.Orderly N) (query : Value) : (c.select query).1.Orderly N :=
  ⟨h.apart, h.stands, h.once, h.named⟩

theorem Orderly.written (h : c.Orderly N) {documents : Entries} (ha : Apart documents.keys)
    (hs : ∀ p ∈ documents, Stands c.idField p) : (c.written documents).Orderly N :=
  ⟨ha, hs, h.once, h.named⟩

theorem Orderly.insert (h : c.Orderly N) {m m' : Nat} (hc : c.insert document m = (.ok c', m')) :
    c'.Orderly N ∧ c'.idField = c.idField := by
  obtain ⟨ps, id, hid, _, hnew, rfl⟩ := insert_eq_ok hc
  refine ⟨h.written ?_ ?_, rfl⟩
  · have hkeys : (c.documents ++ [(id, dict ps)]).keys = c.documents.keys ++ [id] := by
      simp [keys]
    rw [hkeys, Apart, List.pairwise_append]
    refine ⟨h.apart, List.pairwise_singleton _ _, fun k hk l hl => ?_⟩
    obtain ⟨p, hp, rfl⟩ := List.mem_map.mp hk
    rw [List.mem_singleton.mp hl]
    exact contains_eq_false_iff.mp hnew p hp
  · intro p hp
    rcases List.mem_append.mp hp with hp | hp
    · exact h.stands p hp
    · rw [List.mem_singleton.mp hp]
      exact ⟨ps, rfl, .inl hid.symm⟩

theorem stands_replacement {idField : String} {key new : Value}
    (h : replacement idField key document = .ok new) : Stands idField (key, new) :=
  replacement_eq_ok h

theorem Orderly.replaceFirst (h : c.Orderly N) {old : Option Value}
    (hc : c.replaceFirst query document = .ok (old, c')) :
    c'.Orderly N ∧ c'.idField = c.idField := by
  have hkeys := (replaceFirst_keys hc).2
  rcases replaceFirst_eq_ok hc with rfl | ⟨before, k, d, after, new, hd, hnew, rfl⟩
  · exact ⟨h, rfl⟩
  · have hstands := h.stands
    rw [hd, List.forall_mem_append, List.forall_mem_cons] at hstands
    refine ⟨h.written (hkeys ▸ h.apart) ?_, rfl⟩
    rw [List.forall_mem_append, List.forall_mem_cons]
    exact ⟨hstands.1, stands_replacement hnew, hstands.2.2⟩

theorem Orderly.removeFirst (h : c.Orderly N) {old : Option Value}
    (hc : c.removeFirst query = .ok (old, c')) : c'.Orderly N ∧ c'.idField = c.idField := by
  rcases removeFirst_eq_ok hc with rfl | ⟨before, p, after, hd, rfl⟩
  · exact ⟨h, rfl⟩
  · have hsub : (before ++ after).Sublist c.documents := by
      rw [hd]
      exact (List.sublist_cons_self p after).append_left before
    exact ⟨h.written (h.apart.sublist (hsub.map Prod.fst)) fun q hq => h.stands q (hsub.subset hq),
      rfl⟩

theorem stands_updated {idField : String} {key d new : Value}
    (h : updated idField key d update = .ok (some new)) : Stands idField (key, new) := by
  obtain ⟨ps, rfl, he⟩ := updated_eq_some h
  exact ⟨ps, rfl, .inr he⟩

theorem keys_updateEntries (idField : String) (query update : Value) (every : Bool)
    (ps : Entries) :
    Entries.keys (updateEntries idField query update every ps).documents = ps.keys := by
  induction ps with
  | nil => rfl
  | cons p ps ih =>
    obtain ⟨k, d⟩ := p
    rw [updateEntries_cons]
    split
    · rfl
    · exact congrArg (k :: ·) ih
    · split
      · rfl
      · dsimp only
        split
        · exact congrArg (k :: ·) ih
        · rfl

theorem Orderly.updateMany (h : c.Orderly N) (query update : Value) (upsert every : Bool) :
    (c.updateMany query update upsert every).1.Orderly N := by
  cases upsert with
  | true => exact h
  | false =>
    refine ⟨?_, forall_updateEntries (fun _ _ _ => stands_updated) h.stands, h.once, h.named⟩
    rw [show (c.updateMany query update false every).1.documents.keys = _ from
      keys_updateEntries c.idField query update every c.documents]
    exact h.apart

/-- Whether a direction is one that indexes can have. -/
def isDirection (direction : Value) : Bool :=
  equal direction (int 1) || equal direction (int (-1))

theorem eq_of_equal_int {m n : Int} (h : equal (int m) (int n) = true) : m = n := by
  simpa [equal, eqv, numberEqual, number?, Exact.ofInt, Exact.compare] using h

theorem indexName_eq (field direction : Value) :
    indexName field direction = field.display ++ ("_" ++ direction.display) := by
  rw [indexName, ← String.append_assoc]
  rfl

theorem directed_indexName (field : Value) {d : Int} (hd : isDirection (int d) = true) :
    Directed (indexName field (int d)) := by
  refine ⟨field.display, ?_⟩
  rcases Bool.or_eq_true_iff.mp hd with h | h
  · left
    rw [eq_of_equal_int h, indexName_eq]
    rfl
  · right
    rw [eq_of_equal_int h, indexName_eq]
    rfl

theorem Orderly.ensureIndex (h : c.Orderly N) {name : String} {isNew : Bool}
    (hN : isDirection direction = true → N (indexName field direction))
    (hc : c.ensureIndex field direction = .ok (name, isNew, c')) :
    c'.Orderly N ∧ c'.idField = c.idField := by
  unfold Collection.ensureIndex at hc
  dsimp only at hc
  split at hc
  · next hd =>
    split at hc
    · cases hc
      exact ⟨h, rfl⟩
    · next hnew =>
      cases hc
      refine ⟨⟨h.apart, h.stands, ?_, ?_⟩, rfl⟩
      · exact List.nodup_append.mpr ⟨h.once, List.nodup_singleton _, fun a ha b hb => by
          rw [List.mem_singleton.mp hb]
          rintro rfl
          exact hnew (by simpa using ha)⟩
      · intro n hn
        rcases List.mem_append.mp hn with hn | hn
        · exact h.named n hn
        · rw [List.mem_singleton.mp hn]
          exact hN hd
  · cases hc

end Collection

end DocStore
