import DocStore.Proofs.Document.Places
import DocStore.Proofs.Run
import DocStore.Proofs.Store.Picking
import DocStore.Proofs.Store.Updating
import Mathlib.Logic.Relation

/-! What each operation makes of a collection, as far as it went: its documents, its keys, and what
all its documents satisfy, also after an update that broke off. -/

namespace DocStore

open Value

namespace Entries

/-- All values are dictionaries. -/
def Documentary (ps : Entries) : Prop := ∀ x ∈ ps.values, ∃ qs, x = dict qs

theorem Documentary.nil : Documentary [] := by simp [Documentary, values]

theorem documentary_cons {p : Value × Value} {ps : Entries} :
    Documentary (p :: ps) ↔ (∃ qs, p.2 = dict qs) ∧ Documentary ps := by
  simp [Documentary, values]

end Entries

namespace Collection

variable {c c' : Collection} {query update document : Value} {ps : Entries}

/-- One operation on a collection, as far as it went. An insertion, a replacement and a removal
that fail leave the collection as it was, so they need no case. -/
inductive Change (c : Collection) : Collection → Prop
  | insert {document : Value} {m m' : Nat} {c' : Collection}
      (h : c.insert document m = (.ok c', m')) : Change c c'
  | replace {query document : Value} {old : Option Value} {c' : Collection}
      (h : c.replaceFirst query document = .ok (old, c')) : Change c c'
  | remove {query : Value} {old : Option Value} {c' : Collection}
      (h : c.removeFirst query = .ok (old, c')) : Change c c'
  | update (query update : Value) (upsert every : Bool) :
      Change c (c.updateMany query update upsert every).1
  | select (query : Value) : Change c (c.select query).1
  | index {field direction : Value} {name : String} {isNew : Bool} {c' : Collection}
      (h : c.ensureIndex field direction = .ok (name, isNew, c')) : Change c c'
  | drop : Change c c.drop

theorem target_eq_some {f : Found} (h : c.target query = .ok (some f)) :
    c.documents = f.before ++ (f.key, f.document) :: f.after := by
  obtain ⟨found, hfound, hf⟩ := except_map_eq_ok.mp h
  rw [(Option.filter_eq_some_iff.mp hf).1] at hfound
  exact (findFirst_eq_some_iff.mp hfound).split

theorem insertEntries_eq_ok (h : c.insertEntries ps = .ok c') :
    ∃ id, id = (Entries.get? (str c.idField) ps).getD null ∧ id.hashable = true ∧
      Entries.contains id c.documents = false ∧
      c' = c.written (c.documents ++ [(id, dict ps)]) := by
  unfold insertEntries at h
  dsimp only at h
  split at h
  · cases h
  · next hhash =>
    split at h
    · cases h
    · next hnew =>
      cases h
      exact ⟨_, rfl, by simpa using hhash, by simpa using hnew, rfl⟩

/-- What an insertion adds: a document at the end, under an identifier that is new. -/
theorem insert_eq_ok {m m' : Nat} (h : c.insert document m = (.ok c', m')) :
    ∃ ps id, id = (Entries.get? (str c.idField) ps).getD null ∧ id.hashable = true ∧
      Entries.contains id c.documents = false ∧
      c' = c.written (c.documents ++ [(id, dict ps)]) := by
  unfold insert at h
  obtain ⟨ps, n, _, h⟩ := bind_eq_ok_iff.mp h
  cases hc : c.insertEntries ps with
  | error e =>
    rw [hc] at h
    cases h
  | ok d =>
    rw [hc] at h
    cases h
    exact ⟨ps, insertEntries_eq_ok hc⟩

/-- A replacement carries an identifier equal to the key, or the key itself. -/
theorem replacement_eq_ok {idField : String} {key new : Value}
    (h : replacement idField key document = .ok new) :
    ∃ ps, new = dict ps ∧ ((Entries.get? (str idField) ps).getD null = key ∨
      equal ((Entries.get? (str idField) ps).getD null) key = true) := by
  unfold replacement at h
  cases document with
  | dict ps =>
    cases hid : Entries.get? (str idField) ps with
    | some id =>
      simp only [hid] at h
      split at h
      · next he =>
        cases h
        exact ⟨ps, rfl, .inr (by rwa [hid])⟩
      · cases h
    | none =>
      simp only [hid] at h
      split at h
      · cases h
      · cases h
        exact ⟨_, rfl, .inl (by rw [Entries.get?_put_here, Option.getD_some])⟩
  | _ => cases h

theorem replaceFirst_eq_ok {old : Option Value}
    (h : c.replaceFirst query document = .ok (old, c')) : c' = c ∨
      ∃ before k d after new, c.documents = before ++ (k, d) :: after ∧
        replacement c.idField k document = .ok new ∧
        c' = c.written (before ++ (k, new) :: after) := by
  obtain ⟨found, ht, h⟩ := except_bind_eq_ok.mp h
  cases found with
  | none =>
    cases h
    exact .inl rfl
  | some f =>
    obtain ⟨new, hnew, h⟩ := except_bind_eq_ok.mp h
    cases h
    exact .inr ⟨f.before, f.key, f.document, f.after, new, target_eq_some ht, hnew, rfl⟩

theorem removeFirst_eq_ok {old : Option Value}
    (h : c.removeFirst query = .ok (old, c')) : c' = c ∨
      ∃ before p after, c.documents = before ++ p :: after ∧
        c' = c.written (before ++ after) := by
  obtain ⟨found, ht, h⟩ := except_bind_eq_ok.mp h
  cases found with
  | none =>
    cases h
    exact .inl rfl
  | some f =>
    cases h
    exact .inr ⟨f.before, _, f.after, target_eq_some ht, rfl⟩

/-! Keys: an insertion adds one at the end, a removal takes one out or finds none -/

theorem insert_keys {m m' : Nat} (h : c.insert document m = (.ok c', m')) :
    c'.idField = c.idField ∧ ∃ k, k.hashable = true ∧ Entries.contains k c.documents = false ∧
      c'.documents.keys = c.documents.keys ++ [k] := by
  obtain ⟨ps, id, _, hid, hnew, rfl⟩ := insert_eq_ok h
  exact ⟨rfl, id, hid, hnew, by simp [written, Entries.keys]⟩

theorem replaceFirst_keys {old : Option Value} (h : c.replaceFirst query document = .ok (old, c')) :
    c'.idField = c.idField ∧ c'.documents.keys = c.documents.keys := by
  rcases replaceFirst_eq_ok h with rfl | ⟨before, k, d, after, new, hd, _, rfl⟩
  · exact ⟨rfl, rfl⟩
  · exact ⟨rfl, by simp [written, hd, Entries.keys]⟩

theorem removeFirst_keys {old : Option Value} (h : c.removeFirst query = .ok (old, c')) :
    c'.idField = c.idField ∧ (c'.documents.keys = c.documents.keys ∨ ∃ before k after,
      c.documents.keys = before ++ k :: after ∧ c'.documents.keys = before ++ after) := by
  rcases removeFirst_eq_ok h with rfl | ⟨before, p, after, hd, rfl⟩
  · exact ⟨rfl, .inl rfl⟩
  · refine ⟨rfl, .inr ⟨before.map Prod.fst, p.1, after.map Prod.fst, ?_, ?_⟩⟩
    · simp [hd, Entries.keys]
    · simp [written, Entries.keys]

theorem updated_eq_some {idField : String} {key d new : Value}
    (h : updated idField key d update = .ok (some new)) :
    ∃ ps, new = dict ps ∧ equal ((Entries.get? (str idField) ps).getD null) key = true := by
  rw [updated] at h
  split at h
  · cases h
  · cases h
  · split at h
    · next ps _ =>
      split at h
      · next he =>
        cases h
        exact ⟨ps, rfl, he⟩
      · cases h
    · cases h

/-- An update keeps what each document that it wrote, and each that was there, satisfies. -/
theorem forall_updateEntries {idField : String} {every : Bool} {P : Value × Value → Prop}
    (hP : ∀ k d new, updated idField k d update = .ok (some new) → P (k, new))
    (h : ∀ p ∈ ps, P p) :
    ∀ p ∈ (updateEntries idField query update every ps).documents, P p := by
  induction ps with
  | nil => exact h
  | cons p ps ih =>
    obtain ⟨k, d⟩ := p
    obtain ⟨hp, hps⟩ := List.forall_mem_cons.mp h
    rw [updateEntries_cons]
    split
    · exact h
    · exact List.forall_mem_cons.mpr ⟨hp, ih hps⟩
    · cases hu : updated idField k d update with
      | error e => exact h
      | ok changed =>
        have hnew : P (k, changed.getD d) := by
          cases changed with
          | none => exact hp
          | some new => exact hP k d new hu
        dsimp only
        split
        · exact List.forall_mem_cons.mpr ⟨hnew, ih hps⟩
        · exact List.forall_mem_cons.mpr ⟨hnew, hps⟩

end Collection

end DocStore
