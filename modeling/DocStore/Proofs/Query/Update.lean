import DocStore.Proofs.Document.Places
import DocStore.Proofs.Names
import DocStore.Proofs.Store.Updating
import DocStore.Proofs.Value.Exactly

/-! Update documents: which of them are refused as a whole, and what single steps of the others do
to a document. -/

namespace DocStore

open Value

section Steps

variable {path : String} {v d d' : Value}

theorem popAt_absent (h : getPath (segments path) d = none) : popAt (segments path) d = none := by
  cases d with
  | dict ps =>
    rw [popAt, (Entries.popPath_eq_none_iff (segments_ne_nil path)).mpr h]
    rfl
  | _ => rfl

theorem popAt_present (h : getPath (segments path) d = some v) :
    ∃ ps qs, d = dict ps ∧ Entries.popPath (segments path) ps = some (v, qs) ∧
      popAt (segments path) d = some (v, dict qs) := by
  obtain ⟨ps, rfl⟩ : ∃ ps, d = dict ps := by
    obtain ⟨s, rest, hs⟩ := List.exists_cons_of_ne_nil (segments_ne_nil path)
    rw [hs] at h
    obtain ⟨ps, _, hd, _⟩ := getPath_cons_eq_some h
    exact ⟨ps, hd⟩
  rw [← Entries.value_popPath (segments_ne_nil path)] at h
  obtain ⟨⟨_, qs⟩, hpop, rfl⟩ := Option.map_eq_some_iff.mp h
  refine ⟨ps, qs, rfl, hpop, ?_⟩
  rw [popAt, hpop]
  rfl

theorem isUpdateOperator_iff {k : Value} :
    isUpdateOperator k = true ↔ k = str "$set" ∨ k = str "$unset" ∨ k = str "$rename" := by
  simp [isUpdateOperator, equal_str_right, or_assoc]

theorem updateFault?_eq_none_iff {update : Entries} : updateFault? (dict update) = none ↔
    update ≠ [] ∧ ∀ k ∈ update.keys, isUpdateOperator k = true := by
  cases update with
  | nil => exact iff_of_false (by simp [updateFault?, truthy]) (by simp)
  | cons p rest => simp [updateFault?, truthy, iterate?, Entries.keys]

theorem updateFault?_malformed {update : Entries} {e : Error}
    (h : updateFault? (dict update) = some e) : ∃ cause, e = .malformed cause := by
  unfold updateFault? at h
  split at h
  · cases h
    exact ⟨_, rfl⟩
  · obtain ⟨k, _, rfl⟩ := Option.map_eq_some_iff.mp h
    exact ⟨_, rfl⟩

theorem applyUpdate_known {update : Entries} (d : Value) (hne : update ≠ [])
    (h : ∀ k ∈ update.keys, isUpdateOperator k = true) :
    applyUpdate d (dict update) = runUpdate update d := by
  rw [applyUpdate, updateFault?_eq_none_iff.mpr ⟨hne, h⟩]

/-- The entries that set paths to values. -/
def assignments (sets : List (String × Value)) : Entries := sets.map fun p => (str p.1, p.2)

/-- The update that sets paths to values and does nothing else. -/
def setting (sets : List (String × Value)) : Value := dict [(str "$set", dict (assignments sets))]

theorem holdsAt_eq_true {p : List String} (h : holdsAt p v d = true) :
    ∃ w, getPath p d = some w ∧ equal w v = true ∧ w.classOf = v.classOf := by
  unfold holdsAt at h
  split at h
  · next w hw =>
    obtain ⟨he, hc⟩ := Bool.and_eq_true_iff.mp h
    exact ⟨w, hw, (Bool.and_eq_true_iff.mp he).2, beq_iff_eq.mp hc⟩
  · cases h

theorem Updated.andThen_done (u : Updated) : u.andThen (fun changed d => ⟨d, .ok changed⟩) = u := by
  obtain ⟨d, r⟩ := u
  cases r <;> rfl

theorem applyUpdate_setting (sets : List (String × Value)) (d : Value) :
    applyUpdate d (setting sets) = setAll (assignments sets) false d := by
  have hknown : applyUpdate d (setting sets) =
      runUpdate [(str "$set", dict (assignments sets))] d :=
    applyUpdate_known d (by simp) (by simp [Entries.keys, isUpdateOperator])
  rw [hknown]
  simp only [runUpdate, operands, removals, Entries.get?, equal_str]
  exact (Updated.andThen_done _).trans (Updated.andThen_done _)

end Steps

end DocStore
