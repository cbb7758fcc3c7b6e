import DocStore.Proofs.Codec.Attributes
import DocStore.Proofs.Value.Reflexive

/-! What is written for a definite value is definite. -/

namespace DocStore

open Value

namespace Codec

variable {cat : Catalog} {s : Schema} {c : String}

/-- The header consists of the identifier, the name of the class and the revision. -/
theorem header_forall {fs ps : Entries} {r t : Registry} {P : Value × Value → Prop}
    (hid : P (str s.idField, (Entries.get? (str "id") fs).getD null))
    (hname : ∀ n, P (str s.classField, str n)) (hrevision : ∀ n, P (str s.revisionField, int n))
    (h : header cat s c fs r = (.ok ps, t)) : ps.Keyed ∧ ∀ p ∈ ps, P p := by
  have hput {qs : Entries} {k : String} {v : Value} (hq : qs.Keyed ∧ ∀ q ∈ qs, P q)
      (hv : P (str k, v)) :
      Entries.Keyed (Entries.put (str k) v qs) ∧ ∀ q ∈ Entries.put (str k) v qs, P q :=
    ⟨hq.1.put k v, hq.1.forall_put.mpr ⟨hv, fun q hm _ => hq.2 q hm⟩⟩
  unfold header at h
  obtain ⟨n, u, _, h⟩ := bind_eq_ok_iff.mp h
  by_cases hi : (cat.class? c).any ClassSpec.identifiable = true
  · simp only [hi, if_true] at h
    cases h
    exact hput (hput ⟨.singleton _ _, by simpa using hid⟩ (hname n)) (hrevision _)
  · simp only [hi] at h
    cases h
    exact hput ⟨.nil, by simp⟩ (hname n)

theorem definite_id {fs : Entries} (h : definiteEntries fs = true) :
    definite ((Entries.get? (str "id") fs).getD null) = true := by
  cases hid : Entries.get? (str "id") fs with
  | none => rfl
  | some v => exact (definiteEntries_iff.mp h _ (Entries.mem_of_get? hid)).2

mutual

theorem toValue_definite (v : Value) : ∀ {w r t}, toValue cat s v r = (.ok w, t) →
    definite v = true → definite w = true := by
  intro w r t h hv
  cases v with
  | member o n x =>
    cases h
    exact hv
  | ext code data =>
    cases h
    rfl
  | list xs =>
    rw [toValue] at h
    obtain ⟨ys, _, hys, h⟩ := bind_eq_ok_iff.mp h
    cases h
    exact toValues_definite xs hys hv
  | tuple xs =>
    rw [toValue] at h
    obtain ⟨ys, _, hys, h⟩ := bind_eq_ok_iff.mp h
    cases h
    exact toValues_definite xs hys hv
  | set u xs =>
    rw [toValue] at h
    obtain ⟨ys, _, hys, h⟩ := bind_eq_ok_iff.mp h
    cases h
    exact toValues_definite xs hys hv
  | dict ps =>
    rw [definite, Bool.and_eq_true] at hv
    rw [toValue] at h
    obtain ⟨qs, _, hqs, h⟩ := bind_eq_ok_iff.mp h
    cases h
    have hkeys := keys_of_parts (toEntries_parts hqs)
    rw [definite, Bool.and_eq_true]
    exact ⟨keysApart_congr hkeys ▸ hv.1, toEntries_definite ps hqs hv.2⟩
  | record c fs =>
    rw [definite, Bool.and_eq_true] at hv
    obtain ⟨start, u, gs, hstart, hgs, rfl⟩ := toValue_record h
    have hkeyed := keyed_of_parts (toFields_parts hgs) (ownFields_keyed (keyed_of_namesApart hv.1))
    obtain ⟨hk, hall⟩ := header_forall (P := fun p => definite p.1 = true ∧ definite p.2 = true)
      ⟨rfl, definite_id hv.2⟩ (fun _ => ⟨rfl, rfl⟩) (fun _ => ⟨rfl, rfl⟩) hstart
    have hgall := definiteEntries_iff.mp (toFields_definite c fs hgs hv.2)
    rw [definite, Bool.and_eq_true]
    exact ⟨keysApart_of_keyed (hk.merge hkeyed.text),
      definiteEntries_iff.mpr (hk.forall_merge hall hkeyed.text hgall)⟩
  | _ =>
    cases h
    exact hv
termination_by structural v

theorem toValues_definite (xs : List Value) : ∀ {ys r t}, toValues cat s xs r = (.ok ys, t) →
    definites xs = true → definites ys = true := by
  intro ys r t h hxs
  cases xs with
  | nil =>
    cases h
    rfl
  | cons x xs =>
    rw [definites, Bool.and_eq_true] at hxs
    rw [toValues] at h
    obtain ⟨y, _, hy, h⟩ := bind_eq_ok_iff.mp h
    obtain ⟨ys, _, hys, h⟩ := bind_eq_ok_iff.mp h
    cases h
    rw [definites, Bool.and_eq_true]
    exact ⟨toValue_definite x hy hxs.1, toValues_definite xs hys hxs.2⟩
termination_by structural xs

theorem toEntries_definite (ps : Entries) : ∀ {qs r t}, toEntries cat s ps r = (.ok qs, t) →
    definiteEntries ps = true → definiteEntries qs = true := by
  intro qs r t h hps
  cases ps with
  | nil =>
    cases h
    rfl
  | cons p ps =>
    rw [definiteEntries, Bool.and_eq_true] at hps
    rw [toEntries] at h
    obtain ⟨q, _, hq, h⟩ := bind_eq_ok_iff.mp h
    obtain ⟨qs, _, hqs, h⟩ := bind_eq_ok_iff.mp h
    cases h
    rw [definiteEntries, Bool.and_eq_true]
    exact ⟨toEntry_definite p hq hps.1, toEntries_definite ps hqs hps.2⟩
termination_by structural ps

theorem toEntry_definite (p : Value × Value) : ∀ {q r t}, toEntry cat s p r = (.ok q, t) →
    definiteEntry p = true → definiteEntry q = true := by
  intro q r t h hp
  cases p with
  | mk k v =>
    rw [definiteEntry, Bool.and_eq_true] at hp
    rw [toEntry] at h
    obtain ⟨w, _, hw, h⟩ := bind_eq_ok_iff.mp h
    cases h
    rw [definiteEntry, Bool.and_eq_true]
    exact ⟨hp.1, toValue_definite v hw hp.2⟩
termination_by structural p

theorem toFields_definite (c : String) (fs : Entries) : ∀ {gs r t},
    toFields cat s c fs r = (.ok gs, t) → definiteEntries fs = true →
    definiteEntries gs = true := by
  intro gs r t h hfs
  cases fs with
  | nil =>
    cases h
    rfl
  | cons f fs =>
    rw [definiteEntries, Bool.and_eq_true] at hfs
    rw [toFields] at h
    by_cases hid : isIdentity cat c f.1 = true
    · rw [if_pos hid] at h
      exact toFields_definite c fs h hfs.2
    · rw [if_neg hid] at h
      obtain ⟨g, _, hg, h⟩ := bind_eq_ok_iff.mp h
      obtain ⟨gs, _, hgs, h⟩ := bind_eq_ok_iff.mp h
      cases h
      rw [definiteEntries, Bool.and_eq_true]
      exact ⟨toEntry_definite f hg hfs.1, toFields_definite c fs hgs hfs.2⟩
termination_by structural fs

end

end Codec

end DocStore
