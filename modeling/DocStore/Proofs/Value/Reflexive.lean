import DocStore.Proofs.Document.Entries
import DocStore.Proofs.Value.Equivalence

/-! Values that are equal to themselves, in all their parts. -/

namespace DocStore

namespace Value

/-- No two keys are equal. -/
def keysApart : Entries → Bool
  | [] => true
  | p :: ps => (ps.all fun q => !equal p.1 q.1 && !equal q.1 p.1) && keysApart ps

def namesApart (fs : Entries) : Bool := fs.all (fun f => f.1.isStr) && keysApart fs

mutual

/-- Nothing in a value is NaN or an object of which nothing is known, and no dictionary has a key
twice, nor a record a field. -/
def definite : Value → Bool
  | float x => !isNan (float x)
  | handle => false
  | member _ _ v => definite v
  | list xs => definites xs
  | tuple xs => definites xs
  | set _ xs => definites xs
  | dict ps => keysApart ps && definiteEntries ps
  | record _ fs => namesApart fs && definiteEntries fs
  | _ => true
termination_by structural x => x

def definites : List Value → Bool
  | [] => true
  | x :: xs => definite x && definites xs
termination_by structural x => x

def definiteEntries : Entries → Bool
  | [] => true
  | p :: ps => definiteEntry p && definiteEntries ps
termination_by structural x => x

def definiteEntry : Value × Value → Bool
  | (k, v) => definite k && definite v
termination_by structural x => x

end

variable {v : Value} {xs : List Value} {ps : Entries}

theorem definiteEntries_iff :
    definiteEntries ps = true ↔ ∀ p ∈ ps, definite p.1 = true ∧ definite p.2 = true := by
  induction ps with
  | nil => simp [definiteEntries]
  | cons p ps ih =>
    rw [definiteEntries, Bool.and_eq_true, ih, List.forall_mem_cons, definiteEntry,
      Bool.and_eq_true]

theorem keyed_of_namesApart (h : namesApart ps = true) : ps.Keyed := by
  rw [namesApart, Bool.and_eq_true] at h
  refine ⟨fun p hp => ?_, ?_⟩
  · have hstr := List.all_eq_true.mp h.1 p hp
    cases hk : p.1 with
    | str n => exact ⟨n, rfl⟩
    | _ => rw [hk] at hstr; cases hstr
  · have hkeys := h.2
    have htext := h.1
    clear h
    induction ps with
    | nil => exact .nil
    | cons p ps ih =>
      rw [keysApart, Bool.and_eq_true] at hkeys
      rw [List.all_cons, Bool.and_eq_true] at htext
      refine List.pairwise_cons.mpr ⟨fun q hq he => ?_, ih hkeys.2 htext.2⟩
      have hapart := List.all_eq_true.mp hkeys.1 q hq
      cases hk : p.1 with
      | str n => simp [← he, hk] at hapart
      | _ => rw [hk] at htext; cases htext.1

theorem keysApart_of_keyed (h : ps.Keyed) : keysApart ps = true := by
  induction ps with
  | nil => rfl
  | cons p ps ih =>
    rw [keysApart, Bool.and_eq_true, List.all_eq_true]
    refine ⟨fun q hq => ?_, ih h.tail⟩
    obtain ⟨n, hn⟩ := h.text p (by simp)
    obtain ⟨m, hm⟩ := h.text q (by simp [hq])
    have hne : p.1 ≠ q.1 := (List.pairwise_cons.mp h.distinct).1 q hq
    rw [hn, hm] at hne
    have hnm : n ≠ m := fun he => hne (he ▸ rfl)
    simp [hn, hm, hnm, hnm.symm]

theorem keysApart_congr {qs : Entries} (h : ps.map Prod.fst = qs.map Prod.fst) :
    keysApart ps = keysApart qs := by
  induction ps generalizing qs with
  | nil =>
    cases qs with
    | nil => rfl
    | cons q qs => cases h
  | cons p ps ih =>
    cases qs with
    | nil => cases h
    | cons q qs =>
      obtain ⟨hk, hrest⟩ := List.cons_eq_cons.mp h
      have hall (as : Entries) : (as.all fun a => !equal p.1 a.1 && !equal a.1 p.1) =
          (as.map Prod.fst).all fun k => !equal p.1 k && !equal k p.1 := by
        rw [List.all_map]
        rfl
      rw [keysApart, keysApart, ih hrest, hall, hrest, ← hall, hk]

/-- Among keys that are apart a key finds its own entry. -/
theorem hasEntry_self {p : Value × Value} (hapart : keysApart ps = true) (hp : p ∈ ps)
    (hk : equal p.1 p.1 = true) (hv : equal p.2 p.2 = true) : hasEntry false p ps = true := by
  have hfind : ps.find? (fun q => eqv false p.1 q.1) = some p := by
    induction ps with
    | nil => cases hp
    | cons q ps ih =>
      rw [keysApart, Bool.and_eq_true] at hapart
      by_cases hq : p = q
      · rw [← hq]
        exact List.find?_cons_of_pos hk
      · have hp : p ∈ ps := (List.mem_cons.mp hp).resolve_left hq
        have hne := List.all_eq_true.mp hapart.1 p hp
        rw [Bool.and_eq_true, Bool.not_eq_true', Bool.not_eq_true'] at hne
        rw [List.find?_cons_of_neg (Bool.not_eq_true _ ▸ hne.2)]
        exact ih hapart.2 hp
  rw [hasEntry, hfind]
  exact hv

theorem equal_number {x : Exact} (hx : v.number? = some x) (hn : x ≠ .nan) :
    equal v v = true := by
  have hmark : v.mark? = some (.number x.code) := by
    rw [mark?_of_number hx, Exact.mark?_of_ne hn]
  exact equal_of_marks hmark hmark

mutual

/-- A definite value is equal to itself. -/
theorem equal_self (v : Value) : definite v = true → equal v v = true := by
  intro h
  cases v with
  | bool b => exact equal_number (x := .ofInt _) rfl nofun
  | int n => exact equal_number (x := .ofInt n) rfl nofun
  | float x =>
    refine equal_number (x := x.toExact) rfl fun hx => ?_
    simp [definite, isNan, number?, hx] at h
  | datetime t => simp [equal, eqv, DateTime.compare]
  | list xs => exact eqvList_iff.mpr (List.forall₂_same.mpr (equal_each xs h))
  | tuple xs => exact eqvList_iff.mpr (List.forall₂_same.mpr (equal_each xs h))
  | set u xs =>
    have hall := equal_each xs h
    refine Bool.and_eq_true_iff.mpr ⟨beq_self_eq_true _, withinSet_iff.mpr fun x hx => ?_⟩
    exact ⟨x, hx, hall x hx⟩
  | dict ps =>
    rw [definite, Bool.and_eq_true] at h
    have hall := equal_entries ps h.2
    refine Bool.and_eq_true_iff.mpr ⟨beq_self_eq_true _, withinDict_iff.mpr fun p hp => ?_⟩
    exact hasEntry_self h.1 hp (hall p hp).1 (hall p hp).2
  | record c fs =>
    rw [definite, Bool.and_eq_true] at h
    have hall := equal_entries fs h.2
    refine Bool.and_eq_true_iff.mpr ⟨beq_self_eq_true _, eqvEntries_iff.mpr ?_⟩
    exact List.forall₂_same.mpr fun p hp => hall p hp
  | handle => cases h
  | _ => simp [equal, eqv, isNull]
termination_by structural v

theorem equal_each (xs : List Value) : definites xs = true → ∀ x ∈ xs, equal x x = true := by
  intro h
  cases xs with
  | nil => simp
  | cons x xs =>
    rw [definites, Bool.and_eq_true] at h
    exact List.forall_mem_cons.mpr ⟨equal_self x h.1, equal_each xs h.2⟩
termination_by structural xs

theorem equal_entries (ps : Entries) : definiteEntries ps = true →
    ∀ p ∈ ps, equal p.1 p.1 = true ∧ equal p.2 p.2 = true := by
  intro h
  cases ps with
  | nil => simp
  | cons p ps =>
    rw [definiteEntries, Bool.and_eq_true] at h
    exact List.forall_mem_cons.mpr ⟨equal_entry p h.1, equal_entries ps h.2⟩
termination_by structural ps

theorem equal_entry (p : Value × Value) : definiteEntry p = true →
    equal p.1 p.1 = true ∧ equal p.2 p.2 = true := by
  intro h
  cases p with
  | mk k v =>
    rw [definiteEntry, Bool.and_eq_true] at h
    exact ⟨equal_self k h.1, equal_self v h.2⟩
termination_by structural p

end

end Value

end DocStore
