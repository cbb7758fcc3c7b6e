import DocStore.Proofs.Run
import DocStore.Proofs.Value.SortOrder
import DocStore.Query.Sort

/-! Sorting by several keys is one stable sort, by the first key that tells two documents apart,
wherever the values sorted by hold no NaN. -/

namespace DocStore

open Value

namespace Value

mutual

/-- No NaN decides the place of a value among others. -/
def nanFree : Value → Bool
  | float x => x.toExact != .nan
  | list xs => nanFrees xs
  | _ => true
termination_by structural x => x

def nanFrees : List Value → Bool
  | [] => true
  | x :: xs => nanFree x && nanFrees xs
termination_by structural x => x

end

theorem sortKeys_cons (x : Value) (xs : List Value) :
    sortKeys (x :: xs) = (sortKey x).bind fun k => (sortKeys xs).map (k :: ·) := by
  rw [sortKeys]
  cases sortKey x <;> rfl

mutual

theorem sortKey_sortable (v : Value) : ∀ {k}, v.nanFree = true → sortKey v = .ok k →
    k.sortable = true := by
  intro k hv h
  cases v with
  | dict ps =>
    rw [sortKey] at h
    obtain ⟨qs, _, rfl⟩ := except_map_eq_ok.mp h
    rfl
  | list xs =>
    rw [sortKey] at h
    obtain ⟨ks, hs, rfl⟩ := except_map_eq_ok.mp h
    have hk : sortables ks = true := sortKeys_sortable xs hv hs
    simp [sortable, sortables, hk]
  | float x =>
    cases h
    have hx : x.toExact != .nan := hv
    simpa [sortable, sortables, rank] using hx
  | _ =>
    cases h
    rfl
termination_by structural v

theorem sortKeys_sortable (xs : List Value) : ∀ {ks}, nanFrees xs = true → sortKeys xs = .ok ks →
    sortables ks = true := by
  intro ks hx h
  cases xs with
  | nil =>
    cases h
    rfl
  | cons x xs =>
    rw [nanFrees, Bool.and_eq_true] at hx
    rw [sortKeys_cons] at h
    obtain ⟨k, hk, h⟩ := except_bind_eq_ok.mp h
    obtain ⟨rest, hs, rfl⟩ := except_map_eq_ok.mp h
    rw [sortables, sortKey_sortable x hx.1 hk, sortKeys_sortable xs hx.2 hs]
    rfl
termination_by structural xs

end

end Value

section Stable

variable {α : Type} {lt lt' : α → α → Bool} {xs mid ys : List α}

def tied (lt : α → α → Bool) (x y : α) : Bool := !lt x y && !lt y x

/-- One list is another one sorted, and what the order does not tell apart is left as it was. -/
structure StablySorted (lt : α → α → Bool) (xs ys : List α) : Prop where
  perm : ys.Perm xs
  ordered : ys.Pairwise fun x y => lt y x = false
  stable : ∀ z ∈ xs, ys.filter (tied lt z) = xs.filter (tied lt z)

/-- Some weights put the members of a list in the order of a relation. -/
def Weighed (lt : α → α → Bool) (xs : List α) : Prop :=
  ∃ (β : Type) (_ : LinearOrder β) (w : α → β), ∀ x ∈ xs, ∀ y ∈ xs, lt x y = true ↔ w x < w y

theorem Weighed.irrefl (h : Weighed lt xs) {x : α} (hx : x ∈ xs) : lt x x = false := by
  obtain ⟨β, _, w, hw⟩ := h
  rw [← Bool.not_eq_true, hw x hx x hx]
  exact lt_irrefl _

theorem mergeSort_stable (h : Weighed lt xs) :
    StablySorted lt xs (xs.mergeSort fun x y => !lt y x) := by
  obtain ⟨β, _, w, hw⟩ := h
  have hle : ∀ x ∈ xs, ∀ y ∈ xs, (!lt y x) = decide (w x ≤ w y) := by
    intro x hx y hy
    rw [Bool.eq_iff_iff, Bool.not_eq_true', ← Bool.not_eq_true, hw y hy x hx, not_lt,
      decide_eq_true_eq]
  have hsame : xs.mergeSort (fun x y => !lt y x) = xs.mergeSort fun x y => decide (w x ≤ w y) := by
    simpa using List.map_mergeSort (f := id) hle
  have htrans : ∀ a b c, decide (w a ≤ w b) = true → decide (w b ≤ w c) = true →
      decide (w a ≤ w c) = true := by
    simpa using fun a b c (hab : w a ≤ w b) (hbc : w b ≤ w c) => hab.trans hbc
  have htotal : ∀ a b, (decide (w a ≤ w b) || decide (w b ≤ w a)) = true := by
    simpa using fun a b => le_total (w a) (w b)
  rw [hsame]
  have hperm := List.mergeSort_perm xs fun x y => decide (w x ≤ w y)
  refine ⟨hperm, ?_, fun z hz => ?_⟩
  · refine (List.pairwise_mergeSort htrans htotal xs).imp_of_mem fun {x y} hx hy hxy => ?_
    have hh := hle x (hperm.mem_iff.mp hx) y (hperm.mem_iff.mp hy)
    rw [hxy] at hh
    simpa using hh
  · have hz' : ∀ x ∈ xs, tied lt z x = true ↔ w x = w z := by
      intro x hx
      rw [tied, hle x hx z hz, hle z hz x hx, Bool.and_eq_true, decide_eq_true_eq,
        decide_eq_true_eq]
      exact ⟨fun h => le_antisymm h.1 h.2, fun h => ⟨h.le, h.ge⟩⟩
    have hall : ∀ x ∈ xs.filter (tied lt z), w x = w z := by
      intro x hx
      rw [List.mem_filter] at hx
      exact (hz' x hx.1).mp hx.2
    have hpair : (xs.filter (tied lt z)).Pairwise fun x y => decide (w x ≤ w y) = true := by
      refine List.pairwise_of_forall_mem_list fun x hx y hy => ?_
      rw [decide_eq_true_eq, hall x hx, hall y hy]
    have hsub := (List.sublist_mergeSort htrans htotal hpair List.filter_sublist).filter (tied lt z)
    simp only [List.filter_filter, Bool.and_self] at hsub
    exact (hsub.eq_of_length (hperm.filter _).length_eq.symm).symm

/-- Two relations, the second of which decides where the first does not. -/
def inTurn (lt lt' : α → α → Bool) (x y : α) : Bool := lt x y || (!lt y x && lt' x y)

theorem tied_inTurn (x y : α) : tied (inTurn lt lt') x y = (tied lt' x y && tied lt x y) := by
  simp only [tied, inTurn]
  cases lt x y <;> cases lt y x <;> simp

/-- Sorting by the less significant relation first. -/
theorem StablySorted.inTurn (h : StablySorted lt' xs mid) (h' : StablySorted lt mid ys)
    (hirr : ∀ x ∈ xs, lt x x = false) : StablySorted (inTurn lt lt') xs ys := by
  refine ⟨h'.perm.trans h.perm, ?_, fun z hz => ?_⟩
  · rw [List.pairwise_iff_forall_sublist]
    intro x y hs
    have hyx : lt y x = false := List.pairwise_iff_forall_sublist.mp h'.ordered hs
    have hxm : x ∈ mid := h'.perm.mem_iff.mp (hs.subset (by simp))
    cases hxy : lt x y with
    | true => simp [DocStore.inTurn, hxy, hyx]
    | false =>
      have hxx : lt x x = false := hirr x (h.perm.mem_iff.mp hxm)
      have hsub := hs.filter (tied lt x)
      rw [h'.stable x hxm] at hsub
      have hpair : [x, y].Sublist (mid.filter (tied lt x)) := by
        simpa [tied, hxx, hxy, hyx] using hsub
      have hlast : lt' y x = false :=
        List.pairwise_iff_forall_sublist.mp h.ordered (hpair.trans List.filter_sublist)
      simp [DocStore.inTurn, hyx, hxy, hlast]
  · have hzm : z ∈ mid := h.perm.mem_iff.mpr hz
    have hsplit : ∀ l : List α, l.filter (tied (DocStore.inTurn lt lt') z) =
        (l.filter (tied lt z)).filter (tied lt' z) := by
      intro l
      rw [List.filter_filter]
      exact congrArg (fun p => l.filter p) (funext fun x => tied_inTurn z x)
    rw [hsplit, hsplit, h'.stable z hzm, List.filter_comm, h.stable z hz, List.filter_comm]

end Stable

def keyAt (path document : Value) : Value := (documentKey path document).toOption.getD null

def goesBefore (key x y : Value) : Bool :=
  match key.pair with
  | .ok (path, direction) =>
    if equal direction (int (-1)) then related .lt (keyAt path y) (keyAt path x) == some true
    else related .lt (keyAt path x) (keyAt path y) == some true
  | .error _ => false

/-- Whether the first key that tells two documents apart puts one before the other. -/
def precedes : List Value → Value → Value → Bool
  | [] => fun _ _ => false
  | k :: ks => inTurn (goesBefore k) (precedes ks)

/-- No document has NaN where a key looks. -/
def NanFree (keys documents : List Value) : Prop :=
  ∀ k ∈ keys, ∀ {path direction}, k.pair = .ok (str path, direction) → ∀ d ∈ documents,
    ∀ {found}, lookupPath d path = .ok found → (found.head?.getD null).nanFree = true

theorem someUnrelated_eq_false {xs : List Value} :
    someUnrelated xs = false ↔ xs.Pairwise fun x y => (related .lt x y).isSome = true := by
  induction xs with
  | nil => simp [someUnrelated]
  | cons x xs ih =>
    rw [someUnrelated, Bool.or_eq_false_iff, List.any_eq_false, ih, List.pairwise_cons]
    refine and_congr_left' (forall₂_congr fun y _ => ?_)
    rw [Option.isNone_iff_eq_none, ← Ne, Option.ne_none_iff_isSome]

theorem documentKey_str (p : String) (d : Value) :
    documentKey (str p) d =
      (lookupPath d p).bind fun found => (found.head?.getD null).sortKey := by
  rw [documentKey]
  cases lookupPath d p <;> rfl

theorem documentKeys_cons (path d : Value) (xs : List Value) :
    documentKeys path (d :: xs) =
      (documentKey path d).bind fun k => (documentKeys path xs).map ((k, d) :: ·) := by
  rw [documentKeys]
  cases documentKey path d <;> rfl

theorem documentKeys_eq {path : Value} {xs : List Value} {keyed : List (Value × Value)}
    (h : documentKeys path xs = .ok keyed) :
    keyed = xs.map (fun d => (keyAt path d, d)) ∧
      ∀ d ∈ xs, documentKey path d = .ok (keyAt path d) := by
  induction xs generalizing keyed with
  | nil =>
    cases h
    exact ⟨rfl, by simp⟩
  | cons d xs ih =>
    rw [documentKeys_cons] at h
    obtain ⟨k, hk, h⟩ := except_bind_eq_ok.mp h
    obtain ⟨rest, hr, rfl⟩ := except_map_eq_ok.mp h
    obtain ⟨hrest, hall⟩ := ih hr
    have hkey : keyAt path d = k := by simp [keyAt, hk, Except.toOption]
    refine ⟨by rw [List.map_cons, hkey, ← hrest], List.forall_mem_cons.mpr ⟨?_, hall⟩⟩
    rw [hk, hkey]

def keyOrder (descending : Bool) (x y : Value × Value) : Bool :=
  if descending then related .lt x.1 y.1 != some true else related .lt y.1 x.1 != some true

theorem sortOn?_eq_some {descending : Bool} {xs ys : List (Value × Value)}
    (h : sortOn? Prod.fst descending xs = some ys) :
    someUnrelated (xs.map Prod.fst) = false ∧ ys = xs.mergeSort (keyOrder descending) := by
  unfold sortOn? at h
  split at h
  · cases h
  · exact ⟨(Bool.not_eq_true _).mp ‹_›, (Option.some.inj h).symm⟩

theorem sortByKey_eq_ok {key : Value} {xs ys : List Value} (h : sortByKey xs key = .ok ys) :
    ∃ path direction keyed sorted, key.pair = .ok (path, direction) ∧
      documentKeys path xs = .ok keyed ∧
      sortOn? Prod.fst (equal direction (int (-1))) keyed = some sorted ∧
      ys = sorted.map Prod.snd := by
  obtain ⟨⟨path, direction⟩, hp, h⟩ := except_bind_eq_ok.mp h
  dsimp only at h
  split at h
  · obtain ⟨keyed, hk, h⟩ := except_bind_eq_ok.mp h
    cases hs : sortOn? Prod.fst (equal direction (int (-1))) keyed with
    | none =>
      rw [hs] at h
      cases h
    | some sorted =>
      rw [hs] at h
      cases h
      exact ⟨path, direction, keyed, sorted, hp, hk, hs, rfl⟩
  · cases h

theorem sortByKey_eq {key : Value} {xs ys : List Value} (h : sortByKey xs key = .ok ys) :
    ∃ path direction, key.pair = .ok (path, direction) ∧
      (∀ d ∈ xs, documentKey path d = .ok (keyAt path d)) ∧
      (xs.Pairwise fun x y => (related .lt (keyAt path x) (keyAt path y)).isSome = true) ∧
      ys = xs.mergeSort fun x y => !goesBefore key y x := by
  obtain ⟨path, direction, keyed, sorted, hp, hk, hs, rfl⟩ := sortByKey_eq_ok h
  obtain ⟨hkeyed, hall⟩ := documentKeys_eq hk
  obtain ⟨hrel, hsorted⟩ := sortOn?_eq_some hs
  refine ⟨path, direction, hp, hall, ?_, ?_⟩
  · have hpair := someUnrelated_eq_false.mp hrel
    simpa only [hkeyed, List.map_map, List.pairwise_map, Function.comp_def] using hpair
  · have hmap := List.map_mergeSort (f := fun d => (keyAt path d, d)) (l := xs)
      (r := fun x y => !goesBefore key y x) (s := keyOrder (equal direction (int (-1))))
      (fun x _ y _ => by
        simp only [goesBefore, hp, keyOrder]
        split <;> rfl)
    rw [hsorted, hkeyed, ← hmap, List.map_map]
    exact List.map_id _

theorem nanFree_sortable {keys xs : List Value} {key path direction : Value}
    (hn : NanFree keys xs) (hk : key ∈ keys) (hp : key.pair = .ok (path, direction)) {d : Value}
    (hd : d ∈ xs) (h : documentKey path d = .ok (keyAt path d)) :
    (keyAt path d).sortable = true := by
  cases path with
  | str p =>
    rw [documentKey_str] at h
    obtain ⟨found, hf, h⟩ := except_bind_eq_ok.mp h
    exact sortKey_sortable _ (hn key hk hp d hd hf) h
  | _ => cases h

theorem goesBefore_weighed {key path direction : Value} {xs : List Value}
    (hp : key.pair = .ok (path, direction)) (hs : ∀ d ∈ xs, (keyAt path d).sortable = true)
    (hr : xs.Pairwise fun x y => (related .lt (keyAt path x) (keyAt path y)).isSome = true) :
    Weighed (goesBefore key) xs := by
  have hall : ∀ x ∈ xs, ∀ y ∈ xs, (related .lt (keyAt path x) (keyAt path y)).isSome = true := by
    have hself : ∀ x ∈ xs, (related .lt (keyAt path x) (keyAt path x)).isSome = true :=
      fun x hx => related_lt_self (hs x hx)
    have hflip := hr.imp_of_mem fun hx hy hxy => related_lt_swap (hs _ hx) (hs _ hy) hxy
    exact hr.forall_of_forall_of_flip hself hflip
  by_cases hd : equal direction (int (-1)) = true
  · refine ⟨(List ℚ)ᵒᵈ, inferInstance, fun d => OrderDual.toDual (keyAt path d).code, ?_⟩
    intro x hx y hy
    simp only [goesBefore, hp, hd, if_true, beq_iff_eq]
    exact related_lt_iff (hs y hy) (hs x hx) (hall y hy x hx)
  · refine ⟨List ℚ, inferInstance, fun d => (keyAt path d).code, ?_⟩
    intro x hx y hy
    simp only [goesBefore, hp, hd, Bool.false_eq_true, if_false, beq_iff_eq]
    exact related_lt_iff (hs x hx) (hs y hy) (hall x hx y hy)

theorem sortDocuments_cons (xs : List Value) (k : Value) (ks : List Value) :
    sortDocuments xs (k :: ks) = (sortDocuments xs ks >>= fun mid => sortByKey mid k) := by
  simp [sortDocuments, List.foldlM_append]

theorem sortDocuments_perm {keys xs ys : List Value} (h : sortDocuments xs keys = .ok ys) :
    ys.Perm xs := by
  induction keys generalizing ys with
  | nil =>
    cases h
    exact .refl _
  | cons k ks ih =>
    rw [sortDocuments_cons] at h
    obtain ⟨mid, hm, h⟩ := except_bind_eq_ok.mp h
    obtain ⟨_, _, _, _, _, rfl⟩ := sortByKey_eq h
    exact (List.mergeSort_perm mid _).trans (ih hm)

theorem NanFree.of_perm {keys xs ys : List Value} (h : NanFree keys xs) (hp : ys.Perm xs) :
    NanFree keys ys :=
  fun k hk _ _ hkp d hd _ hf => h k hk hkp d (hp.mem_iff.mp hd) hf

/-- Documents without NaN under the keys are sorted stably by all keys, the first deciding first. -/
theorem sortDocuments_stable {keys xs ys : List Value} (hn : NanFree keys xs)
    (h : sortDocuments xs keys = .ok ys) : StablySorted (precedes keys) xs ys := by
  induction keys generalizing ys with
  | nil =>
    cases h
    exact ⟨.refl _, List.pairwise_of_forall_mem_list fun _ _ _ _ => rfl, fun _ _ => rfl⟩
  | cons k ks ih =>
    rw [sortDocuments_cons] at h
    obtain ⟨mid, hm, h⟩ := except_bind_eq_ok.mp h
    obtain ⟨path, direction, hp, hkeys, hr, rfl⟩ := sortByKey_eq h
    have hmid : StablySorted (precedes ks) xs mid :=
      ih (fun k' hk' => hn k' (List.mem_cons_of_mem k hk')) hm
    have hsort : ∀ d ∈ mid, (keyAt path d).sortable = true := fun d hd =>
      nanFree_sortable (hn.of_perm hmid.perm) (by simp) hp hd (hkeys d hd)
    have hw := goesBefore_weighed hp hsort hr
    exact hmid.inTurn (mergeSort_stable hw) fun x hx => hw.irrefl (hmid.perm.mem_iff.mpr hx)

end DocStore
