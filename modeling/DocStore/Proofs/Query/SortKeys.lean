import DocStore.Proofs.Query.Arrangement
import DocStore.Proofs.Value.Rearranged
import Mathlib.Data.List.Perm.Basic

/-! The sort keys of values that differ in the order of their dictionaries' entries. The entries of
a dictionary that is sorted by are put in the order of their keys first, but those of the
dictionaries inside it are read as they stand. -/

namespace DocStore

namespace Value

section Itself

theorem setHolds_itself (xs : List Value) : setHolds .lt xs xs = false := by
  simp [setHolds]

theorem numberHolds_itself (v : Value) : numberHolds .lt v v ≠ some true := by
  unfold numberHolds
  cases hx : v.number? with
  | none => simp
  | some x =>
    by_cases hnan : x = .nan
    · subst hnan
      simp [Exact.compare]
    · simp [Exact.compare_self hnan, Relation.holds]

mutual

/-- No value comes before itself, be it NaN or a set. -/
theorem related_itself (v : Value) : related .lt v v ≠ some true := by
  cases v with
  | str s =>
    have hs : compareChars s.toList s.toList = .eq := (compareChars_eq_iff _ _).mpr rfl
    simp [related, hs, Relation.holds]
  | list xs => exact relatedLists_itself xs
  | tuple xs => exact relatedLists_itself xs
  | ext code data =>
    have hd : compareBytes data data = .eq := (compareBytes_eq_iff _ _).mpr rfl
    simp [related, hd, Relation.holds]
  | bytes bs =>
    have hb : compareBytes bs bs = .eq := (compareBytes_eq_iff _ _).mpr rfl
    simp [related, hb, Relation.holds]
  | uuid u => simp [related, Relation.holds]
  | datetime t => simp [related, DateTime.compare, Relation.holds]
  | date d => simp [related, Relation.holds]
  | set u xs => simp [related, setHolds_itself]
  | bool b => exact numberHolds_itself (bool b)
  | int n => exact numberHolds_itself (int n)
  | float x => exact numberHolds_itself (float x)
  | _ => exact nofun
termination_by structural v

theorem relatedLists_itself (xs : List Value) : relatedLists .lt xs xs ≠ some true := by
  cases xs with
  | nil => simp [relatedLists, Relation.holds]
  | cons x xs =>
    rw [relatedLists]
    split
    · exact relatedLists_itself xs
    · exact related_itself x
termination_by structural xs

end

end Itself

/-- Keys in a row: each of them comes before all that follow it, and before no other. -/
def Rising (ks : List Value) : Prop :=
  ks.Pairwise fun k l => related .lt k l = some true ∧ related .lt l k = some false

theorem Rising.distinct {ks : List Value} (h : Rising ks) : ks.Nodup :=
  h.imp fun {k l} hkl (he : k = l) => related_itself k (by rw [← he] at hkl; exact hkl.1)

section Row

variable {ps row : Entries}

theorem rising_unrelated (hp : row.Perm ps) (hr : Rising (row.map Prod.fst)) :
    someUnrelated (ps.map Prod.fst) = false := by
  have hboth : (row.map Prod.fst).Pairwise fun k l =>
      (related .lt k l).isSome = true ∧ (related .lt l k).isSome = true :=
    hr.imp fun hkl => ⟨by rw [hkl.1]; rfl, by rw [hkl.2]; rfl⟩
  exact someUnrelated_eq_false.mpr
    (((hp.map Prod.fst).pairwise hboth And.symm).imp And.left)

/-- Whether one entry stands before another by their keys. -/
def keyBefore (p q : Value × Value) : Bool := related .lt p.1 q.1 == some true

/-- Of two entries in the row one stands before the other, and only one. -/
theorem Rising.either (hr : Rising (row.map Prod.fst)) :
    ∀ p ∈ row, ∀ q ∈ row, p ≠ q → keyBefore q p = !keyBefore p q := by
  have hrow := List.pairwise_map.mp hr
  exact List.Pairwise.forall_of_forall_of_flip (fun p _ hne => absurd rfl hne)
    (hrow.imp fun hpq _ => by simp [keyBefore, hpq.1, hpq.2])
    (hrow.imp fun hpq _ => by simp [keyBefore, hpq.1, hpq.2])

theorem keyBefore_weighed (hp : row.Perm ps) (hr : Rising (row.map Prod.fst)) :
    Weighed keyBefore ps := by
  classical
  -- an entry weighs as much as its place in the row
  refine ⟨Nat, inferInstance, fun p => row.idxOf p, fun p hps q hqs => ?_⟩
  have hpairs : row.Pairwise fun p q => keyBefore p q = true ∧ keyBefore q p = false :=
    (List.pairwise_map.mp hr).imp fun hpq => by simp [keyBefore, hpq.1, hpq.2]
  have hprow : p ∈ row := hp.mem_iff.mpr hps
  have hqrow : q ∈ row := hp.mem_iff.mpr hqs
  refine Iff.trans ?_ (idxOf_lt_iff hpairs (fun i j hij hji => ?_) hprow hqrow).symm
  · by_cases he : p = q
    · simp [he, keyBefore, related_itself q.1]
    · simp [hr.either p hprow q hqrow he]
  · exact Bool.false_ne_true (hij.2.symm.trans hji.1)

/-- The entries of a dictionary whose keys can be put in a row are put in just this row. -/
theorem sortedEntries_row (hp : row.Perm ps) (hr : Rising (row.map Prod.fst)) :
    sortedEntries ps = .ok row := by
  have hsorted := mergeSort_stable (keyBefore_weighed hp hr)
  have hrow : row.Pairwise fun p q => keyBefore q p = false :=
    (List.pairwise_map.mp hr).imp fun hpq => by simp [keyBefore, hpq.2]
  -- no two entries of the row stand together, so there is only one way to put them in order
  have heq : ps.mergeSort (fun p q => !keyBefore q p) = row := by
    refine List.Perm.eq_of_pairwise (fun p q hps hq hqp hpq => ?_) hsorted.ordered hrow
      (hsorted.perm.trans hp.symm)
    by_contra hne
    have hpq' := hr.either p (hp.mem_iff.mpr (hsorted.perm.mem_iff.mp hps)) q hq hne
    simp [hpq, hqp] at hpq'
  rw [sortedEntries, sortOn?, rising_unrelated hp hr]
  exact congrArg Except.ok heq

end Row

/-- What is sorted by without clash or doubt: the keys of each dictionary that is sorted by, which
is the value itself or an item of a list, can be put in a row. -/
inductive Ranked : Value → Prop
  | dict {ps row : Entries} (hp : row.Perm ps) (hr : Rising (row.map Prod.fst)) : Ranked (dict ps)
  | list {xs : List Value} (h : ∀ x ∈ xs, Ranked x) : Ranked (list xs)
  | other {v : Value} (h3 : v.rank ≠ 3) (h4 : v.rank ≠ 4) : Ranked v

/-- A dictionary that is sorted by has two keys without an order between them. -/
inductive Clashing : Value → Prop
  | dict {ps rest : Entries} {p q : Value × Value} (hp : ps.Perm (p :: q :: rest))
      (hpq : related .lt p.1 q.1 = none) (hqp : related .lt q.1 p.1 = none) : Clashing (dict ps)
  | list {xs : List Value} {x : Value} (hx : x ∈ xs) (h : Clashing x) : Clashing (list xs)

/-- Two values whose dictionaries that are sorted by have values of the same text under one key;
other values have the same text themselves. -/
inductive Readalike : Value → Value → Prop
  | dict {ps qs : Entries} (h : ∀ p ∈ ps, ∀ q ∈ qs, p.1 = q.1 → p.2.text = q.2.text) :
      Readalike (dict ps) (dict qs)
  | list {xs ys : List Value} (h : List.Forall₂ Readalike xs ys) : Readalike (list xs) (list ys)
  | other {v w : Value} (h3 : v.rank ≠ 3) (h4 : v.rank ≠ 4) (h : v.text = w.text) : Readalike v w

/-- No dictionary with two entries stands inside one that is sorted by, or inside another value that
is sorted by its text. -/
inductive Shallow : Value → Prop
  | dict {ps : Entries} (h : ∀ p ∈ ps, p.2.plain = true) : Shallow (dict ps)
  | list {xs : List Value} (h : ∀ x ∈ xs, Shallow x) : Shallow (list xs)
  | other {v : Value} (h3 : v.rank ≠ 3) (h4 : v.rank ≠ 4) (h : v.plain = true) : Shallow v

theorem rising_texts {m n : String} (hne : m ≠ n)
    (h : related .lt (str n) (str m) ≠ some true) :
    related .lt (str m) (str n) = some true ∧ related .lt (str n) (str m) = some false := by
  have hne' : compareChars m.toList n.toList ≠ .eq :=
    fun he => hne (String.toList_inj.mp ((compareChars_eq_iff _ _).mp he))
  have hswap : compareChars n.toList m.toList = (compareChars m.toList n.toList).swap := by
    rw [compareChars_eq, compareChars_eq, compareWords_swap]
  simp only [related, hswap, Relation.holds] at h ⊢
  revert h hne'
  cases compareChars m.toList n.toList <;> decide

/-- Entries under texts, none of them used twice, can be put in a row. -/
theorem ranked_of_keyed {ps : Entries} (h : ps.Keyed) : Ranked (dict ps) := by
  have hweighed : Weighed keyBefore ps := by
    refine ⟨List ℚ, inferInstance, fun p => p.1.code, fun p hp q hq => ?_⟩
    obtain ⟨m, hm⟩ := h.text p hp
    obtain ⟨n, hn⟩ := h.text q hq
    have hlt := related_lt_iff (x := str m) (y := str n) rfl rfl rfl
    rw [← hm, ← hn] at hlt
    rw [keyBefore, beq_iff_eq]
    exact hlt
  obtain ⟨hperm, hordered, -⟩ := mergeSort_stable hweighed
  have hdistinct := hperm.symm.pairwise h.distinct Ne.symm
  refine .dict hperm (List.pairwise_map.mpr ?_)
  refine (hordered.and hdistinct).imp_of_mem fun {p q} hp hq ⟨hbefore, hne⟩ => ?_
  obtain ⟨m, hm⟩ := h.text p (hperm.mem_iff.mp hp)
  obtain ⟨n, hn⟩ := h.text q (hperm.mem_iff.mp hq)
  rw [keyBefore, beq_eq_false_iff_ne, hm, hn] at hbefore
  rw [hm, hn] at hne ⊢
  exact rising_texts (fun he => hne (congrArg str he)) hbefore

section Keys

variable {v w k k' : Value} {ps qs : Entries} {xs ys : List Value} {e : Error}

theorem readalike_dict : Readalike (dict ps) (dict qs) ↔
    ∀ p ∈ ps, ∀ q ∈ qs, p.1 = q.1 → p.2.text = q.2.text := by
  refine ⟨fun h => ?_, .dict⟩
  cases h with
  | dict h => exact h
  | other h3 => exact absurd rfl h3

theorem readalike_list : Readalike (list xs) (list ys) ↔ List.Forall₂ Readalike xs ys := by
  refine ⟨fun h => ?_, .list⟩
  cases h with
  | list h => exact h
  | other _ h4 => exact absurd rfl h4

theorem readalike_other (h3 : v.rank ≠ 3) (h4 : v.rank ≠ 4) :
    Readalike v w ↔ v.text = w.text := by
  refine ⟨fun h => ?_, .other h3 h4⟩
  cases h with
  | dict => exact absurd rfl h3
  | list => exact absurd rfl h4
  | other _ _ h => exact h

theorem sortKey_other (h3 : v.rank ≠ 3) (h4 : v.rank ≠ 4) :
    v.sortKey = .ok (tuple [int v.rank, v.sortedBy]) := by
  cases v with
  | dict => exact absurd rfl h3
  | list => exact absurd rfl h4
  | _ => rfl

/-- Values that are neither dictionaries nor lists are the same, or sorted by their texts. -/
theorem Rearranged.other (h : Rearranged v w) (h3 : v.rank ≠ 3) (h4 : v.rank ≠ 4) :
    v = w ∨ v.rank = 9 ∧ w.rank = 9 := by
  cases h with
  | same => exact .inl rfl
  | dict => exact absurd rfl h3
  | list => exact absurd rfl h4
  | _ => exact .inr ⟨rfl, rfl⟩

/-- The entries of a rearranged dictionary can be put in the row of the keys of the first one. -/
theorem rearranged_row {row : Entries} (h : Rearranged (dict ps) w) (hp : row.Perm ps) :
    ∃ qs row', w = dict qs ∧ row'.Perm qs ∧ List.Forall₂ (UnderOneKey Rearranged) row row' := by
  obtain ⟨mid, qs, rfl, hmid, hall⟩ := rearranged_dict.mp h
  obtain ⟨row', hrow, hperm⟩ := List.perm_comp_forall₂ (hp.trans hmid) hall
  exact ⟨qs, row', rfl, hperm, hrow⟩

/-- In a row of distinct keys what stands under one key stands at one place. -/
theorem forall₂_text_iff (h : List.Forall₂ (UnderOneKey Rearranged) ps qs)
    (hd : (ps.map Prod.fst).Nodup) :
    List.Forall₂ (fun p q => p.2.text = q.2.text) ps qs ↔
      ∀ p ∈ ps, ∀ q ∈ qs, p.1 = q.1 → p.2.text = q.2.text := by
  constructor
  · intro ht p hp q hq hkey
    induction h with
    | nil => cases hp
    | @cons p' q' ps qs hpq hrest ih =>
      rw [List.forall₂_cons] at ht
      rw [List.map_cons, List.nodup_cons] at hd
      have hkeys := Entries.keys_of_forall₂ (fun _ _ h => h.1) hrest
      rcases List.mem_cons.mp hp with rfl | hp
      · rcases List.mem_cons.mp hq with rfl | hq
        · exact ht.1
        · exact absurd (hkeys ▸ hkey ▸ List.mem_map_of_mem hq) hd.1
      · rcases List.mem_cons.mp hq with rfl | hq
        · exact absurd (hpq.1 ▸ hkey ▸ List.mem_map_of_mem hp) hd.1
        · exact ih hd.2 ht.2 hp hq
  · intro ht
    obtain ⟨hlen, hzip⟩ := List.forall₂_iff_zip.mp h
    refine List.forall₂_iff_zip.mpr ⟨hlen, fun {p q} hpq => ?_⟩
    obtain ⟨hp, hq⟩ := List.of_mem_zip hpq
    exact ht p hp q hq (hzip hpq).1

/-- A dictionary is sorted by the text of its entries in the row of their keys. -/
theorem sortKey_row {row : Entries} (hp : row.Perm ps) (hr : Rising (row.map Prod.fst)) :
    (dict ps).sortKey =
      .ok (tuple [int 3, str (text (list (row.map fun p => tuple [p.1, p.2])))]) := by
  rw [sortKey, sortedEntries_row hp hr]
  rfl

theorem sortKeys_rearranged (h : List.Forall₂ Rearranged xs ys)
    (hkeys : ∀ x ∈ xs, ∀ {y}, Rearranged x y → ∃ k k', x.sortKey = .ok k ∧ y.sortKey = .ok k' ∧
      (k = k' ↔ Readalike x y)) :
    ∃ ks ks', sortKeys xs = .ok ks ∧ sortKeys ys = .ok ks' ∧
      (ks = ks' ↔ List.Forall₂ Readalike xs ys) := by
  induction h with
  | nil => exact ⟨[], [], rfl, rfl, by simp⟩
  | @cons x y xs ys hxy _ ih =>
    obtain ⟨k, k', hk, hk', heq⟩ := hkeys x (by simp) hxy
    obtain ⟨ks, ks', hks, hks', hrest⟩ := ih fun z hz => hkeys z (by simp [hz])
    refine ⟨k :: ks, k' :: ks', ?_, ?_, ?_⟩
    · rw [sortKeys_cons, hk, hks]
      rfl
    · rw [sortKeys_cons, hk', hks']
      rfl
    · rw [List.cons_eq_cons, List.forall₂_cons, heq, hrest]

/-- Rearranged values have sort keys, and these are the same only if the values read alike. -/
theorem sortKey_rearranged (hv : Ranked v) :
    ∀ {w}, Rearranged v w → ∃ k k', v.sortKey = .ok k ∧ w.sortKey = .ok k' ∧
      (k = k' ↔ Readalike v w) := by
  induction hv with
  | @dict ps row hp hr =>
    intro w h
    obtain ⟨qs, row', rfl, hp', hrow⟩ := rearranged_row h hp
    have hkeys := Entries.keys_of_forall₂ (fun _ _ hpq => hpq.1) hrow
    refine ⟨_, _, sortKey_row hp hr, sortKey_row hp' (hkeys ▸ hr), ?_⟩
    -- both are read in the one row, and texts of one length can be told apart entry by entry
    have htext := (text_pairs_iff hrow).trans (forall₂_text_iff hrow hr.distinct)
    simp only [hp.mem_iff, hp'.mem_iff] at htext
    rw [readalike_dict, ← htext]
    simp
  | @list xs _ ih =>
    intro w h
    obtain ⟨ys, rfl, hys⟩ := rearranged_list.mp h
    obtain ⟨ks, ks', hks, hks', heq⟩ := sortKeys_rearranged hys ih
    refine ⟨tuple [int 4, tuple ks], tuple [int 4, tuple ks'], ?_, ?_, ?_⟩
    · rw [sortKey, hks]
      rfl
    · rw [sortKey, hks']
      rfl
    · rw [readalike_list, ← heq]
      simp
  | @other v h3 h4 =>
    intro w h
    rcases h.other h3 h4 with rfl | ⟨hv, hw⟩
    · exact ⟨_, _, sortKey_other h3 h4, sortKey_other h3 h4,
        iff_of_true rfl (.other h3 h4 rfl)⟩
    · refine ⟨_, _, sortKey_other h3 h4, sortKey_other (by simp [hw]) (by simp [hw]), ?_⟩
      rw [readalike_other h3 h4, (sortedBy_rest hv).1, (sortedBy_rest hw).1, hv, hw]
      simp

/-- Values read alike where the dictionaries they are sorted by hold no others. -/
theorem Shallow.readalike (hs : Shallow v) : ∀ {w}, Ranked v → Rearranged v w → Readalike v w := by
  induction hs with
  | @dict ps hplain =>
    intro w hv h
    cases hv with
    | @dict _ row hp hr =>
      obtain ⟨qs, row', rfl, hp', hrow⟩ := rearranged_row h hp
      have htexts : List.Forall₂ (fun p q : Value × Value => p.2.text = q.2.text) row row' := by
        obtain ⟨hlen, hzip⟩ := List.forall₂_iff_zip.mp hrow
        refine List.forall₂_iff_zip.mpr ⟨hlen, fun {p q} hpq => ?_⟩
        have hmem := hp.mem_iff.mp (List.of_mem_zip hpq).1
        rw [(hzip hpq).2.eq_of_plain (hplain p hmem)]
      refine .dict fun p hpm q hqm => ?_
      exact (forall₂_text_iff hrow hr.distinct).mp htexts p (hp.mem_iff.mpr hpm) q
        (hp'.mem_iff.mpr hqm)
    | other h3 => exact absurd rfl h3
  | @list xs _ ih =>
    intro w hv h
    cases hv with
    | list hall =>
      obtain ⟨ys, rfl, hys⟩ := rearranged_list.mp h
      obtain ⟨hlen, hzip⟩ := List.forall₂_iff_zip.mp hys
      refine .list (List.forall₂_iff_zip.mpr ⟨hlen, fun {x y} hxy => ?_⟩)
      have hx := (List.of_mem_zip hxy).1
      exact ih x hx (hall x hx) (hzip hxy)
    | other _ h4 => exact absurd rfl h4
  | other h3 h4 hplain =>
    intro w _ h
    exact .other h3 h4 (by rw [h.eq_of_plain hplain])

theorem Clashing.rearranged (hv : Clashing v) : ∀ {w}, Rearranged v w → Clashing w := by
  induction hv with
  | @dict ps rest p q hp hpq hqp =>
    intro w h
    obtain ⟨qs, row, rfl, hrow, hall⟩ := rearranged_row h hp.symm
    obtain ⟨p', _, ⟨hkey, -⟩, htail, rfl⟩ := List.forall₂_cons_left_iff.mp hall
    obtain ⟨q', _, ⟨hkey', -⟩, -, rfl⟩ := List.forall₂_cons_left_iff.mp htail
    exact .dict hrow.symm (hkey ▸ hkey' ▸ hpq) (hkey ▸ hkey' ▸ hqp)
  | @list xs x hx _ ih =>
    intro w h
    obtain ⟨ys, rfl, hys⟩ := rearranged_list.mp h
    obtain ⟨y, hy, hxy⟩ := exists_partner hys hx
    exact .list hy (ih hxy)

theorem sortedEntries_clash {rest : Entries} {p q : Value × Value} (hp : ps.Perm (p :: q :: rest))
    (hpq : related .lt p.1 q.1 = none) (hqp : related .lt q.1 p.1 = none) :
    sortedEntries ps = .error .kind := by
  have hclash : someUnrelated (ps.map Prod.fst) = true := by
    rw [← Bool.not_eq_false, someUnrelated_eq_false]
    intro hall
    have heither := hall.imp (S := fun k l =>
      (related .lt k l).isSome = true ∨ (related .lt l k).isSome = true) .inl
    have hhead := (List.pairwise_cons.mp ((hp.map Prod.fst).pairwise heither Or.symm)).1 q.1
    simp [hpq, hqp] at hhead
  rw [sortedEntries, sortOn?, hclash]
  rfl

mutual

theorem sortKey_error (v : Value) : v.sortKey = .error e → e = .kind := by
  intro h
  cases v with
  | dict ps =>
    rw [sortKey] at h
    cases hs : sortedEntries ps with
    | ok qs =>
      rw [hs] at h
      cases h
    | error e' =>
      rw [hs] at h
      cases h
      unfold sortedEntries at hs
      split at hs <;> cases hs
      rfl
  | list xs =>
    rw [sortKey] at h
    cases hs : sortKeys xs with
    | ok ks =>
      rw [hs] at h
      cases h
    | error e' =>
      rw [hs] at h
      cases h
      exact sortKeys_error xs hs
  | _ => cases h
termination_by structural v

theorem sortKeys_error (xs : List Value) : sortKeys xs = .error e → e = .kind := by
  intro h
  cases xs with
  | nil => cases h
  | cons x xs =>
    rw [sortKeys_cons] at h
    cases hx : sortKey x with
    | error e' =>
      rw [hx] at h
      cases h
      exact sortKey_error x hx
    | ok k =>
      cases hs : sortKeys xs with
      | error e' =>
        rw [hx, hs] at h
        cases h
        exact sortKeys_error xs hs
      | ok ks =>
        rw [hx, hs] at h
        cases h
termination_by structural xs

end

theorem sortKeys_clash (hv : v ∈ xs) (h : v.sortKey = .error .kind) :
    sortKeys xs = .error .kind := by
  induction xs with
  | nil => cases hv
  | cons x xs ih =>
    rw [sortKeys_cons]
    cases hx : x.sortKey with
    | error e =>
      rw [sortKey_error x hx]
      rfl
    | ok k =>
      rcases List.mem_cons.mp hv with rfl | hv
      · cases hx.symm.trans h
      · rw [ih hv]
        rfl

theorem Clashing.sortKey (h : Clashing v) : v.sortKey = .error .kind := by
  induction h with
  | dict hp hpq hqp =>
    rw [Value.sortKey, sortedEntries_clash hp hpq hqp]
    rfl
  | list hx _ ih =>
    rw [Value.sortKey, sortKeys_clash hx ih]
    rfl

/-- Keys of one rank that hold texts. -/
theorem compared_texts (r : Nat) (s t : String) :
    compared (tuple [int r, str s]) (tuple [int r, str t]) =
      some (compareChars s.toList t.toList) := by
  rw [compared_keys, Std.ReflOrd.compare_self]
  rfl

theorem compared_texts_iff (r : Nat) (s t : String) :
    ∃ o, compared (tuple [int r, str s]) (tuple [int r, str t]) = some o ∧
      (o = .eq ↔ tuple [int r, str s] = tuple [int r, str t]) := by
  refine ⟨_, compared_texts r s t, ?_⟩
  rw [compareChars_eq_iff, String.toList_inj]
  simp

theorem nanFrees_iff : nanFrees xs = true ↔ ∀ x ∈ xs, x.nanFree = true := by
  induction xs with
  | nil => simp [nanFrees]
  | cons x xs ih => rw [nanFrees, Bool.and_eq_true, ih, List.forall_mem_cons]

theorem Rearranged.nanFree (h : Rearranged v w) : v.nanFree = true → w.nanFree = true := by
  induction h with
  | same => exact id
  | @list xs ys hlen _ ih =>
    intro hv
    have hall : List.Forall₂ (fun x y => x.nanFree = true → y.nanFree = true) xs ys :=
      List.forall₂_iff_zip.mpr ⟨hlen, fun hr => ih _ hr⟩
    refine nanFrees_iff.mpr fun y hy => ?_
    obtain ⟨x, hx, hxy⟩ := exists_partner hall.flip hy
    exact hxy (nanFrees_iff.mp hv x hx)
  | _ => exact fun _ => rfl

theorem comparedLists_rearranged {ks ks' : List Value}
    (h : List.Forall₂ (fun x y => ∀ {k k'}, x.nanFree = true → x.sortKey = .ok k →
      y.sortKey = .ok k' → ∃ o, compared k k' = some o ∧ (o = .eq ↔ k = k')) xs ys)
    (hx : nanFrees xs = true) (hk : sortKeys xs = .ok ks) (hk' : sortKeys ys = .ok ks') :
    ∃ o, comparedLists ks ks' = some o ∧ (o = .eq ↔ ks = ks') := by
  induction h generalizing ks ks' with
  | nil =>
    cases hk
    cases hk'
    exact ⟨.eq, rfl, by simp⟩
  | @cons x y xs ys hxy _ ih =>
    rw [nanFrees, Bool.and_eq_true] at hx
    rw [sortKeys_cons] at hk hk'
    obtain ⟨k, hkx, hk⟩ := except_bind_eq_ok.mp hk
    obtain ⟨rest, hrest, rfl⟩ := except_map_eq_ok.mp hk
    obtain ⟨k', hky, hk'⟩ := except_bind_eq_ok.mp hk'
    obtain ⟨rest', hrest', rfl⟩ := except_map_eq_ok.mp hk'
    obtain ⟨o, ho, hoeq⟩ := hxy hx.1 hkx hky
    obtain ⟨o', ho', hoeq'⟩ := ih hx.2 hrest hrest'
    rw [comparedLists, ho, List.cons_eq_cons, ← hoeq, ← hoeq', ho']
    cases o <;> simp

/-- Keys of rearranged values are told apart unless they are the same. -/
theorem compared_rearranged (h : Rearranged v w) : ∀ {k k'}, v.nanFree = true →
    v.sortKey = .ok k → w.sortKey = .ok k' → ∃ o, compared k k' = some o ∧ (o = .eq ↔ k = k') := by
  induction h with
  | same v =>
    intro k k' hv hk hk'
    cases hk.symm.trans hk'
    exact ⟨.eq, compared_self k (sortKey_sortable v hv hk), by simp⟩
  | @list xs ys hlen _ ih =>
    intro k k' hv hk hk'
    rw [sortKey] at hk hk'
    obtain ⟨ks, hks, rfl⟩ := except_map_eq_ok.mp hk
    obtain ⟨ks', hks', rfl⟩ := except_map_eq_ok.mp hk'
    obtain ⟨o, ho, hoeq⟩ := comparedLists_rearranged
      (List.forall₂_iff_zip.mpr ⟨hlen, fun hr => ih _ hr⟩) hv hks hks'
    refine ⟨o, (compared_keys _ _ 4 4).trans ho, ?_⟩
    rw [hoeq]
    simp
  | dict =>
    intro k k' _ hk hk'
    rw [sortKey] at hk hk'
    obtain ⟨_, -, rfl⟩ := except_map_eq_ok.mp hk
    obtain ⟨_, -, rfl⟩ := except_map_eq_ok.mp hk'
    exact compared_texts_iff 3 _ _
  | _ =>
    intro k k' _ hk hk'
    cases hk
    cases hk'
    exact compared_texts_iff 9 _ _

end Keys

end Value

end DocStore
