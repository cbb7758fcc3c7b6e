import DocStore.Proofs.Document.Reach
import DocStore.Proofs.Query.ValueOrder
import Mathlib.Data.List.Sort

/-! Where sorting puts each document: by the first key that tells two of them apart, and else in
the order they came in. -/

namespace DocStore

open Value

section Places

variable {α ι : Type} [LinearOrder ι] {lt lt' : α → α → Bool} {f : ι → α} {is js : List ι}

/-- A list of places is another one sorted by what stands at them, and else by the places. -/
structure Arranged (lt : α → α → Bool) (f : ι → α) (is js : List ι) : Prop where
  perm : js.Perm is
  ordered : js.Pairwise fun i j => lt (f i) (f j) = true ∨ tied lt (f i) (f j) = true ∧ i < j

theorem Arranged.inTurn (h : Arranged lt' f is js) (hw : Weighed lt (js.map f)) :
    ∃ ks, Arranged (inTurn lt lt') f is ks ∧
      (js.map f).mergeSort (fun x y => !lt y x) = ks.map f := by
  obtain ⟨β, _, w, hlt⟩ := hw
  have hplaces : Weighed (fun i j => lt (f i) (f j)) js :=
    ⟨β, inferInstance, w ∘ f, fun i hi j hj =>
      hlt _ (List.mem_map_of_mem hi) _ (List.mem_map_of_mem hj)⟩
  have hsorted := mergeSort_stable hplaces
  have hmap := List.map_mergeSort (f := f) (l := js) (r := fun i j => !lt (f j) (f i))
    (s := fun x y => !lt y x) fun _ _ _ _ => rfl
  refine ⟨_, ⟨hsorted.perm.trans h.perm, ?_⟩, hmap.symm⟩
  rw [List.pairwise_iff_forall_sublist]
  intro i j hs
  have hji : lt (f j) (f i) = false := List.pairwise_iff_forall_sublist.mp hsorted.ordered hs
  have hi : i ∈ js := hsorted.perm.mem_iff.mp (hs.subset (by simp))
  cases hij : lt (f i) (f j) with
  | true => exact .inl (by simp [DocStore.inTurn, hij])
  | false =>
    -- what the first relation does not tell apart stands as it stood before
    have hii : lt (f i) (f i) = false := hplaces.irrefl hi
    have hsub := hs.filter (tied (fun i j => lt (f i) (f j)) i)
    rw [hsorted.stable i hi] at hsub
    have hpair : [i, j].Sublist (js.filter (tied (fun i j => lt (f i) (f j)) i)) := by
      simpa [tied, hii, hij, hji] using hsub
    rcases List.pairwise_iff_forall_sublist.mp h.ordered (hpair.trans List.filter_sublist) with
      hlast | ⟨htied, hlater⟩
    · exact .inl (by simp [DocStore.inTurn, hji, hlast])
    · refine .inr ⟨?_, hlater⟩
      rw [tied_inTurn, htied]
      simp [tied, hij, hji]

end Places

theorem sortDocuments_arranged {ι : Type} [LinearOrder ι] {f : ι → Value} {is : List ι}
    {keys ys : List Value} (his : is.Pairwise (· < ·)) (hn : NanFree keys (is.map f))
    (h : sortDocuments (is.map f) keys = .ok ys) :
    ∃ js, Arranged (precedes keys) f is js ∧ ys = js.map f := by
  induction keys generalizing ys with
  | nil =>
    cases h
    exact ⟨is, ⟨.refl _, his.imp fun hij => .inr ⟨rfl, hij⟩⟩, rfl⟩
  | cons k ks ih =>
    rw [sortDocuments_cons] at h
    obtain ⟨mid, hm, h⟩ := except_bind_eq_ok.mp h
    obtain ⟨js, hjs, rfl⟩ := ih (fun l hl => hn l (List.mem_cons_of_mem k hl)) hm
    obtain ⟨path, direction, hp, hkeys, hr, rfl⟩ := sortByKey_eq h
    have hsort : ∀ d ∈ js.map f, (keyAt path d).sortable = true := fun d hd =>
      nanFree_sortable (hn.of_perm (hjs.perm.map f)) (by simp) hp hd (hkeys d hd)
    exact hjs.inTurn (goesBefore_weighed hp hsort hr)

/-- Of two documents at most one comes before the other. -/
theorem precedes_asymm {keys xs ys : List Value} (hn : NanFree keys xs)
    (h : sortDocuments xs keys = .ok ys) {x y : Value} (hx : x ∈ xs) (hy : y ∈ xs)
    (hxy : precedes keys x y = true) : precedes keys y x = false := by
  induction keys generalizing ys with
  | nil => cases hxy
  | cons k ks ih =>
    rw [sortDocuments_cons] at h
    obtain ⟨mid, hm, h⟩ := except_bind_eq_ok.mp h
    obtain ⟨path, direction, hp, hkeys, hr, rfl⟩ := sortByKey_eq h
    have hperm := sortDocuments_perm hm
    have hsort : ∀ d ∈ mid, (keyAt path d).sortable = true := fun d hd =>
      nanFree_sortable (hn.of_perm hperm) (by simp) hp hd (hkeys d hd)
    obtain ⟨β, _, w, hw⟩ := goesBefore_weighed hp hsort hr
    have hmem : ∀ {z}, z ∈ xs → z ∈ mid := fun hz => hperm.mem_iff.mpr hz
    have hfirst : goesBefore k x y = true → goesBefore k y x = false := by
      intro hgo
      rw [← Bool.not_eq_true, hw y (hmem hy) x (hmem hx)]
      exact ((hw x (hmem hx) y (hmem hy)).mp hgo).not_gt
    have hlast := ih (fun l hl => hn l (List.mem_cons_of_mem k hl)) hm
    simp only [precedes, inTurn] at hxy ⊢
    cases hgo : goesBefore k x y with
    | true => simp [hfirst hgo]
    | false =>
      simp only [hgo, Bool.false_or, Bool.and_eq_true, Bool.not_eq_true'] at hxy
      simp [hxy.1, hlast hxy.2]

theorem idxOf_lt_iff {ι : Type} [BEq ι] [LawfulBEq ι] {is : List ι} {R : ι → ι → Prop}
    (h : is.Pairwise R) (hasymm : ∀ i j, R i j → ¬ R j i) {i j : ι} (hi : i ∈ is) (hj : j ∈ is) :
    is.idxOf i < is.idxOf j ↔ R i j := by
  have hfore : ∀ {i j}, i ∈ is → j ∈ is → is.idxOf i < is.idxOf j → R i j := by
    intro i j hi hj hlt
    have hh := List.pairwise_iff_getElem.mp h _ _ (List.idxOf_lt_length_of_mem hi)
      (List.idxOf_lt_length_of_mem hj) hlt
    rwa [List.getElem_idxOf, List.getElem_idxOf] at hh
  refine ⟨hfore hi hj, fun hij => ?_⟩
  rcases lt_trichotomy (is.idxOf i) (is.idxOf j) with hlt | heq | hgt
  · exact hlt
  · have he : i = j := (List.idxOf_inj hi).mp heq
    subst he
    exact absurd hij (hasymm i i hij)
  · exact absurd (hfore hj hi hgt) (hasymm i j hij)

/-- Of two documents one is put before the other if keys put it there, or if they tell nothing and
it came before. -/
def PlacedBy (keys documents : List Value) (places : List (Fin documents.length))
    (i j : Fin documents.length) : Prop :=
  places.idxOf i < places.idxOf j ↔
    precedes keys (documents.get i) (documents.get j) = true ∨
    tied (precedes keys) (documents.get i) (documents.get j) = true ∧ i < j

theorem sortDocuments_ordered {documents keys ys : List Value} (hn : NanFree keys documents)
    (h : sortDocuments documents keys = .ok ys) :
    ∃ places : List (Fin documents.length),
      places.Perm (List.finRange documents.length) ∧ ys = places.map documents.get ∧
      ∀ i j, PlacedBy keys documents places i j := by
  have hget := List.map_get_finRange documents
  have hlt : (List.finRange documents.length).Pairwise (· < ·) :=
    (List.sortedLT_finRange documents.length).pairwise
  obtain ⟨places, hplaces, hrun⟩ := sortDocuments_arranged hlt (hget.symm ▸ hn) (hget.symm ▸ h)
  refine ⟨places, hplaces.perm, hrun, fun i j => ?_⟩
  have hmem : ∀ i, i ∈ places := fun i => hplaces.perm.mem_iff.mpr (List.mem_finRange i)
  refine idxOf_lt_iff hplaces.ordered (fun i j hij hji => ?_) (hmem i) (hmem j)
  have hasymm := precedes_asymm hn h (documents.get_mem i) (documents.get_mem j)
  simp only [tied, Bool.and_eq_true, Bool.not_eq_true'] at hij hji
  rcases hij with hij | ⟨⟨_, hno⟩, hij⟩
  · rcases hji with hji | ⟨⟨_, hno⟩, _⟩
    · exact Bool.false_ne_true ((hasymm hij).symm.trans hji)
    · exact Bool.false_ne_true (hno.symm.trans hij)
  · rcases hji with hji | ⟨_, hji⟩
    · exact Bool.false_ne_true (hno.symm.trans hji)
    · exact absurd hij hji.not_gt

/-- What a path of a document is sorted by: the first value it leads to, null where there is none.
-/
def firstAt (path : String) (document : Value) : Value :=
  (((lookupPath document path).toOption.bind List.head?)).getD null

/-- A path and a direction, 1 for upward and -1 for downward, as a sort key. -/
def keyOf (key : String × Int) : Value := tuple [str key.1, int key.2]

/-- The order of two documents by several keys, the first that tells them apart deciding. -/
def orderBy : List (String × Int) → Value → Value → Ordering
  | [], _, _ => .eq
  | (path, direction) :: keys, x, y =>
    let o := order (firstAt path x) (firstAt path y)
    (if direction = -1 then o.swap else o).then (orderBy keys x y)

theorem orderBy_swap (keys : List (String × Int)) (x y : Value) :
    orderBy keys y x = (orderBy keys x y).swap := by
  induction keys with
  | nil => rfl
  | cons k keys ih =>
    rw [orderBy, orderBy, Ordering.swap_then, ← ih, order_swap (firstAt k.1 x) (firstAt k.1 y)]
    by_cases hk : k.2 = -1
    · simp [hk]
    · simp [hk]

/-- Keys that documents can be sorted by: paths that can be read, in one of the two directions, and
at the paths values that have a place in the order. -/
structure Sortable (keys : List (String × Int)) (documents : List Value) : Prop where
  readable : ∀ k ∈ keys, Readable k.1
  direction : ∀ k ∈ keys, k.2 = 1 ∨ k.2 = -1
  placed : ∀ k ∈ keys, ∀ d ∈ documents, (firstAt k.1 d).placed = true

theorem pair_keyOf (k : String × Int) : (keyOf k).pair = .ok (str k.1, int k.2) := rfl

theorem documentKey_firstAt {path : String} (h : Readable path) (d : Value) :
    documentKey (str path) d = (firstAt path d).sortKey := by
  obtain ⟨found, hf, _⟩ := lookupPath_finds h d
  rw [documentKey_str, firstAt, hf]
  cases found <;> rfl

theorem equal_direction {n : Int} (h : n = 1 ∨ n = -1) :
    (equal (int n) (int 1) || equal (int n) (int (-1))) = true ∧
      equal (int n) (int (-1)) = decide (n = -1) := by
  rcases h with rfl | rfl <;> exact ⟨rfl, rfl⟩

variable {keys : List (String × Int)} {k : String × Int} {xs : List Value} {x y : Value}

/-- The key of a document, and how two keys are related. -/
theorem keyAt_run (hr : Readable k.1) (hx : (firstAt k.1 x).placed = true) :
    documentKey (str k.1) x = .ok (keyAt (str k.1) x) ∧
      (firstAt k.1 x).sortKey = .ok (keyAt (str k.1) x) := by
  obtain ⟨a, ha⟩ := sortKey_placed _ hx
  have hd := documentKey_firstAt hr x
  rw [ha] at hd
  have hk : keyAt (str k.1) x = tuple [int (firstAt k.1 x).rank, a] := by
    rw [keyAt, hd]
    rfl
  rw [hk]
  exact ⟨hd, ha⟩

theorem related_keyAt (hr : Readable k.1) (hx : (firstAt k.1 x).placed = true)
    (hy : (firstAt k.1 y).placed = true) (r : Relation) :
    related r (keyAt (str k.1) x) (keyAt (str k.1) y) =
      some (r.holds (order (firstAt k.1 x) (firstAt k.1 y))) :=
  related_sortKey hx hy (keyAt_run hr hx).2 (keyAt_run hr hy).2 r

theorem goesBefore_keyOf (hr : Readable k.1) (hd : k.2 = 1 ∨ k.2 = -1)
    (hx : (firstAt k.1 x).placed = true) (hy : (firstAt k.1 y).placed = true) :
    goesBefore (keyOf k) x y = (orderBy [k] x y == .lt) := by
  have hxy := order_swap (firstAt k.1 x) (firstAt k.1 y)
  simp only [goesBefore, pair_keyOf, (equal_direction hd).2, decide_eq_true_eq,
    related_keyAt hr hx hy, related_keyAt hr hy hx, orderBy, hxy]
  split
  · cases order (firstAt k.1 x) (firstAt k.1 y) <;> rfl
  · cases order (firstAt k.1 x) (firstAt k.1 y) <;> rfl

theorem Sortable.tail {k : String × Int} {xs : List Value} (h : Sortable (k :: keys) xs) :
    Sortable keys xs where
  readable l hl := h.readable l (List.mem_cons_of_mem k hl)
  direction l hl := h.direction l (List.mem_cons_of_mem k hl)
  placed l hl := h.placed l (List.mem_cons_of_mem k hl)

theorem precedes_keys {keys : List (String × Int)} {xs : List Value} (h : Sortable keys xs)
    (hx : x ∈ xs) (hy : y ∈ xs) :
    precedes (keys.map keyOf) x y = (orderBy keys x y == .lt) := by
  induction keys with
  | nil => rfl
  | cons k keys ih =>
    have hgo : ∀ {x y}, x ∈ xs → y ∈ xs → goesBefore (keyOf k) x y = (orderBy [k] x y == .lt) :=
      fun hx hy => goesBefore_keyOf (h.readable k (by simp)) (h.direction k (by simp))
        (h.placed k (by simp) _ hx) (h.placed k (by simp) _ hy)
    have hsplit : orderBy (k :: keys) x y = (orderBy [k] x y).then (orderBy keys x y) := by
      simp [orderBy]
    rw [List.map_cons, precedes, inTurn, hgo hx hy, hgo hy hx, ih h.tail, hsplit,
      orderBy_swap [k] x y]
    cases orderBy [k] x y <;> simp

theorem documentKeys_run {path : Value} {xs : List Value}
    (h : ∀ x ∈ xs, documentKey path x = .ok (keyAt path x)) :
    documentKeys path xs = .ok (xs.map fun x => (keyAt path x, x)) := by
  induction xs with
  | nil => rfl
  | cons x xs ih =>
    rw [documentKeys_cons, h x (by simp), ih fun y hy => h y (by simp [hy])]
    rfl

/-- Documents whose values have a place in the order can be sorted by a key. -/
theorem sortByKey_run {k : String × Int} {xs : List Value} (hr : Readable k.1)
    (hd : k.2 = 1 ∨ k.2 = -1) (hx : ∀ x ∈ xs, (firstAt k.1 x).placed = true) :
    sortByKey xs (keyOf k) = .ok (xs.mergeSort fun x y => !goesBefore (keyOf k) y x) := by
  have hkeys := documentKeys_run fun x h => (keyAt_run hr (hx x h)).1
  have hrelated : someUnrelated ((xs.map fun x => (keyAt (str k.1) x, x)).map Prod.fst) = false := by
    refine someUnrelated_of_related fun a ha b hb => ?_
    rw [List.map_map] at ha hb
    obtain ⟨x, hx', rfl⟩ := List.mem_map.mp ha
    obtain ⟨y, hy', rfl⟩ := List.mem_map.mp hb
    exact (related_keyAt hr (hx x hx') (hx y hy') .lt) ▸ rfl
  obtain ⟨ys, hys⟩ : ∃ ys, sortByKey xs (keyOf k) = .ok ys := by
    simp only [sortByKey, sortOn?, pair_keyOf, bind, Except.bind, (equal_direction hd).1, if_true,
      hkeys, hrelated]
    exact ⟨_, rfl⟩
  obtain ⟨_, _, _, _, _, hmerge⟩ := sortByKey_eq hys
  rw [hys, hmerge]

theorem sortDocuments_returns {xs : List Value} (h : Sortable keys xs) :
    ∃ ys, sortDocuments xs (keys.map keyOf) = .ok ys := by
  induction keys with
  | nil => exact ⟨xs, rfl⟩
  | cons k keys ih =>
    obtain ⟨ys, hys⟩ := ih h.tail
    have hplaced : ∀ y ∈ ys, (firstAt k.1 y).placed = true := fun y hy =>
      h.placed k (by simp) y ((sortDocuments_perm hys).mem_iff.mp hy)
    have hrun := sortByKey_run (h.readable k (by simp)) (h.direction k (by simp)) hplaced
    exact ⟨_, by rw [List.map_cons, sortDocuments_cons, hys]; exact hrun⟩

theorem Sortable.nanFree {xs : List Value} (h : Sortable keys xs) : NanFree (keys.map keyOf) xs := by
  intro l hl path direction hp d hd found hfound
  obtain ⟨k, hk, rfl⟩ := List.mem_map.mp hl
  obtain ⟨rfl, -⟩ : k.1 = path ∧ int k.2 = direction := by simpa [pair_keyOf] using hp
  have hplaced := nanFree_of_placed _ (h.placed k hk d hd)
  rw [firstAt, hfound] at hplaced
  exact hplaced

theorem sortDocuments_run {documents : List Value} (h : Sortable keys documents) :
    ∃ places : List (Fin documents.length),
      places.Perm (List.finRange documents.length) ∧
      sortDocuments documents (keys.map keyOf) = .ok (places.map documents.get) ∧
      ∀ i j, places.idxOf i < places.idxOf j ↔
        orderBy keys (documents.get i) (documents.get j) = .lt ∨
        orderBy keys (documents.get i) (documents.get j) = .eq ∧ i < j := by
  obtain ⟨ys, hys⟩ := sortDocuments_returns h
  obtain ⟨places, hperm, rfl, hplaces⟩ := sortDocuments_ordered h.nanFree hys
  refine ⟨places, hperm, hys, fun i j => (hplaces i j).trans ?_⟩
  rw [tied, precedes_keys h (documents.get_mem i) (documents.get_mem j),
    precedes_keys h (documents.get_mem j) (documents.get_mem i),
    orderBy_swap keys (documents.get i) (documents.get j)]
  cases orderBy keys (documents.get i) (documents.get j) <;> simp

/-- Sort keys are equal and related as the order has it. -/
theorem sortKeys_order {x y : Value} (hx : x.placed = true) (hy : y.placed = true) :
    ∃ k k', x.sortKey = .ok k ∧ y.sortKey = .ok k' ∧ (equal k k' = true ↔ order x y = .eq) ∧
      ∀ r, related r k k' = some (r.holds (order x y)) := by
  obtain ⟨a, ha⟩ := sortKey_placed x hx
  obtain ⟨b, hb⟩ := sortKey_placed y hy
  refine ⟨_, _, ha, hb, ?_, related_sortKey hx hy ha hb⟩
  rw [equal_eq_compared _ _ (sortKey_sortable x (nanFree_of_placed x hx) ha)
    (sortKey_sortable y (nanFree_of_placed y hy) hb), compared_sortKey x hx hy ha hb]
  simp

/-- Sorting succeeds, and puts one document before another if the first key that tells them apart
does, or if none does and it came before. Single values are ordered as their sort keys are, in a
total order: by kind, dates as their midnight, and arrays by the first items that differ. -/
theorem sortDocuments_places {documents : List Value} (h : Sortable keys documents) :
    (∃ places : List (Fin documents.length),
      places.Perm (List.finRange documents.length) ∧
      sortDocuments documents (keys.map keyOf) = .ok (places.map documents.get) ∧
      ∀ i j, places.idxOf i < places.idxOf j ↔
        orderBy keys (documents.get i) (documents.get j) = .lt ∨
        orderBy keys (documents.get i) (documents.get j) = .eq ∧ i < j) ∧
    (∀ x y : Value, x.placed = true → y.placed = true →
      ∃ k k', x.sortKey = .ok k ∧ y.sortKey = .ok k' ∧ (equal k k' = true ↔ order x y = .eq) ∧
        ∀ r, related r k k' = some (r.holds (order x y))) ∧
    (∀ x y : Value, order y x = (order x y).swap) ∧
    (∀ x y z : Value, x.placed = true → y.placed = true → z.placed = true →
      order x y ≠ .gt → order y z ≠ .gt → order x z ≠ .gt) ∧
    (∀ x y : Value, x.rank < y.rank → order x y = .lt) ∧
    (∀ d y, order (date d) y = order (datetime (DateTime.midnight d)) y) ∧
    ∀ xs ys, order (list xs) (list ys) = orderLists xs ys := by
  refine ⟨sortDocuments_run h, fun x y => sortKeys_order, fun x y => order_swap x y,
    fun x y z => order_trans, fun x y hxy => ?_, order_date, fun xs ys => rfl⟩
  rw [order_of_rank_ne hxy.ne]
  exact compare_lt_iff_lt.mpr hxy

def runner (name : String) (age : Value) : Value := dict [(str "name", str name), (str "age", age)]

/-- Four runners, of whom one has no age, one has a list for an age, and two are of one age. -/
def runners : List Value :=
  [runner "Ada" (int 36), runner "Bob" (list [null, str "x"]), dict [(str "name", str "Cid")],
    runner "Dee" (int 36)]

def ageThenName : List (String × Int) := [("age", -1), ("name", 1)]

theorem sortable_runners : Sortable ageThenName runners where
  readable := by decide
  direction := by decide
  placed := by decide

theorem sortDocuments_runners : Sortable ageThenName runners ∧
    ∃ places : List (Fin 4), places.Perm (List.finRange 4) ∧
      sortDocuments runners (ageThenName.map keyOf) = .ok (places.map runners.get) ∧
      places.idxOf 1 < places.idxOf 0 ∧ places.idxOf 0 < places.idxOf 3 ∧
      places.idxOf 3 < places.idxOf 2 := by
  obtain ⟨places, hperm, hrun, hbefore⟩ := (sortDocuments_places sortable_runners).1
  refine ⟨sortable_runners, places, hperm, hrun, ?_, ?_, ?_⟩
  · exact (hbefore (1 : Fin 4) (0 : Fin 4)).mpr (by decide)
  · exact (hbefore (0 : Fin 4) (3 : Fin 4)).mpr (by decide)
  · exact (hbefore (3 : Fin 4) (2 : Fin 4)).mpr (by decide)

end DocStore
