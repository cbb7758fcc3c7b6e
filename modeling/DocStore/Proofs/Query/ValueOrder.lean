import DocStore.Proofs.Query.StableSort

/-! The order of single values: by kind, and among values of one kind by number, by point in time,
item by item, or word by word. Sort keys are compared just so. -/

namespace DocStore

theorem someUnrelated_of_related {xs : List Value}
    (h : ∀ x ∈ xs, ∀ y ∈ xs, (Value.related .lt x y).isSome = true) : someUnrelated xs = false :=
  someUnrelated_eq_false.mpr (List.pairwise_of_forall_mem_list h)

namespace Value

/-- The point in time that a date or a point in time is sorted by; a date is its midnight. -/
def moment : Value → Int
  | datetime t => t.utcMicros
  | date d => (DateTime.midnight d).utcMicros
  | _ => 0

def letters (s : String) : List Nat := s.toList.map Char.toNat

/-- A dictionary as it is sorted: the text of its entries in the order of their keys. -/
def shown (ps : Entries) : String :=
  text (list (((sortedEntries ps).toOption.getD []).map fun p => tuple [p.1, p.2]))

/-- What a value that is neither number, point in time nor array is sorted by. -/
def word : Value → List Nat
  | null => []
  | str s => letters s
  | dict ps => letters (shown ps)
  | uuid u => [u.toNat]
  | bytes bs => bs.map UInt8.toNat
  | v => letters v.text

/-- The order of two values of one kind. -/
def orderAlike (x y : Value) : Ordering :=
  if x.rank = 1 ∨ x.rank = 7 then (comparedNumbers x y).getD .eq
  else if x.rank = 8 then Ord.compare x.moment y.moment
  else compareWords x.word y.word

mutual

def order : Value → Value → Ordering
  | list xs, y =>
    match y with
    | list ys => orderLists xs ys
    | y => Ord.compare 4 y.rank
  | x, y => (Ord.compare x.rank y.rank).then (orderAlike x y)
termination_by structural x => x

/-- Arrays are in the order of the first items that differ, whatever kinds these are of. -/
def orderLists : List Value → List Value → Ordering
  | [], [] => .eq
  | [], _ :: _ => .lt
  | _ :: _, [] => .gt
  | x :: xs, y :: ys => (order x y).then (orderLists xs ys)
termination_by structural x => x

end

mutual

/-- Values that have a place in the order: numbers that are numbers, points in time on one clock,
dictionaries under texts. -/
def placed : Value → Bool
  | float x => x.toExact != .nan
  | datetime t => t.offset.isNone
  | dict ps => ps.all fun p => p.1.isStr
  | list xs => placeds xs
  | _ => true
termination_by structural x => x

def placeds : List Value → Bool
  | [] => true
  | x :: xs => placed x && placeds xs
termination_by structural x => x

end

section Order

variable {x y : Value}

theorem order_eq (hx : x.rank ≠ 4) (y : Value) :
    order x y = (Ord.compare x.rank y.rank).then (orderAlike x y) := by
  cases x with
  | list xs => exact absurd rfl hx
  | _ => rfl

theorem order_of_rank_ne (h : x.rank ≠ y.rank) : order x y = Ord.compare x.rank y.rank := by
  have hc : Ord.compare x.rank y.rank ≠ .eq := fun he => h (compare_eq_iff_eq.mp he)
  by_cases hx : x.rank = 4
  · cases x with
    | list xs =>
      cases y with
      | list ys => exact absurd rfl h
      | _ => rfl
    | _ => cases hx
  · rw [order_eq hx]
    cases hr : Ord.compare x.rank y.rank with
    | eq => exact absurd hr hc
    | _ => rfl

theorem order_date (d : Date) (y : Value) :
    order (date d) y = order (datetime (DateTime.midnight d)) y := by
  rw [order_eq (by simp [rank]), order_eq (by simp [rank])]
  simp [orderAlike, rank, moment]

theorem orderAlike_swap (h : x.rank = y.rank) : orderAlike y x = (orderAlike x y).swap := by
  unfold orderAlike
  rw [← h]
  split
  · rw [comparedNumbers_swap x y]
    cases comparedNumbers x y <;> rfl
  · split
    · exact Std.OrientedOrd.eq_swap
    · exact compareWords_swap _ _

theorem order_swap_alike (hx : x.rank ≠ 4) (h : x.rank = y.rank) :
    order y x = (order x y).swap := by
  rw [order_eq hx, order_eq (h ▸ hx), orderAlike_swap h, h]
  simp

mutual

theorem order_swap (x : Value) : ∀ y, order y x = (order x y).swap := by
  intro y
  by_cases h : x.rank = y.rank
  · cases x with
    | list xs =>
      cases y with
      | list ys => exact orderLists_swap xs ys
      | _ => cases h
    | _ => exact order_swap_alike (by simp [rank]) h
  · rw [order_of_rank_ne h, order_of_rank_ne (Ne.symm h)]
    exact Std.OrientedOrd.eq_swap
termination_by structural x

theorem orderLists_swap (xs : List Value) : ∀ ys, orderLists ys xs = (orderLists xs ys).swap := by
  intro ys
  cases xs with
  | nil => cases ys <;> rfl
  | cons x xs =>
    cases ys with
    | nil => rfl
    | cons y ys =>
      rw [orderLists, orderLists, order_swap x y, orderLists_swap xs ys, Ordering.swap_then]
termination_by structural xs

end

end Order

section Keys

variable {x y : Value}

/-- What a value is sorted by within its kind. -/
def sortedBy : Value → Value
  | null => int 0
  | dict ps => str (shown ps)
  | uuid u => int u.toNat
  | date d => datetime (DateTime.midnight d)
  | v => if v.rank = 9 then str v.text else v

theorem sortedEntries_run {ps : Entries} (h : ∀ p ∈ ps, p.1.isStr = true) :
    ∃ qs, sortedEntries ps = .ok qs := by
  have hstr : ∀ k ∈ ps.map Prod.fst, ∃ s, k = str s := by
    intro k hk
    obtain ⟨p, hp, rfl⟩ := List.mem_map.mp hk
    obtain ⟨k, v⟩ := p
    have hs : k.isStr = true := h _ hp
    cases k with
    | str s => exact ⟨s, rfl⟩
    | _ => cases hs
  have hrelated : someUnrelated (ps.map Prod.fst) = false := by
    refine someUnrelated_of_related fun k hk l hl => ?_
    obtain ⟨s, rfl⟩ := hstr k hk
    obtain ⟨t, rfl⟩ := hstr l hl
    rfl
  unfold sortedEntries sortOn?
  rw [hrelated]
  exact ⟨_, rfl⟩

theorem sortKey_eq (hx : x.rank ≠ 4) (hp : x.placed = true) :
    sortKey x = .ok (tuple [int x.rank, x.sortedBy]) := by
  cases x with
  | list xs => exact absurd rfl hx
  | dict ps =>
    have hkeys : ∀ p ∈ ps, p.1.isStr = true := List.all_eq_true.mp hp
    obtain ⟨qs, hqs⟩ := sortedEntries_run hkeys
    rw [sortKey, sortedBy, shown, hqs]
    rfl
  | _ => rfl

theorem compared_ints (m n : Int) : compared (int m) (int n) = some (Ord.compare m n) := by
  simp [compared, comparedNumbers, number?, Exact.ofInt, Exact.compare]

/-- Keys are compared by their ranks, and those of one rank by what is in them. -/
theorem compared_keys (a b : Value) (r r' : Nat) :
    compared (tuple [int r, a]) (tuple [int r', b]) =
      match Ord.compare r r' with
      | .eq => compared a b
      | o => some o := by
  have hcast : Ord.compare (r : Int) (r' : Int) = Ord.compare r r' := by
    rw [← cmp_eq_compare, ← cmp_eq_compare, Nat.strictMono_cast.cmp_map_eq]
  rw [compared, comparedLists, compared_ints, hcast]
  cases Ord.compare r r' with
  | eq =>
    rw [comparedLists, comparedLists]
    cases compared a b with
    | none => rfl
    | some o => cases o <;> rfl
  | _ => rfl

theorem number?_of_placed (h : x.rank = 1 ∨ x.rank = 7) (hx : x.placed = true) :
    ∃ n, x.number? = some n ∧ n ≠ .nan := by
  cases x with
  | bool b => exact ⟨_, rfl, by simp [Exact.ofInt]⟩
  | int n => exact ⟨_, rfl, by simp [Exact.ofInt]⟩
  | float f => exact ⟨_, rfl, by simpa [placed] using hx⟩
  | _ => simp [rank] at h

theorem compared_of_number {n : Exact} (hx : x.number? = some n) :
    compared x y = comparedNumbers x y := by
  cases x with
  | bool b => rfl
  | int n => rfl
  | float f => rfl
  | _ => cases hx

theorem sortedBy_number (h : x.rank = 1 ∨ x.rank = 7) : x.sortedBy = x := by
  cases x with
  | bool b => rfl
  | int n => rfl
  | float f => rfl
  | _ => simp [rank] at h

theorem sortedBy_moment (h : x.rank = 8) (hx : x.placed = true) :
    ∃ t, x.sortedBy = datetime t ∧ t.offset = none ∧ t.utcMicros = x.moment := by
  cases x with
  | datetime t => exact ⟨t, rfl, by simpa [placed] using hx, rfl⟩
  | date d => exact ⟨_, rfl, rfl, rfl⟩
  | _ => cases h

theorem compared_letters (s t : String) :
    compared (str s) (str t) = some (compareWords (letters s) (letters t)) := by
  rw [compared, compareChars_eq]
  rfl

theorem sortedBy_rest (h : x.rank = 9) : x.sortedBy = str x.text ∧ x.word = letters x.text := by
  cases x with
  | null | bool | int | float | str | list | dict | bytes | uuid | datetime | date => cases h
  | _ => exact ⟨rfl, rfl⟩

/-- Values other than numbers, points in time and arrays are compared word by word. -/
theorem compared_words (h : x.rank = y.rank) (h4 : x.rank ≠ 4)
    (hn : ¬ (x.rank = 1 ∨ x.rank = 7)) (ht : x.rank ≠ 8) :
    compared x.sortedBy y.sortedBy = some (compareWords x.word y.word) := by
  by_cases h9 : x.rank = 9
  · obtain ⟨hx, hwx⟩ := sortedBy_rest h9
    obtain ⟨hy, hwy⟩ := sortedBy_rest (h ▸ h9)
    rw [hx, hy, hwx, hwy, compared_letters]
  · cases x with
    | null =>
      cases y with
      | null => rfl
      | _ => cases h
    | str s =>
      cases y with
      | str t => exact compared_letters s t
      | _ => cases h
    | dict ps =>
      cases y with
      | dict qs => exact compared_letters _ _
      | _ => cases h
    | uuid u =>
      cases y with
      | uuid v =>
        have hc : Ord.compare (u.toNat : Int) (v.toNat : Int) = Ord.compare u.toNat v.toNat := by
          rw [← cmp_eq_compare, ← cmp_eq_compare, Nat.strictMono_cast.cmp_map_eq]
        rw [sortedBy, sortedBy, compared_ints, hc, word, word, compareWords]
        simp [compareWords]
      | _ => cases h
    | bytes bs =>
      cases y with
      | bytes cs =>
        simp only [sortedBy, rank, word, ← compareBytes_eq]
        rfl
      | _ => cases h
    | bool | int | float => simp [rank] at hn
    | list => exact absurd rfl h4
    | datetime | date => exact absurd rfl ht
    | _ => exact absurd rfl h9

theorem compared_sortedBy (hx : x.placed = true) (hy : y.placed = true) (h : x.rank = y.rank)
    (h4 : x.rank ≠ 4) : compared x.sortedBy y.sortedBy = some (orderAlike x y) := by
  unfold orderAlike
  split
  · next hr =>
    obtain ⟨m, hm, hm'⟩ := number?_of_placed hr hx
    obtain ⟨n, hn, hn'⟩ := number?_of_placed (h ▸ hr) hy
    obtain ⟨o, ho⟩ := compared_of_numbers hm' hn'
    have hc : comparedNumbers x y = some o := by
      simp [comparedNumbers, hm, hn, ho]
    rw [sortedBy_number hr, sortedBy_number (h ▸ hr), compared_of_number hm, hc]
    rfl
  · split
    · next hr =>
      obtain ⟨t, ht, hto, htm⟩ := sortedBy_moment hr hx
      obtain ⟨u, hu, huo, hum⟩ := sortedBy_moment (h ▸ hr) hy
      simp [ht, hu, compared, DateTime.compare, hto, huo, htm, hum]
    · exact compared_words h h4 (by assumption) (by assumption)

theorem compared_sortKey_alike {k k' : Value} (hx : x.placed = true) (hy : y.placed = true)
    (hk : sortKey x = .ok k) (hk' : sortKey y = .ok k') (h : x.rank = y.rank)
    (h4 : x.rank ≠ 4) : compared k k' = some (order x y) := by
  cases hk.symm.trans (sortKey_eq h4 hx)
  cases hk'.symm.trans (sortKey_eq (h ▸ h4) hy)
  have hc : Ord.compare x.rank y.rank = .eq := compare_eq_iff_eq.mpr h
  rw [compared_keys, order_eq h4, hc, compared_sortedBy hx hy h h4]
  rfl

mutual

theorem sortKey_placed (x : Value) : x.placed = true →
    ∃ a, sortKey x = .ok (tuple [int x.rank, a]) := by
  intro hx
  cases x with
  | list xs =>
    obtain ⟨ks, hks⟩ := sortKeys_placed xs hx
    exact ⟨tuple ks, by rw [sortKey, hks]; rfl⟩
  | _ => exact ⟨_, sortKey_eq (by simp [rank]) hx⟩
termination_by structural x

theorem sortKeys_placed (xs : List Value) : placeds xs = true → ∃ ks, sortKeys xs = .ok ks := by
  intro hx
  cases xs with
  | nil => exact ⟨[], rfl⟩
  | cons x xs =>
    rw [placeds, Bool.and_eq_true] at hx
    obtain ⟨a, ha⟩ := sortKey_placed x hx.1
    obtain ⟨ks, hks⟩ := sortKeys_placed xs hx.2
    exact ⟨_, by rw [sortKeys_cons, ha, hks]; rfl⟩
termination_by structural xs

end

mutual

/-- Sort keys are compared as their values are. -/
theorem compared_sortKey (x : Value) : ∀ {y k k'}, x.placed = true → y.placed = true →
    sortKey x = .ok k → sortKey y = .ok k' → compared k k' = some (order x y) := by
  intro y k k' hx hy hk hk'
  by_cases h : x.rank = y.rank
  · cases x with
    | list xs =>
      cases y with
      | list ys =>
        rw [sortKey] at hk hk'
        obtain ⟨ks, hks, rfl⟩ := except_map_eq_ok.mp hk
        obtain ⟨ks', hks', rfl⟩ := except_map_eq_ok.mp hk'
        have hlists := comparedLists_sortKeys xs hx hy hks hks'
        exact (compared_keys _ _ 4 4).trans hlists
      | _ => cases h
    | _ => exact compared_sortKey_alike hx hy hk hk' h (by simp [rank])
  · obtain ⟨a, ha⟩ := sortKey_placed x hx
    obtain ⟨b, hb⟩ := sortKey_placed y hy
    cases hk.symm.trans ha
    cases hk'.symm.trans hb
    rw [compared_keys, order_of_rank_ne h]
    cases hc : Ord.compare x.rank y.rank with
    | eq => exact absurd (compare_eq_iff_eq.mp hc) h
    | _ => rfl
termination_by structural x

theorem comparedLists_sortKeys (xs : List Value) : ∀ {ys ks ks'}, placeds xs = true →
    placeds ys = true → sortKeys xs = .ok ks → sortKeys ys = .ok ks' →
    comparedLists ks ks' = some (orderLists xs ys) := by
  intro ys ks ks' hx hy hk hk'
  cases xs with
  | nil =>
    cases hk
    cases ys with
    | nil =>
      cases hk'
      rfl
    | cons y ys =>
      rw [sortKeys_cons] at hk'
      obtain ⟨k', _, hk'⟩ := except_bind_eq_ok.mp hk'
      obtain ⟨rest', _, rfl⟩ := except_map_eq_ok.mp hk'
      rfl
  | cons x xs =>
    rw [sortKeys_cons] at hk
    obtain ⟨k, hkx, hk⟩ := except_bind_eq_ok.mp hk
    obtain ⟨rest, hrest, rfl⟩ := except_map_eq_ok.mp hk
    cases ys with
    | nil =>
      cases hk'
      rfl
    | cons y ys =>
      rw [sortKeys_cons] at hk'
      obtain ⟨k', hky, hk'⟩ := except_bind_eq_ok.mp hk'
      obtain ⟨rest', hrest', rfl⟩ := except_map_eq_ok.mp hk'
      rw [placeds, Bool.and_eq_true] at hx hy
      rw [comparedLists, compared_sortKey x hx.1 hy.1 hkx hky, orderLists,
        comparedLists_sortKeys xs hx.2 hy.2 hrest hrest']
      cases order x y <;> rfl
termination_by structural xs

end

mutual

theorem nanFree_of_placed (x : Value) : x.placed = true → x.nanFree = true := by
  intro hx
  cases x with
  | list xs => exact nanFrees_of_placeds xs hx
  | float f => exact hx
  | _ => rfl
termination_by structural x

theorem nanFrees_of_placeds (xs : List Value) : placeds xs = true → nanFrees xs = true := by
  intro hx
  cases xs with
  | nil => rfl
  | cons x xs =>
    rw [placeds, Bool.and_eq_true] at hx
    rw [nanFrees, nanFree_of_placed x hx.1, nanFrees_of_placeds xs hx.2]
    rfl
termination_by structural xs

end

/-- Values are in the order of the codes of their sort keys. -/
theorem order_eq_lt_iff (hx : x.placed = true) (hy : y.placed = true) {k k' : Value}
    (hk : sortKey x = .ok k) (hk' : sortKey y = .ok k') :
    order x y = .lt ↔ k.code < k'.code :=
  (settled k (compared_sortKey x hx hy hk hk')).lt_iff.symm

theorem order_ne_gt_iff (hx : x.placed = true) (hy : y.placed = true) {k k' : Value}
    (hk : sortKey x = .ok k) (hk' : sortKey y = .ok k') :
    order x y ≠ .gt ↔ k.code ≤ k'.code := by
  rw [← not_lt, ← order_eq_lt_iff hy hx hk' hk, order_swap x y]
  cases order x y <;> simp

theorem order_trans {z : Value} (hx : x.placed = true) (hy : y.placed = true)
    (hz : z.placed = true) (hxy : order x y ≠ .gt) (hyz : order y z ≠ .gt) : order x z ≠ .gt := by
  obtain ⟨_, hkx⟩ := sortKey_placed x hx
  obtain ⟨_, hky⟩ := sortKey_placed y hy
  obtain ⟨_, hkz⟩ := sortKey_placed z hz
  rw [order_ne_gt_iff hx hy hkx hky] at hxy
  rw [order_ne_gt_iff hy hz hky hkz] at hyz
  exact (order_ne_gt_iff hx hz hkx hkz).mpr (hxy.trans hyz)

theorem related_sortKey (hx : x.placed = true) (hy : y.placed = true) {k k' : Value}
    (hk : sortKey x = .ok k) (hk' : sortKey y = .ok k') (r : Relation) :
    related r k k' = some (r.holds (order x y)) := by
  have hs := sortKey_sortable x (nanFree_of_placed x hx) hk
  have hs' := sortKey_sortable y (nanFree_of_placed y hy) hk'
  rw [related_eq_compared r k k' hs hs', compared_sortKey x hx hy hk hk']
  rfl

end Keys

end Value

end DocStore
