import DocStore.Proofs.Value.Settled

/-! The order of the values that sort keys are made of. They are compared as lists of numbers are,
so that the order is total wherever all of them can be compared. -/

namespace DocStore

namespace Exact

/-- An exact number as a list of numbers in the same order; the infinite ones are at the ends. -/
def code : Exact → List ℚ
  | .finite num scale => [0, num / 2 ^ scale]
  | .infinite negative => [if negative then -1 else 1]
  | .nan => []

theorem compare_quotients (a b : Int) (s t : Nat) :
    Ord.compare ((a : ℚ) / 2 ^ s) ((b : ℚ) / 2 ^ t) = Ord.compare (a * 2 ^ t) (b * 2 ^ s) := by
  have hs : (0 : ℚ) < 2 ^ s := by positivity
  have ht : (0 : ℚ) < 2 ^ t := by positivity
  have hlt : ∀ {a b : Int} {s t : Nat}, a * 2 ^ t < b * 2 ^ s → (a : ℚ) / 2 ^ s < b / 2 ^ t := by
    intro a b s t h
    have hq : (a : ℚ) * 2 ^ t < b * 2 ^ s := by exact_mod_cast h
    exact (div_lt_div_iff₀ (by positivity) (by positivity)).mpr hq
  rcases lt_trichotomy (a * 2 ^ t) (b * 2 ^ s) with h | h | h
  · rw [compare_lt_iff_lt.mpr h, compare_lt_iff_lt.mpr (hlt h)]
  · have hq : (a : ℚ) * 2 ^ t = b * 2 ^ s := by exact_mod_cast h
    rw [compare_eq_iff_eq.mpr h, compare_eq_iff_eq.mpr ((div_eq_div_iff hs.ne' ht.ne').mpr hq)]
  · rw [compare_gt_iff_gt.mpr h, compare_gt_iff_gt.mpr (hlt h)]

theorem settled {x y : Exact} {o : Ordering} (h : x.compare y = some o) :
    Settled o x.code y.code := by
  cases x with
  | nan => simp [Exact.compare] at h
  | infinite a =>
    cases y with
    | nan => simp [Exact.compare] at h
    | infinite b =>
      obtain rfl : Ord.compare b a = o := by simpa [Exact.compare] using h
      cases a <;> cases b
      · exact (rfl : code _ = code _)
      · exact (Settled.of_heads (by norm_num [code]) [] []).swap
      · exact Settled.of_heads (by norm_num [code]) [] []
      · exact (rfl : code _ = code _)
    | finite b t =>
      obtain rfl : (if a then .lt else .gt) = o := by simpa [Exact.compare] using h
      cases a
      · exact (Settled.of_heads (by norm_num [code]) _ []).swap
      · exact Settled.of_heads (by norm_num [code]) [] _
  | finite a s =>
    cases y with
    | nan => simp [Exact.compare] at h
    | infinite b =>
      obtain rfl : (if b then .gt else .lt) = o := by simpa [Exact.compare] using h
      cases b
      · exact Settled.of_heads (by norm_num [code]) _ []
      · exact (Settled.of_heads (by norm_num [code]) [] _).swap
    | finite b t =>
      obtain rfl : Ord.compare (a * 2 ^ t) (b * 2 ^ s) = o := by simpa [Exact.compare] using h
      have hnil : Settled .eq [] [] := rfl
      have hh := (Settled.of_compare (a := (a : ℚ) / 2 ^ s) (b := (b : ℚ) / 2 ^ t) hnil).cons 0
      rw [compare_quotients] at hh
      simpa [code, Ordering.then_eq] using hh

theorem compare_swap (x y : Exact) : y.compare x = (x.compare y).map Ordering.swap := by
  cases x with
  | nan => cases y <;> rfl
  | infinite a =>
    cases y with
    | nan => rfl
    | infinite b => simp [Exact.compare, ← Std.OrientedOrd.eq_swap]
    | finite b t => cases a <;> rfl
  | finite a s =>
    cases y with
    | nan => rfl
    | infinite b => cases b <;> rfl
    | finite b t => simp [Exact.compare, ← Std.OrientedOrd.eq_swap]

theorem compare_self {x : Exact} (h : x ≠ .nan) : x.compare x = some .eq := by
  cases x with
  | nan => exact absurd rfl h
  | infinite a => simp [Exact.compare]
  | finite a s => simp [Exact.compare]

end Exact

theorem compare_map {α : Type} [LinearOrder α] {f : α → ℚ} (hf : StrictMono f) (a b : α) :
    Ord.compare (f a) (f b) = Ord.compare a b := by
  rw [← cmp_eq_compare, ← cmp_eq_compare, hf.cmp_map_eq]

section Words

/-- The order of texts and of bytes: by the first place where they differ. -/
def compareWords : List Nat → List Nat → Ordering
  | [], [] => .eq
  | [], _ :: _ => .lt
  | _ :: _, [] => .gt
  | a :: as, b :: bs => (Ord.compare a b).then (compareWords as bs)

def wordCode (ns : List Nat) : List ℚ := ns.map (fun n => (n : ℚ)) ++ [-1]

theorem compareChars_eq (cs ds : List Char) :
    compareChars cs ds = compareWords (cs.map Char.toNat) (ds.map Char.toNat) := by
  induction cs generalizing ds with
  | nil => cases ds <;> rfl
  | cons c cs ih =>
    cases ds with
    | nil => rfl
    | cons d ds => simp [compareChars, compareWords, ih]

theorem compareBytes_eq (as bs : List UInt8) :
    compareBytes as bs = compareWords (as.map UInt8.toNat) (bs.map UInt8.toNat) := by
  induction as generalizing bs with
  | nil => cases bs <;> rfl
  | cons a as ih =>
    cases bs with
    | nil => rfl
    | cons b bs => simp [compareBytes, compareWords, ih]

theorem compareWords_swap (as bs : List Nat) : compareWords bs as = (compareWords as bs).swap := by
  induction as generalizing bs with
  | nil => cases bs <;> rfl
  | cons a as ih =>
    cases bs with
    | nil => rfl
    | cons b bs =>
      rw [compareWords, compareWords, Ordering.swap_then, ← ih, ← Std.OrientedOrd.eq_swap]

theorem compareWords_eq_iff (as bs : List Nat) : compareWords as bs = .eq ↔ as = bs := by
  induction as generalizing bs with
  | nil => cases bs <;> simp [compareWords]
  | cons a as ih =>
    cases bs with
    | nil => simp [compareWords]
    | cons b bs => simp [compareWords, Ordering.then_eq_eq, ih]

theorem compareChars_eq_iff (cs ds : List Char) : compareChars cs ds = .eq ↔ cs = ds := by
  rw [compareChars_eq, compareWords_eq_iff]
  exact List.map_inj_right fun c d h => Char.toNat_inj.mp h

theorem compareBytes_eq_iff (as bs : List UInt8) : compareBytes as bs = .eq ↔ as = bs := by
  rw [compareBytes_eq, compareWords_eq_iff]
  exact List.map_inj_right fun a b h => UInt8.toNat_inj.mp h

theorem settled_words (as bs : List Nat) :
    Settled (compareWords as bs) (wordCode as) (wordCode bs) := by
  have hend : ∀ (b : Nat) (u v : List ℚ), Settled .lt (-1 :: u) ((b : ℚ) :: v) := fun b u v =>
    Settled.of_heads (lt_of_lt_of_le (by norm_num) b.cast_nonneg) u v
  induction as generalizing bs with
  | nil =>
    cases bs with
    | nil => exact (rfl : wordCode [] = wordCode [])
    | cons b bs => exact hend b _ _
  | cons a as ih =>
    cases bs with
    | nil => exact (hend a _ _).swap
    | cons b bs =>
      rw [compareWords, ← compare_map (f := fun n : Nat => (n : ℚ)) Nat.strictMono_cast a b]
      exact (ih bs).of_compare

end Words

namespace Value

def comparedNumbers (a b : Value) : Option Ordering :=
  match a.number?, b.number? with
  | some x, some y => x.compare y
  | _, _ => none

mutual

/-- Two values in order, where they have one; tuples by the first place where they differ. -/
def compared : Value → Value → Option Ordering
  | str s, b =>
    match b with
    | str t => some (compareChars s.toList t.toList)
    | _ => none
  | tuple xs, b => match b with | tuple ys => comparedLists xs ys | _ => none
  | bytes x, b => match b with | bytes y => some (compareBytes x y) | _ => none
  | datetime x, b => match b with | datetime y => x.compare y | _ => none
  | bool x, b => comparedNumbers (bool x) b
  | int x, b => comparedNumbers (int x) b
  | float x, b => comparedNumbers (float x) b
  | _, _ => none
termination_by structural x => x

def comparedLists : List Value → List Value → Option Ordering
  | [], ys => some (if ys.isEmpty then .eq else .lt)
  | _ :: _, [] => some .gt
  | x :: xs, y :: ys =>
    match compared x y with
    | some .eq => comparedLists xs ys
    | o => o
termination_by structural x => x

end

mutual

def code : Value → List ℚ
  | str s => wordCode (s.toList.map Char.toNat)
  | bytes bs => wordCode (bs.map UInt8.toNat)
  | datetime t => [(t.utcMicros : ℚ)]
  | tuple xs => codes xs
  | bool b => (Exact.ofInt (if b then 1 else 0)).code
  | int n => (Exact.ofInt n).code
  | float x => x.toExact.code
  | _ => []
termination_by structural x => x

def codes : List Value → List ℚ
  | [] => [0]
  | x :: xs => 1 :: (code x ++ codes xs)
termination_by structural x => x

end

mutual

/-- Values of the kinds that sort keys are made of, without NaN. -/
def sortable : Value → Bool
  | str _ => true
  | bytes _ => true
  | datetime _ => true
  | tuple xs => sortables xs
  | bool _ => true
  | int _ => true
  | float x => x.toExact != .nan
  | _ => false
termination_by structural x => x

def sortables : List Value → Bool
  | [] => true
  | x :: xs => sortable x && sortables xs
termination_by structural x => x

end

theorem number?_of_sortable {v : Value} {x : Exact} (h : v.sortable = true)
    (hx : v.number? = some x) : x ≠ .nan := by
  cases v with
  | float y =>
    cases hx
    simpa [sortable] using h
  | bool b =>
    cases hx
    simp [Exact.ofInt]
  | int n =>
    cases hx
    simp [Exact.ofInt]
  | _ => simp [number?] at hx

theorem code_of_number {v : Value} {x : Exact} (h : v.number? = some x) : v.code = x.code := by
  cases v with
  | bool b =>
    cases h
    rfl
  | int n =>
    cases h
    rfl
  | float y =>
    cases h
    rfl
  | _ => simp [number?] at h

theorem comparedNumbers_eq_some {a b : Value} {o : Ordering} (h : comparedNumbers a b = some o) :
    ∃ x y, a.number? = some x ∧ b.number? = some y ∧ x.compare y = some o := by
  unfold comparedNumbers at h
  split at h
  · exact ⟨_, _, ‹_›, ‹_›, h⟩
  · cases h

theorem settled_numbers {a b : Value} {o : Ordering} (h : comparedNumbers a b = some o) :
    Settled o a.code b.code := by
  obtain ⟨x, y, hx, hy, hc⟩ := comparedNumbers_eq_some h
  rw [code_of_number hx, code_of_number hy]
  exact Exact.settled hc

theorem settled_datetimes {t u : DateTime} {o : Ordering} (h : t.compare u = some o) :
    Settled o (code (datetime t)) (code (datetime u)) := by
  have hnil : Settled .eq [] [] := rfl
  have hc : Ord.compare (t.utcMicros : ℚ) u.utcMicros = o := by
    unfold DateTime.compare at h
    split at h
    · rw [← Option.some.inj h]
      exact compare_map Int.cast_strictMono t.utcMicros u.utcMicros
    · cases h
  have hh := Settled.of_compare (a := (t.utcMicros : ℚ)) (b := (u.utcMicros : ℚ)) hnil
  rw [hc] at hh
  simpa [code, Ordering.then_eq] using hh

theorem comparedNumbers_swap (a b : Value) :
    comparedNumbers b a = (comparedNumbers a b).map Ordering.swap := by
  unfold comparedNumbers
  cases a.number? with
  | none => cases b.number? <;> rfl
  | some x =>
    cases b.number? with
    | none => rfl
    | some y => exact x.compare_swap y

theorem compared_swap_number {a : Value} {x : Exact} (ha : a.number? = some x) (b : Value) :
    compared b a = (compared a b).map Ordering.swap := by
  have hleft : compared a b = comparedNumbers a b := by
    cases a <;> first | rfl | cases ha
  have hright : compared b a = comparedNumbers b a := by
    cases a <;> first | (cases b <;> rfl) | cases ha
  rw [hleft, hright, comparedNumbers_swap]

theorem numberEqual_eq (a b : Value) :
    numberEqual false a b = (comparedNumbers a b == some .eq) := by
  unfold numberEqual comparedNumbers
  cases a.number? with
  | none => rfl
  | some x =>
    cases b.number? with
    | none => cases x <;> rfl
    | some y => cases x <;> cases y <;> rfl

theorem compared_of_numbers {x y : Exact} (hx : x ≠ .nan) (hy : y ≠ .nan) :
    ∃ o, x.compare y = some o := by
  cases x with
  | nan => exact absurd rfl hx
  | _ =>
    cases y with
    | nan => exact absurd rfl hy
    | _ => exact ⟨_, rfl⟩

theorem numberHolds_eq {a b : Value} (r : Relation) (ha : a.sortable = true)
    (hb : b.sortable = true) : numberHolds r a b = (comparedNumbers a b).map r.holds := by
  unfold numberHolds comparedNumbers
  cases hx : a.number? with
  | none => rfl
  | some x =>
    cases hy : b.number? with
    | none => rfl
    | some y =>
      obtain ⟨o, ho⟩ :=
        compared_of_numbers (number?_of_sortable ha hx) (number?_of_sortable hb hy)
      simp [ho]

mutual

theorem equal_eq_compared (x : Value) : ∀ y, x.sortable = true → y.sortable = true →
    equal x y = (compared x y == some .eq) := by
  intro y hx hy
  cases x with
  | str s =>
    cases y with
    | str t =>
      have hs : s = t ↔ compareChars s.toList t.toList = .eq := by
        rw [compareChars_eq_iff, String.toList_inj]
      rw [Bool.eq_iff_iff]
      simp [equal, eqv, compared, hs]
    | _ => rfl
  | tuple xs =>
    cases y with
    | tuple ys =>
      rw [sortable] at hx hy
      exact equalLists_eq_compared xs ys hx hy
    | ext code data => simp [sortable] at hy
    | _ => rfl
  | bytes bs =>
    cases y with
    | bytes cs =>
      rw [Bool.eq_iff_iff]
      simp [equal, eqv, compared, compareBytes_eq_iff]
    | _ => rfl
  | datetime t =>
    cases y with
    | datetime u => rfl
    | _ => rfl
  | bool b => exact numberEqual_eq (bool b) y
  | int n => exact numberEqual_eq (int n) y
  | float f => exact numberEqual_eq (float f) y
  | _ => simp [sortable] at hx
termination_by structural x

theorem equalLists_eq_compared (xs : List Value) : ∀ ys, sortables xs = true →
    sortables ys = true → eqvList false xs ys = (comparedLists xs ys == some .eq) := by
  intro ys hx hy
  cases xs with
  | nil => cases ys <;> rfl
  | cons x xs =>
    cases ys with
    | nil => rfl
    | cons y ys =>
      rw [sortables, Bool.and_eq_true] at hx hy
      have hhead := equal_eq_compared x y hx.1 hy.1
      have htail := equalLists_eq_compared xs ys hx.2 hy.2
      rw [equal] at hhead
      rw [eqvList, comparedLists, hhead, htail]
      cases compared x y with
      | none => rfl
      | some o => cases o <;> rfl
termination_by structural xs

end

mutual

theorem related_eq_compared (r : Relation) (x : Value) : ∀ y, x.sortable = true →
    y.sortable = true → related r x y = (compared x y).map r.holds := by
  intro y hx hy
  cases x with
  | str s => cases y <;> rfl
  | tuple xs =>
    cases y with
    | tuple ys =>
      rw [sortable] at hx hy
      exact relatedLists_eq_compared r xs ys hx hy
    | ext code data => simp [sortable] at hy
    | _ => rfl
  | bytes bs => cases y <;> rfl
  | datetime t => cases y <;> rfl
  | bool b => exact numberHolds_eq r hx hy
  | int n => exact numberHolds_eq r hx hy
  | float f => exact numberHolds_eq r hx hy
  | _ => simp [sortable] at hx
termination_by structural x

theorem relatedLists_eq_compared (r : Relation) (xs : List Value) : ∀ ys, sortables xs = true →
    sortables ys = true → relatedLists r xs ys = (comparedLists xs ys).map r.holds := by
  intro ys hx hy
  cases xs with
  | nil => rfl
  | cons x xs =>
    cases ys with
    | nil => rfl
    | cons y ys =>
      rw [sortables, Bool.and_eq_true] at hx hy
      have hhead := related_eq_compared r x y hx.1 hy.1
      have htail := relatedLists_eq_compared r xs ys hx.2 hy.2
      rw [relatedLists, comparedLists, equal_eq_compared x y hx.1 hy.1, hhead, htail]
      cases compared x y with
      | none => rfl
      | some o => cases o <;> rfl
termination_by structural xs

end

mutual

theorem compared_swap (x : Value) : ∀ y, compared y x = (compared x y).map Ordering.swap := by
  intro y
  cases x with
  | str s =>
    cases y with
    | str t =>
      simp only [compared, compareChars_eq, Option.map_some]
      rw [compareWords_swap]
    | _ => rfl
  | tuple xs =>
    cases y with
    | tuple ys => exact comparedLists_swap xs ys
    | _ => rfl
  | bytes bs =>
    cases y with
    | bytes cs =>
      simp only [compared, compareBytes_eq, Option.map_some]
      rw [compareWords_swap]
    | _ => rfl
  | datetime t =>
    cases y with
    | datetime u =>
      by_cases h : t.offset.isSome = u.offset.isSome
      · simp [compared, DateTime.compare, h, ← Std.OrientedOrd.eq_swap]
      · simp [compared, DateTime.compare, h, Ne.symm h]
    | _ => rfl
  | bool b => exact compared_swap_number rfl y
  | int n => exact compared_swap_number rfl y
  | float f => exact compared_swap_number rfl y
  | _ => cases y <;> rfl
termination_by structural x

theorem comparedLists_swap (xs : List Value) : ∀ ys,
    comparedLists ys xs = (comparedLists xs ys).map Ordering.swap := by
  intro ys
  cases xs with
  | nil => cases ys <;> rfl
  | cons x xs =>
    cases ys with
    | nil => rfl
    | cons y ys =>
      rw [comparedLists, comparedLists, compared_swap x y, comparedLists_swap xs ys]
      cases compared x y with
      | none => rfl
      | some o => cases o <;> rfl
termination_by structural xs

end

mutual

theorem compared_self (x : Value) : x.sortable = true → compared x x = some .eq := by
  intro hx
  cases x with
  | str s => simp [compared, compareChars_eq_iff]
  | tuple xs => exact comparedLists_self xs hx
  | bytes bs => simp [compared, compareBytes_eq_iff]
  | datetime t => simp [compared, DateTime.compare]
  | bool b => exact Exact.compare_self (number?_of_sortable hx rfl)
  | int n => exact Exact.compare_self (number?_of_sortable hx rfl)
  | float f => exact Exact.compare_self (number?_of_sortable hx rfl)
  | _ => simp [sortable] at hx
termination_by structural x

theorem comparedLists_self (xs : List Value) :
    sortables xs = true → comparedLists xs xs = some .eq := by
  intro hx
  cases xs with
  | nil => rfl
  | cons x xs =>
    rw [sortables, Bool.and_eq_true] at hx
    rw [comparedLists, compared_self x hx.1]
    exact comparedLists_self xs hx.2
termination_by structural xs

end

mutual

theorem settled (x : Value) : ∀ {y o}, compared x y = some o → Settled o x.code y.code := by
  intro y o h
  cases x with
  | str s =>
    cases y with
    | str t =>
      obtain rfl : compareChars s.toList t.toList = o := by simpa [compared] using h
      rw [compareChars_eq]
      exact settled_words _ _
    | _ => cases h
  | tuple xs =>
    cases y with
    | tuple ys => exact settled_lists xs h
    | _ => cases h
  | bytes bs =>
    cases y with
    | bytes cs =>
      obtain rfl : compareBytes bs cs = o := by simpa [compared] using h
      rw [compareBytes_eq]
      exact settled_words _ _
    | _ => cases h
  | datetime t =>
    cases y with
    | datetime u => exact settled_datetimes h
    | _ => cases h
  | bool b => exact settled_numbers h
  | int n => exact settled_numbers h
  | float f => exact settled_numbers h
  | _ => cases h
termination_by structural x

theorem settled_lists (xs : List Value) : ∀ {ys o}, comparedLists xs ys = some o →
    Settled o (codes xs) (codes ys) := by
  intro ys o h
  cases xs with
  | nil =>
    cases ys with
    | nil =>
      cases h
      exact (rfl : codes [] = codes [])
    | cons y ys =>
      cases h
      exact Settled.of_heads (by norm_num) _ _
  | cons x xs =>
    cases ys with
    | nil =>
      cases h
      exact (Settled.of_heads (by norm_num) _ _).swap
    | cons y ys =>
      rw [comparedLists] at h
      rw [codes, codes]
      refine Settled.cons 1 ?_
      cases hc : compared x y with
      | none =>
        rw [hc] at h
        cases h
      | some o' =>
        rw [hc] at h
        have hx := settled x hc
        cases o' with
        | eq =>
          have he : x.code = y.code := hx
          rw [he]
          exact (settled_lists xs h).append_left y.code
        | lt =>
          cases h
          exact hx.append_right (by simp) _ _
        | gt =>
          cases h
          exact hx.append_right (by simp) _ _
termination_by structural xs

end

/-- Sortable values that can be compared are in the order of their codes. -/
theorem related_lt_iff {x y : Value} (hx : x.sortable = true) (hy : y.sortable = true)
    (h : (related .lt x y).isSome = true) : related .lt x y = some true ↔ x.code < y.code := by
  rw [related_eq_compared .lt x y hx hy] at h ⊢
  cases hc : compared x y with
  | none => simp [hc] at h
  | some o =>
    rw [(settled x hc).lt_iff]
    simp [Relation.holds]

theorem related_lt_swap {x y : Value} (hx : x.sortable = true) (hy : y.sortable = true)
    (h : (related .lt x y).isSome = true) : (related .lt y x).isSome = true := by
  rw [related_eq_compared .lt x y hx hy] at h
  rw [related_eq_compared .lt y x hy hx, compared_swap x y]
  simpa using h

theorem related_lt_self {x : Value} (hx : x.sortable = true) :
    (related .lt x x).isSome = true := by
  simp [related_eq_compared .lt x x hx hx, compared_self x hx]

theorem related_int (r : Relation) (m n : Int) :
    related r (int m) (int n) = some (r.holds (Ord.compare m n)) := by
  simp [related, numberHolds, number?, Exact.ofInt, Exact.compare]

end Value

end DocStore
