import DocStore.Proofs.Run
import DocStore.Proofs.Store.Window
import DocStore.Store.Reading

/-! Opening a cursor for a plan, and counting with it. -/

namespace DocStore

open Value

theorem isPositive_nat (n : Nat) : Store.isPositive (int n) = .ok (decide (0 < n)) := by
  unfold Store.isPositive
  rw [related_int]
  rcases Nat.eq_zero_or_pos n with rfl | hn
  · rfl
  · have hgt : Ord.compare (n : Int) 0 = .gt := compare_gt_iff_gt.mpr (by omega)
    simp [Relation.holds, hgt, hn]

namespace Cursor

theorem checkCount_nat (what : String) (n : Nat) : checkCount what (int n) = .ok () := by
  unfold checkCount
  rw [related_int]
  have hlt : Ord.compare (n : Int) 0 ≠ .lt := by
    rw [Ne, compare_lt_iff_lt]
    omega
  simp only [Relation.holds, beq_eq_false_iff_ne.mpr hlt]

variable {query projection skipped limited : Value} {keys : List Value}

theorem skip_nat (n : Nat) :
    (Cursor.mk query projection skipped limited keys none false).skip (int n) =
      .ok ⟨query, projection, int n, limited, keys, none, false⟩ := by
  simp [Cursor.skip, checkFresh, checkCount_nat, bind, Except.bind]

theorem limit_nat (n : Nat) :
    (Cursor.mk query projection skipped limited keys none false).limit (int n) =
      .ok ⟨query, projection, skipped, int n, keys, none, false⟩ := by
  simp [Cursor.limit, checkFresh, checkCount_nat, bind, Except.bind]

theorem sort_list {sort : Value} {vs ks : List Value} (hs : sort.iterate? = some vs)
    (hk : readKeys vs = .ok ks) :
    (Cursor.mk query projection skipped limited keys none false).sort sort =
      .ok ⟨query, projection, skipped, limited, ks, none, false⟩ := by
  simp [Cursor.sort, checkFresh, hs, hk, bind, Except.bind]

end Cursor

theorem Cursor.size_planned {p : Plan} {projection : Value} {keys documents : List Value}
    {a b : Nat} {c c' : Collection}
    (h : (planned p projection keys a b).window c = (c', .ok documents)) :
    (planned p projection keys a b).size c = (c', .ok documents.length) := by
  unfold size
  rw [if_neg (by simp [planned]), h]
  rfl

namespace Store

variable {s t u : Store} {n : Nat} {cur cur' : Cursor}

structure Same (s t : Store) : Prop where
  size : t.collections.length = s.collections.length
  collections : ∀ m, (s.collectionAt m).Same (t.collectionAt m)

theorem Same.refl (s : Store) : s.Same s := ⟨rfl, fun _ => .refl _⟩

theorem Same.trans (h : s.Same t) (h' : t.Same u) : s.Same u :=
  ⟨h'.size.trans h.size, fun m => (h.collections m).trans (h'.collections m)⟩

theorem collectionAt_putCollection (s : Store) (n m : Nat) (c : Collection) :
    (s.putCollection n c).collectionAt m =
      if m = n ∧ n < s.collections.length then c else s.collectionAt m := by
  unfold collectionAt putCollection
  by_cases hm : m = n
  · subst hm
    by_cases hn : m < s.collections.length
    · simp [hn]
    · simp [hn]
  · simp [hm, List.getD_eq_getElem?_getD, List.getElem?_set_ne (Ne.symm hm)]

theorem putCollection_self (s : Store) (n : Nat) : s.putCollection n (s.collectionAt n) = s := by
  have hset : s.collections.set n (s.collectionAt n) = s.collections := by
    by_cases hn : n < s.collections.length
    · simp [collectionAt, hn]
    · exact List.set_eq_of_length_le (Nat.le_of_not_lt hn)
  rw [putCollection, hset]

theorem same_putCollection {c : Collection} (h : (s.collectionAt n).Same c) :
    s.Same (s.putCollection n c) := by
  refine ⟨by simp [putCollection], fun m => ?_⟩
  rw [collectionAt_putCollection]
  split
  · rename_i hm
    rw [hm.1]
    exact h
  · exact .refl _

theorem same_withCursor (s : Store) (n : Nat) (cur : Cursor) : s.Same (s.withCursor n cur) :=
  ⟨rfl, fun _ => .refl _⟩

theorem same_putCursor (s : Store) (k : Nat) (cur : Cursor) : s.Same (s.putCursor k cur) :=
  ⟨rfl, fun _ => .refl _⟩

theorem fresh_run {α : Type} {x : Fresh α} {a : Except Error α} {m : Nat}
    (h : x s.issued = (a, m)) : fresh x s = (a, { s with issued := m }) := by
  unfold fresh
  change ((x s.issued).1, { s with issued := (x s.issued).2 }) = _
  rw [h]

theorem insert_run {document : Value} {c : Collection}
    (h : (s.collectionAt n).insert document s.issued = (.ok c, s.issued)) :
    insert n document s = (.ok (), s.putCollection n c) := by
  unfold insert
  rw [bind_of_ok (run_get s), bind_of_ok (fresh_run h)]
  rfl

theorem insert_error {document : Value} {e : Error}
    (h : (s.collectionAt n).insert document s.issued = (.error e, s.issued)) :
    insert n document s = (.error e, s) := by
  unfold insert
  rw [bind_of_ok (run_get s), bind_of_error (fresh_run h)]

theorem cursorAt_withCursor : (s.withCursor n cur).cursorAt s.cursors.length = (n, cur) := by
  simp [withCursor, cursorAt]

theorem putCursor_withCursor (hc : cur'.closed = false) :
    (s.withCursor n cur).putCursor s.cursors.length cur' = s.withCursor n cur' := by
  unfold putCursor
  rw [cursorAt_withCursor]
  simp [withCursor, hc]

theorem setUpCursor_run {f : Cursor → Except Error Cursor} (h : f cur = .ok cur')
    (hc : cur'.closed = false) :
    setUpCursor s.cursors.length f (s.withCursor n cur) = (.ok (), s.withCursor n cur') := by
  unfold setUpCursor
  rw [cursorAt_withCursor]
  simp only [h, putCursor_withCursor hc]

theorem run_step_of {α : Type} {c : Bool} {x : Storing Unit} {rest : Unit → Storing α}
    (h : (if c then x else pure ()) s = (.ok (), t)) :
    (if c then x >>= rest else rest ()) s = rest () t := by
  cases c with
  | true => exact bind_of_ok h
  | false =>
    cases h
    rfl

theorem closingOnFailure_run {α : Type} {k : Nat} {x : Storing α} {r : α}
    (h : x s = (.ok r, t)) : closingOnFailure k x s = (.ok r, t) := by
  unfold closingOnFailure
  rw [h]

section SetUp

variable {query projection : Value}

theorem skipStep_run (a : Nat) :
    (if decide (0 < a) then setUpCursor s.cursors.length fun cur => cur.skip (int a) else pure ())
      (s.withCursor n ⟨query, projection, int 0, int 0, [], none, false⟩) =
      (.ok (), s.withCursor n ⟨query, projection, int a, int 0, [], none, false⟩) := by
  rcases Nat.eq_zero_or_pos a with rfl | ha
  · rfl
  · rw [if_pos (decide_eq_true ha)]
    exact setUpCursor_run (Cursor.skip_nat a) rfl

theorem limitStep_run (a b : Nat) :
    (if decide (0 < b) then setUpCursor s.cursors.length fun cur => cur.limit (int b) else pure ())
      (s.withCursor n ⟨query, projection, int a, int 0, [], none, false⟩) =
      (.ok (), s.withCursor n ⟨query, projection, int a, int b, [], none, false⟩) := by
  rcases Nat.eq_zero_or_pos b with rfl | hb
  · rfl
  · rw [if_pos (decide_eq_true hb)]
    exact setUpCursor_run (Cursor.limit_nat b) rfl

theorem sortStep_run {p : Plan} {keys : List Value} (hk : p.keys = .ok keys) (a b : Nat) :
    (if p.sort.truthy then setUpCursor s.cursors.length fun cur => cur.sort p.sort else pure ())
      (s.withCursor n ⟨query, projection, int a, int b, [], none, false⟩) =
      (.ok (), s.withCursor n ⟨query, projection, int a, int b, keys, none, false⟩) := by
  unfold Plan.keys at hk
  split at hk
  · cases hv : p.sort.iterate? with
    | none =>
      rw [hv] at hk
      cases hk
    | some vs =>
      rw [hv] at hk
      rw [if_pos ‹_›]
      exact setUpCursor_run (Cursor.sort_list hv hk) rfl
  · cases hk
    rw [if_neg ‹_›]
    rfl

end SetUp

theorem openPlan_run {p : Plan} {keys : List Value} {a b : Nat} (hs : p.skip = int a)
    (hl : p.limit = int b) (hk : p.keys = .ok keys) (n : Nat) (projection : Value) (s : Store) :
    openPlan n p projection s = (.ok s.cursors.length, s.withCursor n (.planned p
      (if projection.isNull then p.projection else projection) keys a b)) := by
  have hopen : openCursor n p.query (if projection.isNull then p.projection else projection) s =
      (.ok s.cursors.length, s.withCursor n ⟨if p.query.truthy then p.query else dict [],
        if projection.isNull then p.projection else projection, int 0, int 0, [], none,
        false⟩) := rfl
  have hpos : ∀ {m : Nat} {t : Store}, (liftExcept (isPositive (int m)) : Storing Bool) t =
      (.ok (decide (0 < m)), t) := by
    intro m t
    rw [isPositive_nat, run_liftExcept]
  unfold openPlan
  rw [bind_of_ok hopen, hs, hl]
  refine bind_of_ok (a := ()) (closingOnFailure_run ?_)
  dsimp only
  rw [bind_of_ok hpos, run_step_of (skipStep_run a), bind_of_ok hpos,
    run_step_of (limitStep_run a b)]
  exact sortStep_run hk a b

theorem closing_run {α : Type} {k : Nat} {x : Storing α} {r : Except Error α}
    (h : x s = (r, t)) : closing k x s = (r, t.putCursor k (t.cursorAt k).2.close) := by
  unfold closing
  rw [h]

theorem count_run {p : Plan} {keys sorted : List Value} {a b : Nat}
    (h : p.Runs (s.collectionAt n).documents.values keys sorted a b) :
    ∃ t, count n p s = (.ok (cut a b sorted).length, t) ∧ s.Same t := by
  obtain ⟨c, hc, hsame⟩ := Cursor.window_planned h p.projection
  have hsize : sizeOfCursor s.cursors.length
      (s.withCursor n (.planned p p.projection keys a b)) =
        (.ok (cut a b sorted).length,
          (s.withCursor n (.planned p p.projection keys a b)).putCollection n c) := by
    have hcoll : (s.withCursor n (.planned p p.projection keys a b)).collectionAt n =
        s.collectionAt n := rfl
    unfold sizeOfCursor
    rw [cursorAt_withCursor]
    simp only [hcoll, Cursor.size_planned hc]
  refine ⟨_, (bind_of_ok (openPlan_run h.skips h.limits h.reads n null s)).trans
    (closing_run hsize), ?_⟩
  exact ((same_withCursor s n _).trans (same_putCollection hsame)).trans (same_putCursor _ _ _)

/-- A plan that was counted has a query that is answered on every document. -/
theorem answered_of_count {p : Plan} {keys : List Value} {a b m : Nat} (hs : p.skip = int a)
    (hl : p.limit = int b) (hk : p.keys = .ok keys) (h : count n p s = (.ok m, t)) :
    ∀ d ∈ (s.collectionAt n).documents.values, ∃ x, matchesQuery d p.query = .ok x := by
  unfold count at h
  rw [bind_of_ok (openPlan_run hs hl hk n null s)] at h
  rcases hsize : sizeOfCursor s.cursors.length
    (s.withCursor n (.planned p p.projection keys a b)) with ⟨r, w⟩
  obtain ⟨hr, _⟩ := Prod.mk.inj ((closing_run hsize).symm.trans h)
  -- what the cursor counts are the documents that were found
  unfold sizeOfCursor at hsize
  rw [cursorAt_withCursor] at hsize
  have hcount : (Cursor.size (.planned p p.projection keys a b) (s.collectionAt n)).2 = .ok m :=
    (congrArg Prod.fst hsize).trans hr
  unfold Cursor.size at hcount
  rw [if_neg (by simp [Cursor.planned])] at hcount
  obtain ⟨ds, hwindow, _⟩ := except_map_eq_ok.mp hcount
  obtain ⟨found, hfound, _⟩ := except_bind_eq_ok.mp hwindow
  intro d hd
  obtain ⟨x, hx⟩ := answered_of_matching hfound d hd
  exact ⟨x, (matchesQuery_orEmpty d p.query).symm.trans hx⟩

/-- What was counted by a query alone are the documents that satisfy it. -/
theorem count_eq_ok {query : Value} {m : Nat}
    (h : count n ⟨query, null, list [], int 0, int 0⟩ s = (.ok m, t)) :
    (∀ d ∈ (s.collectionAt n).documents.values, ∃ x, matchesQuery d query = .ok x) ∧
      m = ((s.collectionAt n).documents.values.filter (satisfies query)).length := by
  have hread := answered_of_count (a := 0) (b := 0) rfl rfl rfl h
  refine ⟨hread, ?_⟩
  have hruns : Plan.Runs ⟨query, null, list [], int 0, int 0⟩ (s.collectionAt n).documents.values
      [] ((s.collectionAt n).documents.values.filter (satisfies query)) 0 0 :=
    ⟨rfl, rfl, rfl, hread, rfl⟩
  obtain ⟨u, hcount, _⟩ := count_run hruns
  obtain ⟨hm, _⟩ := Prod.mk.inj (h.symm.trans hcount)
  exact Except.ok.inj hm

end Store

end DocStore
