import DocStore.Proofs.Store.Turns

/-! Registered cursors. A cursor is registered with its collection from when it is opened until it
closes, so as many cursors are registered with a collection as are open on it. -/

namespace DocStore

namespace Store

variable {s t : Store} {n k : Nat} {cur : Cursor} {op : Operation} {ops : List Operation}

/-- Cursors are registered with their collections, once each, exactly while they are open. -/
structure Tidy (s : Store) : Prop where
  once : s.registered.Nodup
  mem_iff : ∀ n k, (n, k) ∈ s.registered ↔ (s.cursorAt k).1 = n ∧ (s.cursorAt k).2.closed = false

theorem cursorAt_of_le (h : s.cursors.length ≤ k) : (s.cursorAt k).2.closed = true := by
  rw [cursorAt, List.getD_eq_getElem?_getD, List.getElem?_eq_none h]
  exact Cursor.closed_close _

theorem lt_of_open (h : (s.cursorAt k).2.closed = false) : k < s.cursors.length := by
  by_contra hk
  rw [cursorAt_of_le (Nat.le_of_not_lt hk)] at h
  cases h

theorem Tidy.lt (h : s.Tidy) (hk : (n, k) ∈ s.registered) : k < s.cursors.length :=
  lt_of_open ((h.mem_iff n k).mp hk).2

theorem tidy_empty (idField : String) (issued : Nat) : (empty idField issued).Tidy := by
  refine ⟨List.nodup_nil, fun n k => ?_⟩
  have hclosed : ((empty idField issued).cursorAt k).2.closed = true :=
    cursorAt_of_le (Nat.zero_le k)
  rw [hclosed]
  simp [empty]

theorem Tidy.of_aside (h : s.Tidy) (ha : s.Aside t) : t.Tidy := by
  refine ⟨ha.registered ▸ h.once, fun n k => ?_⟩
  rw [ha.registered, ha.cursorAt]
  exact h.mem_iff n k

theorem registered_withCursor (h : s.Tidy) (n : Nat) (cur : Cursor) :
    (s.withCursor n cur).registered = (n, s.cursors.length) :: s.registered := by
  have hnew : (n, s.cursors.length) ∉ s.registered := fun hmem => (h.lt hmem).ne rfl
  exact List.insert_of_not_mem hnew

theorem Tidy.withCursor (h : s.Tidy) (hcur : cur.closed = false) : (s.withCursor n cur).Tidy := by
  have hreg := registered_withCursor h n cur
  refine ⟨?_, fun m k => ?_⟩
  · rw [hreg]
    exact List.nodup_cons.mpr ⟨fun hmem => (h.lt hmem).ne rfl, h.once⟩
  · rw [hreg, List.mem_cons]
    by_cases hk : k = s.cursors.length
    · subst hk
      have hold : (m, s.cursors.length) ∉ s.registered := fun hmem => (h.lt hmem).ne rfl
      rw [cursorAt_withCursor]
      simp [hold, hcur, eq_comm]
    · rw [cursorAt_withCursor_of_ne hk, ← h.mem_iff]
      simp [hk]

theorem registered_putCursor_open (k : Nat) (h : cur.closed = false) :
    (s.putCursor k cur).registered = s.registered := by
  simp [putCursor, h]

theorem registered_putCursor_again (cur : Cursor) (h : (s.cursorAt k).2.closed = true) :
    (s.putCursor k cur).registered = s.registered := by
  simp [putCursor, h]

theorem registered_putCursor_closed (h : (s.cursorAt k).2.closed = false)
    (hcur : cur.closed = true) :
    (s.putCursor k cur).registered = s.registered.erase ((s.cursorAt k).1, k) := by
  simp [putCursor, h, hcur]

/-- A store stays tidy if a cursor is changed without being opened again. -/
theorem Tidy.putCursor (h : s.Tidy)
    (hcur : (s.cursorAt k).2.closed = true → cur.closed = true) : (s.putCursor k cur).Tidy := by
  by_cases hopen : (s.cursorAt k).2.closed = true
  · have hreg := registered_putCursor_again cur hopen
    refine ⟨hreg ▸ h.once, fun n j => ?_⟩
    rw [hreg, h.mem_iff]
    by_cases hj : j = k
    · subst hj
      by_cases hlt : j < s.cursors.length
      · simp [cursorAt_putCursor hlt, hopen, hcur hopen]
      · have hle : (s.putCursor j cur).cursors.length ≤ j := by
          simpa [Store.putCursor] using Nat.le_of_not_lt hlt
        simp [hopen, cursorAt_of_le hle]
    · rw [cursorAt_putCursor_of_ne hj]
  · have hold : (s.cursorAt k).2.closed = false := by simpa using hopen
    have hat := cursorAt_putCursor (lt_of_open hold) cur
    cases hc : cur.closed with
    | true =>
      have hreg := registered_putCursor_closed hold hc
      refine ⟨hreg ▸ h.once.erase _, fun n j => ?_⟩
      rw [hreg, h.once.mem_erase_iff, h.mem_iff]
      by_cases hj : j = k
      · subst hj
        rw [hat, hc, hold]
        simp [eq_comm]
      · simp [cursorAt_putCursor_of_ne hj, hj]
    | false =>
      have hreg := registered_putCursor_open (s := s) k hc
      refine ⟨hreg ▸ h.once, fun n j => ?_⟩
      rw [hreg, h.mem_iff]
      by_cases hj : j = k
      · subst hj
        simp [hat, hc, hold]
      · rw [cursorAt_putCursor_of_ne hj]

theorem tidy_perform (h : s.Tidy) (hop : op.Proper) : (op.perform s).2.Tidy := by
  cases stirs_perform hop s with
  | aside ha => exact h.of_aside ha
  | opened n cur ha _ hcur => exact (h.withCursor hcur.closed).of_aside ha
  | turned k cur ha _ hcur => exact (h.putCursor hcur.stays_closed).of_aside ha

theorem tidy_after (h : s.Tidy) (hops : ∀ op ∈ ops, op.Proper) : (s.after ops).Tidy := by
  induction ops using List.reverseRecOn with
  | nil => exact h
  | append_singleton ops op ih =>
    rw [after_snoc]
    exact tidy_perform (ih fun op hop => hops op (by simp [hop])) (hops op (by simp))

/-! Counting -/

theorem map_fst_putCursor (k : Nat) (cur : Cursor) :
    (s.putCursor k cur).cursors.map Prod.fst = s.cursors.map Prod.fst := by
  apply List.ext_getElem
  · simp [putCursor]
  · intro i hi _
    by_cases hk : k = i
    · subst hk
      have hlt : k < s.cursors.length := by simpa [putCursor] using hi
      simp [putCursor, cursorAt, hlt]
    · simp [putCursor, hk]

theorem opened_perform (hop : op.Proper) (s : Store) :
    (op.perform s).2.cursors.map Prod.fst = s.cursors.map Prod.fst ++ op.opens.toList := by
  cases stirs_perform hop s with
  | aside ha hnone => simp [ha.cursors, hnone]
  | opened n cur ha hsome => simp [ha.cursors, hsome, withCursor]
  | turned k cur ha hnone => rw [ha.cursors, map_fst_putCursor, hnone, Option.toList_none,
      List.append_nil]

/-- The cursors there are were opened one after the other. -/
theorem opened_after (hops : ∀ op ∈ ops, op.Proper) :
    (s.after ops).cursors.map Prod.fst =
      s.cursors.map Prod.fst ++ ops.filterMap Operation.opens := by
  induction ops using List.reverseRecOn with
  | nil => simp [after]
  | append_singleton ops op ih =>
    rw [after_snoc, opened_perform (hops op (by simp)), ih fun op hop => hops op (by simp [hop])]
    cases hop : op.opens <;> simp [hop]

/-- The open cursors with their collections, by number. -/
def openPairs (s : Store) : List (Nat × Nat) :=
  (s.cursors.zipIdx.filter fun q => !q.1.2.closed).map fun q => (q.1.1, q.2)

theorem mem_openPairs {p : Nat × Nat} :
    p ∈ s.openPairs ↔ (s.cursorAt p.2).1 = p.1 ∧ (s.cursorAt p.2).2.closed = false := by
  obtain ⟨n, k⟩ := p
  simp only [openPairs, List.mem_map, List.mem_filter, Prod.mk.injEq, Bool.not_eq_true']
  constructor
  · rintro ⟨⟨⟨m, cur⟩, j⟩, ⟨hmem, hopen⟩, rfl, rfl⟩
    have hget := List.mem_zipIdx_iff_getElem?.mp hmem
    simp only [cursorAt, List.getD_eq_getElem?_getD, hget, Option.getD_some]
    exact ⟨trivial, hopen⟩
  · rintro ⟨rfl, hopen⟩
    have hget : s.cursors[k]? = some (s.cursorAt k) := by
      simp [cursorAt, lt_of_open hopen]
    exact ⟨(s.cursorAt k, k), ⟨List.mem_zipIdx_iff_getElem?.mpr hget, hopen⟩, rfl, rfl⟩

theorem nodup_openPairs (s : Store) : s.openPairs.Nodup := by
  have hnumbers : (s.openPairs.map Prod.snd).Nodup := by
    have hsub : (s.openPairs.map Prod.snd).Sublist (s.cursors.zipIdx.map Prod.snd) := by
      rw [openPairs, List.map_map]
      exact List.filter_sublist.map Prod.snd
    refine hsub.nodup ?_
    rw [List.zipIdx_map_snd]
    exact List.nodup_range'
  exact hnumbers.of_map Prod.snd

/-- As many cursors are registered with a collection as are open on it. -/
theorem openCursors_eq (h : s.Tidy) (n : Nat) :
    s.openCursors n = s.cursors.countP fun p => p.1 == n && !p.2.closed := by
  have hperm : s.registered.Perm s.openPairs :=
    (List.perm_ext_iff_of_nodup h.once (nodup_openPairs s)).mpr fun p =>
      (h.mem_iff p.1 p.2).trans mem_openPairs.symm
  calc s.openCursors n = s.registered.countP fun p => p.1 == n := List.countP_eq_length_filter.symm
    _ = s.openPairs.countP fun p => p.1 == n := hperm.countP_eq _
    _ = s.cursors.zipIdx.countP fun q => q.1.1 == n && !q.1.2.closed := by
      rw [openPairs, List.countP_map, List.countP_filter]
      rfl
    _ = s.cursors.countP fun p => p.1 == n && !p.2.closed := by
      conv_rhs => rw [← List.zipIdx_map_fst 0 s.cursors, List.countP_map]
      rfl

end Store

end DocStore
