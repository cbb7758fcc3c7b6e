import DocStore.Proofs.Store.Register

/-! Readings and counts give back the cursor they open. However far a reading goes, and whatever
fails on the way, the cursors registered at its end are those from before. -/

namespace DocStore

open Value

namespace Collection

theorem matching_sublist {query : Value} {xs ys : List Value}
    (h : matching query xs = .ok ys) : ys.Sublist xs := by
  induction xs generalizing ys with
  | nil =>
    cases h
    exact .slnil
  | cons d xs ih =>
    rw [matching] at h
    rcases hd : matchesQuery d query with e | _ | _
    · rw [hd] at h
      cases h
    · rw [hd] at h
      exact (ih h).cons d
    · rw [hd] at h
      obtain ⟨zs, hzs, rfl⟩ := except_map_eq_ok.mp h
      exact (ih hzs).cons_cons d

end Collection

namespace Cursor

variable {cur : Cursor} {c : Collection} {xs ds : List Value}

theorem slice_sublist {skipped limited : Value} (h : slice skipped limited xs = .ok ds) :
    ds.Sublist xs := by
  unfold slice at h
  split at h
  · cases h
  · split at h
    · split at h
      · cases h
      · cases h
        exact (List.take_sublist _ _).trans (List.drop_sublist _ _)
    · cases h
      exact List.drop_sublist _ _

theorem window_length_le (h : (cur.window c).2 = .ok ds) : ds.length ≤ c.size := by
  obtain ⟨found, hfound, h⟩ := except_bind_eq_ok.mp h
  have hmatching := (Collection.matching_sublist hfound).length_le
  have hsize : c.documents.values.length = c.size := by simp [Entries.values, Collection.size]
  split at h
  · have hslice := (slice_sublist h).length_le
    omega
  · obtain ⟨sorted, hsorted, h⟩ := except_bind_eq_ok.mp h
    have hperm := (sortDocuments_perm hsorted).length_eq
    have hslice := (slice_sublist h).length_le
    omega

theorem start_length_le (hcur : cur.Untouched) (h : (cur.start c).2 = .ok ds) :
    ds.length ≤ c.size := by
  unfold start at h
  rw [hcur.pending] at h
  obtain ⟨window, hwindow, hproject⟩ := except_bind_eq_ok.mp h
  rw [Reading.projectAll_length hproject]
  exact window_length_le hwindow

end Cursor

namespace Store

variable {old : List (Nat × Nat)} {s t : Store} {n k m : Nat} {cur : Cursor}

/-- A tidy store with these cursors registered, and no others. -/
structure Enrolled (old : List (Nat × Nat)) (s : Store) : Prop where
  tidy : s.Tidy
  registered : s.registered = old

theorem Tidy.enrolled (h : s.Tidy) : s.Enrolled s.registered := ⟨h, rfl⟩

theorem Enrolled.of_aside (h : s.Enrolled old) (ha : s.Aside t) : t.Enrolled old :=
  ⟨h.tidy.of_aside ha, ha.registered.trans h.registered⟩

theorem Enrolled.at_cursor (h : s.Enrolled ((n, k) :: old)) :
    (s.cursorAt k).1 = n ∧ (s.cursorAt k).2.closed = false :=
  (h.tidy.mem_iff n k).mp (by simp [h.registered])

theorem enrolled_withCursor (h : s.Tidy) (n : Nat) (hcur : cur.closed = false) :
    (s.withCursor n cur).Enrolled ((n, s.cursors.length) :: s.registered) :=
  ⟨h.withCursor hcur, registered_withCursor h n cur⟩

theorem Enrolled.putCursor (h : s.Enrolled ((n, k) :: old)) (hcur : cur.closed = false) :
    (s.putCursor k cur).Enrolled ((n, k) :: old) := by
  refine ⟨h.tidy.putCursor fun hclosed => ?_, ?_⟩
  · exact absurd hclosed (by simp [h.at_cursor.2])
  · rw [registered_putCursor_open k hcur, h.registered]

theorem Enrolled.release (h : s.Enrolled ((n, k) :: old)) (hcur : cur.closed = true) :
    (s.putCursor k cur).Enrolled old := by
  obtain ⟨hn, hopen⟩ := h.at_cursor
  refine ⟨h.tidy.putCursor fun _ => hcur, ?_⟩
  rw [registered_putCursor_closed hopen hcur, hn, h.registered, List.erase_cons_head]

/-- To close a cursor once more changes nothing. -/
theorem Enrolled.close (h : s.Enrolled old) (hclosed : (s.cursorAt k).2.closed = true) :
    (s.putCursor k (s.cursorAt k).2.close).Enrolled old := by
  refine ⟨h.tidy.putCursor fun _ => Cursor.closed_close _, ?_⟩
  rw [registered_putCursor_again _ hclosed, h.registered]

/-- A store that has registered a new cursor, which nobody has read, and has changed nothing
else. -/
structure Opens (s : Store) (n k : Nat) (t : Store) : Prop extends
    t.Enrolled ((n, k) :: s.registered) where
  untouched : (t.cursorAt k).2.Untouched
  collections : ∀ m, t.collectionAt m = s.collectionAt m

abbrev StaysOpened (s : Store) (n k : Nat) (t u : Store) : Prop := Opens s n k t → Opens s n k u

instance : IsPreorder Store (StaysOpened s n k) where
  refl _ h := h
  trans _ _ _ h h' hs := h' (h hs)

theorem opened_setUpCursor {f : Cursor → Except Error Cursor} (hf : Cursor.SetsUp f) :
    Within (StaysOpened s n k) (setUpCursor k f) := by
  intro t h
  unfold setUpCursor
  split
  · next cur hcur =>
    obtain ⟨_, hnew⟩ := hf.untouched hcur
    refine ⟨h.putCursor hnew.closed, ?_, h.collections⟩
    rw [cursorAt_putCursor (lt_of_open h.at_cursor.2)]
    exact hnew
  · exact h

theorem closingOnFailure_opens {x : Storing Unit} (hx : Within (StaysOpened s n k) x)
    (h : Opens s n k t) :
    (∃ u, closingOnFailure k x t = (.ok (), u) ∧ Opens s n k u) ∨
      ∃ e u, closingOnFailure k x t = (.error e, u) ∧ u.Enrolled s.registered := by
  have ht := hx t h
  unfold closingOnFailure
  rcases hr : x t with ⟨e | _, u⟩
  · rw [hr] at ht
    exact .inr ⟨e, _, rfl, ht.release (Cursor.closed_close _)⟩
  · rw [hr] at ht
    exact .inl ⟨u, rfl, ht⟩

/-- A cursor is opened for a plan, or none more is registered than before. -/
theorem openPlan_opens (h : s.Tidy) (n : Nat) (p : Plan) (projection : Value) :
    (∃ k t, openPlan n p projection s = (.ok k, t) ∧ Opens s n k t) ∨
      ∃ e t, openPlan n p projection s = (.error e, t) ∧ t.Enrolled s.registered := by
  let cur := Cursor.opened p.query (if projection.isNull then p.projection else projection)
  have hopen : openCursor n p.query (if projection.isNull then p.projection else projection) s =
      (.ok s.cursors.length, s.withCursor n cur) := rfl
  have hnew : Opens s n s.cursors.length (s.withCursor n cur) := by
    refine ⟨enrolled_withCursor h n rfl, ?_, fun _ => rfl⟩
    rw [cursorAt_withCursor]
    exact Cursor.untouched_opened _ _
  unfold openPlan
  rw [bind_of_ok hopen]
  have hsetUp : Within (StaysOpened s n s.cursors.length) (do
      if ← liftExcept (isPositive p.skip) then
        setUpCursor s.cursors.length fun cur => cur.skip p.skip
      if ← liftExcept (isPositive p.limit) then
        setUpCursor s.cursors.length fun cur => cur.limit p.limit
      if p.sort.truthy then setUpCursor s.cursors.length fun cur => cur.sort p.sort) := by
    refine within_bind (within_liftExcept _) fun _ =>
      within_step (opened_setUpCursor ?_) fun _ => ?_
    · exact ⟨p.skip, .inl rfl⟩
    refine within_bind (within_liftExcept _) fun _ =>
      within_step (opened_setUpCursor ?_) fun _ => ?_
    · exact ⟨p.limit, .inr (.inl rfl)⟩
    split
    · exact opened_setUpCursor ⟨p.sort, .inr (.inr rfl)⟩
    · exact within_pure _
  rcases closingOnFailure_opens hsetUp hnew with ⟨t, ht, hlast⟩ | ⟨e, t, ht, hlast⟩
  · exact .inl ⟨_, t, bind_of_ok ht, hlast⟩
  · exact .inr ⟨e, t, bind_of_error ht, hlast⟩

theorem enrolled_count (h : s.Tidy) (n : Nat) (p : Plan) :
    (count n p s).2.Enrolled s.registered := by
  unfold count
  rcases openPlan_opens h n p null with ⟨k, t, ht, hopens⟩ | ⟨e, t, ht, hback⟩
  · rw [bind_of_ok ht]
    have hsize := hopens.toEnrolled.of_aside (aside_sizeOfCursor k t)
    exact hsize.release (Cursor.closed_close _)
  · rw [bind_of_error ht]
    exact hback

theorem aside_putCollection (s : Store) (n : Nat) (c : Collection) :
    s.Aside (s.putCollection n c) := ⟨rfl, rfl⟩

/-- How many documents a cursor gives at most when it is asked for all. -/
def AtMost (m k : Nat) (s : Store) : Prop :=
  ∀ ds, ((s.cursorAt k).2.start (s.collectionAt (s.cursorAt k).1)).2 = .ok ds → ds.length ≤ m

/-- How many documents a cursor that is being read has left at most. -/
def Left (m k : Nat) (s : Store) : Prop :=
  ∃ ds, (s.cursorAt k).2.pending = some ds ∧ ds.length ≤ m

theorem Left.atMost (h : s.Left m k) : s.AtMost m k := by
  obtain ⟨ds, hpending, hlength⟩ := h
  intro xs hxs
  rw [Cursor.start_started hpending] at hxs
  cases hxs
  exact hlength

theorem Left.of_aside (h : s.Left m k) (ha : s.Aside t) : t.Left m k := by
  rw [Left, ha.cursorAt]
  exact h

/-- A registered cursor is kept unless it has nothing more to give, and then it is closed. -/
theorem readCursor_cases (h : s.Enrolled ((n, k) :: old)) (hm : s.AtMost m k) :
    (∃ t, readCursor k Cursor.next s = (.ok none, t) ∧ t.Enrolled old ∧
      (t.cursorAt k).2.closed = true) ∨
    (∃ e t, readCursor k Cursor.next s = (.error e, t) ∧ t.Enrolled ((n, k) :: old)) ∨
    ∃ x t, readCursor k Cursor.next s = (.ok (some x), t) ∧ t.Enrolled ((n, k) :: old) ∧ 0 < m ∧
      t.Left (m - 1) k := by
  obtain ⟨_, hopen⟩ := h.at_cursor
  have hput := fun c : Collection => h.of_aside (aside_putCollection s (s.cursorAt k).1 c)
  have hat : ∀ (c : Collection) (cur : Cursor),
      (((s.putCollection (s.cursorAt k).1 c).putCursor k cur).cursorAt k).2 = cur := by
    intro c cur
    rw [cursorAt_putCursor (by simpa [putCollection] using lt_of_open hopen)]
  unfold readCursor Cursor.next
  dsimp only
  rw [if_neg (by simp [hopen])]
  rcases hs : (s.cursorAt k).2.start (s.collectionAt (s.cursorAt k).1) with ⟨c, e | _ | ⟨x, ds⟩⟩
  · exact .inr (.inl ⟨e, _, rfl, (hput c).putCursor hopen⟩)
  · refine .inl ⟨_, rfl, (hput c).release (Cursor.closed_close _), ?_⟩
    rw [hat]
    exact Cursor.closed_close _
  · have hlength := hm (x :: ds) (congrArg Prod.snd hs)
    rw [List.length_cons] at hlength
    refine .inr (.inr ⟨x, _, rfl, (hput c).putCursor hopen, by omega, ds, ?_, by omega⟩)
    rw [hat]
    rfl

end Store

/-- The identifiers of those objects that have one. -/
def ObjectReader.identifiers (d : ObjectReader) (objects : List Value) : List Value :=
  (objects.filter d.isIdentifiable).filterMap fun v => (v.attribute "id").toOption

/-- Decoders may differ in the names of classes, and tell the same identifiers. -/
theorem Decoder.identifiers_congr {d d' : Decoder} (h : d.catalog = d'.catalog)
    (objects : List Value) : d.reader.identifiers objects = d'.reader.identifiers objects := by
  simp only [ObjectReader.identifiers, h]

/-- What a reading adds to the identifiers seen: nothing, unless it reads objects. -/
def ObjectReader.noted (d : ObjectReader) (only : Option String) (items : List Value) :
    List Value :=
  match only with
  | some _ => []
  | none => d.identifiers items

namespace Reading

variable {r : Reading} {d : ObjectReader} {ids ids' : IdSet} {old : List (Nat × Nat)} {s t : Store}
  {n k m : Nat}

theorem object_noted {partly : Bool} {x v : Value} {m m' : Nat}
    (h : object d partly ids x m = (.ok (v, ids'), m')) (vs : List Value) :
    ids.addAll (d.identifiers (v :: vs)) = ids'.addAll (d.identifiers vs) := by
  unfold object at h
  obtain ⟨w, m₁, _, h⟩ := bind_eq_ok_iff.mp h
  cases hi : d.isIdentifiable w with
  | false =>
    rw [if_neg (by simp [hi])] at h
    cases h
    simp [ObjectReader.identifiers, hi]
  | true =>
    rw [if_pos hi] at h
    cases hadd : (w.attribute "id").bind ids.add with
    | error e =>
      rw [hadd] at h
      cases h
    | ok ids₁ =>
      rw [hadd] at h
      cases h
      obtain ⟨id, hid, hadd⟩ := except_bind_eq_ok.mp hadd
      have hcons : d.identifiers (v :: vs) = id :: d.identifiers vs := by
        simp [ObjectReader.identifiers, hi, hid, Except.toOption]
      rw [hcons, IdSet.addAll, hadd]

/-- A document is read as an item, with the identifiers that are seen then, or not at all. -/
theorem under_document (r : Reading) (d : ObjectReader) (ids : IdSet) {x : Value}
    (h : Store.readCursor k Cursor.next s = (.ok (some x), t)) :
    (∃ e u, r.under d ids k s = (.error e, u) ∧ t.Aside u) ∨
      ∃ v ids' u, r.under d ids k s = (.ok (some (v, ids')), u) ∧ t.Aside u ∧
        ∀ vs, ids.addAll (d.noted r.only (v :: vs)) = ids'.addAll (d.noted r.only vs) := by
  unfold under
  rw [bind_of_ok h]
  cases ho : r.only with
  | some field =>
    cases x with
    | dict ps => exact .inr ⟨_, ids, t, rfl, refl_of Store.Aside t, fun _ => rfl⟩
    | _ => exact .inl ⟨_, t, rfl, refl_of Store.Aside t⟩
  | none =>
    dsimp only
    rcases hf : object d (!r.plan.projection.isNull) ids x t.issued with ⟨e | ⟨v, ids'⟩, m⟩
    · exact .inl ⟨e, _, bind_of_error (Store.fresh_run hf), rfl, rfl⟩
    · exact .inr ⟨v, ids', _, bind_of_ok (Store.fresh_run hf), ⟨rfl, rfl⟩, object_noted hf⟩

/-- What a reading has registered, and how many items it gives at most. -/
def Bound (old : List (Nat × Nat)) (m : Nat) (r : Reading) (s : Store) : Prop :=
  match r.stage with
  | .waiting => s.Enrolled old ∧ (s.collectionAt r.collection).size ≤ m
  | .under k => s.Enrolled ((r.collection, k) :: old) ∧ s.Left m k
  | .finished => s.Enrolled old

/-- One more item is given, or the reading is over. -/
inductive Outcome (old : List (Nat × Nat)) (m : Nat) (r : Reading) (d : ObjectReader) (ids : IdSet)
    (x : Next) : Prop
  | given (v : Value) (hv : x.result = .ok (some v)) (hm : 0 < m)
      (hbound : Bound old (m - 1) x.reading x.store) (honly : x.reading.only = r.only)
      (hids : ∀ vs, ids.addAll (d.noted r.only (v :: vs)) = x.ids.addAll (d.noted r.only vs))
  | ended (hv : ∀ v, x.result ≠ .ok (some v)) (hstage : x.reading.stage = .finished)
      (hids : x.ids = ids) (hback : x.store.Enrolled old)

theorem step_outcome (d : ObjectReader) (ids : IdSet) (h : s.Enrolled ((r.collection, k) :: old))
    (hm : s.AtMost m k) : Outcome old m r d ids (r.step d ids k s) := by
  unfold step
  rcases Store.readCursor_cases h hm with ⟨t, hx, hback, hclosed⟩ | ⟨e, t, hx, hheld⟩ |
    ⟨x, t, hx, hheld, hpos, hleft⟩
  · have hrun : (r.under d ids k).run s = (.ok none, t) := under_none hx
    rw [hrun]
    exact .ended nofun rfl rfl (hback.close hclosed)
  · have hrun : (r.under d ids k).run s = (.error e, t) := under_error hx
    rw [hrun]
    exact .ended nofun rfl rfl (hheld.release (Cursor.closed_close _))
  · rcases under_document r d ids hx with ⟨e, u, hu, ha⟩ | ⟨v, ids', u, hu, ha, hids⟩
    · have hrun : (r.under d ids k).run s = (.error e, u) := hu
      rw [hrun]
      exact .ended nofun rfl rfl ((hheld.of_aside ha).release (Cursor.closed_close _))
    · have hrun : (r.under d ids k).run s = (.ok (some (v, ids')), u) := hu
      rw [hrun]
      exact .given v rfl hpos ⟨hheld.of_aside ha, hleft.of_aside ha⟩ rfl hids

theorem next_outcome (d : ObjectReader) (ids : IdSet) (h : Bound old m r s) :
    Outcome old m r d ids (r.next d ids s) := by
  unfold next
  unfold Bound at h
  cases hs : r.stage with
  | finished =>
    rw [hs] at h
    exact .ended nofun hs rfl h
  | under k =>
    rw [hs] at h
    exact step_outcome d ids h.1 h.2.atMost
  | waiting =>
    rw [hs] at h
    obtain ⟨⟨htidy, rfl⟩, hsize⟩ := h
    rcases Store.openPlan_opens htidy r.collection r.plan r.projection with
      ⟨k, t, ht, hopens⟩ | ⟨e, t, ht, hback⟩
    · have hrun : (Store.openPlan r.collection r.plan r.projection).run s = (.ok k, t) := ht
      have hm : t.AtMost m k := by
        intro ds hds
        have hlength := Cursor.start_length_le hopens.untouched hds
        rw [hopens.at_cursor.1, hopens.collections] at hlength
        omega
      simp only [hrun]
      exact step_outcome d ids hopens.toEnrolled hm
    · have hrun : (Store.openPlan r.collection r.plan r.projection).run s = (.error e, t) := ht
      simp only [hrun]
      exact .ended nofun rfl rfl hback

theorem enrolled_stop (h : Bound old m r s) : (r.stop s).2.Enrolled old := by
  unfold stop
  unfold Bound at h
  cases hs : r.stage with
  | under k =>
    rw [hs] at h
    exact h.1.release (Cursor.closed_close _)
  | waiting =>
    rw [hs] at h
    exact h.1
  | finished =>
    rw [hs] at h
    exact h

theorem noted_nil (d : ObjectReader) (only : Option String) : d.noted only [] = [] := by
  cases only <;> rfl

/-- What a reading has done after some items: its cursor is registered if it has not ended, and
the identifiers of what it gave were added to those seen. -/
structure Took (old : List (Nat × Nat)) (m : Nat) (r : Reading) (d : ObjectReader) (ids : IdSet)
    (j : Nat) (t : Taken) : Prop where
  bound : Bound old (m - t.items.length) t.reading t.store
  length : t.items.length ≤ m
  asked : t.items.length ≤ j
  short : t.fault.isSome → t.items.length < j
  added : ids.addAll (d.noted r.only t.items) = (t.ids, .ok ())
  ended : t.fault.isSome ∨ t.items.length < j → t.store.Enrolled old

theorem take_took (d : ObjectReader) (ids : IdSet) (h : Bound old m r s) (j : Nat) :
    Took old m r d ids j (r.take j d ids s) := by
  induction j generalizing r ids s m with
  | zero =>
    refine ⟨h, Nat.zero_le m, Nat.zero_le 0, by simp [take], ?_, by simp [take]⟩
    simp only [take, noted_nil]
    rfl
  | succ j ih =>
    cases next_outcome d ids h with
    | given v hv hm hbound honly hids =>
      have hrest := ih (r.next d ids s).ids hbound
      have hlength := hrest.length
      simp only [take, hv]
      refine ⟨?_, ?_, ?_, ?_, ?_, ?_⟩
      · rw [List.length_cons, Nat.add_comm, ← Nat.sub_sub]
        exact hrest.bound
      · rw [List.length_cons]
        omega
      · exact Nat.succ_le_succ hrest.asked
      · exact fun hfault => Nat.succ_lt_succ (hrest.short hfault)
      · rw [hids, ← honly]
        exact hrest.added
      · rw [List.length_cons, Nat.add_lt_add_iff_right]
        exact hrest.ended
    | ended hv hstage hids hback =>
      have hbound : Bound old m (r.next d ids s).reading (r.next d ids s).store := by
        rw [Bound, hstage]
        exact hback
      have hadded : ids.addAll (d.noted r.only []) = ((r.next d ids s).ids, .ok ()) := by
        rw [noted_nil, hids]
        rfl
      rcases hx : (r.next d ids s).result with e | _ | v
      · simp only [take, hx]
        exact ⟨hbound, Nat.zero_le m, Nat.zero_le _, fun _ => Nat.succ_pos j, hadded,
          fun _ => hback⟩
      · simp only [take, hx]
        exact ⟨hbound, Nat.zero_le m, Nat.zero_le _, fun _ => Nat.succ_pos j, hadded,
          fun _ => hback⟩
      · exact absurd hx (hv v)

/-- The first of what was taken, unless that failed. -/
def Taken.first (t : Taken) : Except Error (Option Value) :=
  t.fault.elim (.ok t.items.head?) .error

/-- When one item was asked for, the first is all that was taken. -/
theorem Took.toList_first {t : Taken} (h : Took old m r d ids 1 t) :
    t.first.toOption.join.toList = t.items := by
  have hasked := h.asked
  have hshort := h.short
  unfold Taken.first
  rcases hfault : t.fault with _ | e
  · match hitems : t.items with
    | [] => rfl
    | [v] => rfl
    | _ :: _ :: _ => simp [hitems] at hasked
  · have hnone : t.items = [] := by simpa [hfault] using hshort
    rw [hnone]
    rfl

theorem ofPlan_bound (h : s.Tidy) (n : Nat) (p : Plan) (only : Option String) :
    Bound s.registered (s.collectionAt n).size (ofPlan n p only) s :=
  ⟨h.enrolled, Nat.le_refl _⟩

end Reading

end DocStore
