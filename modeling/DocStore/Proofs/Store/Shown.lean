import DocStore.Proofs.IdSet
import DocStore.Proofs.Query.Selected
import DocStore.Proofs.Store.Releasing

/-! What readings show. A property that all projections of a collection's documents have is had by
all that is read of them, and by what readings that were stopped on the way still have to give. -/

namespace DocStore

open Value

/-- A projection that names paths to keep, if any. -/
def Inclusive (projection : Value) : Prop :=
  projection = null ∨
    ∃ ps : Entries, projection = dict ps ∧ ps.Keyed ∧ ∀ p ∈ ps, p.2.truthy = true

theorem inclusive_projectionOf (s : Schema) (fields : List Field) :
    Inclusive (Plan.projectionOf s fields) := by
  by_cases hf : fields = []
  · subst hf
    exact .inl rfl
  · obtain ⟨hkeyed, _, hnone, _⟩ := selection_chooses s fields
    refine .inr ⟨_, projectionOf_eq s hf, hkeyed, fun p hp => ?_⟩
    obtain ⟨n, hn⟩ := hkeyed.text p hp
    exact eq_true_of_ne_false fun hv => hnone n ⟨p.2, by rwa [← hn], hv⟩

/-- What an inclusive projection leaves of a document is a part of it, with its identifier. -/
theorem project_inclusive {projection x : Value} (h : Inclusive projection) {idField : String}
    {ds : Entries} (hx : project idField projection (dict ds) = .ok x) :
    ∃ es, x = dict es ∧ Part (dict es) (dict ds) ∧
      Entries.get? (str idField) es = Entries.get? (str idField) ds := by
  rcases h with rfl | ⟨ps, rfl, hkeyed, htrue⟩
  · cases hx
    exact ⟨ds, rfl, .refl _, rfl⟩
  · cases ps with
    | nil =>
      cases hx
      exact ⟨ds, rfl, .refl _, rfl⟩
    | cons p ps =>
      obtain ⟨n, hn⟩ := hkeyed.text p List.mem_cons_self
      have hnone : ∀ q, ¬ Chooses (p :: ps) false q := by
        rintro q ⟨v, hm, hv⟩
        rw [htrue _ hm] at hv
        cases hv
      have hsome : Chooses (p :: ps) true n :=
        ⟨p.2, by rw [← hn]; exact List.mem_cons_self, htrue p List.mem_cons_self⟩
      obtain ⟨es, hes, _, hinclusion⟩ :=
        project_inclusion hkeyed ⟨n, hsome⟩ (fun q hq => absurd hq (hnone q)) ds
      rw [hes] at hx
      cases hx
      have hid := hinclusion.id (hnone idField) [idField] List.prefix_rfl
      exact ⟨es, rfl, hinclusion.part, by simpa [getPath_dict, getPath] using hid⟩

/-- Whatever an inclusive projection leaves of the documents has a property. -/
def Collection.Supplies (P : Value → Prop) (c : Collection) : Prop :=
  ∀ d ∈ c.documents.values, ∀ projection x, Inclusive projection →
    project c.idField projection d = .ok x → P x

variable {P : Value → Prop}

theorem Collection.Supplies.same {c c' : Collection} (h : c.Supplies P) (hc : c.Same c') :
    c'.Supplies P := by
  unfold Supplies
  rw [hc.documents, hc.idField]
  exact h

namespace Cursor

variable {cur cur' : Cursor} {c : Collection} {d x : Value} {xs ds : List Value}
  {f : Cursor → Except Error Cursor}

theorem mem_of_window (h : (cur.window c).2 = .ok ds) (hd : d ∈ ds) : d ∈ c.documents.values := by
  obtain ⟨found, hfound, h⟩ := except_bind_eq_ok.mp h
  have hsub := (Collection.matching_sublist hfound).subset
  split at h
  · exact hsub ((slice_sublist h).subset hd)
  · obtain ⟨sorted, hsorted, h⟩ := except_bind_eq_ok.mp h
    exact hsub ((sortDocuments_perm hsorted).mem_iff.mp ((slice_sublist h).subset hd))

theorem mem_of_projectAll {idField : String} {projection : Value}
    (h : projectAll idField projection ds = .ok xs) (hx : x ∈ xs) :
    ∃ d ∈ ds, project idField projection d = .ok x := by
  induction ds generalizing xs with
  | nil =>
    cases h
    cases hx
  | cons d ds ih =>
    obtain ⟨y, ys, hy, hys, rfl⟩ := Reading.projectAll_cons.mp h
    rcases List.mem_cons.mp hx with rfl | hx
    · exact ⟨d, by simp, hy⟩
    · obtain ⟨e, he, hproject⟩ := ih hys hx
      exact ⟨e, by simp [he], hproject⟩

/-- A cursor that shows nothing but what has a property. -/
structure Shows (P : Value → Prop) (cur : Cursor) : Prop where
  projection : Inclusive cur.projection
  pending : ∀ ds, cur.pending = some ds → ∀ x ∈ ds, P x

theorem shows_opened (query : Value) {projection : Value} (h : Inclusive projection) :
    (opened query projection).Shows P := ⟨h, nofun⟩

theorem Shows.mono {Q : Value → Prop} (h : cur.Shows P) (hpq : ∀ x, P x → Q x) : cur.Shows Q :=
  ⟨h.projection, fun ds hds x hx => hpq x (h.pending ds hds x hx)⟩

theorem Shows.close (h : cur.Shows P) : cur.close.Shows P := by
  unfold Cursor.close
  split
  · exact h
  · exact ⟨h.projection, nofun⟩

theorem SetsUp.projection (hf : SetsUp f) (h : f cur = .ok cur') :
    cur'.projection = cur.projection := by
  obtain ⟨v, rfl | rfl | rfl⟩ := hf
  · obtain ⟨_, _, h⟩ := except_bind_eq_ok.mp h
    obtain ⟨_, _, h⟩ := except_bind_eq_ok.mp h
    cases h
    rfl
  · obtain ⟨_, _, h⟩ := except_bind_eq_ok.mp h
    obtain ⟨_, _, h⟩ := except_bind_eq_ok.mp h
    cases h
    rfl
  · obtain ⟨_, _, h⟩ := except_bind_eq_ok.mp h
    cases hv : v.iterate? with
    | none =>
      simp only [hv] at h
      cases h
    | some vs =>
      simp only [hv] at h
      obtain ⟨ks, _, h⟩ := except_bind_eq_ok.mp h
      cases h
      rfl

theorem Shows.setUp (h : cur.Shows P) (hf : SetsUp f) (hcur : f cur = .ok cur') :
    cur'.Shows P := by
  refine ⟨?_, fun ds hds => ?_⟩
  · rw [hf.projection hcur]
    exact h.projection
  · rw [(hf.untouched hcur).2.pending] at hds
    cases hds

theorem Shows.start (h : cur.Shows P) (hc : c.Supplies P) (hs : (cur.start c).2 = .ok ds) :
    ∀ x ∈ ds, P x := by
  unfold Cursor.start at hs
  split at hs
  · next ps hps =>
    cases hs
    exact h.pending _ hps
  · obtain ⟨window, hwindow, hproject⟩ := except_bind_eq_ok.mp hs
    intro x hx
    obtain ⟨d, hd, hx⟩ := mem_of_projectAll hproject hx
    exact hc d (mem_of_window hwindow hd) _ x h.projection hx

theorem start_same (cur : Cursor) (c : Collection) : c.Same (cur.start c).1 := by
  unfold Cursor.start
  split
  · exact .refl c
  · exact ⟨rfl, rfl, rfl⟩

theorem next_same (cur : Cursor) (c : Collection) : c.Same (cur.next c).collection := by
  have hsame := cur.start_same c
  unfold Cursor.next
  split
  · exact .refl c
  · split <;> simp_all

theorem size_same (cur : Cursor) (c : Collection) : c.Same (cur.size c).1 := by
  unfold Cursor.size
  split
  · exact .refl c
  · exact ⟨rfl, rfl, rfl⟩

theorem Shows.next (h : cur.Shows P) (hc : c.Supplies P) :
    (cur.next c).cursor.Shows P ∧ ∀ x, (cur.next c).result = .ok (some x) → P x := by
  unfold Cursor.next
  split
  · exact ⟨h, nofun⟩
  · rcases hs : cur.start c with ⟨c', e | _ | ⟨d, ds⟩⟩
    · exact ⟨h, nofun⟩
    · exact ⟨h.close, nofun⟩
    · have hall := h.start hc (congrArg Prod.snd hs)
      refine ⟨⟨h.projection, fun ds' hds => ?_⟩, fun x hx => ?_⟩
      · cases hds
        exact fun x hx => hall x (List.mem_cons_of_mem d hx)
      · cases hx
        exact hall d List.mem_cons_self

end Cursor

namespace Store

variable {s t : Store} {n k j : Nat} {cur : Cursor}

/-- A cursor over a collection that shows nothing but what has a property. -/
structure Shows (P : Value → Prop) (n k : Nat) (s : Store) : Prop where
  lt : k < s.cursors.length
  owner : (s.cursorAt k).1 = n
  shows : (s.cursorAt k).2.Shows P

/-- Work that leaves the documents as they are, and what cursors over a collection show. -/
def Reshows (P : Value → Prop) (n : Nat) (s t : Store) : Prop :=
  (s.collectionAt n).Supplies P → s.Same t ∧ ∀ k, s.Shows P n k → t.Shows P n k

instance : IsPreorder Store (Reshows P n) where
  refl s _ := ⟨.refl s, fun _ h => h⟩
  trans _ _ _ h h' hs := by
    obtain ⟨hsame, hshows⟩ := h hs
    obtain ⟨hsame', hshows'⟩ := h' (hs.same (hsame.collections n))
    exact ⟨hsame.trans hsame', fun k hk => hshows' k (hshows k hk)⟩

theorem Shows.mono {Q : Value → Prop} (h : s.Shows P n k) (hpq : ∀ x, P x → Q x) :
    s.Shows Q n k := ⟨h.lt, h.owner, h.shows.mono hpq⟩

theorem Shows.aside (h : s.Shows P n k) (ha : s.Aside t) : t.Shows P n k := by
  refine ⟨?_, ?_, ?_⟩
  · rw [ha.cursors]
    exact h.lt
  · rw [ha.cursorAt]
    exact h.owner
  · rw [ha.cursorAt]
    exact h.shows

theorem reshows_aside (h : s.Same t) (ha : s.Aside t) : Reshows P n s t :=
  fun _ => ⟨h, fun _ hk => hk.aside ha⟩

theorem Shows.withCursor (h : s.Shows P n k) (m : Nat) (cur : Cursor) :
    (s.withCursor m cur).Shows P n k := by
  refine ⟨by simpa [Store.withCursor] using Nat.lt_succ_of_lt h.lt, ?_, ?_⟩
  · rw [cursorAt_withCursor_of_ne h.lt.ne]
    exact h.owner
  · rw [cursorAt_withCursor_of_ne h.lt.ne]
    exact h.shows

theorem shows_withCursor (h : cur.Shows P) :
    (s.withCursor n cur).Shows P n s.cursors.length := by
  refine ⟨by simp [withCursor], ?_, ?_⟩
  · rw [cursorAt_withCursor]
  · rw [cursorAt_withCursor]
    exact h

theorem Shows.putCursor (h : s.Shows P n k) (hcur : j = k → cur.Shows P) :
    (s.putCursor j cur).Shows P n k := by
  have hlt : k < (s.putCursor j cur).cursors.length := by simpa [Store.putCursor] using h.lt
  by_cases hj : k = j
  · subst hj
    refine ⟨hlt, ?_, ?_⟩
    · rw [cursorAt_putCursor h.lt]
      exact h.owner
    · rw [cursorAt_putCursor h.lt]
      exact hcur rfl
  · refine ⟨hlt, ?_, ?_⟩
    · rw [cursorAt_putCursor_of_ne hj]
      exact h.owner
    · rw [cursorAt_putCursor_of_ne hj]
      exact h.shows

theorem reshows_close (s : Store) (k : Nat) :
    Reshows P n s (s.putCursor k (s.cursorAt k).2.close) := by
  refine fun _ => ⟨same_putCursor s k _, fun j hj => hj.putCursor ?_⟩
  rintro rfl
  exact hj.shows.close

theorem reshows_setUpCursor {f : Cursor → Except Error Cursor} (hf : Cursor.SetsUp f) :
    Within (Reshows P n) (setUpCursor k f) := by
  intro s
  unfold setUpCursor
  split
  · next cur hcur =>
    refine fun _ => ⟨same_putCursor s k _, fun j hj => hj.putCursor ?_⟩
    rintro rfl
    exact hj.shows.setUp hf hcur
  · exact refl_of (Reshows P n) s

theorem reshows_closingOnFailure {α : Type} {x : Storing α} (hx : Within (Reshows P n) x) :
    Within (Reshows P n) (closingOnFailure k x) := by
  intro s
  have hs := hx s
  unfold closingOnFailure
  rcases hr : x s with ⟨e | a, t⟩
  · rw [hr] at hs
    exact trans_of (Reshows P n) hs (reshows_close t k)
  · rw [hr] at hs
    exact hs

theorem reshows_fresh {α : Type} (x : Fresh α) : Within (Reshows P n) (fresh x) :=
  fun _ => reshows_aside ⟨rfl, fun _ => .refl _⟩ ⟨rfl, rfl⟩

/-- A cursor that is opened for a plan shows what the plan's projection leaves. -/
theorem openPlan_shows (n : Nat) (p : Plan) {projection : Value} (hplan : Inclusive p.projection)
    (hprojection : Inclusive projection) :
    Within (Reshows P n) (openPlan n p projection) ∧ ∀ s k t, (s.collectionAt n).Supplies P →
      openPlan n p projection s = (.ok k, t) → t.Shows P n k := by
  let shown := if projection.isNull then p.projection else projection
  have hshown : Inclusive shown := by
    unfold shown
    split
    · exact hplan
    · exact hprojection
  have hsetUp (k : Nat) : Within (Reshows P n) (closingOnFailure k do
      if ← liftExcept (isPositive p.skip) then setUpCursor k fun cur => cur.skip p.skip
      if ← liftExcept (isPositive p.limit) then setUpCursor k fun cur => cur.limit p.limit
      if p.sort.truthy then setUpCursor k fun cur => cur.sort p.sort) := by
    refine reshows_closingOnFailure (within_bind (within_liftExcept _) fun _ =>
      within_step (reshows_setUpCursor ⟨p.skip, .inl rfl⟩) fun _ =>
      within_bind (within_liftExcept _) fun _ =>
      within_step (reshows_setUpCursor ⟨p.limit, .inr (.inl rfl)⟩) fun _ => ?_)
    split
    · exact reshows_setUpCursor ⟨p.sort, .inr (.inr rfl)⟩
    · exact within_pure _
  have hopen (s : Store) : openCursor n p.query shown s =
      (.ok s.cursors.length, s.withCursor n (Cursor.opened p.query shown)) := rfl
  refine ⟨?_, fun s k t hs h => ?_⟩
  · refine within_bind (fun s _ => ?_) fun k => within_bind (hsetUp k) fun _ => within_pure _
    rw [hopen]
    exact ⟨same_withCursor s n _, fun k hk => hk.withCursor n _⟩
  · unfold openPlan at h
    rw [bind_of_ok (hopen s)] at h
    obtain ⟨_, u, hu, h⟩ := bind_eq_ok_iff.mp h
    cases h
    have hkept := hsetUp s.cursors.length (s.withCursor n (Cursor.opened p.query shown))
    rw [hu] at hkept
    exact (hkept hs).2 _ (shows_withCursor (Cursor.shows_opened p.query hshown))

theorem reshows_count (p : Plan) (hplan : Inclusive p.projection) :
    Within (Reshows P n) (count n p) := by
  refine within_bind (openPlan_shows n p hplan (.inl rfl)).1 fun k s => ?_
  have hsize : Reshows P n s (sizeOfCursor k s).2 :=
    reshows_aside (same_putCollection (Cursor.size_same _ _)) (aside_sizeOfCursor k s)
  exact trans_of (Reshows P n) hsize (reshows_close _ k)

theorem reshows_readCursor (k : Nat) : Within (Reshows P n) (readCursor k Cursor.next) := by
  intro s hs
  refine ⟨(same_putCollection (Cursor.next_same _ _)).trans (same_putCursor _ _ _),
    fun j hj => ?_⟩
  refine (hj.aside (aside_putCollection s _ _)).putCursor ?_
  rintro rfl
  have hs' := hs
  rw [← hj.owner] at hs'
  exact (hj.shows.next hs').1

theorem Shows.read (h : s.Shows P n k) (hs : (s.collectionAt n).Supplies P) {x : Value}
    (hx : readCursor k Cursor.next s = (.ok (some x), t)) : P x := by
  rw [← h.owner] at hs
  exact (h.shows.next hs).2 x (congrArg Prod.fst hx)

end Store

/-- Objects read of documents that have one property have identifiers that have another one. -/
def ObjectReader.Notes (d : ObjectReader) (P Q : Value → Prop) : Prop :=
  ∀ x, P x → ∀ partly m v m' id, d.decode partly x m = (.ok v, m') →
    d.isIdentifiable v = true → v.attribute "id" = .ok id → Q id

namespace Reading

variable {Q : Value → Prop} {r : Reading} {d : ObjectReader} {ids ids' : IdSet} {s t : Store}
  {n k : Nat}

/-- A reading of a collection that shows nothing but what has a property. -/
structure Shows (P : Value → Prop) (n : Nat) (r : Reading) (s : Store) : Prop where
  collection : r.collection = n
  projection : Inclusive r.plan.projection
  stage : ∀ k, r.stage = .under k → s.Shows P n k

theorem Shows.later (h : r.Shows P n s) (ht : ∀ k, s.Shows P n k → t.Shows P n k) :
    r.Shows P n t := ⟨h.collection, h.projection, fun k hk => ht k (h.stage k hk)⟩

theorem Shows.finished (h : r.Shows P n s) (t : Store) : r.finished.Shows P n t :=
  ⟨h.collection, h.projection, nofun⟩

theorem inclusive_projection (r : Reading) : Inclusive r.projection := by
  unfold Reading.projection
  split
  · exact .inr ⟨_, rfl, .singleton _ _, by simp [truthy]⟩
  · exact .inl rfl

theorem shows_ofPlan {p : Plan} (h : Inclusive p.projection) (n : Nat) (only : Option String)
    (s : Store) : (ofPlan n p only).Shows P n s := ⟨rfl, h, nofun⟩

theorem reshows_under (r : Reading) (d : ObjectReader) (ids : IdSet) (k : Nat) :
    Within (Store.Reshows P n) (r.under d ids k) := by
  unfold under
  refine within_bind (Store.reshows_readCursor k) fun document => ?_
  cases document with
  | none => exact within_pure none
  | some x =>
    cases r.only with
    | some field =>
      cases x with
      | dict ps => exact within_pure _
      | _ => exact within_throw _
    | none => exact within_bind (Store.reshows_fresh _) fun _ => within_pure _

theorem gains_object {partly : Bool} {x v : Value} {m m' : Nat} (hd : d.Notes P Q) (hx : P x)
    (h : object d partly ids x m = (.ok (v, ids'), m')) : ids.Gains Q ids' := by
  unfold object at h
  obtain ⟨w, k, hw, h⟩ := bind_eq_ok_iff.mp h
  cases hi : d.isIdentifiable w with
  | false =>
    rw [if_neg (by simp [hi])] at h
    cases h
    exact refl_of (IdSet.Gains Q) ids
  | true =>
    rw [if_pos hi] at h
    cases hadd : (w.attribute "id").bind ids.add with
    | error e =>
      rw [hadd] at h
      cases h
    | ok ids₁ =>
      rw [hadd] at h
      cases h
      obtain ⟨id, hid, hadd⟩ := except_bind_eq_ok.mp hadd
      exact IdSet.gains_add hadd (hd x hx _ _ _ _ _ hw hi hid)

theorem gains_under (hd : d.Notes P Q) (hs : (s.collectionAt n).Supplies P)
    (hk : s.Shows P n k) {v : Value} (h : r.under d ids k s = (.ok (some (v, ids')), t)) :
    ids.Gains Q ids' := by
  unfold under at h
  obtain ⟨document, u, hread, h⟩ := bind_eq_ok_iff.mp h
  cases document with
  | none => cases h
  | some x =>
    cases ho : r.only with
    | some field =>
      rw [ho] at h
      cases x with
      | dict ps =>
        cases h
        exact refl_of (IdSet.Gains Q) ids
      | _ => cases h
    | none =>
      rw [ho] at h
      obtain ⟨⟨w, ids₁⟩, u', hobject, h⟩ := bind_eq_ok_iff.mp h
      cases h
      rcases hrun : object d (!r.plan.projection.isNull) ids x u.issued with ⟨a, m⟩
      rw [Store.fresh_run hrun] at hobject
      cases hobject
      exact gains_object hd (hk.read hs hread) hrun

/-- How a reading goes on: documents stay and cursors show what they showed, as it does, and the
identifiers seen gain none but those of what it read. -/
structure Goes (P Q : Value → Prop) (n : Nat) (s : Store) (ids : IdSet) (r : Reading)
    (ids' : IdSet) (t : Store) : Prop where
  store : Store.Reshows P n s t
  reading : r.Shows P n t
  ids : ids.Gains Q ids'

theorem Goes.trans {ids'' : IdSet} {r' : Reading} {u : Store} (h : Goes P Q n s ids r ids' t)
    (h' : Goes P Q n t ids' r' ids'' u) : Goes P Q n s ids r' ids'' u :=
  ⟨trans_of (Store.Reshows P n) h.store h'.store, h'.reading, trans_of (IdSet.Gains Q) h.ids h'.ids⟩

theorem step_goes (hd : d.Notes P Q) (hs : (s.collectionAt n).Supplies P) (h : r.Shows P n s)
    (hk : s.Shows P n k) (ids : IdSet) :
    Goes P Q n s ids (r.step d ids k s).reading (r.step d ids k s).ids
      (r.step d ids k s).store := by
  have hkept := reshows_under (P := P) (n := n) r d ids k s
  have hend {t : Store} (ht : (r.under d ids k s).2 = t) :
      Goes P Q n s ids r.finished ids (t.putCursor k (t.cursorAt k).2.close) := by
    rw [ht] at hkept
    exact ⟨trans_of (Store.Reshows P n) hkept (Store.reshows_close t k), h.finished _,
      refl_of (IdSet.Gains Q) ids⟩
  unfold step
  rcases hu : (r.under d ids k).run s with ⟨e | _ | ⟨v, ids'⟩, t⟩
  · exact hend (congrArg Prod.snd hu)
  · exact hend (congrArg Prod.snd hu)
  · have hrun : r.under d ids k s = (.ok (some (v, ids')), t) := hu
    rw [hrun] at hkept
    refine ⟨hkept, ⟨h.collection, h.projection, fun j hj => ?_⟩, gains_under hd hs hk hrun⟩
    cases hj
    exact (hkept hs).2 k hk

theorem next_goes (hd : d.Notes P Q) (hs : (s.collectionAt n).Supplies P) (h : r.Shows P n s)
    (ids : IdSet) : Goes P Q n s ids (r.next d ids s).reading (r.next d ids s).ids
      (r.next d ids s).store := by
  unfold next
  cases hstage : r.stage with
  | finished => exact ⟨refl_of (Store.Reshows P n) s, h, refl_of (IdSet.Gains Q) ids⟩
  | under k => exact step_goes hd hs h (h.stage k hstage) ids
  | waiting =>
    obtain ⟨hkept, hopened⟩ :=
      Store.openPlan_shows (P := P) n r.plan h.projection r.inclusive_projection
    have hkept := hkept s
    rw [h.collection]
    rcases ht : (Store.openPlan n r.plan r.projection).run s with ⟨e | k, t⟩
    · have hrun : Store.openPlan n r.plan r.projection s = (.error e, t) := ht
      rw [hrun] at hkept
      exact ⟨hkept, h.finished _, refl_of (IdSet.Gains Q) ids⟩
    · have hrun : Store.openPlan n r.plan r.projection s = (.ok k, t) := ht
      rw [hrun] at hkept
      obtain ⟨hsame, hshows⟩ := hkept hs
      have hstep := step_goes hd (hs.same (hsame.collections n)) (h.later hshows)
        (hopened s k t hs hrun) ids
      exact ⟨trans_of (Store.Reshows P n) hkept hstep.store, hstep.reading, hstep.ids⟩

theorem take_goes (hd : d.Notes P Q) (hs : (s.collectionAt n).Supplies P) (h : r.Shows P n s)
    (ids : IdSet) (j : Nat) : Goes P Q n s ids (r.take j d ids s).reading (r.take j d ids s).ids
      (r.take j d ids s).store := by
  induction j generalizing r ids s with
  | zero => exact ⟨refl_of (Store.Reshows P n) s, h, refl_of (IdSet.Gains Q) ids⟩
  | succ j ih =>
    have hnext := next_goes hd hs h ids
    rw [take]
    rcases hx : (r.next d ids s).result with e | _ | v
    · exact hnext
    · exact hnext
    · obtain ⟨hsame, _⟩ := hnext.store hs
      exact hnext.trans (ih (hs.same (hsame.collections n)) hnext.reading (r.next d ids s).ids)

theorem stop_goes (h : r.Shows P n s) (ids : IdSet) :
    Goes P Q n s ids (r.stop s).1 ids (r.stop s).2 := by
  unfold stop
  split
  · exact ⟨Store.reshows_close s _, h.finished _, refl_of (IdSet.Gains Q) ids⟩
  · exact ⟨refl_of (Store.Reshows P n) s, h.finished s, refl_of (IdSet.Gains Q) ids⟩

end Reading

end DocStore
