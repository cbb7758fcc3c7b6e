import DocStore.Proofs.Document.Entries
import DocStore.Proofs.Store.Opening

/-! Readings of plans. One step reads the next document of the window; a reading gives what the
documents are read as, in order, and leaves all documents as they are. -/

namespace DocStore

open Value

/-- What a reading makes of one document: the object it stands for, or what is under a field. -/
def readDocument (d : Decoder) (only : Option String) (partly : Bool) (ids : IdSet)
    (document : Value) : Fresh (Value × IdSet) :=
  match only with
  | some field =>
    match document with
    | dict ps => pure ((Entries.get? (str field) ps).getD null, ids)
    | _ => throw .kind
  | none => Reading.object d partly ids document

/-- Documents read one after the other, from some identifiers seen and some handed out. -/
inductive Reads (d : Decoder) (only : Option String) (partly : Bool) :
    List Value → IdSet → Nat → List Value → IdSet → Nat → Prop
  | nil (ids : IdSet) (m : Nat) : Reads d only partly [] ids m [] ids m
  | cons {x v : Value} {xs vs : List Value} {ids ids' ids'' : IdSet} {m m' m'' : Nat}
      (h : readDocument d only partly ids x m = (.ok (v, ids'), m'))
      (hs : Reads d only partly xs ids' m' vs ids'' m'') :
      Reads d only partly (x :: xs) ids m (v :: vs) ids'' m''

section Objects

variable {d : Decoder} {partly : Bool} {xs vs : List Value} {ids ids' : IdSet} {m m' : Nat}

/-- An object whose identifier, if it is one that has it, can be kept among those seen. -/
def Recordable (d : Decoder) (v : Value) : Prop :=
  d.catalog.isIdentifiable v = true → ∃ id, v.attribute "id" = .ok id ∧ id.hashable = true

theorem add_hashable {id : Value} (h : id.hashable = true) (ids : IdSet) :
    ∃ ids', ids.add id = .ok ids' := by
  unfold IdSet.add
  rw [if_neg (by simp [h])]
  split
  · exact ⟨_, rfl⟩
  · exact ⟨_, rfl⟩

theorem object_run {x v : Value} (h : d.decode partly x m = (.ok v, m')) (hv : Recordable d v)
    (ids : IdSet) : ∃ ids', readDocument d none partly ids x m = (.ok (v, ids'), m') := by
  unfold readDocument Reading.object
  by_cases hi : d.catalog.isIdentifiable v = true
  · obtain ⟨id, hid, hh⟩ := hv hi
    obtain ⟨ids', hadd⟩ := add_hashable hh ids
    refine ⟨ids', ?_⟩
    have hbind : (v.attribute "id").bind ids.add = .ok ids' := by
      rw [hid]
      exact hadd
    simp only
    rw [bind_of_ok h, if_pos hi, hbind]
    rfl
  · refine ⟨ids, ?_⟩
    simp only
    rw [bind_of_ok h, if_neg hi]
    rfl

theorem reads_objects (h : xs.mapM (d.decode partly) m = (.ok vs, m'))
    (hv : ∀ v ∈ vs, Recordable d v) (ids : IdSet) :
    ∃ ids', Reads d none partly xs ids m vs ids' m' := by
  induction xs generalizing vs ids m with
  | nil =>
    cases h
    exact ⟨ids, .nil ids _⟩
  | cons x xs ih =>
    rw [List.mapM_cons] at h
    obtain ⟨v, u, hx, h⟩ := bind_eq_ok_iff.mp h
    obtain ⟨ws, u', hrest, h⟩ := bind_eq_ok_iff.mp h
    cases h
    obtain ⟨ids₁, hfirst⟩ := object_run hx (hv v (by simp)) ids
    obtain ⟨ids₂, hreads⟩ := ih hrest (fun w hw => hv w (by simp [hw])) ids₁
    exact ⟨ids₂, .cons hfirst hreads⟩

end Objects

theorem Cursor.start_planned {p : Plan} {projection : Value} {keys documents xs : List Value}
    {a b : Nat} {c c' : Collection}
    (h : (planned p projection keys a b).window c = (c', .ok documents)) (hc : c.Same c')
    (hp : projectAll c.idField projection documents = .ok xs) :
    (planned p projection keys a b).start c = (c', .ok xs) := by
  have hpending : (planned p projection keys a b).pending = none := rfl
  rw [start, hpending]
  simp only [h]
  change (c', projectAll c'.idField projection documents) = _
  rw [hc.idField, hp]

namespace Store

variable {s t : Store} {k n : Nat}

theorem cursorAt_putCursor (hk : k < s.cursors.length) (cur : Cursor) :
    (s.putCursor k cur).cursorAt k = ((s.cursorAt k).1, cur) := by
  simp [putCursor, cursorAt, hk]

def Offers (s : Store) (k n : Nat) (xs : List Value) : Prop :=
  k < s.cursors.length ∧ ∃ cur c, s.cursorAt k = (n, cur) ∧ cur.closed = false ∧
    cur.start (s.collectionAt n) = (c, .ok xs) ∧ (s.collectionAt n).Same c

theorem readCursor_cons {x : Value} {xs : List Value} (h : s.Offers k n (x :: xs)) :
    ∃ t, readCursor k Cursor.next s = (.ok (some x), t) ∧ s.Same t ∧ t.issued = s.issued ∧
      t.Offers k n xs := by
  obtain ⟨hk, cur, c, hcur, hopen, hstart, hsame⟩ := h
  have hnext : cur.next (s.collectionAt n) = ⟨c, cur.reading xs, .ok (some x)⟩ := by
    simp [Cursor.next, hopen, hstart]
  refine ⟨(s.putCollection n c).putCursor k (cur.reading xs), ?_, ?_, rfl, ?_⟩
  · unfold readCursor
    simp only [hcur, hnext]
  · exact (same_putCollection hsame).trans (same_putCursor _ _ _)
  · have hk' : k < ((s.putCollection n c).putCursor k (cur.reading xs)).cursors.length := by
      simpa [putCursor, putCollection] using hk
    refine ⟨hk', cur.reading xs, _, ?_, hopen, rfl, .refl _⟩
    rw [cursorAt_putCursor (s := s.putCollection n c) hk]
    exact congrArg (fun p : Nat × Cursor => (p.1, cur.reading xs)) hcur

theorem readCursor_nil (h : s.Offers k n []) :
    ∃ t, readCursor k Cursor.next s = (.ok none, t) ∧ s.Same t ∧ t.issued = s.issued := by
  obtain ⟨hk, cur, c, hcur, hopen, hstart, hsame⟩ := h
  have hnext : cur.next (s.collectionAt n) = ⟨c, cur.close, .ok none⟩ := by
    simp [Cursor.next, hopen, hstart]
  refine ⟨(s.putCollection n c).putCursor k cur.close, ?_, ?_, rfl⟩
  · unfold readCursor
    simp only [hcur, hnext]
  · exact (same_putCollection hsame).trans (same_putCursor _ _ _)

end Store

namespace Reading

variable {r : Reading} {d : Decoder} {ids ids' : IdSet} {s t : Store} {k n : Nat}

def partly (r : Reading) : Bool := !r.plan.projection.isNull

theorem under_some {x v : Value} {m : Nat}
    (h : Store.readCursor k Cursor.next s = (.ok (some x), t))
    (hx : readDocument d r.only r.partly ids x t.issued = (.ok (v, ids'), m)) :
    r.under d ids k s = (.ok (some (v, ids')), { t with issued := m }) := by
  unfold under
  rw [bind_of_ok h]
  unfold readDocument at hx
  cases ho : r.only with
  | some field =>
    rw [ho] at hx
    cases x with
    | dict ps =>
      cases hx
      rfl
    | _ => cases hx
  | none =>
    rw [ho] at hx
    exact bind_of_ok (Store.fresh_run hx)

theorem under_none {d : ObjectReader} (h : Store.readCursor k Cursor.next s = (.ok none, t)) :
    r.under d ids k s = (.ok none, t) := by
  unfold under
  rw [bind_of_ok h]
  rfl

theorem under_error {d : ObjectReader} {e : Error}
    (h : Store.readCursor k Cursor.next s = (.error e, t)) :
    r.under d ids k s = (.error e, t) := by
  unfold under
  rw [bind_of_error h]

theorem next_under (hr : r.stage = .under k) : r.next d ids s = r.step d ids k s := by
  unfold next
  rw [hr]

theorem stage_under (hr : r.stage = .under k) : { r with stage := .under k } = r := by
  rw [← hr]

theorem next_cons {x v : Value} {xs : List Value} {m : Nat} (hr : r.stage = .under k)
    (ho : s.Offers k n (x :: xs))
    (hx : readDocument d r.only r.partly ids x s.issued = (.ok (v, ids'), m)) :
    ∃ t, r.next d ids s = ⟨r, ids', t, .ok (some v)⟩ ∧ s.Same t ∧ t.issued = m ∧
      t.Offers k n xs := by
  obtain ⟨t, ht, hsame, hm, hoffers⟩ := Store.readCursor_cons ho
  rw [← hm] at hx
  refine ⟨{ t with issued := m }, ?_, ⟨hsame.size, hsame.collections⟩, rfl, hoffers⟩
  have hu : (r.under d ids k).run s = (.ok (some (v, ids')), { t with issued := m }) :=
    under_some ht hx
  rw [next_under hr]
  unfold step
  rw [hu]
  simp only [stage_under hr]

theorem next_nil (d : Decoder) (ids : IdSet) (hr : r.stage = .under k) (ho : s.Offers k n []) :
    ∃ t, r.next d ids s = ⟨r.finished, ids, t, .ok none⟩ ∧ s.Same t ∧ t.issued = s.issued := by
  obtain ⟨t, ht, hsame, hm⟩ := Store.readCursor_nil ho
  have hu : (r.under d ids k).run s = (.ok none, t) := under_none ht
  refine ⟨t.putCursor k (t.cursorAt k).2.close, ?_, hsame.trans (Store.same_putCursor _ _ _), hm⟩
  rw [next_under hr]
  unfold step
  rw [hu]

/-- A reading under way gives what the documents before its cursor are read as. -/
theorem take_run {fuel m : Nat} {xs vs : List Value} (hr : r.stage = .under k)
    (ho : s.Offers k n xs)
    (hs : Reads d r.only r.partly (xs.take fuel) ids s.issued vs ids' m) :
    (r.take fuel d ids s).items = vs ∧ (r.take fuel d ids s).fault = none ∧
      (r.take fuel d ids s).ids = ids' ∧ s.Same (r.take fuel d ids s).store ∧
      (r.take fuel d ids s).store.issued = m := by
  induction fuel generalizing xs vs ids s with
  | zero =>
    rw [List.take_zero] at hs
    cases hs
    exact ⟨rfl, rfl, rfl, .refl s, rfl⟩
  | succ fuel ih =>
    cases xs with
    | nil =>
      rw [List.take_nil] at hs
      cases hs
      obtain ⟨t, ht, hsame, hm⟩ := next_nil d ids' hr ho
      simp only [take, ht]
      exact ⟨trivial, trivial, trivial, hsame, hm⟩
    | cons x xs =>
      rw [List.take_succ_cons] at hs
      cases hs with
      | cons hx hrest =>
        obtain ⟨t, ht, hsame, hm, hoffers⟩ := next_cons hr ho hx
        rw [← hm] at hrest
        obtain ⟨hitems, hfault, hids, hsame', hissued⟩ := ih hoffers hrest
        simp only [take, ht]
        exact ⟨congrArg _ hitems, hfault, hids, hsame.trans hsame', hissued⟩

theorem next_waiting {p : Plan} {only : Option String}
    (h : Store.openPlan n p (ofPlan n p only).projection s = (.ok k, t)) :
    (ofPlan n p only).next d ids s = (Reading.mk n p only (.under k)).next d ids t := by
  have hopen : (Store.openPlan n p (ofPlan n p only).projection).run s = (.ok k, t) := h
  have hwaiting : (ofPlan n p only).stage = .waiting := rfl
  have hcollection : (ofPlan n p only).collection = n := rfl
  have hplan : (ofPlan n p only).plan = p := rfl
  simp only [next, hwaiting, hcollection, hplan, hopen]
  rfl

/-- What a cursor of a plan shows of a document: all that the plan asks for, or just one field. -/
def shown (p : Plan) (only : Option String) : Value :=
  match only with
  | some field => dict [(str field, bool true)]
  | none => p.projection

/-- The cursor of a plan is opened on the plan's window. -/
theorem take_opened {p : Plan} {only : Option String} {keys sorted xs : List Value} {a b : Nat}
    (h : p.Runs (s.collectionAt n).documents.values keys sorted a b)
    (hp : Cursor.projectAll (s.collectionAt n).idField (shown p only) (cut a b sorted) = .ok xs)
    (fuel : Nat) (d : Decoder) (ids : IdSet) :
    ∃ t k, s.Same t ∧ t.issued = s.issued ∧ t.Offers k n xs ∧
      (ofPlan n p only).take (fuel + 1) d ids s =
        (Reading.mk n p only (.under k)).take (fuel + 1) d ids t := by
  have hshown : (if (ofPlan n p only).projection.isNull then p.projection
      else (ofPlan n p only).projection) = shown p only := by
    cases only <;> rfl
  have hopen := Store.openPlan_run h.skips h.limits h.reads n (ofPlan n p only).projection s
  rw [hshown] at hopen
  obtain ⟨c, hc, hsame⟩ := Cursor.window_planned h (shown p only)
  have hoffers : (s.withCursor n (.planned p (shown p only) keys a b)).Offers
      s.cursors.length n xs := by
    refine ⟨by simp [Store.withCursor], _, c, Store.cursorAt_withCursor, rfl, ?_, hsame⟩
    exact Cursor.start_planned hc hsame hp
  refine ⟨_, s.cursors.length, Store.same_withCursor s n _, rfl, hoffers, ?_⟩
  simp only [take, next_waiting hopen]

/-- A reading gives what the beginning of its plan's window is read as, all in order. -/
theorem take_ofPlan {p : Plan} {only : Option String} {keys sorted xs vs : List Value}
    {a b fuel m : Nat} (h : p.Runs (s.collectionAt n).documents.values keys sorted a b)
    (hp : Cursor.projectAll (s.collectionAt n).idField (shown p only) (cut a b sorted) = .ok xs)
    (hs : Reads d only (!p.projection.isNull) (xs.take fuel) ids s.issued vs ids' m) :
    ((ofPlan n p only).take fuel d ids s).items = vs ∧
      ((ofPlan n p only).take fuel d ids s).fault = none ∧
      ((ofPlan n p only).take fuel d ids s).ids = ids' ∧
      s.Same ((ofPlan n p only).take fuel d ids s).store ∧
      ((ofPlan n p only).take fuel d ids s).store.issued = m := by
  cases fuel with
  | zero =>
    rw [List.take_zero] at hs
    cases hs
    exact ⟨rfl, rfl, rfl, .refl s, rfl⟩
  | succ fuel =>
    obtain ⟨t, k, hsame, hissued, hoffers, htake⟩ := take_opened h hp fuel d ids
    rw [← hissued] at hs
    obtain ⟨hitems, hfault, hids, hsame', hm⟩ :=
      take_run (r := ⟨n, p, only, .under k⟩) rfl hoffers hs
    rw [htake]
    exact ⟨hitems, hfault, hids, hsame.trans hsame', hm⟩

theorem projectAll_cons {idField : String} {projection d : Value} {ds xs : List Value} :
    Cursor.projectAll idField projection (d :: ds) = .ok xs ↔
      ∃ y ys, project idField projection d = .ok y ∧
        Cursor.projectAll idField projection ds = .ok ys ∧ xs = y :: ys := by
  rw [Cursor.projectAll]
  cases project idField projection d with
  | error e => simp
  | ok y =>
    cases Cursor.projectAll idField projection ds with
    | error e => simp [Except.map]
    | ok ys => simp [Except.map, eq_comm]

theorem projectAll_length {idField : String} {projection : Value} {ds xs : List Value}
    (h : Cursor.projectAll idField projection ds = .ok xs) : xs.length = ds.length := by
  induction ds generalizing xs with
  | nil =>
    cases h
    rfl
  | cons d ds ih =>
    obtain ⟨y, ys, _, hys, rfl⟩ := projectAll_cons.mp h
    simp [ih hys]

theorem takeAll_ofPlan {p : Plan} {only : Option String} {keys sorted xs vs : List Value}
    {a b m : Nat} (h : p.Runs (s.collectionAt n).documents.values keys sorted a b)
    (hp : Cursor.projectAll (s.collectionAt n).idField (shown p only) (cut a b sorted) = .ok xs)
    (hs : Reads d only (!p.projection.isNull) xs ids s.issued vs ids' m) :
    ((ofPlan n p only).takeAll d ids s).items = vs ∧
      ((ofPlan n p only).takeAll d ids s).fault = none ∧
      ((ofPlan n p only).takeAll d ids s).ids = ids' ∧
      s.Same ((ofPlan n p only).takeAll d ids s).store ∧
      ((ofPlan n p only).takeAll d ids s).store.issued = m := by
  have hlen : xs.length ≤ (s.collectionAt n).size + 1 := by
    have hx := projectAll_length hp
    have hw := h.length_le
    have hd : (s.collectionAt n).documents.values.length = (s.collectionAt n).size := by
      simp [Entries.values, Collection.size]
    omega
  rw [← List.take_of_length_le hlen] at hs
  exact take_ofPlan h hp hs

def idOf (idField : String) : Value → Value
  | dict ps => (Entries.get? (str idField) ps).getD null
  | _ => null

def onlyId (idField : String) : Value → Value
  | dict ps => dict ((Entries.get? (str idField) ps).toList.map fun v => (str idField, v))
  | v => v

theorem project_id (idField : String) (ps : Entries) :
    project idField (dict [(str idField, bool true)]) (dict ps) =
      .ok (onlyId idField (dict ps)) := by
  cases hg : Entries.get? (str idField) ps with
  | none => simp [project, projectChoices, Choices.chosen, Choices.keepsId?, idIn, keepPaths,
      truthy, onlyId, hg, Except.map, bind, Except.bind]
  | some v => simp [project, projectChoices, Choices.chosen, Choices.keepsId?, idIn, keepPaths,
      truthy, onlyId, hg, Except.map, bind, Except.bind]

theorem projectAll_id {idField : String} {ds : List Value} (h : ∀ d ∈ ds, ∃ ps, d = dict ps) :
    Cursor.projectAll idField (dict [(str idField, bool true)]) ds =
      .ok (ds.map (onlyId idField)) := by
  induction ds with
  | nil => rfl
  | cons x ds ih =>
    obtain ⟨ps, rfl⟩ := h x (by simp)
    rw [Cursor.projectAll, project_id, ih fun e he => h e (List.mem_cons_of_mem _ he)]
    rfl

theorem reads_ids {idField : String} {partly : Bool} {ds : List Value} (d : Decoder) (ids : IdSet)
    (m : Nat) (h : ∀ d ∈ ds, ∃ ps, d = dict ps) :
    Reads d (some idField) partly (ds.map (onlyId idField)) ids m
      (ds.map (idOf idField)) ids m := by
  induction ds with
  | nil => exact .nil ids m
  | cons x ds ih =>
    obtain ⟨ps, rfl⟩ := h x (by simp)
    refine .cons ?_ (ih fun e he => h e (List.mem_cons_of_mem _ he))
    have hget : (Entries.get? (str idField) ((Entries.get? (str idField) ps).toList.map
        fun v => (str idField, v))).getD null = (Entries.get? (str idField) ps).getD null := by
      cases Entries.get? (str idField) ps with
      | none => rfl
      | some v => simp [Entries.get?]
    simp only [readDocument, onlyId, hget]
    rfl

end Reading

end DocStore
