import DocStore.Proofs.Store.Register

/-! What a cursor gives over its life. The first reading that does not fail fixes the window; from
then on the cursor gives that window in order, whatever is written to the collection. -/

namespace DocStore

open Value

namespace Cursor

variable {cur : Cursor} {c : Collection} {ds : List Value}

theorem start_untouched (h : cur.pending = none) :
    (cur.start c).2 = (cur.window c).2.bind (projectAll c.idField cur.projection) := by
  unfold start
  rw [h]
  rfl

end Cursor

namespace Store

variable {s t : Store} {n k : Nat} {op : Operation} {ops : List Operation} {w : List Value}

theorem putCursor_self (s : Store) (k : Nat) : s.putCursor k (s.cursorAt k).2 = s := by
  have hset : s.cursors.set k (s.cursorAt k) = s.cursors := by
    by_cases hk : k < s.cursors.length
    · simp [cursorAt, hk]
    · exact List.set_eq_of_length_le (Nat.le_of_not_lt hk)
  simp [putCursor, hset]

/-- A cursor that gives nothing more and cannot be set up or asked for its size. -/
structure Shut (s : Store) (k : Nat) : Prop where
  next : readCursor k Cursor.next s = (.ok none, s)
  size : sizeOfCursor k s = (.error (.cursor .closed), s)
  setUp : ∀ f, Cursor.SetsUp f → setUpCursor k f s = (.error (.cursor .closed), s)

theorem shut_of_closed (h : (s.cursorAt k).2.closed = true) : s.Shut k := by
  refine ⟨?_, ?_, fun f hf => ?_⟩
  · simp [readCursor, Cursor.next, h, putCollection_self, putCursor_self]
  · simp [sizeOfCursor, Cursor.size, h, putCollection_self]
  · unfold setUpCursor
    rw [hf.refused (Cursor.checkFresh_closed h)]

/-- A cursor that is being read cannot be set up any more. -/
theorem refuses_of_started {ds : List Value} (h : (s.cursorAt k).2.closed = false)
    (hp : (s.cursorAt k).2.pending = some ds) {f : Cursor → Except Error Cursor}
    (hf : Cursor.SetsUp f) : setUpCursor k f s = (.error (.cursor .started), s) := by
  unfold setUpCursor
  rw [hf.refused (Cursor.checkFresh_started h hp)]

theorem next_started {ds : List Value} (h : (s.cursorAt k).2.closed = false)
    (hp : (s.cursorAt k).2.pending = some ds) :
    (readCursor k Cursor.next s).1 = .ok ds.head? := by
  cases ds <;> simp [readCursor, Cursor.next, h, Cursor.start_started hp]

/-- When there is nothing more to give, the cursor is closed. -/
theorem closed_of_stop (h : (readCursor k Cursor.next s).1 = .ok none) :
    ((readCursor k Cursor.next s).2.cursorAt k).2.closed = true := by
  by_cases hc : (s.cursorAt k).2.closed = true
  · rw [(shut_of_closed hc).next]
    exact hc
  · have hk := lt_of_open (by simpa using hc)
    simp only [readCursor] at h ⊢
    rw [cursorAt_putCursor (by simpa [putCollection] using hk)]
    unfold Cursor.next at h ⊢
    rw [if_neg hc] at h ⊢
    split at h
    · cases h
    · exact Cursor.closed_close _
    · cases h

/-! Runs -/

/-- What a run gives from a cursor, in order. -/
def delivered (k : Nat) : Store → List Operation → List Value
  | _, [] => []
  | s, op :: ops => (op.read k s).getD [] ++ delivered k (op.perform s).2 ops

/-- The window of a cursor, projected, as it is now. -/
def view (s : Store) (k : Nat) : Except Error (List Value) :=
  let (n, cur) := s.cursorAt k
  let c := s.collectionAt n
  (cur.window c).2.bind (Cursor.projectAll c.idField cur.projection)

/-- A run that reads nothing from a cursor: each time this was tried, it failed. -/
def Unread (s : Store) (k : Nat) (ops : List Operation) : Prop :=
  ∀ before op, before ++ [op] <+: ops → op.read k (s.after before) = none

/-- A run in which a cursor was first read at a moment when this was its window. -/
inductive Begun (s : Store) (k : Nat) (ops : List Operation) (w : List Value) : Prop
  | intro (before : List Operation) (op : Operation) (hops : before ++ [op] <+: ops)
      (hbefore : s.Unread k before) (hread : (op.read k (s.after before)).isSome)
      (hview : (s.after before).view k = .ok w)

theorem delivered_snoc (k : Nat) (s : Store) (ops : List Operation) (op : Operation) :
    delivered k s (ops ++ [op]) = delivered k s ops ++ (op.read k (s.after ops)).getD [] := by
  induction ops generalizing s with
  | nil => simp [delivered, after]
  | cons o ops ih =>
    rw [List.cons_append, delivered, ih, delivered, List.append_assoc]
    rfl

theorem unread_nil (s : Store) (k : Nat) : s.Unread k [] := by
  intro before op h
  simp at h

theorem Unread.snoc (h : s.Unread k ops) (hop : op.read k (s.after ops) = none) :
    s.Unread k (ops ++ [op]) := by
  intro before o hpart
  rcases List.prefix_concat_iff.mp hpart with he | hpart
  · obtain ⟨rfl, ho⟩ := List.append_inj' he rfl
    cases ho
    exact hop
  · exact h before o hpart

theorem delivered_unread (h : s.Unread k ops) : delivered k s ops = [] := by
  induction ops using List.reverseRecOn with
  | nil => rfl
  | append_singleton ops op ih =>
    have hops : s.Unread k ops := fun before o hpart =>
      h before o (hpart.trans (List.prefix_append ops [op]))
    rw [delivered_snoc, ih hops, h ops op (List.prefix_refl _)]
    rfl

theorem Begun.snoc (h : s.Begun k ops w) (op : Operation) : s.Begun k (ops ++ [op]) w := by
  obtain ⟨before, o, hpart, hbefore, hread, hview⟩ := h
  exact ⟨before, o, hpart.trans (List.prefix_append ops [op]), hbefore, hread, hview⟩

theorem begun_of_unread (h : s.Unread k ops) (hread : (op.read k (s.after ops)).isSome)
    (hview : (s.after ops).view k = .ok w) : s.Begun k (ops ++ [op]) w :=
  ⟨ops, op, List.prefix_refl _, h, hread, hview⟩

theorem view_eq_start (h : (s.cursorAt k).2.pending = none) :
    s.view k = ((s.cursorAt k).2.start (s.collectionAt (s.cursorAt k).1)).2 :=
  (Cursor.start_untouched h).symm

/-- Where a cursor is in its life: not read yet, being read, or done. -/
inductive Phase (s : Store) (k : Nat) (ops : List Operation) : Prop
  | unread (h : s.Unread k ops) (hcur : ((s.after ops).cursorAt k).2.Untouched ∨
      ((s.after ops).cursorAt k).2.closed = true ∧ .closeCursor k ∈ ops)
  | reading (w ds : List Value) (h : s.Begun k ops w)
      (hopen : ((s.after ops).cursorAt k).2.closed = false)
      (hpending : ((s.after ops).cursorAt k).2.pending = some ds)
      (hw : w = delivered k s ops ++ ds)
  | done (w : List Value) (h : s.Begun k ops w)
      (hclosed : ((s.after ops).cursorAt k).2.closed = true) (hpart : delivered k s ops <+: w)
      (hwhole : .closeCursor k ∉ ops → delivered k s ops = w)

section Step

variable {c : Collection}

theorem Phase.step_unread (h : s.Unread k ops)
    (hcur : ((s.after ops).cursorAt k).2.Untouched ∨
      ((s.after ops).cursorAt k).2.closed = true ∧ .closeCursor k ∈ ops)
    (hturn : Cursor.Turn (op = .closeCursor k)
      ((s.after ops).collectionAt ((s.after ops).cursorAt k).1) ((s.after ops).cursorAt k).2
      (op.read k (s.after ops)) ((s.after (ops ++ [op])).cursorAt k).2) :
    s.Phase k (ops ++ [op]) := by
  have hnothing := delivered_unread h
  have hfresh : ((s.after ops).cursorAt k).2.closed = false →
      (s.after ops).view k =
        (((s.after ops).cursorAt k).2.start
          ((s.after ops).collectionAt ((s.after ops).cursorAt k).1)).2 := by
    intro hopen
    rcases hcur with hcur | ⟨hclosed, _⟩
    · exact view_eq_start hcur.pending
    · exact absurd hclosed (by simp [hopen])
  have hgives := delivered_snoc k s ops op
  rw [hnothing, List.nil_append] at hgives
  generalize hread : op.read k (s.after ops) = given at hturn hgives
  generalize hnew : ((s.after (ops ++ [op])).cursorAt k).2 = cur' at hturn
  cases hturn with
  | idle =>
    refine .unread (h.snoc hread) ?_
    rw [hnew]
    exact hcur.imp_right fun ⟨hclosed, hmem⟩ => ⟨hclosed, List.mem_append_left _ hmem⟩
  | setUp _ h' => exact .unread (h.snoc hread) (.inl (hnew ▸ h'))
  | @one d ds hopen hs =>
    have hbegun : s.Begun k (ops ++ [op]) (d :: ds) :=
      begun_of_unread h (by rw [hread]; rfl) ((hfresh hopen).trans hs)
    refine .reading (d :: ds) ds hbegun ?_ ?_ ?_
    · rw [hnew]
      exact hopen
    · rw [hnew]
      rfl
    · rw [hgives]
      rfl
  | @rest ds hopen hs =>
    have hbegun : s.Begun k (ops ++ [op]) ds :=
      begun_of_unread h (by rw [hread]; rfl) ((hfresh hopen).trans hs)
    refine .done ds hbegun ?_ ?_ fun _ => hgives
    · rw [hnew]
      exact Cursor.closed_close _
    · rw [hgives]
      exact List.prefix_refl ds
  | close hby =>
    refine .unread (h.snoc hread) (.inr ⟨?_, ?_⟩)
    · rw [hnew]
      exact Cursor.closed_close _
    · rw [hby]
      exact List.mem_append_right _ (List.mem_singleton_self _)

theorem Phase.step_reading {ds : List Value} (h : s.Begun k ops w)
    (hopen : ((s.after ops).cursorAt k).2.closed = false)
    (hpending : ((s.after ops).cursorAt k).2.pending = some ds) (hw : w = delivered k s ops ++ ds)
    (hturn : Cursor.Turn (op = .closeCursor k) c ((s.after ops).cursorAt k).2
      (op.read k (s.after ops)) ((s.after (ops ++ [op])).cursorAt k).2) :
    s.Phase k (ops ++ [op]) := by
  have hgives := delivered_snoc k s ops op
  generalize hread : op.read k (s.after ops) = given at hturn hgives
  generalize hnew : ((s.after (ops ++ [op])).cursorAt k).2 = cur' at hturn
  cases hturn with
  | idle => exact .reading w ds (h.snoc op) (hnew ▸ hopen) (hnew ▸ hpending) (by simp [hgives, hw])
  | setUp hcur _ => exact absurd hpending (by simp [hcur.pending])
  | @one d rest _ hs =>
    rw [Cursor.start_started hpending] at hs
    cases hs
    refine .reading w rest (h.snoc op) ?_ ?_ ?_
    · rw [hnew]
      exact hopen
    · rw [hnew]
      rfl
    · simp [hgives, hw]
  | rest _ hs =>
    rw [Cursor.start_started hpending] at hs
    cases hs
    refine .done w (h.snoc op) ?_ ?_ fun _ => ?_
    · rw [hnew]
      exact Cursor.closed_close _
    · simp [hgives, hw]
    · simp [hgives, hw]
  | close hby =>
    refine .done w (h.snoc op) ?_ ?_ fun hno => ?_
    · rw [hnew]
      exact Cursor.closed_close _
    · simp [hgives, hw]
    · rw [hby] at hno
      exact absurd (List.mem_append_right _ (List.mem_singleton_self _)) hno

theorem Phase.step_done (h : s.Begun k ops w)
    (hclosed : ((s.after ops).cursorAt k).2.closed = true) (hpart : delivered k s ops <+: w)
    (hwhole : .closeCursor k ∉ ops → delivered k s ops = w)
    (hturn : Cursor.Turn (op = .closeCursor k) c ((s.after ops).cursorAt k).2
      (op.read k (s.after ops)) ((s.after (ops ++ [op])).cursorAt k).2) :
    s.Phase k (ops ++ [op]) := by
  have hstays := hturn.stays_closed hclosed
  have hsame : delivered k s (ops ++ [op]) = delivered k s ops := by
    rw [delivered_snoc]
    generalize op.read k (s.after ops) = given at hturn ⊢
    generalize ((s.after (ops ++ [op])).cursorAt k).2 = cur' at hturn
    cases hturn with
    | idle => simp
    | setUp _ _ => simp
    | one hopen _ => exact absurd hclosed (by simp [hopen])
    | rest hopen _ => exact absurd hclosed (by simp [hopen])
    | close _ => simp
  refine .done w (h.snoc op) hstays (hsame ▸ hpart) fun hno => ?_
  rw [hsame]
  exact hwhole fun hmem => hno (List.mem_append_left _ hmem)

end Step

theorem lt_after (hk : k < s.cursors.length) (hops : ∀ op ∈ ops, op.Proper) :
    k < (s.after ops).cursors.length := by
  have h := congrArg List.length (opened_after (s := s) hops)
  simp only [List.length_map, List.length_append] at h
  omega

theorem turn_after (hk : k < s.cursors.length) (hops : ∀ o ∈ ops ++ [op], o.Proper) :
    Cursor.Turn (op = .closeCursor k) ((s.after ops).collectionAt ((s.after ops).cursorAt k).1)
      ((s.after ops).cursorAt k).2 (op.read k (s.after ops))
      ((s.after (ops ++ [op])).cursorAt k).2 := by
  have hlt := lt_after hk fun o ho => hops o (List.mem_append_left _ ho)
  rw [after_snoc]
  exact ((stirs_perform (hops op (by simp)) (s.after ops)).turn hlt).2.2

theorem phase_after (hk : k < s.cursors.length) (hcur : (s.cursorAt k).2.Untouched)
    (hops : ∀ op ∈ ops, op.Proper) : s.Phase k ops := by
  induction ops using List.reverseRecOn with
  | nil => exact .unread (unread_nil s k) (.inl hcur)
  | append_singleton ops op ih =>
    have hturn := turn_after hk hops
    cases ih fun o ho => hops o (List.mem_append_left _ ho) with
    | unread h hcur => exact Phase.step_unread h hcur hturn
    | reading w ds h hopen hpending hw => exact Phase.step_reading h hopen hpending hw hturn
    | done w h hclosed hpart hwhole => exact Phase.step_done h hclosed hpart hwhole hturn

theorem closed_after (hk : k < s.cursors.length) (hops : ∀ op ∈ ops, op.Proper)
    (h : (s.cursorAt k).2.closed = true) : ((s.after ops).cursorAt k).2.closed = true := by
  induction ops using List.reverseRecOn with
  | nil => exact h
  | append_singleton ops op ih =>
    exact (turn_after hk hops).stays_closed (ih fun o ho => hops o (List.mem_append_left _ ho))

/-! What cursors do, and which of them are registered -/

/-- A cursor whose window was fixed, after some operations since it was opened. -/
structure Serves (s : Store) (k : Nat) (ops : List Operation) (w : List Value) : Prop where
  begun : s.Begun k ops w
  given : delivered k s ops <+: w
  next : ((s.after ops).cursorAt k).2.closed = false →
    (readCursor k Cursor.next (s.after ops)).1 = .ok w[(delivered k s ops).length]?
  whole : ((s.after ops).cursorAt k).2.closed = true → .closeCursor k ∉ ops →
    delivered k s ops = w
  setUp : ∀ f, Cursor.SetsUp f →
    ∃ fault, setUpCursor k f (s.after ops) = (.error (.cursor fault), s.after ops)

/-- A cursor after some operations since it was opened. -/
structure Behaves (s : Store) (k : Nat) (ops : List Operation) : Prop where
  closed : ∀ before, before <+: ops → ((s.after before).cursorAt k).2.closed = true →
    ((s.after ops).cursorAt k).2.closed = true ∧ (s.after ops).Shut k
  stops : (readCursor k Cursor.next (s.after ops)).1 = .ok none →
    ((readCursor k Cursor.next (s.after ops)).2.cursorAt k).2.closed = true
  life : (s.Unread k ops ∧ delivered k s ops = [] ∧
      (((s.after ops).cursorAt k).2.closed = true → .closeCursor k ∈ ops)) ∨
    ∃ w, s.Serves k ops w

theorem Phase.life (h : s.Phase k ops) :
    (s.Unread k ops ∧ delivered k s ops = [] ∧
      (((s.after ops).cursorAt k).2.closed = true → .closeCursor k ∈ ops)) ∨
    ∃ w, s.Serves k ops w := by
  cases h with
  | unread h hcur =>
    refine .inl ⟨h, delivered_unread h, fun hclosed => ?_⟩
    rcases hcur with hcur | ⟨_, hmem⟩
    · exact absurd hclosed (by simp [hcur.closed])
    · exact hmem
  | reading w ds h hopen hpending hw =>
    refine .inr ⟨w, h, ⟨ds, hw.symm⟩, fun _ => ?_, fun hclosed => ?_, fun f hf => ?_⟩
    · rw [next_started hopen hpending, hw, List.getElem?_append_right (Nat.le_refl _),
        Nat.sub_self, List.head?_eq_getElem?]
    · exact absurd hclosed (by simp [hopen])
    · exact ⟨_, refuses_of_started hopen hpending hf⟩
  | done w h hclosed hpart hwhole =>
    refine .inr ⟨w, h, hpart, fun hopen => ?_, fun _ => hwhole, fun f hf => ?_⟩
    · exact absurd hclosed (by simp [hopen])
    · exact ⟨_, (shut_of_closed hclosed).setUp f hf⟩

theorem behaves_after (hk : k < s.cursors.length) (hcur : (s.cursorAt k).2.Untouched)
    (hops : ∀ op ∈ ops, op.Proper) : s.Behaves k ops := by
  refine ⟨fun before hbefore hclosed => ?_, closed_of_stop, (phase_after hk hcur hops).life⟩
  obtain ⟨rest, rfl⟩ := hbefore
  have hlt := lt_after hk fun o ho => hops o (List.mem_append_left rest ho)
  have hend : ((s.after (before ++ rest)).cursorAt k).2.closed = true := by
    rw [after, List.foldl_append]
    exact closed_after hlt (fun o ho => hops o (List.mem_append_right before ho)) hclosed
  exact ⟨hend, shut_of_closed hend⟩

/-- The cursors that were opened, and which of them are registered. -/
structure Registers (s : Store) (ops : List Operation) : Prop where
  opened : s.cursors.map Prod.fst = ops.filterMap Operation.opens
  mem_iff : ∀ n k, (n, k) ∈ s.registered ↔ ∃ cur, s.cursors[k]? = some (n, cur) ∧ cur.closed = false
  count : ∀ n, s.openCursors n = s.cursors.countP fun p => p.1 == n && !p.2.closed

theorem Tidy.mem_iff_getElem? (h : s.Tidy) (n k : Nat) :
    (n, k) ∈ s.registered ↔ ∃ cur, s.cursors[k]? = some (n, cur) ∧ cur.closed = false := by
  rw [h.mem_iff]
  constructor
  · rintro ⟨rfl, hopen⟩
    exact ⟨_, by simp [cursorAt, lt_of_open hopen], hopen⟩
  · rintro ⟨cur, hget, hopen⟩
    simp [cursorAt, List.getD_eq_getElem?_getD, hget, hopen]

/-- Whatever is done since a store was empty, open cursors and no others are registered, and each
cursor gives, from the moment it is opened, its window as it was when it was first read. -/
theorem cursors_behave (idField : String) (issued : Nat) {ops : List Operation}
    (hops : ∀ op ∈ ops, op.Proper) :
    ((empty idField issued).after ops).Registers ops ∧
      ∀ {before rest : List Operation} {n : Nat} {query projection : Value},
        ops = before ++ .openCursor n query projection :: rest →
        ((empty idField issued).after (before ++ [.openCursor n query projection])).Behaves
          ((empty idField issued).after before).cursors.length rest := by
  have htidy := tidy_after (tidy_empty idField issued) hops
  refine ⟨⟨opened_after hops, htidy.mem_iff_getElem?, openCursors_eq htidy⟩, ?_⟩
  rintro before rest n query projection rfl
  rw [after_snoc]
  have hopens : ((Operation.openCursor n query projection).perform
      ((empty idField issued).after before)).2 =
      ((empty idField issued).after before).withCursor n (Cursor.opened query projection) := rfl
  rw [hopens]
  refine behaves_after (by simp [withCursor]) ?_ fun op hop => hops op (by simp [hop])
  rw [cursorAt_withCursor]
  exact Cursor.untouched_opened query projection

/-- Two documents are given although the collection is dropped between them. -/
theorem cursors_behave_dropped :
    let opening : List Operation := [.collection (str "people"),
      .insert 0 (dict [(str "_id", int 1)]), .insert 0 (dict [(str "_id", int 2)]),
      .openCursor 0 null null]
    let rest : List Operation := [.setUpCursor 0 (·.skip (int 0)), .next 0, .drop 0, .next 0,
      .next 0]
    (∀ op ∈ opening ++ rest, op.Proper) ∧
      ((empty "_id" 0).after (opening ++ rest)).Registers (opening ++ rest) ∧
      ((empty "_id" 0).after opening).Behaves 0 rest ∧
      delivered 0 ((empty "_id" 0).after opening) rest =
        [dict [(str "_id", int 1)], dict [(str "_id", int 2)]] := by
  intro opening rest
  have hproper : ∀ op ∈ opening ++ rest, op.Proper := by
    simp only [opening, rest, List.cons_append, List.nil_append, List.forall_mem_cons]
    refine ⟨trivial, trivial, trivial, trivial, ⟨int 0, .inl rfl⟩, trivial, trivial, trivial,
      trivial, by simp⟩
  have h := cursors_behave "_id" 0 hproper
  have hsplit : opening ++ rest = [.collection (str "people"),
      .insert 0 (dict [(str "_id", int 1)]), .insert 0 (dict [(str "_id", int 2)])] ++
        .openCursor 0 null null :: rest := rfl
  have hgiven : delivered 0 ((empty "_id" 0).after opening) rest =
      [dict [(str "_id", int 1)], dict [(str "_id", int 2)]] := by rfl
  exact ⟨hproper, h.1, h.2 hsplit, hgiven⟩

end Store

end DocStore
