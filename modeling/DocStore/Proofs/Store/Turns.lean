import DocStore.Proofs.Store.Operations
import DocStore.Proofs.Store.Reading

/-! What one operation does to cursors. Most leave all cursors alone; one opens a cursor, and the
others turn a single cursor: it is set up, gives what is next, gives all the rest or is closed. -/

namespace DocStore

open Value

namespace Cursor

variable {cur cur' : Cursor} {c : Collection} {f : Cursor → Except Error Cursor} {byHand : Prop}
  {given : Option (List Value)}

structure Untouched (cur : Cursor) : Prop where
  closed : cur.closed = false
  pending : cur.pending = none

theorem untouched_opened (query projection : Value) : (opened query projection).Untouched :=
  ⟨rfl, rfl⟩

theorem closed_close (cur : Cursor) : cur.close.closed = true := by
  unfold close
  split
  · assumption
  · rfl

theorem checkFresh_eq_ok {u : Unit} : cur.checkFresh = .ok u ↔ cur.Untouched := by
  unfold checkFresh
  constructor
  · intro h
    split at h
    · cases h
    · split at h
      · cases h
      · next hc hp => exact ⟨by simpa using hc, by simpa using hp⟩
  · rintro ⟨hc, hp⟩
    simp [hc, hp]

theorem checkFresh_closed (h : cur.closed = true) :
    cur.checkFresh = .error (.cursor .closed) := by
  simp [checkFresh, h]

theorem checkFresh_started {ds : List Value} (h : cur.closed = false)
    (hp : cur.pending = some ds) : cur.checkFresh = .error (.cursor .started) := by
  simp [checkFresh, h, hp]

/-- The ways to set up a cursor. -/
def SetsUp (f : Cursor → Except Error Cursor) : Prop :=
  ∃ v, f = (·.skip v) ∨ f = (·.limit v) ∨ f = (·.sort v)

theorem SetsUp.refused {e : Error} (hf : SetsUp f) (h : cur.checkFresh = .error e) :
    f cur = .error e := by
  obtain ⟨v, rfl | rfl | rfl⟩ := hf
  · simp [skip, h, bind, Except.bind]
  · simp [limit, h, bind, Except.bind]
  · simp [sort, h, bind, Except.bind]

theorem SetsUp.untouched (hf : SetsUp f) (h : f cur = .ok cur') :
    cur.Untouched ∧ cur'.Untouched := by
  have hcur : cur.Untouched := by
    rcases hc : cur.checkFresh with e | u
    · rw [hf.refused hc] at h
      cases h
    · exact checkFresh_eq_ok.mp hc
  refine ⟨hcur, ?_⟩
  obtain ⟨v, rfl | rfl | rfl⟩ := hf
  · obtain ⟨_, _, h⟩ := except_bind_eq_ok.mp h
    obtain ⟨_, _, h⟩ := except_bind_eq_ok.mp h
    cases h
    exact ⟨hcur.closed, hcur.pending⟩
  · obtain ⟨_, _, h⟩ := except_bind_eq_ok.mp h
    obtain ⟨_, _, h⟩ := except_bind_eq_ok.mp h
    cases h
    exact ⟨hcur.closed, hcur.pending⟩
  · obtain ⟨_, _, h⟩ := except_bind_eq_ok.mp h
    cases hv : v.iterate? with
    | none =>
      simp only [hv] at h
      cases h
    | some vs =>
      simp only [hv] at h
      obtain ⟨ks, _, h⟩ := except_bind_eq_ok.mp h
      cases h
      exact ⟨hcur.closed, hcur.pending⟩

theorem start_started {ds : List Value} (h : cur.pending = some ds) :
    cur.start c = (c, .ok ds) := by
  simp [start, h]

/-- What becomes of a cursor by one operation, and what it gives, if it is read. -/
inductive Turn (byHand : Prop) (c : Collection) (cur : Cursor) :
    Option (List Value) → Cursor → Prop
  | idle : Turn byHand c cur none cur
  | setUp {cur' : Cursor} (h : cur.Untouched) (h' : cur'.Untouched) : Turn byHand c cur none cur'
  | one {d : Value} {ds : List Value} (h : cur.closed = false)
      (hs : (cur.start c).2 = .ok (d :: ds)) : Turn byHand c cur (some [d]) (cur.reading ds)
  | rest {ds : List Value} (h : cur.closed = false) (hs : (cur.start c).2 = .ok ds) :
      Turn byHand c cur (some ds) cur.close
  | close (h : byHand) : Turn byHand c cur none cur.close

theorem Turn.stays_closed (h : Turn byHand c cur given cur') (hc : cur.closed = true) :
    cur'.closed = true := by
  cases h with
  | idle => exact hc
  | setUp h _ => exact absurd hc (by simp [h.closed])
  | one h _ => exact absurd hc (by simp [h])
  | rest _ _ => exact closed_close cur
  | close _ => exact closed_close cur

theorem turn_next (c : Collection) (cur : Cursor) :
    Turn byHand c cur
      (if cur.closed then none else (cur.next c).result.toOption.map Option.toList)
      (cur.next c).cursor := by
  unfold next
  cases hc : cur.closed with
  | true => exact .idle
  | false =>
    rcases hs : cur.start c with ⟨c', e | _ | ⟨d, ds⟩⟩
    · exact .idle
    · exact .rest hc (congrArg Prod.snd hs)
    · exact .one hc (by rw [hs])

theorem turn_drain (c : Collection) (cur : Cursor) :
    Turn byHand c cur (if cur.closed then none else (cur.drain c).result.toOption)
      (cur.drain c).cursor := by
  unfold drain
  cases hc : cur.closed with
  | true => exact .idle
  | false =>
    rcases hs : cur.start c with ⟨c', e | ds⟩
    · exact .idle
    · exact .rest hc (by rw [hs])

end Cursor

namespace Store

variable {s t u : Store} {n k : Nat} {op : Operation}

/-- Another store with the same cursors. -/
structure Aside (s t : Store) : Prop where
  cursors : t.cursors = s.cursors
  registered : t.registered = s.registered

instance : IsPreorder Store Aside where
  refl _ := ⟨rfl, rfl⟩
  trans _ _ _ h h' := ⟨h'.cursors.trans h.cursors, h'.registered.trans h.registered⟩

theorem Aside.cursorAt (h : s.Aside t) (k : Nat) : t.cursorAt k = s.cursorAt k := by
  rw [Store.cursorAt, Store.cursorAt, h.cursors]

theorem aside_onCollection {α : Type} (f : Collection → Except Error (α × Collection)) :
    Within Aside (onCollection n f) := by
  intro s
  unfold onCollection
  split
  · exact ⟨rfl, rfl⟩
  · exact ⟨rfl, rfl⟩

theorem aside_throughCollection {α : Type} (f : Collection → Collection × Except Error α) :
    Within Aside (throughCollection n f) := fun _ => ⟨rfl, rfl⟩

theorem aside_note (r : LogRecord) : Within Aside (note r) := fun _ => ⟨rfl, rfl⟩

theorem aside_collection (name : Value) : Within Aside (collection name) := by
  intro s
  unfold collection
  split
  · exact ⟨rfl, rfl⟩
  · exact ⟨rfl, rfl⟩

theorem aside_dropCollection (name : Value) : Within Aside (dropCollection name) := by
  intro s
  rw [dropCollection, run_modify]
  cases s.numberOf? name with
  | none => exact ⟨rfl, rfl⟩
  | some n => exact ⟨rfl, rfl⟩

theorem aside_insert (n : Nat) (document : Value) : Within Aside (insert n document) := by
  intro s
  rcases insert_cases n document s with ⟨e, m, h⟩ | ⟨c, m, _, h⟩
  · rw [h]
    exact ⟨rfl, rfl⟩
  · rw [h]
    exact ⟨rfl, rfl⟩

theorem aside_ensureIndex (n : Nat) (field direction : Value) :
    Within Aside (ensureIndex n field direction) :=
  within_bind within_get fun _ => within_bind (aside_onCollection _) fun _ =>
    within_step (aside_note _) fun _ => within_pure _

theorem aside_replacing {α : Type} {x : Storing α} (idField : String) (hx : Within Aside x) :
    Within Aside (replacing idField x) := by
  intro s
  have h := hx { s with idField := idField, names := [] }
  unfold replacing
  split
  · next hr =>
    rw [hr] at h
    exact ⟨h.cursors, h.registered⟩
  · exact ⟨rfl, rfl⟩

theorem aside_save (path : String) : Within Aside (save path) :=
  within_bind within_get fun _ => within_bind (within_liftExcept _) fun _ =>
    within_bind within_get fun _ => within_bind (aside_note _) fun _ => within_pure _

theorem aside_load (file : List UInt8) (idField path : String) :
    Within Aside (load file idField path) :=
  within_load aside_collection aside_insert (fun n _ _ => aside_ensureIndex n _ _) aside_note
    aside_replacing file idField path

theorem aside_sizeOfCursor (k : Nat) : Within Aside (sizeOfCursor k) := fun _ => ⟨rfl, rfl⟩

/-- A cursor is set up in the ways there are. -/
def Operation.Proper : Operation → Prop
  | .setUpCursor _ f => Cursor.SetsUp f
  | _ => True

/-- With which collection an operation opens a cursor. -/
def Operation.opens : Operation → Option Nat
  | .openCursor n _ _ => some n
  | _ => none

/-- What an operation reads from a cursor that is open; nothing if it fails. -/
def Operation.read (k : Nat) (s : Store) : Operation → Option (List Value)
  | .next j =>
    if j ≠ k ∨ (s.cursorAt k).2.closed then none
    else (readCursor k Cursor.next s).1.toOption.map Option.toList
  | .drain j =>
    if j ≠ k ∨ (s.cursorAt k).2.closed then none
    else (readCursor k Cursor.drain s).1.toOption
  | _ => none

/-- What an operation does to the cursors of a store. -/
inductive Stirs (op : Operation) (s t : Store) : Prop
  | aside (h : s.Aside t) (hop : op.opens = none) (hread : ∀ k, op.read k s = none)
  | opened (n : Nat) (cur : Cursor) (h : (s.withCursor n cur).Aside t) (hop : op.opens = some n)
      (hcur : cur.Untouched) (hread : ∀ k, op.read k s = none)
  | turned (k : Nat) (cur : Cursor) (h : (s.putCursor k cur).Aside t) (hop : op.opens = none)
      (hcur : Cursor.Turn (op = .closeCursor k) (s.collectionAt (s.cursorAt k).1)
        (s.cursorAt k).2 (op.read k s) cur)
      (hread : ∀ j, j ≠ k → op.read j s = none)

theorem stirs_setUpCursor {f : Cursor → Except Error Cursor} (hf : Cursor.SetsUp f) (s : Store) :
    Stirs (.setUpCursor k f) s (setUpCursor k f s).2 := by
  unfold setUpCursor
  split
  · next cur h =>
    obtain ⟨hold, hnew⟩ := hf.untouched h
    exact .turned k cur (refl_of Aside _) rfl (.setUp hold hnew) fun _ _ => rfl
  · exact .aside (refl_of Aside s) rfl fun _ => rfl

theorem stirs_next (k : Nat) (s : Store) :
    Stirs (.next k) s (readCursor k Cursor.next s).2 := by
  refine .turned k _ ⟨rfl, rfl⟩ rfl ?_ fun j hj => if_pos (.inl hj.symm)
  have hread : (Operation.next k).read k s = if (s.cursorAt k).2.closed then none else
      ((s.cursorAt k).2.next (s.collectionAt (s.cursorAt k).1)).result.toOption.map
        Option.toList := by
    simp [Operation.read, readCursor]
  rw [hread]
  exact Cursor.turn_next _ _

theorem stirs_drain (k : Nat) (s : Store) :
    Stirs (.drain k) s (readCursor k Cursor.drain s).2 := by
  refine .turned k _ ⟨rfl, rfl⟩ rfl ?_ fun j hj => if_pos (.inl hj.symm)
  have hread : (Operation.drain k).read k s = if (s.cursorAt k).2.closed then none else
      ((s.cursorAt k).2.drain (s.collectionAt (s.cursorAt k).1)).result.toOption := by
    simp [Operation.read, readCursor]
  rw [hread]
  exact Cursor.turn_drain _ _

theorem stirs_of_aside (h : Within Aside op.perform) (hop : op.opens = none)
    (hread : ∀ k, op.read k s = none) : Stirs op s (op.perform s).2 :=
  .aside (h s) hop hread

theorem stirs_of_discard {α : Type} {x : Storing α} (hperform : op.perform = discard x)
    (h : Stirs op s (x s).2) : Stirs op s (op.perform s).2 := by
  rw [hperform, run_discard]
  exact h

theorem stirs_perform (hop : op.Proper) (s : Store) : Stirs op s (op.perform s).2 := by
  cases op with
  | collection name =>
    exact stirs_of_aside (within_discard (aside_collection name)) rfl fun _ => rfl
  | dropCollection name => exact stirs_of_aside (aside_dropCollection name) rfl fun _ => rfl
  | insert n document => exact stirs_of_aside (aside_insert n document) rfl fun _ => rfl
  | replace n query document =>
    exact stirs_of_aside (within_discard (aside_onCollection _)) rfl fun _ => rfl
  | remove n query =>
    exact stirs_of_aside (within_discard (aside_onCollection _)) rfl fun _ => rfl
  | update n query change upsert every =>
    exact stirs_of_aside (within_discard (aside_throughCollection _)) rfl fun _ => rfl
  | select n query =>
    exact stirs_of_aside (within_discard (aside_throughCollection _)) rfl fun _ => rfl
  | index n field direction =>
    exact stirs_of_aside (within_discard (aside_ensureIndex n field direction)) rfl fun _ => rfl
  | drop n => exact .aside ⟨rfl, rfl⟩ rfl fun _ => rfl
  | openCursor n query projection =>
    exact .opened n _ ⟨rfl, rfl⟩ rfl (Cursor.untouched_opened query projection) fun _ => rfl
  | setUpCursor k f => exact stirs_setUpCursor hop s
  | next k => exact stirs_of_discard rfl (stirs_next k s)
  | drain k => exact stirs_of_discard rfl (stirs_drain k s)
  | sizeOfCursor k =>
    exact stirs_of_aside (within_discard (aside_sizeOfCursor k)) rfl fun _ => rfl
  | closeCursor k =>
    exact .turned k _ ⟨rfl, rfl⟩ rfl (.close rfl) fun _ _ => rfl
  | save path => exact stirs_of_aside (within_discard (aside_save path)) rfl fun _ => rfl
  | load file idField path => exact stirs_of_aside (aside_load file idField path) rfl fun _ => rfl

theorem cursorAt_withCursor_of_ne {cur : Cursor} (h : k ≠ s.cursors.length) :
    (s.withCursor n cur).cursorAt k = s.cursorAt k := by
  unfold Store.cursorAt withCursor
  rcases Nat.lt_or_gt_of_ne h with hlt | hgt
  · simp [List.getD_eq_getElem?_getD, List.getElem?_append_left hlt]
  · simp [List.getD_eq_getElem?_getD, List.getElem?_append_right hgt.le,
      List.getElem?_eq_none hgt.le, Nat.sub_ne_zero_of_lt hgt]

theorem cursorAt_putCursor_of_ne {j : Nat} (h : j ≠ k) (cur : Cursor) :
    (s.putCursor k cur).cursorAt j = s.cursorAt j := by
  simp [Store.cursorAt, putCursor, List.getD_eq_getElem?_getD, List.getElem?_set_ne h.symm]

/-- One operation gives each cursor that there is a turn. -/
theorem Stirs.turn (h : Stirs op s t) (hk : k < s.cursors.length) :
    k < t.cursors.length ∧ (t.cursorAt k).1 = (s.cursorAt k).1 ∧
      Cursor.Turn (op = .closeCursor k) (s.collectionAt (s.cursorAt k).1) (s.cursorAt k).2
        (op.read k s) (t.cursorAt k).2 := by
  cases h with
  | aside h hop hread =>
    rw [h.cursors, h.cursorAt, hread]
    exact ⟨hk, rfl, .idle⟩
  | opened n cur h hop hcur hread =>
    rw [h.cursors, h.cursorAt, hread, cursorAt_withCursor_of_ne hk.ne]
    exact ⟨by simpa [withCursor] using Nat.lt_succ_of_lt hk, rfl, .idle⟩
  | turned j cur h hop hcur hread =>
    rw [h.cursors, h.cursorAt]
    refine ⟨by simpa [putCursor] using hk, ?_⟩
    by_cases hj : k = j
    · subst hj
      rw [cursorAt_putCursor hk]
      exact ⟨rfl, hcur⟩
    · rw [cursorAt_putCursor_of_ne hj, hread k hj]
      exact ⟨rfl, .idle⟩

end Store

end DocStore
