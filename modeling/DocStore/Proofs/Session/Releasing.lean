import DocStore.Proofs.IdSet
import DocStore.Proofs.Session.Planning
import DocStore.Proofs.Store.Releasing

/-! Queries of a session leave no cursor behind: iterations that end or are given up, counts and
first results, whether they succeed or not. -/

namespace DocStore

open Value

namespace Session

variable {s t : Session} {b : Nat} {d : Description} {idsOnly : Bool}

/-- Another session with the same cursors and the same bindings. -/
structure Aside (s t : Session) : Prop where
  store : s.store.Aside t.store
  bindings : t.bindings = s.bindings

instance : IsPreorder Session Aside where
  refl _ := ⟨refl_of Store.Aside _, rfl⟩
  trans _ _ _ h h' := ⟨trans_of Store.Aside h.store h'.store, h'.bindings.trans h.bindings⟩

theorem aside_plan (d : Description) : Within Aside (plan d) := by
  intro s
  obtain ⟨names, j, h⟩ := plan_names d s
  rw [h]
  exact ⟨⟨rfl, rfl⟩, rfl⟩

theorem aside_start (b : Nat) (d : Description) (idsOnly : Bool) :
    Within Aside (start b d idsOnly) := by
  intro s
  obtain ⟨names, j, h⟩ := start_names b d idsOnly s
  rw [h]
  exact ⟨⟨rfl, rfl⟩, rfl⟩

theorem Aside.enrolled {old : List (Nat × Nat)} (h : s.Aside t) (hs : s.store.Enrolled old) :
    t.store.Enrolled old := hs.of_aside h.store

theorem enrolled_count (h : s.store.Tidy) (b : Nat) (d : Description) :
    (count b d s).2.store.Enrolled s.store.registered ∧ (count b d s).2.bindings = s.bindings := by
  have haside := aside_plan d s
  unfold count
  rcases hp : plan d s with ⟨e | p, t⟩
  · rw [hp] at haside
    rw [bind_of_error hp]
    exact ⟨haside.enrolled h.enrolled, haside.bindings⟩
  · rw [hp] at haside
    have htidy := (haside.enrolled h.enrolled).tidy
    have hcount := Store.enrolled_count htidy (t.binding b).collection p
    rw [haside.store.registered] at hcount
    rw [bind_of_ok hp]
    exact ⟨hcount, haside.bindings⟩

/-- A first result is what a reading gives first; the reading is then given up. -/
theorem first_cases (b : Nat) (d : Description) (s : Session) :
    (∃ e t, start b ⟨d.filterStack, d.sortStack, d.fields, d.skipped, 1⟩ false s = (.error e, t) ∧
      first b d s = (.error e, t)) ∨
    ∃ r t x, start b ⟨d.filterStack, d.sortStack, d.fields, d.skipped, 1⟩ false s = (.ok r, t) ∧
      r.take 1 t.decoder (t.binding b).ids t.store = x ∧
      first b d s = (x.first, t.withRead b x.ids (x.reading.stop x.store).2) := by
  have hlimit : (liftExcept (d.limit (int 1)) : Working Description) s =
      (.ok ⟨d.filterStack, d.sortStack, d.fields, d.skipped, 1⟩, s) := rfl
  unfold first
  rw [bind_of_ok hlimit]
  rcases hr : start b ⟨d.filterStack, d.sortStack, d.fields, d.skipped, 1⟩ false s with ⟨e | r, t⟩
  · exact .inl ⟨e, t, rfl, bind_of_error hr⟩
  · refine .inr ⟨r, t, _, rfl, rfl, ?_⟩
    rw [bind_of_ok hr, bind_of_ok (run_get t), take_run]
    generalize r.take 1 t.decoder (t.binding b).ids t.store = x
    have hset : (set (t.withRead b x.ids x.store) : Working PUnit) t =
        (.ok ⟨⟩, t.withRead b x.ids x.store) := rfl
    have hstop : stop x.reading (t.withRead b x.ids x.store) =
        (.ok (x.reading.stop x.store).1, t.withRead b x.ids (x.reading.stop x.store).2) := rfl
    dsimp only
    rw [bind_of_ok hset, bind_of_ok hstop]
    unfold Reading.Taken.first
    cases x.fault with
    | none => rfl
    | some e => rfl

theorem first_returns (h : s.store.Tidy) (b : Nat) (d : Description) :
    (first b d s).2.store.Enrolled s.store.registered ∧ (b < s.bindings.length →
      (s.binding b).ids.With (s.decoder.reader.identifiers (first b d s).1.toOption.join.toList)
        ((first b d s).2.binding b).ids) := by
  have hstart := aside_start b ⟨d.filterStack, d.sortStack, d.fields, d.skipped, 1⟩ false s
  obtain ⟨names, j, hnames⟩ :=
    start_names b ⟨d.filterStack, d.sortStack, d.fields, d.skipped, 1⟩ false s
  rcases first_cases b d s with ⟨e, t, hr, hfirst⟩ | ⟨r, t, x, hr, hx, hfirst⟩
  · have haside : s.Aside t := by rwa [hr] at hstart
    rw [hfirst]
    refine ⟨haside.enrolled h.enrolled, fun _ => ?_⟩
    have hids : (t.binding b).ids = (s.binding b).ids := by rw [binding, binding, haside.bindings]
    rw [hids]
    exact IdSet.with_addAll rfl
  · have haside : s.Aside t := by rwa [hr] at hstart
    obtain rfl : t = s.withNames names j := by rw [← hnames, hr]
    obtain ⟨p, _, rfl⟩ := start_eq_ok hr
    have hbound := Reading.ofPlan_bound (haside.enrolled h.enrolled).tidy
      ((s.withNames names j).binding b).collection p none
    rw [haside.store.registered] at hbound
    have htook := Reading.take_took (s.withNames names j).decoder.reader
      ((s.withNames names j).binding b).ids hbound 1
    rw [hx] at htook
    rw [hfirst]
    refine ⟨Reading.enrolled_stop htook.bound, fun hb => ?_⟩
    have hids : (((s.withNames names j).withRead b x.ids
        (x.reading.stop x.store).2).binding b).ids = x.ids := by
      rw [binding_withRead (s := s.withNames names j) hb]
    have hcatalog : (s.withNames names j).catalog = s.catalog := rfl
    have hsame : (s.withNames names j).decoder.reader.identifiers x.items =
        s.decoder.reader.identifiers x.items := Decoder.identifiers_congr hcatalog x.items
    rw [htook.toList_first, hids, ← hsame]
    exact IdSet.with_addAll htook.added

end Session

/-- A reading of which some items were asked for leaves no cursor behind if it is stopped then or
has ended, and has added just the identifiers of what it gave. -/
structure Reading.Returns (s : Store) (d : ObjectReader) (only : Option String) (ids : IdSet)
    (j : Nat) (t : Reading.Taken) : Prop where
  unasked : j = 0 → t.store = s
  stopped : (t.reading.stop t.store).2.Enrolled s.registered
  ended : t.fault.isSome ∨ t.items.length < j → t.store.Enrolled s.registered
  noted : ids.With (d.noted only t.items) t.ids

theorem Reading.returns_take {s : Store} (h : s.Tidy) (d : ObjectReader) (n : Nat) (p : Plan)
    (only : Option String) (ids : IdSet) (j : Nat) :
    Returns s d only ids j ((ofPlan n p only).take j d ids s) := by
  have htook := take_took d ids (ofPlan_bound h n p only) j
  refine ⟨?_, enrolled_stop htook.bound, htook.ended, IdSet.with_addAll htook.added⟩
  rintro rfl
  rfl

theorem Reading.takeAll_enrolled {s : Store} (h : s.Tidy) (d : ObjectReader) (n : Nat) (p : Plan)
    (only : Option String) (ids : IdSet) :
    ((ofPlan n p only).takeAll d ids s).store.Enrolled s.registered := by
  have htook := take_took d ids (ofPlan_bound h n p only)
    ((s.collectionAt n).size + 1)
  exact htook.ended (.inr (Nat.lt_succ_of_le htook.length))

/-- Whatever is asked for, and however it ends, the cursors registered are those from before, and
identifiers are noted of objects that were read and of nothing else. -/
theorem queries_return {s : Session} (h : s.store.Tidy) :
    (∀ (d : ObjectReader) (n : Nat) (p : Plan) (only : Option String) (ids : IdSet),
      (∀ j, Reading.Returns s.store d only ids j
        ((Reading.ofPlan n p only).take j d ids s.store)) ∧
      ((Reading.ofPlan n p only).takeAll d ids s.store).store.Enrolled s.store.registered) ∧
    (∀ n p, (Store.count n p s.store).2.Enrolled s.store.registered) ∧
    ∀ (b : Nat) (d : Description),
      (∀ idsOnly, s.Aside (Session.start b d idsOnly s).2) ∧
      ((Session.first b d s).2.store.Enrolled s.store.registered ∧ (b < s.bindings.length →
        (s.binding b).ids.With
          (s.decoder.reader.identifiers (Session.first b d s).1.toOption.join.toList)
          ((Session.first b d s).2.binding b).ids)) ∧
      (Session.count b d s).2.store.Enrolled s.store.registered ∧
      (Session.count b d s).2.bindings = s.bindings := by
  refine ⟨fun d n p only ids => ⟨fun j => ?_, ?_⟩, fun n p => Store.enrolled_count h n p,
    fun b d => ⟨fun idsOnly => Session.aside_start b d idsOnly s, Session.first_returns h b d,
      Session.enrolled_count h b d⟩⟩
  · exact Reading.returns_take h d n p only ids j
  · exact Reading.takeAll_enrolled h d n p only ids

/-- A session over two documents, on which a cursor is open already. -/
def countedSession : Session :=
  { Session.onEmptyStore ⟨[], []⟩ .standard .empty 0 with
    store := (Store.empty "_id" 0).after [.collection (str "items"),
      .insert 0 (dict [(str "_id", int 1)]), .insert 0 (dict [(str "_id", int 2)]),
      .openCursor 0 null null]
    bindings := [⟨"items", 0, .empty⟩] }

theorem tidy_counted : countedSession.store.Tidy :=
  Store.tidy_after (Store.tidy_empty "_id" 0) (by simp [Store.Operation.Proper])

theorem queries_return_counted :
    countedSession.store.Tidy ∧ countedSession.store.registered = [(0, 0)] ∧
      ((Reading.ofPlan 0 .everything none).takeAll ⟨fun _ v => pure v, fun _ => false⟩ .empty
        countedSession.store).store.registered = [(0, 0)] ∧
      (Store.count 0 .everything countedSession.store).2.registered = [(0, 0)] ∧
      0 < countedSession.bindings.length ∧
      (Session.first 0 .everything countedSession).2.store.registered = [(0, 0)] ∧
      (countedSession.binding 0).ids.With
        (countedSession.decoder.reader.identifiers
          (Session.first 0 .everything countedSession).1.toOption.join.toList)
        ((Session.first 0 .everything countedSession).2.binding 0).ids := by
  have hold : countedSession.store.registered = [(0, 0)] := rfl
  have hbound : 0 < countedSession.bindings.length := by decide
  obtain ⟨hreadings, hcount, hsession⟩ := queries_return tidy_counted
  have hall := (hreadings ⟨fun _ v => pure v, fun _ => false⟩ 0 .everything none .empty).2
  obtain ⟨hfirst, hids⟩ := (hsession 0 .everything).2.1
  exact ⟨tidy_counted, hold, hall.registered.trans hold,
    (hcount 0 .everything).registered.trans hold, hbound, hfirst.registered.trans hold,
    hids hbound⟩

end DocStore
