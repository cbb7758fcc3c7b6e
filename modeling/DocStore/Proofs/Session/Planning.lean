import DocStore.Proofs.Store.Reading
import DocStore.Session.Objects

/-! Planning in a session. It changes nothing but the names of classes and the journal. -/

namespace DocStore

open Value

namespace Session

def withNames (s : Session) (names : Registry) (journal : List LogRecord) : Session :=
  { s with registry := names, store := { s.store with journal := journal } }

variable {s t : Session} {b : Nat} {d : Description} {p : Plan}

theorem note_run (r : LogRecord) (s : Session) :
    note r s = (.ok (), s.withNames s.registry (s.store.journal ++ [r])) := rfl

theorem noteAll_run (logger : String) (ts : List String) (s : Session) :
    ∃ j, noteAll logger ts s = (.ok (), s.withNames s.registry j) := by
  induction ts generalizing s with
  | nil => exact ⟨s.store.journal, rfl⟩
  | cons w ws ih =>
    obtain ⟨j, hj⟩ := ih (s.withNames s.registry (s.store.journal ++ [.debug logger w]))
    refine ⟨j, ?_⟩
    rw [noteAll, bind_of_ok (note_run _ s), hj]
    rfl

theorem naming_run {α : Type} {x : Naming α} {a : Except Error α} {names : Registry}
    (h : x s.registry = (a, names)) : naming x s = (a, { s with registry := names }) := by
  unfold naming
  change ((x s.registry).1, { s with registry := (x s.registry).2 }) = _
  rw [h]

theorem onStore_run {α : Type} {x : Storing α} {a : Except Error α} {u : Store}
    (h : x s.store = (a, u)) : onStore x s = (a, { s with store := u }) := by
  unfold onStore
  change ((x s.store).1, { s with store := (x s.store).2 }) = _
  rw [h]

theorem plan_run {names : Registry}
    (h : Plan.ofDescription s.catalog s.schema s.settings.maxDepth d s.registry = (.ok p, names)) :
    ∃ j, plan d s = (.ok p, s.withNames names j) := by
  have hnaming := naming_run h
  unfold plan
  rw [bind_of_ok (run_get s), bind_of_ok hnaming]
  by_cases hq : s.settings.logQueries.truthy = true
  · obtain ⟨j, hj⟩ := noteAll_run plannerLog p.report { s with registry := names }
    refine ⟨j, ?_⟩
    rw [if_pos hq, bind_of_ok hj]
    rfl
  · refine ⟨s.store.journal, ?_⟩
    rw [if_neg hq]
    rfl

theorem plan_eq_ok (h : plan d s = (.ok p, t)) :
    ∃ names j, Plan.ofDescription s.catalog s.schema s.settings.maxDepth d s.registry =
      (.ok p, names) ∧ t = s.withNames names j := by
  rcases hx : Plan.ofDescription s.catalog s.schema s.settings.maxDepth d s.registry with
    ⟨e | q, names⟩
  · unfold plan at h
    rw [bind_of_ok (run_get s), bind_of_error (naming_run hx)] at h
    cases h
  · obtain ⟨j, hj⟩ := plan_run hx
    rw [hj] at h
    cases h
    exact ⟨names, j, rfl, rfl⟩

theorem plan_names (d : Description) (s : Session) :
    ∃ names j, (plan d s).2 = s.withNames names j := by
  rcases hx : Plan.ofDescription s.catalog s.schema s.settings.maxDepth d s.registry with
    ⟨e | p, names⟩
  · refine ⟨names, s.store.journal, ?_⟩
    unfold plan
    rw [bind_of_ok (run_get s), bind_of_error (naming_run hx)]
    rfl
  · obtain ⟨j, hj⟩ := plan_run hx
    exact ⟨names, j, by rw [hj]⟩

section Described

variable {cat : Catalog} {sc : Schema} {depth : Value} {r names : Registry}

theorem ofDescription_eq_ok (h : Plan.ofDescription cat sc depth d r = (.ok p, names)) :
    ∃ query keys, Filter.compileAll cat sc depth [] d.filters r = (.ok query, names) ∧
      d.sorts.mapM SortSpec.key = .ok keys ∧
      p = ⟨dict query, Plan.projectionOf sc d.fields, Plan.sortOf keys, int d.skipped,
        int d.limited⟩ := by
  obtain ⟨query, t, hquery, hrest⟩ := bind_eq_ok_iff.mp h
  obtain ⟨keys, hkeys, hp⟩ := liftExcept_bind_eq_ok hrest
  cases hp
  exact ⟨query, keys, hquery, hkeys, rfl⟩

/-- With another limit a description is planned alike. -/
theorem ofDescription_limited (h : Plan.ofDescription cat sc depth d r = (.ok p, names)) (n : Nat) :
    Plan.ofDescription cat sc depth ⟨d.filterStack, d.sortStack, d.fields, d.skipped, n⟩ r =
      (.ok { p with limit := int n }, names) := by
  obtain ⟨query, keys, hquery, hkeys, rfl⟩ := ofDescription_eq_ok h
  have hread : (liftExcept (d.sorts.mapM SortSpec.key) : Naming _) names = (.ok keys, names) := by
    rw [run_liftExcept, hkeys]
  exact (bind_of_ok hquery).trans (bind_of_ok hread)

end Described

theorem start_run (h : plan d s = (.ok p, t)) (b : Nat) :
    start b d false s = (.ok (Reading.ofPlan (t.binding b).collection p none), t) := by
  unfold start
  rw [bind_of_ok h, bind_of_ok (run_get t)]
  rfl

theorem start_names (b : Nat) (d : Description) (idsOnly : Bool) (s : Session) :
    ∃ names j, (start b d idsOnly s).2 = s.withNames names j := by
  obtain ⟨names, j, hplan⟩ := plan_names d s
  refine ⟨names, j, ?_⟩
  unfold start
  rcases hp : plan d s with ⟨e | p, t⟩
  · rw [bind_of_error hp, ← hplan, hp]
  · rw [bind_of_ok hp, ← hplan, hp]
    rfl

theorem start_eq_ok {r : Reading} (h : start b d false s = (.ok r, t)) :
    ∃ p, plan d s = (.ok p, t) ∧ r = Reading.ofPlan (t.binding b).collection p none := by
  rcases hp : plan d s with ⟨e | p, u⟩
  · unfold start at h
    rw [bind_of_error hp] at h
    cases h
  · rw [start_run hp b] at h
    cases h
    exact ⟨p, rfl, rfl⟩

def withRead (s : Session) (b : Nat) (ids : IdSet) (u : Store) : Session :=
  { s with store := u,
           bindings := s.bindings.set b ⟨(s.binding b).name, (s.binding b).collection, ids⟩ }

theorem binding_withRead (hb : b < s.bindings.length) (ids : IdSet) (u : Store) :
    (s.withRead b ids u).binding b = ⟨(s.binding b).name, (s.binding b).collection, ids⟩ := by
  simp [withRead, binding, hb]

theorem withRead_same (s : Session) (b : Nat) (w : Store) :
    s.withRead b (s.binding b).ids w = { s with store := w } := by
  by_cases hb : b < s.bindings.length
  · have hset : s.bindings.set b (s.binding b) = s.bindings := by simp [binding, hb]
    exact congrArg (fun bindings => { s with store := w, bindings := bindings }) hset
  · simp [withRead, List.set_eq_of_length_le (Nat.le_of_not_lt hb)]

theorem take_run (b : Nat) (r : Reading) (n : Nat) (s : Session) :
    take b r (some n) s = (r.take n s.decoder (s.binding b).ids s.store,
      s.withRead b (r.take n s.decoder (s.binding b).ids s.store).ids
        (r.take n s.decoder (s.binding b).ids s.store).store) := rfl

theorem takeAll_run (b : Nat) (r : Reading) (s : Session) :
    take b r none s = (r.takeAll s.decoder (s.binding b).ids s.store,
      s.withRead b (r.takeAll s.decoder (s.binding b).ids s.store).ids
        (r.takeAll s.decoder (s.binding b).ids s.store).store) := rfl

theorem stop_same (r : Reading) (u : Store) : u.Same (r.stop u).2 := by
  unfold Reading.stop
  split
  · exact Store.same_putCursor u _ _
  · exact .refl u

/-- The first object is read by a reading of the plan with the limit set to one. -/
theorem first_run {x : Reading.Taken}
    (h : plan ⟨d.filterStack, d.sortStack, d.fields, d.skipped, 1⟩ s = (.ok p, t))
    (hx : (Reading.ofPlan (t.binding b).collection p none).take 1 t.decoder (t.binding b).ids
      t.store = x) (hf : x.fault = none) :
    ∃ u, first b d s = (.ok x.items.head?, t.withRead b x.ids u) ∧ x.store.Same u := by
  have hlimit : (liftExcept (d.limit (int 1)) : Working Description) s =
      (.ok ⟨d.filterStack, d.sortStack, d.fields, d.skipped, 1⟩, s) := rfl
  refine ⟨(x.reading.stop x.store).2, ?_, stop_same x.reading x.store⟩
  unfold first
  rw [bind_of_ok hlimit, bind_of_ok (start_run h b), bind_of_ok (run_get t), take_run, hx]
  have hset : (set (t.withRead b x.ids x.store) : Working PUnit) t =
      (.ok ⟨⟩, t.withRead b x.ids x.store) := rfl
  have hstop : stop x.reading (t.withRead b x.ids x.store) =
      (.ok (x.reading.stop x.store).1, t.withRead b x.ids (x.reading.stop x.store).2) := rfl
  dsimp only
  rw [bind_of_ok hset, bind_of_ok hstop, hf]
  rfl

end Session

end DocStore
