import DocStore.Proofs.Filter.Compile
import DocStore.Proofs.Session.Finding
import DocStore.Proofs.Session.Migrating

/-! Deleting by identifier, and asking whether an identifier is there. Both look for what is equal
to the identifier, unless it reads as a condition; what stands under null is there, and cannot be
deleted. -/

namespace DocStore

open Value

section Planned

variable {cat : Catalog} {sc : Schema} {depth id : Value} {r names : Registry} {f : Field}
  {query : Entries} {p : Plan} {limit : Nat}

theorem compileAll_equal
    (h : Filter.compileAll cat sc depth [] [.field f .equal id] r = (.ok query, names)) :
    ∃ v, Codec.toValue cat sc id r = (.ok v, names) ∧ dict query = equality f.name v := by
  rw [Filter.compileAll] at h
  obtain ⟨q, t, hq, h⟩ := bind_eq_ok_iff.mp h
  obtain ⟨word, v, hword, hv, rfl⟩ := Filter.compileAt_field hq
  cases hword
  rw [String.empty_append] at h
  have hadd : Merged.addEntries [] [(str f.name, dict [(str "$eq", v)])] =
      ⟨[(str f.name, dict [(str "$eq", v)])], .ok ()⟩ := addEntries_new f.named rfl
  simp only [hadd] at h
  cases h
  exact ⟨v, hv, rfl⟩

theorem ofDescription_equal
    (h : Plan.ofDescription cat sc depth ⟨[.field f .equal id], [], [], 0, limit⟩ r =
      (.ok p, names)) :
    ∃ v, Codec.toValue cat sc id r = (.ok v, names) ∧
      p = ⟨equality f.name v, null, list [], int 0, int limit⟩ := by
  obtain ⟨query, t, hquery, h⟩ := bind_eq_ok_iff.mp h
  cases h
  obtain ⟨v, hv, hequal⟩ := compileAll_equal hquery
  refine ⟨v, hv, ?_⟩
  rw [← hequal]
  rfl

end Planned

namespace Session

variable {b : Nat} {id v object : Value} {found : Bool} {names : Registry} {s t : Session}

theorem byId_eq_ok {desc : Description} (h : byId id s = (.ok desc, t)) :
    ∃ hn : fieldNameFault? s.schema.idField = none,
      desc = ⟨[.field ⟨s.schema.idField, .object, hn⟩ .equal id], [], [], 0, 0⟩ ∧ t = s := by
  unfold byId at h
  rw [bind_of_ok (run_get s)] at h
  obtain ⟨f, hf, h⟩ := liftExcept_bind_eq_ok h
  obtain ⟨e, he, h⟩ := liftExcept_bind_eq_ok h
  cases h
  have hn : fieldNameFault? s.schema.idField = none := by
    unfold Field.ofText at hf
    split at hf
    · assumption
    · cases hf
  rw [Field.ofText_of_named hn] at hf
  cases hf
  obtain ⟨_, _, rfl⟩ := except_map_eq_ok.mp (show (Filter.checkValues _ [id]).map _ = _ from he)
  exact ⟨hn, rfl, rfl⟩

/-- Whether an identifier is there is whether some document matches the query for it. -/
theorem contains_eq_ok (h : contains b id s = (.ok found, t)) :
    ∃ v names, Codec.toValue s.catalog s.schema id s.registry = (.ok v, names) ∧
      fieldNameFault? s.schema.idField = none ∧
      (∀ p ∈ (s.stored b).documents,
        ∃ x, matchesQuery p.2 (equality s.schema.idField v) = .ok x) ∧
      (found = true ↔ ∃ p ∈ (s.stored b).documents,
        matchesQuery p.2 (equality s.schema.idField v) = .ok true) := by
  unfold contains at h
  obtain ⟨desc, u, hid, h⟩ := bind_eq_ok_iff.mp h
  obtain ⟨hn, rfl, hu⟩ := byId_eq_ok hid
  subst u
  obtain ⟨m, w, hcount, h⟩ := bind_eq_ok_iff.mp h
  cases h
  obtain ⟨p, u', hplan, hcount⟩ := bind_eq_ok_iff.mp hcount
  obtain ⟨names, j, hdesc, rfl⟩ := plan_eq_ok hplan
  obtain ⟨v, hv, rfl⟩ := ofDescription_equal hdesc
  rcases hstore : Store.count ((s.withNames names j).binding b).collection
    ⟨equality s.schema.idField v, null, list [], int 0, int 0⟩ (s.withNames names j).store with
    ⟨x, u⟩
  rw [onCollection_run hstore] at hcount
  obtain ⟨rfl, _⟩ := Prod.mk.inj hcount
  obtain ⟨hread, hm⟩ := Store.count_eq_ok hstore
  change ∀ d ∈ (s.stored b).documents.values, _ at hread
  change m = ((s.stored b).documents.values.filter _).length at hm
  simp only [Entries.values, List.forall_mem_map] at hread
  refine ⟨v, names, hv, hn, hread, ?_⟩
  rw [decide_eq_true_iff, hm, List.length_pos_iff_exists_mem]
  simp only [List.mem_filter, Entries.values, List.mem_map]
  constructor
  · rintro ⟨_, ⟨p, hp, rfl⟩, hmatches⟩
    obtain ⟨x, hx⟩ := hread p hp
    rw [satisfies, hx] at hmatches
    exact ⟨p, hp, hmatches ▸ hx⟩
  · rintro ⟨p, hp, hmatches⟩
    exact ⟨p.2, ⟨p, hp, rfl⟩, by rw [satisfies, hmatches]⟩

/-- The identifier that deleting asks for: that of an object that has one, or the value itself. -/
def idOf (s : Session) (object : Value) : Except Error Value :=
  if s.catalog.isIdentifiable object then object.attribute "id" else .ok object

/-- Deleting finds nothing, and leaves all as it was but for the names of classes. -/
def Refuses (b : Nat) (object id : Value) (s : Session) : Prop :=
  ∃ names, delete b object s =
    (.error (.notFound id (s.binding b).name), s.withNames names s.store.journal)

/-- Deleting takes one document from its collection, and the others stay. -/
def Removes (b : Nat) (object : Value) (f : Collection.Found) (s : Session) : Prop :=
  ∃ t, delete b object s = (.ok (), t) ∧ ∀ a, (t.stored a).documents =
    if (s.binding a).collection = (s.binding b).collection then f.before ++ f.after
    else (s.stored a).documents

section Delete

variable (hid : s.idOf object = .ok id)
  (hv : Codec.toValue s.catalog s.schema id s.registry = (.ok v, names))
include hid hv

theorem delete_run {old : Option Value} {u : Store}
    (h : Store.onCollection (s.binding b).collection
      (·.removeFirst (dict [(str s.schema.idField, v)])) s.store = (.ok old, u)) :
    delete b object s =
      (match old with
        | none => missing b id
        | some _ => debug b fun name => s!"Deleted {id.display} from '{name}'")
        { s with registry := names, store := u } := by
  have hquery : idQuery id s =
      (.ok (dict [(str s.schema.idField, v)]), { s with registry := names }) := by
    unfold idQuery
    rw [bind_of_ok (run_get s), bind_of_ok (naming_run hv)]
    rfl
  have hremove : onCollection b (fun n => Store.onCollection n
      (·.removeFirst (dict [(str s.schema.idField, v)]))) { s with registry := names } =
        (.ok old, { s with registry := names, store := u }) := onCollection_run h
  have hasked : ∀ k : Value → Working Unit,
      (if s.catalog.isIdentifiable object then liftExcept (object.attribute "id") >>= k
        else pure object >>= k) s = k id s := by
    intro k
    unfold idOf at hid
    split at hid
    · rw [if_pos ‹_›, hid, bind_of_ok (run_liftExcept _ s)]
    · cases hid
      rw [if_neg ‹_›]
      rfl
  unfold delete
  rw [bind_of_ok (run_get s), hasked]
  refine (bind_of_ok hquery).trans ((bind_of_ok hremove).trans ?_)
  cases old <;> rfl

theorem refuses_of_missed
    (h : Store.onCollection (s.binding b).collection
      (·.removeFirst (dict [(str s.schema.idField, v)])) s.store = (.ok none, s.store)) :
    Refuses b object id s := by
  refine ⟨names, ?_⟩
  rw [delete_run hid hv h]
  rfl

theorem removes_of_found {f : Collection.Found}
    (hsplit : (s.stored b).documents = f.before ++ (f.key, f.document) :: f.after)
    (h : Store.onCollection (s.binding b).collection
      (·.removeFirst (dict [(str s.schema.idField, v)])) s.store = (.ok (some f.document),
        s.store.putCollection (s.binding b).collection
          ((s.stored b).written (f.before ++ f.after)))) :
    Removes b object f s := by
  refine ⟨_, (delete_run hid hv h).trans (debug_run b _ _), fun a => ?_⟩
  have hdocuments := (stored_withStored (b := b) (s := s)
    (c := (s.stored b).written (f.before ++ f.after)) rfl
    (fun hnone => by simp [hsplit] at hnone) a).2
  exact hdocuments

end Delete

/-- Where an identifier does not read as a condition, deleting looks for what asking whether it is
there looks for. It misses what stands under null. -/
theorem delete_of_contains (hid : s.idOf object = .ok id) (hc : contains b id s = (.ok found, t))
    (hv : Codec.toValue s.catalog s.schema id s.registry = (.ok v, names))
    (hplain : isCondition v = false) :
    (found = false → Refuses b object id s) ∧
      (found = true → ∃ f,
        Collection.Picks (equality s.schema.idField v) (s.stored b).documents f ∧
          (f.key = null → Refuses b object id s) ∧
          (f.key ≠ null → Removes b object f s)) := by
  obtain ⟨w, names', hw, hn, hread, hfound⟩ := contains_eq_ok hc
  obtain ⟨hwv, _⟩ := Prod.mk.inj (hw.symm.trans hv)
  cases hwv
  have hsame : (fun c : Collection => c.removeFirst (dict [(str s.schema.idField, v)])) =
      (·.removeFirst (equality s.schema.idField v)) :=
    funext (Collection.removeFirst_congr fun d =>
      matchesQuery_plain (startsWithDollar_of_named hn) d hplain)
  have hmissed : Collection.Missed (equality s.schema.idField v) (s.stored b).documents →
      Refuses b object id s := by
    intro h
    refine refuses_of_missed hid hv ?_
    rw [hsame]
    exact (Store.onCollection_missed h).1
  constructor
  · rintro rfl
    refine hmissed (.inl fun p hp => ?_)
    obtain ⟨x, hx⟩ := hread p hp
    cases x with
    | false => exact hx
    | true => exact absurd (hfound.mpr ⟨p, hp, hx⟩) (by simp)
  · rintro rfl
    obtain ⟨p, hp, hmatches⟩ := hfound.mp rfl
    rcases Collection.picks_of_read hread with hnone | ⟨f, hf⟩
    · rw [hnone p hp] at hmatches
      cases hmatches
    · refine ⟨f, hf, fun hk => hmissed (.inr ⟨f, hf, hk⟩), fun hk => ?_⟩
      refine removes_of_found hid hv hf.split ?_
      rw [hsame, Store.onCollection_run]
      exact Collection.removeFirst_of_target (Collection.target_of_picks hf hk)

def numbered : Entries :=
  [(int 1, dict [(str "_id", int 1)]), (int 2, dict [(str "_id", int 2)])]

theorem delete_numbered : ∃ t names,
    (holding numbered).idOf (int 2) = .ok (int 2) ∧
      contains 0 (int 2) (holding numbered) = (.ok true, t) ∧
      Codec.toValue (holding numbered).catalog (holding numbered).schema (int 2)
        (holding numbered).registry = (.ok (int 2), names) ∧
      isCondition (int 2) = false ∧
      ∃ f, Collection.Picks (equality "_id" (int 2)) numbered f ∧
        (f.key = null → Refuses 0 (int 2) (int 2) (holding numbered)) ∧
        (f.key ≠ null → Removes 0 (int 2) f (holding numbered)) := by
  obtain ⟨t, ht⟩ : ∃ t, contains 0 (int 2) (holding numbered) = (.ok true, t) := ⟨_, rfl⟩
  exact ⟨t, _, rfl, ht, rfl, rfl, (delete_of_contains rfl ht rfl rfl).2 rfl⟩

/-- An identifier that reads as a condition is not there, and a document that satisfies the
condition is deleted. -/
theorem delete_condition : ∃ t u,
    contains 0 (dict [(str "$gt", int 0)]) (holding numbered.tail) = (.ok false, t) ∧
      delete 0 (dict [(str "$gt", int 0)]) (holding numbered.tail) = (.ok (), u) ∧
      (u.stored 0).documents = [] :=
  ⟨_, _, rfl, rfl, rfl⟩

end Session

end DocStore
