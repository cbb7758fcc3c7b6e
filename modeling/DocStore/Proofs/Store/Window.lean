import DocStore.Proofs.Query.StableSort
import DocStore.Query.Plan
import DocStore.Store.Cursor

/-! The window of a plan: the documents that match, sorted, without those skipped, and no more than
asked for. A cursor set up for the plan looks at just these. -/

namespace DocStore

open Value

/-- Whether a document satisfies a query. -/
def satisfies (query d : Value) : Bool :=
  match matchesQuery d query with
  | .ok b => b
  | .error _ => false

theorem matching_eq {query : Value} {xs : List Value}
    (h : ∀ d ∈ xs, ∃ b, matchesQuery d query = .ok b) :
    Collection.matching query xs = .ok (xs.filter (satisfies query)) := by
  induction xs with
  | nil => rfl
  | cons d xs ih =>
    obtain ⟨b, hb⟩ := h d (by simp)
    have hrest := ih fun e he => h e (List.mem_cons_of_mem d he)
    cases b with
    | true => simp [Collection.matching, satisfies, hb, hrest, Except.map]
    | false => simp [Collection.matching, satisfies, hb, hrest]

theorem answered_of_matching {query : Value} {xs found : List Value}
    (h : Collection.matching query xs = .ok found) :
    ∀ d ∈ xs, ∃ b, matchesQuery d query = .ok b := by
  induction xs generalizing found with
  | nil => simp
  | cons d xs ih =>
    rw [Collection.matching] at h
    split at h
    · cases h
    · next hd =>
      obtain ⟨more, hrest, _⟩ := except_map_eq_ok.mp h
      exact List.forall_mem_cons.mpr ⟨⟨true, hd⟩, ih hrest⟩
    · next hd => exact List.forall_mem_cons.mpr ⟨⟨false, hd⟩, ih h⟩

/-- A query that counts as false is satisfied by all, as the empty one is. -/
theorem matchesQuery_orEmpty (d query : Value) :
    matchesQuery d (if query.truthy then query else dict []) = matchesQuery d query := by
  by_cases h : query.truthy = true
  · rw [if_pos h]
  · rw [if_neg h]
    cases query with
    | dict ps =>
      have hp : ps = [] := by simpa [truthy] using h
      rw [hp]
    | _ => simp_all [matchesQuery, matchesEntries]

/-- Documents without the skipped ones, and no more than a limit, of which zero is none. -/
def cut (skipped limited : Nat) (xs : List Value) : List Value :=
  if limited = 0 then xs.drop skipped else (xs.drop skipped).take limited

theorem slice_eq (a b : Nat) (xs : List Value) :
    Cursor.slice (int a) (int b) xs = .ok (cut a b xs) := by
  by_cases hb : b = 0
  · simp [Cursor.slice, cut, index?, truthy, hb]
  · simp [Cursor.slice, cut, index?, truthy, hb]

theorem cut_subset {a b : Nat} {xs : List Value} {d : Value} (h : d ∈ cut a b xs) : d ∈ xs := by
  unfold cut at h
  split at h
  · exact List.mem_of_mem_drop h
  · exact List.mem_of_mem_drop (List.mem_of_mem_take h)

theorem cut_length_le (a b : Nat) (xs : List Value) : (cut a b xs).length ≤ xs.length := by
  unfold cut
  split <;> simp only [List.length_drop, List.length_take] <;> omega

/-- Pages of one size, one after the other, are a beginning of the whole. -/
theorem pages_eq_take {n : Nat} (hn : 0 < n) (xs : List Value) (m : Nat) :
    ((List.range m).map fun k => cut (k * n) n xs).flatten = xs.take (m * n) := by
  induction m with
  | zero => simp
  | succ m ih =>
    have hcut : cut (m * n) n xs = (xs.drop (m * n)).take n := by simp [cut, hn.ne']
    rw [List.range_succ, List.map_append, List.flatten_append, ih, Nat.succ_mul, List.take_add]
    simp [hcut]

def Plan.keys (p : Plan) : Except Error (List Value) :=
  if p.sort.truthy then
    match p.sort.iterate? with
    | none => .error .kind
    | some vs => Cursor.readKeys vs
  else .ok []

/-- A plan can be run on documents: its query is answered on all of them, and those that match are
sorted by its keys. -/
structure Plan.Runs (p : Plan) (documents keys sorted : List Value) (skipped limited : Nat) :
    Prop where
  skips : p.skip = int skipped
  limits : p.limit = int limited
  reads : p.keys = .ok keys
  answered : ∀ d ∈ documents, ∃ b, matchesQuery d p.query = .ok b
  sorts : sortDocuments (documents.filter (satisfies p.query)) keys = .ok sorted

theorem Plan.Runs.mem {p : Plan} {documents keys sorted : List Value} {a b : Nat}
    (h : p.Runs documents keys sorted a b) {d : Value} (hd : d ∈ cut a b sorted) :
    d ∈ documents :=
  List.mem_of_mem_filter ((sortDocuments_perm h.sorts).mem_iff.mp (cut_subset hd))

theorem Plan.Runs.length_le {p : Plan} {documents keys sorted : List Value} {a b : Nat}
    (h : p.Runs documents keys sorted a b) : (cut a b sorted).length ≤ documents.length := by
  have hsorted := (sortDocuments_perm h.sorts).length_eq
  have hfilter := List.length_filter_le (satisfies p.query) documents
  have hcut := cut_length_le a b sorted
  omega

/-- The same documents under the same names; how often they were read may differ. -/
structure Collection.Same (c c' : Collection) : Prop where
  name : c'.name = c.name
  idField : c'.idField = c.idField
  documents : c'.documents = c.documents

theorem Collection.Same.refl (c : Collection) : c.Same c := ⟨rfl, rfl, rfl⟩

theorem Collection.Same.trans {c c' c'' : Collection} (h : c.Same c') (h' : c'.Same c'') :
    c.Same c'' :=
  ⟨h'.name.trans h.name, h'.idField.trans h.idField, h'.documents.trans h.documents⟩

namespace Cursor

def planned (p : Plan) (projection : Value) (keys : List Value) (skipped limited : Nat) : Cursor :=
  ⟨if p.query.truthy then p.query else dict [], projection, int skipped, int limited, keys, none,
    false⟩

theorem window_planned {p : Plan} {c : Collection} {keys sorted : List Value} {a b : Nat}
    (h : p.Runs c.documents.values keys sorted a b) (projection : Value) :
    ∃ c', (planned p projection keys a b).window c = (c', .ok (cut a b sorted)) ∧ c.Same c' := by
  have hsame : ∀ d, matchesQuery d (planned p projection keys a b).query =
      matchesQuery d p.query := fun d => matchesQuery_orEmpty d p.query
  have hans : ∀ d ∈ c.documents.values, ∃ x,
      matchesQuery d (planned p projection keys a b).query = .ok x := by
    intro d hd
    rw [hsame]
    exact h.answered d hd
  have hfilter : satisfies (planned p projection keys a b).query = satisfies p.query := by
    funext d
    rw [satisfies, hsame, satisfies]
  have hfound := matching_eq hans
  rw [hfilter] at hfound
  refine ⟨(c.select p.query).1, ?_, ⟨rfl, rfl, rfl⟩⟩
  simp only [window, Collection.select, bind, Except.bind]
  rw [hfound]
  have hs := h.sorts
  cases keys with
  | nil =>
    cases hs
    exact congrArg (Prod.mk _) (slice_eq a b _)
  | cons k ks =>
    refine congrArg (Prod.mk _) ?_
    simp only [planned, List.isEmpty_cons, Bool.false_eq_true, if_false]
    rw [hs]
    exact slice_eq a b sorted

end Cursor

end DocStore
