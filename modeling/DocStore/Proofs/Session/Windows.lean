import DocStore.Catalog.Models
import DocStore.Proofs.Session.Planning
import DocStore.Proofs.Store.Changes

/-! All ways of running a plan agree on its window: identifiers, counts, objects, the first object,
and pages. -/

namespace DocStore

open Value

variable {d : Decoder} {partly : Bool} {xs vs : List Value} {ids ids' : IdSet} {m m' : Nat}

theorem Reads.take {only : Option String} (h : Reads d only partly xs ids m vs ids' m') (j : Nat) :
    ∃ ids' m', Reads d only partly (xs.take j) ids m (vs.take j) ids' m' := by
  induction h generalizing j with
  | nil ids m =>
    rw [List.take_nil]
    exact ⟨ids, m, .nil ids m⟩
  | @cons x v xs vs ids ids₁ ids₂ m m₁ m₂ hx hs ih =>
    cases j with
    | zero => exact ⟨ids, m, .nil ids m⟩
    | succ j =>
      obtain ⟨ids', m', hh⟩ := ih j
      exact ⟨ids', m', .cons hx hh⟩

theorem projectAll_take {idField : String} {projection : Value} {ds : List Value}
    (h : Cursor.projectAll idField projection ds = .ok xs) (j : Nat) :
    Cursor.projectAll idField projection (ds.take j) = .ok (xs.take j) := by
  induction ds generalizing xs j with
  | nil =>
    cases h
    simp [Cursor.projectAll]
  | cons x ds ih =>
    obtain ⟨y, ys, hy, hys, rfl⟩ := Reading.projectAll_cons.mp h
    cases j with
    | zero => rfl
    | succ j => exact Reading.projectAll_cons.mpr ⟨y, ys.take j, hy, ih hys j, rfl⟩

theorem cut_one (a b : Nat) (ds : List Value) : cut a 1 ds = (cut a b ds).take 1 := by
  by_cases hb : b = 0
  · simp [cut, hb]
  · simp [cut, hb, List.take_take, Nat.one_le_iff_ne_zero.mpr hb]

/-- A reading came to its end and gave just these values. -/
def Reading.Taken.Gives (t : Reading.Taken) (vs : List Value) : Prop :=
  t.items = vs ∧ t.fault = none

/-- Documents, as far as a plan shows them, are decoded one after the other as some objects. -/
def DecodedAs (d : Decoder) (p : Plan) (idField : String) (ds : List Value) (m : Nat)
    (vs : List Value) : Prop :=
  ∃ xs m', Cursor.projectAll idField p.projection ds = .ok xs ∧
    xs.mapM (d.decode (!p.projection.isNull)) m = (.ok vs, m') ∧ ∀ v ∈ vs, Recordable d v

def Plan.paged (p : Plan) (skipped limited : Nat) : Plan :=
  { p with skip := int skipped, limit := int limited }

section Agreement

variable {s : Store} {n a b : Nat} {p : Plan} {keys sorted : List Value}

theorem Plan.Runs.paged {documents : List Value} (h : p.Runs documents keys sorted a b)
    (a' b' : Nat) : (p.paged a' b').Runs documents keys sorted a' b' :=
  ⟨rfl, rfl, h.reads, h.answered, h.sorts⟩

theorem ids_given (hd : (s.collectionAt n).documents.Documentary)
    (h : p.Runs (s.collectionAt n).documents.values keys sorted a b) (d : Decoder) (ids : IdSet) :
    ((Reading.ofPlan n p (some (s.collectionAt n).idField)).takeAll d ids s).Gives
      ((cut a b sorted).map (Reading.idOf (s.collectionAt n).idField)) := by
  have hdicts : ∀ x ∈ cut a b sorted, ∃ ps, x = dict ps := fun x hx => hd x (h.mem hx)
  obtain ⟨hitems, hfault, _⟩ := Reading.takeAll_ofPlan h (Reading.projectAll_id hdicts)
    (Reading.reads_ids d ids s.issued hdicts)
  exact ⟨hitems, hfault⟩

theorem objects_given {d : Decoder}
    (h : p.Runs (s.collectionAt n).documents.values keys sorted a b)
    (hv : DecodedAs d p (s.collectionAt n).idField (cut a b sorted) s.issued vs) (ids : IdSet) :
    ((Reading.ofPlan n p none).takeAll d ids s).Gives vs := by
  obtain ⟨xs, m', hp, hdec, hrec⟩ := hv
  obtain ⟨ids', hreads⟩ := reads_objects hdec hrec ids
  have hshown : Cursor.projectAll (s.collectionAt n).idField (Reading.shown p none)
      (cut a b sorted) = .ok xs := hp
  obtain ⟨hitems, hfault, _⟩ := Reading.takeAll_ofPlan h hshown hreads
  exact ⟨hitems, hfault⟩

theorem first_given {S T : Session} {c : Nat} {desc : Description}
    (hstart : Session.start c desc false S = (.ok (Reading.ofPlan n p none), T))
    (h : p.Runs (T.store.collectionAt n).documents.values keys sorted a b)
    (hv : DecodedAs T.decoder p (T.store.collectionAt n).idField (cut a b sorted) T.store.issued
      vs) : (Session.first c desc S).1 = .ok vs.head? := by
  obtain ⟨q, hplan, hr⟩ := Session.start_eq_ok hstart
  cases hr
  obtain ⟨names, j, hdesc, rfl⟩ := Session.plan_eq_ok hplan
  obtain ⟨j₁, hone⟩ := Session.plan_run (Session.ofDescription_limited hdesc 1)
  obtain ⟨xs, m', hp, hdec, hrec⟩ := hv
  have hpaged : ({ p with limit := int (1 : Nat) } : Plan) = p.paged a 1 := by
    unfold Plan.paged
    rw [← h.skips]
  rw [hpaged] at hone
  have hruns : (p.paged a 1).Runs
      ((S.withNames names j₁).store.collectionAt (S.binding c).collection).documents.values
      keys sorted a 1 := h.paged a 1
  have hshown : Cursor.projectAll
      ((S.withNames names j₁).store.collectionAt (S.binding c).collection).idField
      (Reading.shown (p.paged a 1) none) (cut a 1 sorted) = .ok (xs.take 1) := by
    rw [cut_one a b]
    exact projectAll_take hp 1
  obtain ⟨ids', hreads⟩ := reads_objects hdec hrec ((S.withNames names j₁).binding c).ids
  obtain ⟨ids₁, m₁, hone'⟩ := hreads.take 1
  have hfirst : xs.take 1 = (xs.take 1).take 1 := by rw [List.take_take, Nat.min_self]
  rw [hfirst] at hone'
  obtain ⟨hitems, hfault, _⟩ := Reading.take_ofPlan (s := (S.withNames names j₁).store) hruns
    hshown hone'
  obtain ⟨u, hu, _⟩ := Session.first_run hone rfl hfault
  have hhead := congrArg List.head? hitems
  have hsame : (vs.take 1).head? = vs.head? := by cases vs <;> rfl
  rw [hu]
  exact congrArg Except.ok (hhead.trans hsame)

theorem pages_given (hd : (s.collectionAt n).documents.Documentary)
    (h : p.Runs (s.collectionAt n).documents.values keys sorted a b) (d : Decoder) (ids : IdSet)
    {size m : Nat} (hsize : 0 < size) (hm : sorted.length ≤ m * size) :
    ((List.range m).map fun k => ((Reading.ofPlan n (p.paged (k * size) size)
        (some (s.collectionAt n).idField)).takeAll d ids s).items).flatten =
      ((Reading.ofPlan n (p.paged 0 0)
        (some (s.collectionAt n).idField)).takeAll d ids s).items := by
  have hpage : ∀ a b, ((Reading.ofPlan n (p.paged a b)
      (some (s.collectionAt n).idField)).takeAll d ids s).items =
        (cut a b sorted).map (Reading.idOf (s.collectionAt n).idField) :=
    fun a b => (ids_given hd (h.paged a b) d ids).1
  have hwhole : ((List.range m).map fun k => cut (k * size) size sorted).flatten = sorted := by
    rw [pages_eq_take hsize, List.take_of_length_le hm]
  have hzero : cut 0 0 sorted = sorted := rfl
  have hmap := congrArg (List.map (Reading.idOf (s.collectionAt n).idField)) hwhole
  rw [List.map_flatten, List.map_map] at hmap
  simp only [hpage, hzero]
  exact hmap

end Agreement

/-- All ways of running a plan agree on its window, which is a part of the documents that match,
sorted stably: its identifiers and its length are what is read and counted, its objects are what is
decoded, the first of them is what is found first, and pages put together are the whole. -/
theorem readings_agree {s : Store} {n : Nat} {p : Plan} {keys sorted : List Value} {a b : Nat}
    (hd : (s.collectionAt n).documents.Documentary)
    (h : p.Runs (s.collectionAt n).documents.values keys sorted a b) (d : Decoder) (ids : IdSet) :
    (NanFree keys ((s.collectionAt n).documents.values.filter (satisfies p.query)) →
      StablySorted (precedes keys)
        ((s.collectionAt n).documents.values.filter (satisfies p.query)) sorted) ∧
    ((Reading.ofPlan n p (some (s.collectionAt n).idField)).takeAll d ids s).Gives
      ((cut a b sorted).map (Reading.idOf (s.collectionAt n).idField)) ∧
    (Store.count n p s).1 = .ok (cut a b sorted).length ∧
    (∀ vs, DecodedAs d p (s.collectionAt n).idField (cut a b sorted) s.issued vs →
      ((Reading.ofPlan n p none).takeAll d ids s).Gives vs ∧
      ∀ {S T : Session} {c desc},
        Session.start c desc false S = (.ok (Reading.ofPlan n p none), T) → T.store = s →
        T.decoder = d → (Session.first c desc S).1 = .ok vs.head?) ∧
    ∀ size m, 0 < size → sorted.length ≤ m * size →
      ((List.range m).map fun k => cut (k * size) size sorted).flatten = cut 0 0 sorted ∧
      ((List.range m).map fun k => ((Reading.ofPlan n (p.paged (k * size) size)
          (some (s.collectionAt n).idField)).takeAll d ids s).items).flatten =
        ((Reading.ofPlan n (p.paged 0 0) (some (s.collectionAt n).idField)).takeAll d ids
          s).items := by
  refine ⟨fun hn => sortDocuments_stable hn h.sorts, ids_given hd h d ids, ?_, ?_, ?_⟩
  · obtain ⟨t, ht, _⟩ := Store.count_run h
    rw [ht]
  · intro vs hv
    refine ⟨objects_given h hv ids, ?_⟩
    rintro S T c desc hstart rfl rfl
    exact first_given hstart h hv
  · intro size m hsize hm
    refine ⟨?_, pages_given hd h d ids hsize hm⟩
    rw [pages_eq_take hsize, List.take_of_length_le hm]
    rfl

def pointDocument (id x y : Int) : Value :=
  dict [(str "_id", int id), (str "class", str "Point"), (str "x", int x), (str "y", int y)]

def point (x y : Int) : Value := .record "Point" [(str "x", int x), (str "y", int y)]

/-- Three points, two of them with the same first coordinate. -/
def pointStore : Store :=
  { Store.empty "_id" 0 with collections := [⟨str "points", "_id",
      [(int 1, pointDocument 1 4 0), (int 2, pointDocument 2 7 1), (int 3, pointDocument 3 4 2)],
      [], 0, 0⟩] }

def pointPlan : Plan := ⟨dict [], null, list [tuple [str "x", int (-1)]], int 1, int 2⟩

def pointDecoder : Decoder :=
  ⟨Models.catalog, Schema.standard, ⟨[("Point", "Point")], [("Point", "Point")]⟩⟩

theorem pointPlan_runs : pointPlan.Runs (pointStore.collectionAt 0).documents.values
    [tuple [str "x", int (-1)]]
    [pointDocument 2 7 1, pointDocument 1 4 0, pointDocument 3 4 2] 1 2 where
  skips := rfl
  limits := rfl
  reads := rfl
  answered := by
    intro d _
    exact ⟨true, rfl⟩
  sorts := by
    -- the library's sort does not reduce, so its steps are rewritten
    have hlt : related .lt (tuple [int 1, int 4]) (tuple [int 1, int 7]) = some true := rfl
    have hgt : related .lt (tuple [int 1, int 7]) (tuple [int 1, int 4]) = some false := rfl
    have htie : related .lt (tuple [int 1, int 4]) (tuple [int 1, int 4]) = some false := rfl
    change Except.ok (List.map Prod.snd (List.mergeSort
      [(tuple [int 1, int 4], pointDocument 1 4 0), (tuple [int 1, int 7], pointDocument 2 7 1),
        (tuple [int 1, int 4], pointDocument 3 4 2)] fun x y => related .lt x.1 y.1 != some true)) =
      _
    simp [List.mergeSort, List.MergeSort.Internal.splitInTwo, hlt, hgt, htie]

theorem decodedAs_points : DecodedAs pointDecoder pointPlan "_id"
    [pointDocument 1 4 0, pointDocument 3 4 2] 0 [point 4 0, point 4 2] := by
  refine ⟨_, _, rfl, rfl, fun v hv hi => ?_⟩
  simp only [List.mem_cons, List.not_mem_nil, or_false] at hv
  rcases hv with rfl | rfl
  · cases hi
  · cases hi

theorem readings_of_points :
    ((Reading.ofPlan 0 pointPlan (some "_id")).takeAll pointDecoder .empty pointStore).Gives
      [int 1, int 3] ∧
    (Store.count 0 pointPlan pointStore).1 = .ok 2 ∧
    ((Reading.ofPlan 0 pointPlan none).takeAll pointDecoder .empty pointStore).Gives
      [point 4 0, point 4 2] := by
  have hd : (pointStore.collectionAt 0).documents.Documentary := by
    change Entries.Documentary [(int 1, pointDocument 1 4 0), (int 2, pointDocument 2 7 1),
      (int 3, pointDocument 3 4 2)]
    simp only [Entries.documentary_cons]
    exact ⟨⟨_, rfl⟩, ⟨_, rfl⟩, ⟨_, rfl⟩, .nil⟩
  obtain ⟨_, hids, hcount, hobjects, _⟩ := readings_agree hd pointPlan_runs pointDecoder .empty
  exact ⟨hids, hcount, (hobjects _ decodedAs_points).1⟩

end DocStore
