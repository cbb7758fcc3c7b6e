import DocStore.Proofs.Session.Answers
import DocStore.Proofs.Session.Tracking

/-! Persisting through a binding that alone writes its collection and removes nothing from it. The
identifiers seen are those of the stored documents after each act, so what is there is replaced and
what is not is inserted. -/

namespace DocStore

open Value

variable {d : Decoder} {b : Nat} {m : ObjectMap d} {s t : Session} {o : Item d} {u : Uuid}
  {rs : List Reading}

namespace Session

/-- What is done through a binding and removes nothing: writing, asking, and readings, known by
their numbers, that are started, taken further and given up. -/
inductive Act (d : Decoder)
  | insert (o : Item d)
  | persist (o : Item d)
  | replace (o : Item d)
  | get (id : Value)
  | contains (id : Value)
  | plan (q : Description)
  | count (q : Description)
  | first (q : Description)
  | iterate (q : Description) (idsOnly : Bool)
  | take (k : Nat) (most : Option Nat)
  | stop (k : Nat)

namespace Act

def written : Act d → List (Item d)
  | insert o => [o]
  | persist o => [o]
  | replace o => [o]
  | _ => []

/-- What an act leaves behind, whether it succeeds or not: a session, and readings. -/
def perform (b : Nat) (s : Session) (rs : List Reading) : Act d → Session × List Reading
  | insert o => ((Session.insert b o.object s).2, rs)
  | persist o => ((Session.persist b o.object s).2, rs)
  | replace o => ((Session.replace b o.object s).2, rs)
  | get id => ((find b id s).2, rs)
  | contains id => ((Session.contains b id s).2, rs)
  | plan q => ((Session.plan q s).2, rs)
  | count q => ((Session.count b q s).2, rs)
  | first q => ((Session.first b q s).2, rs)
  | iterate q idsOnly =>
    let (r, t) := start b q idsOnly s
    (t, rs ++ r.toOption.toList)
  | take k most =>
    match rs[k]? with
    | some r =>
      let (x, t) := Session.take b r most s
      (t, rs.set k x.reading)
    | none => (s, rs)
  | stop k =>
    match rs[k]? with
    | some r => ((Session.stop r s).2, rs.set k (r.stop s.store).1)
    | none => (s, rs)

/-- The map that a collection holds after an act, if it held another one before. -/
def on (m : ObjectMap d) : Act d → ObjectMap d
  | insert o => (m.answerInsert o).2
  | persist o => m.put o
  | replace o => (m.answerReplace o).2
  | _ => m

end Act

/-- What acts leave behind that are done one after the other, with no readings before. -/
def acts (b : Nat) (as : List (Act d)) (s : Session) : Session × List Reading :=
  as.foldl (fun p a => a.perform b p.1 p.2) (s, [])

/-- A binding through which nothing was written or read so far, of an empty collection that has
identifiers where the session has them. -/
structure Unused (s : Session) (b : Nat) : Prop where
  bound : b < s.bindings.length
  seen : (s.binding b).ids = .empty
  made : (s.binding b).collection < s.store.collections.length
  idField : (s.stored b).idField = s.schema.idField
  empty : (s.stored b).documents = []

theorem Unused.tracking (h : s.Unused b) (hname : SingleName s.schema.idField)
    (hdepth : related .gt (int 1) s.settings.maxDepth = some false) :
    Tracking s.decoder b .empty [] s where
  toHolding := Opens.holding ⟨hname, hdepth, h.made, h.idField, h.empty⟩
  traceable := by simp [ObjectMap.empty]
  bound := h.bound
  seen := by simp [h.seen, IdSet.empty, ObjectMap.Knows, ObjectMap.Has, ObjectMap.empty]
  readings := by simp

/-- Persisting an object always succeeds. -/
theorem Tracking.persist (h : Tracking d b m rs s) (ho : o.Traceable) :
    ∃ t, persist b o.object s = (.ok (), t) ∧ Tracking d b (m.put o) rs t := by
  rw [h.persist_run, ObjectMap.put]
  by_cases hm : m.Has o.id
  · rw [if_pos hm, dif_pos hm]
    exact h.replace_present ho hm
  · rw [if_neg hm, dif_neg hm]
    exact h.insert_fresh ho hm

theorem Tracking.insert (h : Tracking d b m rs s) (ho : o.Traceable) :
    Tracking d b (m.answerInsert o).2 rs (insert b o.object s).2 := by
  unfold ObjectMap.answerInsert
  by_cases hm : m.Has o.id
  · rw [dif_pos hm]
    exact h.insert_taken ho hm
  · obtain ⟨t, ht, hh⟩ := h.insert_fresh ho hm
    rw [dif_neg hm, ht]
    exact hh

theorem Tracking.replace (h : Tracking d b m rs s) (ho : o.Traceable) :
    Tracking d b (m.answerReplace o).2 rs (replace b o.object s).2 := by
  unfold ObjectMap.answerReplace
  by_cases hm : m.Has o.id
  · obtain ⟨t, ht, hh⟩ := h.replace_present ho hm
    rw [if_pos hm, ht]
    exact hh
  · rw [if_neg hm]
    exact h.replace_missing hm

theorem Tracking.set_reading {r : Reading} {j : Nat} (h : Tracking d b m (r :: rs) s) :
    Tracking d b m (rs.set j r) s :=
  h.some_readings fun _ hr => List.mem_cons.mpr (List.mem_or_eq_of_mem_set hr).symm

/-- The step: after an act, too, just the identifiers of what is stored are seen. -/
theorem Tracking.perform (h : Tracking d b m rs s) (a : Act d)
    (ha : ∀ o ∈ a.written, o.Traceable) :
    Tracking d b (a.on m) (a.perform b s rs).2 (a.perform b s rs).1 := by
  cases a with
  | insert o => exact h.insert (ha o (by simp [Act.written]))
  | persist o =>
    obtain ⟨t, ht, hh⟩ := h.persist (ha o (by simp [Act.written]))
    rw [Act.perform, ht]
    exact hh
  | replace o => exact h.replace (ha o (by simp [Act.written]))
  | get id => exact h.find id
  | contains id => exact h.contains id
  | plan q => exact h.plan q
  | count q => exact h.count q
  | first q => exact h.first q
  | iterate q idsOnly =>
    refine (h.start q idsOnly).some_readings fun r hr => ?_
    exact List.mem_append.mpr (List.mem_append.mp hr).symm
  | take j most =>
    rw [Act.perform]
    cases hr : rs[j]? with
    | none => exact h
    | some r => exact (h.take (List.mem_of_getElem? hr) most).set_reading
  | stop j =>
    rw [Act.perform]
    cases hr : rs[j]? with
    | none => exact h
    | some r => exact (h.stop (List.mem_of_getElem? hr)).set_reading

theorem tracking_acts (h : Tracking d b m [] s) (as : List (Act d))
    (ha : ∀ a ∈ as, ∀ o ∈ a.written, o.Traceable) :
    Tracking d b (as.foldl Act.on m) (acts b as s).2 (acts b as s).1 := by
  induction as using List.reverseRecOn with
  | nil => exact h
  | append_singleton as a ih =>
    have hbefore := ih fun a' ha' => ha a' (List.mem_append_left _ ha')
    simp only [acts, List.foldl_append, List.foldl_cons, List.foldl_nil]
    exact hbefore.perform a (ha a (by simp))

theorem Tracking.stored_ids (h : Tracking d b m rs s) (v : Value) :
    v ∈ (s.binding b).ids.ids ↔
      v ∈ (s.stored b).documents.values.map (Reading.idOf (s.stored b).idField) := by
  have hids : ∀ o ∈ m.items, Reading.idOf (s.stored b).idField o.document = uuid o.id := by
    intro o ho
    rw [h.idField]
    exact congrArg (Option.getD · null) (h.carried o ho)
  rw [h.seen, h.toHolding.values, List.map_map, List.map_congr_left (g := fun o => uuid o.id) hids]
  constructor
  · rintro ⟨u, rfl, hu⟩
    obtain ⟨o, ho, rfl⟩ := ObjectMap.has_iff.mp hu
    exact List.mem_map_of_mem ho
  · intro hv
    obtain ⟨o, ho, rfl⟩ := List.mem_map.mp hv
    exact ⟨o.id, rfl, ObjectMap.has_iff.mpr ⟨o, ho, rfl⟩⟩

end Session

/-- However documents were written and read, in failure or success, while none were removed: just
the identifiers of those stored have been seen. To persist an object therefore succeeds, it is
found afterwards, and all other documents are as they were. -/
theorem persist_knows {s : Session} {b : Nat} (h : s.Unused b)
    (hname : SingleName s.schema.idField)
    (hdepth : related .gt (int 1) s.settings.maxDepth = some false)
    (as : List (Session.Act s.decoder)) (ha : ∀ a ∈ as, ∀ o ∈ a.written, o.Traceable)
    (t : Session) (ht : (Session.acts b as s).1 = t) :
    (∀ v, v ∈ (t.binding b).ids.ids ↔
      v ∈ (t.stored b).documents.values.map (Reading.idOf (t.stored b).idField)) ∧
    ∀ o : Item s.decoder, o.Traceable →
      ∃ u, Session.persist b o.object t = (.ok (), u) ∧
        (∃ v w, Session.find b (uuid o.id) u = (.ok (some v), w) ∧ equal v o.object = true) ∧
        ∀ k x, k ≠ uuid o.id →
          ((k, x) ∈ (u.stored b).documents ↔ (k, x) ∈ (t.stored b).documents) := by
  subst ht
  have htracking := Session.tracking_acts (h.tracking hname hdepth) as ha
  refine ⟨htracking.stored_ids, fun o ho => ?_⟩
  obtain ⟨u, hu, hafter⟩ := htracking.persist ho
  refine ⟨u, hu, ?_, fun k x hk => ?_⟩
  · obtain ⟨x, w, hfind, hx, _⟩ := Session.find_run hafter.toHolding o.id
    rw [ObjectMap.find?_of_mem (ObjectMap.mem_put _ o)] at hx
    cases hx with
    | some hv => exact ⟨_, w, hfind, hv⟩
  · rw [hafter.documents, htracking.documents]
    exact ObjectMap.shelved_put_other hk

theorem unused_under (c : Settings) : (sessionUnder c).Unused 0 :=
  ⟨Nat.zero_lt_one, rfl, Nat.zero_lt_one, rfl, rfl⟩

theorem keepsId_person (id : Uuid) (name : String) : (personItem id name).KeepsId := by
  intro cls fs c hobject hclass
  cases hobject
  obtain rfl : Models.person = c := Option.some.inj hclass
  refine ⟨⟨Models.idField, by simp [Models.person, Models.identified], rfl, rfl⟩, ?_⟩
  intro fs gs hfinish
  cases hfinish
  rfl

theorem traceable_person (id : Uuid) (name : String) : (personItem id name).Traceable :=
  ⟨carried_person id name, keepsId_person id name⟩

/-- People as far as their ages. -/
def agesOnly : Description := ⟨[], [], [⟨"age", .object, rfl⟩], 0, 0⟩

def peopleActs : List (Session.Act peopleSession.decoder) :=
  [.insert ada, .iterate agesOnly false, .insert ada, .replace grace, .persist grace,
    .take 0 (some 1), .persist augusta, .get (uuid ada.id), .stop 0]

theorem persist_knows_people :
    ((Session.acts 0 peopleActs peopleSession).1.binding 0).ids.size = 2 ∧
    ∃ u, Session.persist 0 grace.object (Session.acts 0 peopleActs peopleSession).1 =
      (.ok (), u) := by
  have hada : ada.Traceable := traceable_person _ _
  have haugusta : augusta.Traceable := traceable_person _ _
  have hgrace : grace.Traceable := traceable_person _ _
  have hunused : peopleSession.Unused 0 := unused_under .standard
  obtain ⟨_, hpersist⟩ := persist_knows hunused opens_people.name opens_people.depth peopleActs
    (by simp [peopleActs, Session.Act.written, hada, haugusta, hgrace]) _ rfl
  obtain ⟨u, hu, _⟩ := hpersist grace hgrace
  exact ⟨by decide +kernel, u, hu⟩

/-- A session whose documents have their identifiers under a name with a dot. -/
def dottedSession : Session := sessionUnder { Settings.standard with idField := str "a.b" }

def dotted : Item dottedSession.decoder where
  object := person (.ofNat 1) "Ada"
  id := .ofNat 1
  identifiable := rfl
  identified := rfl
  entries := [(str "a.b", uuid (.ofNat 1)), (str "class", str "Person"), (str "revision", int 2),
    (str "name", str "Ada"), (str "age", int 36), (str "level", str "junior"),
    (str "address", null), (str "tags", list [])]
  names := ⟨[("Person", "Person")], [("Person", "Person")]⟩
  written := rfl
  returns := fun m => ⟨_, m, rfl, equal_person _ _⟩

/-- A session that lets no filter through. -/
def shallowSession : Session := sessionUnder { Settings.standard with maxDepth := int 0 }

/-- Words are identified by their lengths, whatever identifier they are given. -/
def finishWord (fields : Entries) : Except Refusal Entries :=
  match Entries.get? (str "text") fields with
  | some (str t) => .ok (Entries.put (str "id") (uuid (.ofNat t.length)) fields)
  | _ => .error (.kind none)

def wordSpec : ClassSpec :=
  ⟨"Word", true, false, 0,
    [Models.idField, Models.field "text" (Models.kind .str) (.value (str "")),
      Models.field "rank" (Models.kind .int) (.value (int 0))], .resolved, finishWord⟩

def wordSession : Session :=
  (Session.onEmptyStore ⟨[wordSpec], []⟩ .standard .empty 0).withCollection "words"

def word (text : String) : Value :=
  .record "Word" [(str "id", uuid (.ofNat text.length)), (str "text", str text),
    (str "rank", int 1)]

theorem equal_word (text : String) : equal (word text) (word text) = true := by
  have hrank : numberEqual false (int 1) (int 1) = true := rfl
  simp [equal, word, eqv, eqvEntries, eqvEntry, hrank]

def wordItem (text : String) : Item wordSession.decoder where
  object := word text
  id := .ofNat text.length
  identifiable := rfl
  identified := rfl
  entries := [(str "_id", uuid (.ofNat text.length)), (str "class", str "Word"),
    (str "revision", int 0), (str "text", str text), (str "rank", int 1)]
  names := ⟨[("Word", "Word")], [("Word", "Word")]⟩
  written := rfl
  returns := fun m => ⟨word text, m, rfl, equal_word text⟩

def ranksOnly : Description := ⟨[], [], [⟨"rank", .object, rfl⟩], 0, 0⟩

/-- An identifier is missed where a field takes its place and where it is sought along a path, no
object is found where filters are not let through, and a class that makes identifiers of its own
makes a wrong one of a part of a document. -/
theorem persist_misses :
    namesakeSession.Unused 0 ∧ dottedSession.Unused 0 ∧ shallowSession.Unused 0 ∧
      wordSession.Unused 0 ∧
    (Session.persist 0 namesake.object
      (Session.acts 0 [.persist namesake] namesakeSession).1).1 =
        .error (.notFound (uuid namesake.id) "people") ∧
    (Session.persist 0 dotted.object (Session.acts 0 [.persist dotted] dottedSession).1).1 =
      .error (.notFound (uuid dotted.id) "people") ∧
    (Session.find 0 (uuid ada.id)
      (Session.acts (d := shallowSession.decoder) 0 [.persist ada] shallowSession).1).1 =
        .error (.depth (int 0)) ∧
    (Session.persist 0 (wordItem "").object (Session.acts 0
      [.persist (wordItem "one"), .iterate ranksOnly false, .take 0 (some 1)] wordSession).1).1 =
        .error (.notFound (uuid (wordItem "").id) "words") := by
  refine ⟨unused_under _, unused_under _, unused_under _,
    ⟨Nat.zero_lt_one, rfl, Nat.zero_lt_one, rfl, rfl⟩, ?_, ?_, ?_, ?_⟩
  · rfl
  · rfl
  · rfl
  · rfl

end DocStore
