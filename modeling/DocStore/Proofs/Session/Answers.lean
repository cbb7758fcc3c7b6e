import DocStore.Catalog.Models
import DocStore.Proofs.Session.Finding
import DocStore.Proofs.Session.Opening

/-! A collection that is written through one binding only answers as a map from identifiers to
objects does that keeps the order of insertion. -/

namespace DocStore

open Value

variable {d : Decoder} {b : Nat} {m : ObjectMap d} {s t : Session}

/-- A session answers as a map does: with an equal object, or with an error about the same
identifier. -/
inductive Agrees : Except Error (Reply Value) → Except Refused (Reply (Item d)) → Prop
  | done : Agrees (.ok .done) (.ok .done)
  | object {x : Option Value} {o : Option (Item d)} (h : Option.Rel Item.Is x o) :
    Agrees (.ok (.object x)) (.ok (.object o))
  | truth (c : Bool) : Agrees (.ok (.truth c)) (.ok (.truth c))
  | number (n : Nat) : Agrees (.ok (.number n)) (.ok (.number n))
  | objects {xs : List Value} {os : List (Item d)} (h : List.Forall₂ Item.Is xs os) :
    Agrees (.ok (.objects xs)) (.ok (.objects os))
  | duplicate (field : String) (u : Uuid) (name : String) :
    Agrees (.error (.duplicate field (uuid u) name)) (.error (.duplicate u))
  | missing (u : Uuid) (name : String) :
    Agrees (.error (.notFound (uuid u) name)) (.error (.missing u))

namespace Session

def answer (b : Nat) : Request d → Working (Reply Value)
  | .insert o => do
    insert b o.object
    pure .done
  | .replace o => do
    replace b o.object
    pure .done
  | .delete o => do
    delete b o.object
    pure .done
  | .deleteId u => do
    delete b (uuid u)
    pure .done
  | .get u => do pure (.object (← find b (uuid u)))
  | .contains u => do pure (.truth (← contains b (uuid u)))
  | .size => do pure (.number (← size b))
  | .objects => do pure (.objects (← objects b))

/-- The answers to requests that are made one after the other, and the session after them. -/
def answers (b : Nat) : List (Request d) → Session → List (Except Error (Reply Value)) × Session
  | [], s => ([], s)
  | q :: qs, s =>
    let (r, s) := answer b q s
    let (rs, s) := answers b qs s
    (r :: rs, s)

theorem answers_cons (b : Nat) (q : Request d) (qs : List (Request d)) (s : Session) :
    answers b (q :: qs) s = ((answer b q s).1 :: (answers b qs (answer b q s).2).1,
      (answers b qs (answer b q s).2).2) := rfl

theorem Opens.holding (h : s.Opens b) : Holding s.decoder b .empty s where
  catalog := rfl
  schema := rfl
  grown := .refl _ _
  depth := h.depth
  name := h.name
  made := h.made
  idField := h.idField
  documents := h.empty
  named := by simp [ObjectMap.empty]
  carried := by simp [ObjectMap.empty]

section Step

variable {o : Item d} {u : Uuid}

theorem insert_agrees (h : Holding d b m s) (hc : o.Carried) :
    ∃ r t, answer b (.insert o) s = (r, t) ∧ Agrees r (m.answerInsert o).1 ∧
      Holding d b (m.answerInsert o).2 t := by
  unfold ObjectMap.answerInsert
  by_cases hm : m.Has o.id
  · obtain ⟨f, n, t, ht, hh⟩ := insert_taken h hc hm
    rw [dif_pos hm]
    exact ⟨_, t, bind_of_error ht, .duplicate f o.id n, hh⟩
  · obtain ⟨t, ht, hh⟩ := insert_fresh h hc hm
    rw [dif_neg hm]
    exact ⟨_, t, bind_of_ok ht, .done, hh⟩

theorem replace_agrees (h : Holding d b m s) (hc : o.Carried) :
    ∃ r t, answer b (.replace o) s = (r, t) ∧ Agrees r (m.answerReplace o).1 ∧
      Holding d b (m.answerReplace o).2 t := by
  unfold ObjectMap.answerReplace
  by_cases hm : m.Has o.id
  · obtain ⟨t, ht, hh⟩ := replace_present h hc hm
    rw [if_pos hm]
    exact ⟨_, t, bind_of_ok ht, .done, hh⟩
  · obtain ⟨n, t, ht, hh⟩ := replace_missing h hm
    rw [if_neg hm]
    exact ⟨_, t, bind_of_error ht, .missing o.id n, hh⟩

theorem delete_agrees (h : Holding d b m s) (u : Uuid) :
    ∃ r t, answer b (.deleteId u : Request d) s = (r, t) ∧ Agrees r (m.answerDelete u).1 ∧
      Holding d b (m.answerDelete u).2 t := by
  unfold ObjectMap.answerDelete
  by_cases hm : m.Has u
  · obtain ⟨t, ht, hh⟩ := delete_present h hm
    rw [if_pos hm]
    exact ⟨_, t, bind_of_ok ht, .done, hh⟩
  · obtain ⟨n, t, ht, hh⟩ := delete_missing h hm
    rw [if_neg hm]
    exact ⟨_, t, bind_of_error ht, .missing u n, hh⟩

theorem answer_delete (h : Holding d b m s) (o : Item d) :
    answer b (.delete o) s = answer b (.deleteId o.id : Request d) s := by
  have hd := delete_object h o
  change (delete b o.object >>= fun _ => (pure .done : Working (Reply Value))) s =
    (delete b (uuid o.id) >>= fun _ => (pure .done : Working (Reply Value))) s
  rcases hx : delete b (uuid o.id) s with ⟨e | a, t⟩
  · rw [bind_of_error (hd.trans hx), bind_of_error hx]
  · rw [bind_of_ok (hd.trans hx), bind_of_ok hx]

/-- Each answer is that of the map, and the collection holds the map afterwards. -/
theorem answer_agrees (h : Holding d b m s) (q : Request d) (hc : ∀ o ∈ q.written, o.Carried) :
    ∃ r t, answer b q s = (r, t) ∧ Agrees r (m.answer q).1 ∧ Holding d b (m.answer q).2 t := by
  cases q with
  | insert o => exact insert_agrees h (hc o (by simp [Request.written]))
  | replace o => exact replace_agrees h (hc o (by simp [Request.written]))
  | delete o =>
    obtain ⟨r, t, ht, hr, hh⟩ := delete_agrees h o.id
    exact ⟨r, t, (answer_delete h o).trans ht, hr, hh⟩
  | deleteId u => exact delete_agrees h u
  | get u =>
    obtain ⟨x, t, ht, hx, hh⟩ := find_run h u
    exact ⟨_, t, bind_of_ok ht, .object hx, hh⟩
  | contains u =>
    obtain ⟨t, ht, hh⟩ := contains_run h u
    exact ⟨_, t, bind_of_ok ht, .truth _, hh⟩
  | size =>
    obtain ⟨t, ht, hh⟩ := size_run h
    exact ⟨_, t, bind_of_ok ht, .number _, hh⟩
  | objects =>
    obtain ⟨vs, t, ht, hvs, hh⟩ := objects_run h
    exact ⟨_, t, bind_of_ok ht, .objects hvs, hh⟩

end Step

/-- A run of requests is answered as by the map, which the collection holds afterwards. -/
theorem answers_hold (h : Holding d b m s) (qs : List (Request d))
    (hc : ∀ q ∈ qs, ∀ o ∈ q.written, o.Carried) :
    List.Forall₂ Agrees (answers b qs s).1 (ObjectMap.answers qs m).1 ∧
      Holding d b (ObjectMap.answers qs m).2 (answers b qs s).2 := by
  induction qs generalizing m s with
  | nil => exact ⟨.nil, h⟩
  | cons q qs ih =>
    obtain ⟨r, t, ht, hr, hh⟩ := answer_agrees h q (hc q (by simp))
    obtain ⟨hrs, hend⟩ := ih hh fun p hp => hc p (by simp [hp])
    rw [answers_cons, ht]
    exact ⟨.cons hr hrs, hend⟩

end Session

theorem Agrees.error {e : Error} {r : Except Refused (Reply (Item d))} (h : Agrees (.error e) r) :
    ∃ f, r = .error f := by
  cases h with
  | duplicate => exact ⟨_, rfl⟩
  | missing => exact ⟨_, rfl⟩

/-- A collection that is written through one binding answers every run of requests as a map in the
order of insertion does. It keeps the documents of that map, in order, and a request that fails
leaves them as they were. -/
theorem answers_agree {s : Session} {b : Nat} (h : s.Opens b) (qs : List (Request s.decoder))
    (hc : ∀ q ∈ qs, ∀ o ∈ q.written, o.Carried) :
    List.Forall₂ Agrees (Session.answers b qs s).1 (ObjectMap.answers qs .empty).1 ∧
    ((Session.answers b qs s).2.stored b).documents =
      shelved (ObjectMap.answers qs .empty).2.filed ∧
    ∀ (q : Request s.decoder) e t, (∀ o ∈ q.written, o.Carried) →
      Session.answer b q (Session.answers b qs s).2 = (.error e, t) →
      (t.stored b).documents = ((Session.answers b qs s).2.stored b).documents := by
  obtain ⟨hagree, hend⟩ := Session.answers_hold h.holding qs hc
  refine ⟨hagree, hend.documents, fun q e t hq hfail => ?_⟩
  obtain ⟨r, u, hu, hr, hh⟩ := Session.answer_agrees hend q hq
  rw [hfail] at hu
  cases hu
  obtain ⟨f, hf⟩ := hr.error
  have hsame := ObjectMap.answer_of_error hf
  rw [hh.documents, hsame, hend.documents]

def sessionUnder (c : Settings) : Session :=
  (Session.onEmptyStore Models.catalog c .empty 0).withCollection "people"

def peopleSession : Session := sessionUnder .standard

theorem opens_people : peopleSession.Opens 0 :=
  Session.withCollection_opens rfl ⟨by decide, by decide⟩ rfl "people"

def person (id : Uuid) (name : String) : Value :=
  .record "Person" [(str "id", uuid id), (str "name", str name), (str "age", int 36),
    (str "level", Models.junior), (str "address", null), (str "tags", list [])]

theorem equal_person (id : Uuid) (name : String) :
    equal (person id name) (person id name) = true := by
  have hage : numberEqual false (int 36) (int 36) = true := rfl
  have hlevel : eqv false Models.junior Models.junior = true := rfl
  simp [equal, person, eqv, eqvEntries, eqvEntry, eqvList, hage, hlevel, isNull]

def personItem (id : Uuid) (name : String) : Item peopleSession.decoder where
  object := person id name
  id := id
  identifiable := rfl
  identified := rfl
  entries := [(str "_id", uuid id), (str "class", str "Person"), (str "revision", int 2),
    (str "name", str name), (str "age", int 36), (str "level", str "junior"),
    (str "address", null), (str "tags", list [])]
  names := ⟨[("Person", "Person")], [("Person", "Person")]⟩
  written := rfl
  returns := fun m => ⟨person id name, m, rfl, equal_person id name⟩

theorem carried_person (id : Uuid) (name : String) : (personItem id name).Carried := by
  refine (personItem id name).carried_of_names rfl (by decide) (by decide) fun f hf he => ?_
  have hid : peopleSession.decoder.schema.idField = "_id" := rfl
  simp only [List.mem_cons, List.not_mem_nil, or_false] at hf
  rcases hf with rfl | rfl | rfl | rfl | rfl | rfl <;> simp [hid] at he

def ada : Item peopleSession.decoder := personItem (.ofNat 1) "Ada"

def augusta : Item peopleSession.decoder := personItem (.ofNat 1) "Augusta"

def grace : Item peopleSession.decoder := personItem (.ofNat 2) "Grace"

theorem answers_of_people : List.Forall₂ Agrees
    (Session.answers 0 [.insert ada, .insert grace, .insert ada, .replace augusta, .get ada.id,
      .delete grace, .deleteId grace.id, .contains grace.id, .size, .objects] peopleSession).1
    [.ok .done, .ok .done, .error (.duplicate ada.id), .ok .done, .ok (.object (some augusta)),
      .ok .done, .error (.missing grace.id), .ok (.truth false), .ok (.number 1),
      .ok (.objects [augusta])] := by
  have hada : ada.Carried := carried_person _ _
  have haugusta : augusta.Carried := carried_person _ _
  have hgrace : grace.Carried := carried_person _ _
  exact (answers_agree opens_people _ (by simp [Request.written, hada, haugusta, hgrace])).1

/-- A session whose documents have their identifiers where people have their names. -/
def namesakeSession : Session := sessionUnder { Settings.standard with idField := str "name" }

theorem opens_namesake : namesakeSession.Opens 0 :=
  Session.withCollection_opens rfl ⟨by decide, by decide⟩ rfl "people"

/-- A person called by the text of the own identifier, who comes back from a document that has the
name for the identifier. -/
def namesake : Item namesakeSession.decoder where
  object := person (.ofNat 1) "00000000-0000-0000-0000-000000000001"
  id := .ofNat 1
  identifiable := rfl
  identified := rfl
  entries := [(str "name", str "00000000-0000-0000-0000-000000000001"), (str "class", str "Person"),
    (str "revision", int 2), (str "age", int 36), (str "level", str "junior"),
    (str "address", null), (str "tags", list [])]
  names := ⟨[("Person", "Person")], [("Person", "Person")]⟩
  written := rfl
  returns := fun m => ⟨_, m, rfl, equal_person _ _⟩

def namesakeStored : Session := (Session.answer 0 (.insert namesake) namesakeSession).2

/-- An item whose document does not have its identifier is inserted and then not found. -/
theorem namesake_missed : namesakeSession.Opens 0 ∧ ¬ List.Forall₂ Agrees
    (Session.answers 0 [.insert namesake, .get namesake.id] namesakeSession).1
    (ObjectMap.answers [.insert namesake, .get namesake.id] .empty).1 := by
  have hget : (Session.answer 0 (.get namesake.id : Request namesakeSession.decoder)
      namesakeStored).1 = .ok (.object none) := by rfl
  have hmap : (ObjectMap.answers [.insert namesake, .get namesake.id] .empty).1 =
      [.ok .done, .ok (.object (some namesake))] := by rfl
  refine ⟨opens_namesake, fun h => ?_⟩
  rw [Session.answers_cons, Session.answers_cons, hmap] at h
  obtain ⟨_, h⟩ := List.forall₂_cons.mp h
  have hagree := (List.forall₂_cons.mp h).1
  change Agrees (Session.answer 0 (.get namesake.id : Request namesakeSession.decoder)
      namesakeStored).1 _ at hagree
  rw [hget] at hagree
  cases hagree with
  | object h => cases h

end DocStore
