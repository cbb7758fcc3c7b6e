import DocStore.Proofs.Session.Holding

/-! What is found in a collection that holds a map: the item of an identifier, how many items there
are, and all of them in order. -/

namespace DocStore

open Value

variable {d : Decoder} {b : Nat} {m : ObjectMap d} {s t : Session}

def Item.Is (v : Value) (o : Item d) : Prop := equal v o.object = true

def Item.document (o : Item d) : Value := dict o.entries

namespace ObjectMap

theorem values_filed (m : ObjectMap d) : (shelved m.filed).values = m.items.map Item.document := by
  simp only [Entries.values, shelved, filed, List.map_map]
  rfl

theorem filter_id (m : ObjectMap d) (u : Uuid) :
    m.items.filter (fun o => o.id = u) = (m.find? u).toList := by
  by_cases h : m.Has u
  · obtain ⟨before, x, after, hitems, rfl, hbefore, hafter⟩ := split_of_has h
    have hnone : ∀ ps : List (Item d), (∀ p ∈ ps, p.id ≠ x.id) →
        ps.filter (fun o => o.id = x.id) = [] := by
      intro ps hps
      rw [List.filter_eq_nil_iff]
      intro p hp
      simpa using hps p hp
    rw [find?_split hitems hbefore, hitems, List.filter_append, List.filter_cons, hnone _ hbefore,
      hnone _ hafter]
    simp
  · rw [find?_of_not_has h, Option.toList_none, List.filter_eq_nil_iff]
    intro o ho he
    exact h (has_iff.mpr ⟨o, ho, by simpa using he⟩)

theorem length_find? (m : ObjectMap d) (u : Uuid) :
    0 < (m.find? u).toList.length ↔ m.Has u := by
  rw [← filter_id, List.length_pos_iff_exists_mem, has_iff]
  simp

end ObjectMap

theorem projectAll_null (idField : String) (ds : List Value) :
    Cursor.projectAll idField null ds = .ok ds := by
  induction ds with
  | nil => rfl
  | cons x ds ih => exact Reading.projectAll_cons.mpr ⟨x, ds, rfl, ih, rfl⟩

/-- Items' documents are read as their objects by any decoder that knows the names of classes. -/
theorem reads_items {e : Decoder} (hcat : e.catalog = d.catalog) (hschema : e.schema = d.schema)
    (os : List (Item d)) (hnamed : ∀ o ∈ os, Registry.Grown d.catalog o.names e.registry)
    (ids : IdSet) (k : Nat) :
    ∃ vs ids' k', Reads e none false (os.map Item.document) ids k vs ids' k' ∧
      List.Forall₂ Item.Is vs os := by
  induction os generalizing ids k with
  | nil => exact ⟨[], ids, k, .nil ids k, .nil⟩
  | cons o os ih =>
    obtain ⟨v, k₁, hv, he⟩ := o.read_onward (hnamed o (by simp)) k
    rw [← hcat, ← hschema] at hv
    have hrecordable : Recordable e v := fun _ => ⟨_, attribute_of_equal he o.identified, rfl⟩
    obtain ⟨ids₁, hread⟩ := object_run (show e.decode false o.document k = (.ok v, k₁) from hv)
      hrecordable ids
    obtain ⟨vs, ids₂, k₂, hreads, hvs⟩ := ih (fun p hp => hnamed p (by simp [hp])) ids₁ k₁
    exact ⟨v :: vs, ids₂, k₂, .cons hread hreads, .cons he hvs⟩

namespace Session

theorem Holding.values (h : Holding d b m s) :
    (s.stored b).documents.values = m.items.map Item.document := by
  rw [h.documents, ObjectMap.values_filed]

theorem Holding.decodes (h : Holding d b m s) {os : List (Item d)} (hos : ∀ o ∈ os, o ∈ m.items)
    (ids : IdSet) (k : Nat) :
    ∃ vs ids' k', Reads s.decoder none false (os.map Item.document) ids k vs ids' k' ∧
      List.Forall₂ Item.Is vs os :=
  reads_items h.catalog h.schema os (fun o ho => h.named o (hos o ho)) ids k

theorem Holding.runs_everything (h : Holding d b m s) :
    Plan.everything.Runs (s.stored b).documents.values [] (m.items.map Item.document) 0 0 where
  skips := rfl
  limits := rfl
  reads := rfl
  answered := fun _ _ => ⟨true, rfl⟩
  sorts := by
    have hall : ∀ x ∈ m.items.map Item.document, satisfies Plan.everything.query x = true :=
      fun _ _ => rfl
    rw [h.values, List.filter_eq_self.mpr hall]
    rfl

theorem Holding.runs_forId (h : Holding d b m s) (u : Uuid) (limit : Nat) :
    (Plan.forId d.schema.idField u limit).Runs (s.stored b).documents.values []
      ((m.find? u).toList.map Item.document) 0 limit where
  skips := rfl
  limits := rfl
  reads := rfl
  answered := by
    intro x hx
    rw [h.values] at hx
    obtain ⟨o, ho, rfl⟩ := List.mem_map.mp hx
    exact ⟨_, matchesQuery_id h.name (.inr rfl) (h.carried o ho)⟩
  sorts := by
    have hsatisfies : ∀ o ∈ m.items,
        (satisfies (Plan.forId d.schema.idField u limit).query ∘ Item.document) o =
          decide (o.id = u) := by
      intro o ho
      have hq := matchesQuery_id h.name (.inr rfl : AsksFor u (idCondition u)) (h.carried o ho)
      simp only [Function.comp, satisfies, Plan.forId, Item.document, hq]
    rw [h.values, List.filter_map, List.filter_congr hsatisfies, ObjectMap.filter_id]
    rfl

theorem Holding.planId_run (h : Holding d b m s) (u : Uuid) (limit : Nat) :
    ∃ f t, byId (uuid u) s = (.ok ⟨[f], [], [], 0, 0⟩, s) ∧
      plan ⟨[f], [], [], 0, limit⟩ s = (.ok (.forId d.schema.idField u limit), t) ∧
      Quiet b s t := by
  have hn : fieldNameFault? s.schema.idField = none := by
    rw [h.schema]
    exact h.name.named
  have hplan : Plan.forId s.schema.idField u limit = .forId d.schema.idField u limit := by
    rw [h.schema]
  obtain ⟨t, ht, hq⟩ := Session.planId_run hn h.depth u limit
  rw [hplan] at ht
  exact ⟨.hasId hn u, t, byId_run hn u, ht, hq⟩

theorem count_run {p : Plan} {desc : Description} {keys sorted : List Value} {a c : Nat}
    (hp : plan desc s = (.ok p, t)) (hq : Quiet b s t)
    (hr : p.Runs (t.stored b).documents.values keys sorted a c) :
    ∃ w, count b desc s = (.ok (cut a c sorted).length, w) ∧ Quiet b s w := by
  obtain ⟨v, hv, hsame⟩ := Store.count_run hr
  have hcount := onCollection_run (f := fun n => Store.count n p) hv
  refine ⟨_, ?_, hq.trans (quiet_store hsame)⟩
  unfold count
  rw [bind_of_ok hp, hcount]

theorem size_run (h : Holding d b m s) :
    ∃ t, size b s = (.ok m.items.length, t) ∧ Holding d b m t := by
  obtain ⟨t, ht, hq⟩ := planEverything_run (b := b) s
  obtain ⟨w, hw, hq'⟩ := count_run ht hq (h.quiet hq).runs_everything
  refine ⟨w, ?_, h.quiet hq'⟩
  have hlength : (cut 0 0 (m.items.map Item.document)).length = m.items.length := by
    simp [cut]
  rwa [hlength] at hw

theorem contains_run (h : Holding d b m s) (u : Uuid) :
    ∃ t, contains b (uuid u) s = (.ok (decide (m.Has u)), t) ∧ Holding d b m t := by
  obtain ⟨f, t, hid, ht, hq⟩ := h.planId_run u 0
  obtain ⟨w, hw, hq'⟩ := count_run ht hq ((h.quiet hq).runs_forId u 0)
  refine ⟨w, ?_, h.quiet hq'⟩
  have hlength : (cut 0 0 ((m.find? u).toList.map Item.document)).length =
      (m.find? u).toList.length := by
    simp [cut]
  rw [hlength] at hw
  have hhas : decide (0 < (m.find? u).toList.length) = decide (m.Has u) :=
    decide_eq_decide.mpr (m.length_find? u)
  unfold contains
  rw [bind_of_ok hid, bind_of_ok hw, hhas]
  rfl

def objects (b : Nat) : Working (List Value) := do
  let r ← start b .everything false
  let (t, s) := take b r none (← get)
  set s
  match t.fault with
  | some e => throw e
  | none => pure t.items

theorem objects_run (h : Holding d b m s) :
    ∃ vs t, objects b s = (.ok vs, t) ∧ List.Forall₂ Item.Is vs m.items ∧ Holding d b m t := by
  obtain ⟨t, ht, hq⟩ := planEverything_run (b := b) s
  have hh := h.quiet hq
  obtain ⟨vs, ids, k, hreads, hvs⟩ := hh.decodes (fun _ ho => ho) (t.binding b).ids t.store.issued
  have hshown : Cursor.projectAll (t.stored b).idField (Reading.shown .everything none)
      (cut 0 0 (m.items.map Item.document)) = .ok (m.items.map Item.document) :=
    projectAll_null _ _
  obtain ⟨hitems, hfault, hids, hsame, _⟩ :=
    Reading.takeAll_ofPlan hh.runs_everything hshown hreads
  have hset : ∀ w : Session, (set w : Working PUnit) t = (.ok ⟨⟩, w) := fun w => rfl
  refine ⟨vs, t.withRead b ids _, ?_, hvs, hh.quiet (quiet_withRead hsame ids)⟩
  unfold objects
  rw [bind_of_ok (start_run ht b), bind_of_ok (run_get t), takeAll_run]
  dsimp only
  rw [bind_of_ok (hset _), hfault, hitems, hids]
  rfl

theorem find_run (h : Holding d b m s) (u : Uuid) :
    ∃ x t, find b (uuid u) s = (.ok x, t) ∧ Option.Rel Item.Is x (m.find? u) ∧
      Holding d b m t := by
  obtain ⟨f, t, hid, ht, hq⟩ := h.planId_run u 1
  have hh := h.quiet hq
  have hmem : ∀ o ∈ (m.find? u).toList, o ∈ m.items := by
    intro o ho
    rw [← ObjectMap.filter_id] at ho
    exact List.mem_of_mem_filter ho
  obtain ⟨vs, ids, k, hreads, hvs⟩ := hh.decodes hmem (t.binding b).ids t.store.issued
  have hone : ((m.find? u).toList.map Item.document).take 1 =
      (m.find? u).toList.map Item.document := by
    cases m.find? u <;> rfl
  have hshown : Cursor.projectAll (t.stored b).idField
      (Reading.shown (.forId d.schema.idField u 1) none)
      (cut 0 1 ((m.find? u).toList.map Item.document)) =
        .ok ((m.find? u).toList.map Item.document) := by
    have hcut : cut 0 1 ((m.find? u).toList.map Item.document) = _ := hone
    rw [hcut]
    exact projectAll_null _ _
  rw [← hone] at hreads
  obtain ⟨hitems, hfault, hids, hsame, _⟩ :=
    Reading.take_ofPlan (hh.runs_forId u 1) hshown hreads
  obtain ⟨w, hw, hsame'⟩ := first_run (d := ⟨[f], [], [], 0, 0⟩) ht rfl hfault
  rw [hitems, hids] at hw
  refine ⟨vs.head?, t.withRead b ids w, ?_, ?_, hh.quiet (quiet_withRead (hsame.trans hsame') ids)⟩
  · unfold find
    rw [bind_of_ok hid, hw]
  · cases hfind : m.find? u with
    | none =>
      rw [hfind] at hvs
      cases hvs
      exact .none
    | some o =>
      rw [hfind] at hvs
      cases hvs with
      | cons hv _ => exact .some hv

end Session

end DocStore
