import DocStore.Proofs.Filter.Compile
import DocStore.Proofs.Session.Quiet
import DocStore.Proofs.Session.Releasing
import DocStore.Proofs.Store.Shown

/-! Work through a binding leaves cursors and bindings as they are, and of identifiers it notes only
the one it is about. -/

namespace DocStore

open Value

namespace Session

/-- Another session with the same cursors and bindings, which knows more names of classes and, at a
binding, has seen more identifiers, but only some with a property. -/
structure Beside (Q : Value → Prop) (b : Nat) (s t : Session) : Prop where
  catalog : t.catalog = s.catalog
  grown : Registry.Grown s.catalog s.registry t.registry
  size : t.bindings.length = s.bindings.length
  collection : (t.binding b).collection = (s.binding b).collection
  ids : (s.binding b).ids.Gains Q (t.binding b).ids
  store : s.store.Aside t.store

variable {Q : Value → Prop} {b : Nat} {s t : Session} {d : Description} {v : Value}

instance : IsPreorder Session (Beside Q b) where
  refl s := ⟨rfl, .refl _ _, rfl, rfl, refl_of (IdSet.Gains Q) _, refl_of Store.Aside _⟩
  trans s t u h h' := by
    have hgrown := h'.grown
    rw [h.catalog] at hgrown
    exact ⟨h'.catalog.trans h.catalog, h.grown.trans hgrown, h'.size.trans h.size,
      h'.collection.trans h.collection, trans_of (IdSet.Gains Q) h.ids h'.ids,
      trans_of Store.Aside h.store h'.store⟩

theorem beside_naming {α : Type} {x : Naming α} (hx : Steady s.catalog x) :
    Beside Q b s (naming x s).2 :=
  ⟨rfl, hx.grown s.registry, rfl, rfl, refl_of (IdSet.Gains Q) _, refl_of Store.Aside _⟩

theorem beside_onStore {α : Type} {x : Storing α} (hx : Within Store.Aside x) :
    Within (Beside Q b) (onStore x) :=
  fun s => ⟨rfl, .refl _ _, rfl, rfl, refl_of (IdSet.Gains Q) _, hx s.store⟩

theorem beside_onCollection {α : Type} {f : Nat → Storing α} (hf : ∀ n, Within Store.Aside (f n)) :
    Within (Beside Q b) (onCollection b f) :=
  within_bind within_get fun _ => beside_onStore (hf _)

theorem beside_note (r : LogRecord) : Within (Beside Q b) (note r) :=
  beside_onStore (Store.aside_note r)

theorem beside_debug (words : String → String) : Within (Beside Q b) (debug b words) :=
  within_bind within_get fun _ => beside_note _

theorem beside_missing (id : Value) : Within (Beside Q b) (missing b id) :=
  within_bind within_get fun _ => within_throw _

theorem beside_document (object : Value) : Within (Beside Q b) (document object) :=
  within_of_get fun s => beside_naming (Codec.toDocument_steady s.catalog s.schema object)

theorem beside_idQuery (id : Value) : Within (Beside Q b) (idQuery id) :=
  within_of_get fun s =>
    bind_related (beside_naming (Codec.toValue_steady s.catalog s.schema id)) fun _ =>
      within_pure _

theorem beside_add {ids : IdSet} (hadd : (s.binding b).ids.add v = .ok ids) (hv : Q v) :
    Beside Q b s (s.withRead b ids s.store) := by
  by_cases hb : b < s.bindings.length
  · refine ⟨rfl, .refl _ _, by simp [withRead], ?_, ?_, refl_of Store.Aside _⟩
    · rw [binding_withRead hb]
    · rw [binding_withRead hb]
      exact IdSet.gains_add hadd hv
  · have hsame : s.withRead b ids s.store = s := by
      unfold withRead
      rw [List.set_eq_of_length_le (Nat.le_of_not_lt hb)]
    rw [hsame]
    exact refl_of (Beside Q b) s

theorem beside_insert (object : Value) (hQ : ∀ id, object.attribute "id" = .ok id → Q id) :
    Within (Beside Q b) (insert b object) := by
  refine within_bind (beside_document object) fun document =>
    within_bind (beside_onCollection fun n => Store.aside_insert n document) fun _ =>
    within_bind_liftExcept fun id hid => within_of_get fun s => ?_
  cases hadd : (s.binding b).ids.add id with
  | error e =>
    rw [bind_of_error (run_liftExcept _ s)]
    exact refl_of (Beside Q b) s
  | ok ids =>
    rw [bind_of_ok (run_liftExcept _ s)]
    exact bind_related (beside_add hadd (hQ id hid)) fun _ => beside_debug _

/-- An object that was inserted is seen. -/
theorem insert_seen {object : Value} {u : Uuid} (hb : b < s.bindings.length)
    (hid : object.attribute "id" = .ok (uuid u)) (h : insert b object s = (.ok (), t)) :
    uuid u ∈ (t.binding b).ids.ids := by
  obtain ⟨document, s₁, hdocument, h⟩ := bind_eq_ok_iff.mp h
  obtain ⟨_, s₂, hstore, h⟩ := bind_eq_ok_iff.mp h
  have hsize : s₂.bindings.length = s.bindings.length := by
    have hfirst := beside_document (Q := fun _ => False) (b := b) object s
    have hthen := beside_onCollection (Q := fun _ => False) (b := b)
      (fun n => Store.aside_insert n document) s₁
    rw [hdocument] at hfirst
    rw [hstore] at hthen
    exact hthen.size.trans hfirst.size
  obtain ⟨ids, hadd, hsee⟩ := see_run b u s₂
  rw [hid, bind_of_ok (run_liftExcept _ s₂), bind_of_ok (run_get s₂), hadd,
    bind_of_ok (run_liftExcept _ s₂), bind_of_ok hsee] at h
  obtain rfl := congrArg Prod.snd h
  change uuid u ∈ ((s₂.withRead b ids s₂.store).binding b).ids.ids
  rw [binding_withRead (hsize ▸ hb)]
  exact IdSet.mem_of_add_uuid hadd

theorem beside_replace (object : Value) : Within (Beside Q b) (replace b object) := by
  refine within_bind (beside_document object) fun document =>
    within_bind (within_liftExcept _) fun id => within_bind (beside_idQuery id) fun q =>
    within_bind (beside_onCollection fun n => Store.aside_onCollection _) fun found => ?_
  cases found with
  | none => exact beside_missing id
  | some _ => exact beside_debug _

theorem beside_noteAll (logger : String) (ts : List String) :
    Within (Beside Q b) (noteAll logger ts) := by
  induction ts with
  | nil => exact within_pure ()
  | cons w ts ih => exact within_bind (beside_note _) fun _ => ih

theorem beside_plan (d : Description) : Within (Beside Q b) (plan d) := by
  refine within_of_get fun s => ?_
  have hplan : Steady s.catalog
      (Plan.ofDescription s.catalog s.schema s.settings.maxDepth d) :=
    (Filter.compileAll_steady s.catalog s.schema s.settings.maxDepth d.filters []).bind
      fun _ => (Steady.lift _).bind fun _ => .pure _
  exact bind_related (beside_naming hplan) fun p =>
    within_step (beside_noteAll _ _) fun _ => within_pure p

theorem quiet_plan (b : Nat) (d : Description) (s : Session) : Quiet b s (plan d s).2 := by
  have hgrown := (beside_plan (Q := fun _ => False) (b := b) d s).grown
  obtain ⟨names, j, h⟩ := plan_names d s
  rw [h] at hgrown ⊢
  exact quiet_withNames hgrown j

theorem plan_inclusive {p : Plan} (h : (plan d s).1 = .ok p) : Inclusive p.projection := by
  rcases hp : plan d s with ⟨a, t⟩
  rw [hp] at h
  cases h
  obtain ⟨names, j, hdesc, _⟩ := plan_eq_ok hp
  obtain ⟨query, keys, _, _, rfl⟩ := ofDescription_eq_ok hdesc
  exact inclusive_projectionOf s.schema d.fields

/-- A reading is started once its description is planned. -/
theorem start_planned (b : Nat) (d : Description) (idsOnly : Bool) (s : Session) :
    (∃ e, start b d idsOnly s = (.error e, (plan d s).2)) ∨
      ∃ p only, (plan d s).1 = .ok p ∧ start b d idsOnly s =
        (.ok (Reading.ofPlan ((plan d s).2.binding b).collection p only), (plan d s).2) := by
  unfold start
  rcases hp : plan d s with ⟨e | p, t⟩
  · exact .inl ⟨e, bind_of_error hp⟩
  · exact .inr ⟨p, if idsOnly then some t.schema.idField else none, rfl, bind_of_ok hp⟩

end Session

end DocStore
