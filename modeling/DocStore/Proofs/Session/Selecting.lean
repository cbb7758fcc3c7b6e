import DocStore.Proofs.Codec.Deficient
import DocStore.Proofs.Codec.Throughout
import DocStore.Proofs.Query.Selected
import DocStore.Proofs.Session.Answers
import DocStore.Proofs.Session.Tracking
import DocStore.Proofs.Session.Windows
import DocStore.Proofs.Store.Faulting

/-! Queries for some fields of the objects of a collection. They are read as objects of their own
classes, with what was left out filled in, unless the fields ask for the name of an embedded class
and not for all that the class must be given. -/

namespace DocStore

open Value

variable {d : Decoder} {r : Registry} {b : Nat} {m : ObjectMap d} {s t : Session} {o : Item d}
  {fields : List Field} {es : Entries}

namespace Item

/-- Whatever stands in the item's document can be read by itself. -/
def Legible (o : Item d) : Prop :=
  Codec.LegibleThroughout d.catalog d.schema o.names (dict o.entries)

theorem Legible.onward (hl : o.Legible) (hg : Registry.Grown d.catalog o.names r) :
    Codec.LegibleThroughout d.catalog d.schema r (dict o.entries) :=
  fun q u hu => (hl q u hu).onward hg.holds

/-- Objects that conform to the hints on their fields have such documents. -/
theorem legible_of_conforms {h : Hint} (hr : o.names.Coherent)
    (hs : ∀ c ∈ d.catalog.classes, c.identifiable = true → d.schema.Apart)
    (hv : Conforms d.catalog d.schema o.names h o.object) : o.Legible := by
  have hgrown := (Codec.toDocument_steady d.catalog d.schema o.object).grows o.written
  obtain ⟨t, hwritten, _⟩ := o.written_onward hgrown
  have hthroughout := Codec.throughout_written hr hs hv
  rwa [Codec.written_eq (Codec.toValue_of_toDocument hwritten)] at hthroughout

/-- What the fields of a query leave of the item's document. -/
def shown (fields : List Field) (o : Item d) : Value :=
  (project d.schema.idField (Plan.projectionOf d.schema fields) o.document).toOption.getD null

/-- The fields of a query leave something of the item's document that lacks what a class must be
given, below its top. -/
def Deficient (r : Registry) (fields : List Field) (o : Item d) : Prop :=
  Codec.Deficient d.catalog d.schema r (!fields.isEmpty) (o.shown fields)

/-- An object of the item's class, with its identifier, that was read from what the fields of a
query leave of the item's document. -/
structure ShownAs (r : Registry) (fields : List Field) (o : Item d) (v : Value) : Prop where
  classOf : v.classOf = o.object.classOf
  id : v.attribute "id" = .ok (uuid o.id)
  read : Codec.ReadFrom d.catalog d.schema r (!fields.isEmpty) .any (o.shown fields) v

theorem shown_selected (hclass : '.' ∉ d.schema.classField.toList) (fields : List Field)
    (o : Item d) : ∃ es, o.shown fields = dict es ∧
      project d.schema.idField (Plan.projectionOf d.schema fields) o.document = .ok (dict es) ∧
      Selected d.schema fields o.entries es := by
  obtain ⟨es, hes, hsel⟩ := project_selected hclass fields o.entries
  have hdocument : project d.schema.idField (Plan.projectionOf d.schema fields) o.document =
      .ok (dict es) := hes
  exact ⟨es, by rw [shown, hdocument]; rfl, hdocument, hsel⟩

theorem settles (hl : o.Legible) (hg : Registry.Grown d.catalog o.names r)
    (hr : r.Unchecked d.catalog) (hsel : Selected d.schema fields o.entries es) (partly : Bool) :
    Settles (Codec.Deficient d.catalog d.schema r partly (dict es))
      (Codec.fromDocument d.catalog d.schema r partly (dict es)) := by
  obtain ⟨name, hname⟩ := o.named
  exact Codec.cut_document_settles hr hsel.cut (hl.onward hg) (hsel.cls.trans hname)

theorem shownAs (ho : o.Traceable) (hg : Registry.Grown d.catalog o.names r)
    (hr : r.Unchecked d.catalog) (hshown : o.shown fields = dict es)
    (hsel : Selected d.schema fields o.entries es) {v : Value} {k k' : Nat}
    (hv : Codec.fromDocument d.catalog d.schema r (!fields.isEmpty) (dict es) k = (.ok v, k')) :
    o.ShownAs r fields v where
  classOf := part_class hg hsel.part hv
  id := part_id hg hsel.part hv ho.keepsId ho.carried (hsel.id.trans ho.carried)
  read := by
    rw [hshown]
    exact Codec.fromDocument_readFrom hr (Codec.decodeField_readFrom hr es) .any hv

/-- If no field asks for the name of an embedded class, nothing is lacking. -/
theorem sound (hclass : '.' ∉ d.schema.classField.toList) (hl : o.Legible)
    (hg : Registry.Grown d.catalog o.names r)
    (hf : ∀ f ∈ fields, d.schema.classField ∉ (segments f.name).tail) :
    ¬ o.Deficient r fields := by
  have hlegible := hl.onward hg
  by_cases hempty : fields = []
  · subst hempty
    exact (hlegible [] _ rfl).sound
  · obtain ⟨es, hshown, _, hsel⟩ := o.shown_selected hclass fields
    obtain ⟨name, hname⟩ := o.named
    obtain ⟨n, c, rfl, hs⟩ := (hlegible [] _ rfl).stands hname
    have hpartly : (!fields.isEmpty) = true := by simpa using hempty
    unfold Item.Deficient
    rw [hshown, Codec.deficient_named (hsel.cls.trans hname) hs, hpartly]
    rintro ⟨f, _, _, ⟨hno, _⟩ | ⟨u, hu, hd⟩⟩
    · cases hno
    · obtain ⟨v, hv, hcut⟩ := hsel.cut.entry hu
      refine Codec.cut_sound hcut (hlegible.entry hv) (fun q x hx => ?_) hd
      have hsame := hsel.whole hf (c.keyOf d.schema f :: q) x (List.cons_ne_nil _ _)
        (by rw [List.cons_append, getPath_dict, hu]; exact hx)
      rwa [getPath_dict, getPath_dict, hu, hv] at hsame

end Item

/-- The items of a map without the skipped ones, and no more than a limit, of which zero is none. -/
def ObjectMap.window (m : ObjectMap d) (skipped limited : Nat) : List (Item d) :=
  if limited = 0 then m.items.drop skipped else (m.items.drop skipped).take limited

theorem ObjectMap.cut_documents (m : ObjectMap d) (skipped limited : Nat) :
    cut skipped limited (m.items.map Item.document) =
      (m.window skipped limited).map Item.document := by
  unfold cut window
  split <;> simp [List.map_drop, List.map_take]

theorem ObjectMap.mem_window {skipped limited : Nat} (h : o ∈ m.window skipped limited) :
    o ∈ m.items := by
  unfold window at h
  split at h
  · exact List.mem_of_mem_drop h
  · exact List.mem_of_mem_drop (List.mem_of_mem_take h)

/-- What a reading comes to: all that it gave, or how it failed. -/
def Reading.Taken.outcome (x : Reading.Taken) : Except Error (List Value) :=
  match x.fault with
  | some e => .error e
  | none => .ok x.items

/-- The objects of a query, read one after the other. -/
def Session.listed (b : Nat) (desc : Description) : Working (List Value) := do
  let r ← start b desc false
  let (x, s) := take b r none (← get)
  set s
  liftExcept x.outcome

theorem Session.listed_run {desc : Description} {p : Plan} (h : plan desc s = (.ok p, t))
    (b : Nat) : (listed b desc s).1 = ((Reading.ofPlan (t.binding b).collection p none).takeAll
      t.decoder (t.binding b).ids t.store).outcome := by
  have hset : ∀ w : Session, (set w : Working PUnit) t = (.ok ⟨⟩, w) := fun w => rfl
  unfold listed
  rw [bind_of_ok (start_run h b), bind_of_ok (run_get t), takeAll_run]
  dsimp only
  rw [bind_of_ok (hset _), run_liftExcept]

/-- The plan of a query for fields. -/
def Plan.ofFields (sc : Schema) (fields : List Field) (skipped limited : Nat) : Plan :=
  ⟨dict [], projectionOf sc fields, list [], int skipped, int limited⟩

theorem Plan.isNull_ofFields (sc : Schema) (fields : List Field) (skipped limited : Nat) :
    (ofFields sc fields skipped limited).projection.isNull = fields.isEmpty := by
  cases fields <;> rfl

/-- A query for fields. -/
def Description.ofFields (fields : List Field) (skipped limited : Nat) : Description :=
  ⟨[], [], fields, skipped, limited⟩

theorem Session.planFields_run (fields : List Field) (skipped limited : Nat) (s : Session) :
    ∃ j, plan (.ofFields fields skipped limited) s =
      (.ok (.ofFields s.schema fields skipped limited), s.withNames s.registry j) :=
  plan_run rfl

theorem Session.Holding.runs_fields (h : Holding d b m s) (sc : Schema) (fields : List Field)
    (skipped limited : Nat) :
    (Plan.ofFields sc fields skipped limited).Runs (s.stored b).documents.values []
      (m.items.map Item.document) skipped limited := by
  have hr := h.runs_everything.paged skipped limited
  exact ⟨hr.skips, hr.limits, hr.reads, hr.answered, hr.sorts⟩

theorem projectAll_shown (hclass : '.' ∉ d.schema.classField.toList) (fields : List Field)
    (os : List (Item d)) : Cursor.projectAll d.schema.idField
      (Plan.projectionOf d.schema fields) (os.map Item.document) =
        .ok (os.map (Item.shown fields)) := by
  induction os with
  | nil => rfl
  | cons o os ih =>
    obtain ⟨es, hshown, hes, _⟩ := o.shown_selected hclass fields
    exact Reading.projectAll_cons.mpr ⟨dict es, _, hes, ih, by rw [List.map_cons, hshown]⟩

section Read

variable {e : Decoder} (hcat : e.catalog = d.catalog) (hschema : e.schema = d.schema)
  (hclass : '.' ∉ d.schema.classField.toList) (hr : e.registry.Unchecked d.catalog)
include hcat hschema hclass hr

/-- What the fields leave of an item is read as an object of the item's class, or it fails for what
it lacks. -/
theorem readDocument_shown (ho : o.Traceable) (hl : o.Legible)
    (hg : Registry.Grown d.catalog o.names e.registry) (ids : IdSet) (k : Nat) :
    (¬ o.Deficient e.registry fields → ∃ v ids' k', o.ShownAs e.registry fields v ∧
      readDocument e none (!fields.isEmpty) ids (o.shown fields) k = (.ok (v, ids'), k')) ∧
    (o.Deficient e.registry fields → ∃ name key k',
      readDocument e none (!fields.isEmpty) ids (o.shown fields) k =
        (.error (.unserializable (.missingField name key)), k')) := by
  obtain ⟨es, hshown, _, hsel⟩ := o.shown_selected hclass fields
  have hsettles := o.settles hl hg hr hsel (!fields.isEmpty)
  unfold Item.Deficient
  rw [hshown]
  refine ⟨fun hd => ?_, fun hd => ?_⟩
  · obtain ⟨v, k', hv⟩ := hsettles.succeeds hd k
    have has := o.shownAs ho hg hr hshown hsel hv
    rw [← hcat, ← hschema] at hv
    obtain ⟨ids', hread⟩ := object_run (d := e) hv (fun _ => ⟨_, has.id, rfl⟩) ids
    exact ⟨v, ids', k', has, hread⟩
  · obtain ⟨name, key, k', hfail⟩ := hsettles.fails hd k
    rw [← hcat, ← hschema] at hfail
    exact ⟨name, key, k', bind_of_error hfail⟩

theorem reads_shown {os : List (Item d)} (ho : ∀ o ∈ os, o.Traceable ∧ o.Legible)
    (hg : ∀ o ∈ os, Registry.Grown d.catalog o.names e.registry)
    (hd : ∀ o ∈ os, ¬ o.Deficient e.registry fields) (ids : IdSet) (k : Nat) :
    ∃ vs ids' k', Reads e none (!fields.isEmpty) (os.map (Item.shown fields)) ids k vs ids' k' ∧
      List.Forall₂ (Item.ShownAs e.registry fields) os vs := by
  induction os generalizing ids k with
  | nil => exact ⟨[], ids, k, .nil ids k, .nil⟩
  | cons o os ih =>
    obtain ⟨hofirst, horest⟩ := List.forall_mem_cons.mp ho
    obtain ⟨hgfirst, hgrest⟩ := List.forall_mem_cons.mp hg
    obtain ⟨hdfirst, hdrest⟩ := List.forall_mem_cons.mp hd
    obtain ⟨v, ids₁, k₁, has, hread⟩ := (readDocument_shown hcat hschema hclass hr hofirst.1
      hofirst.2 hgfirst ids k).1 hdfirst
    obtain ⟨vs, ids₂, k₂, hreads, hvs⟩ := ih horest hgrest hdrest ids₁ k₁
    exact ⟨v :: vs, ids₂, k₂, .cons hread hreads, .cons has hvs⟩

end Read

namespace Session

section Fields

variable {skipped limited : Nat}

theorem Holding.count_fields (h : Holding d b m s) (fields : List Field) (skipped limited : Nat) :
    (count b (.ofFields fields skipped limited) s).1 = .ok (m.window skipped limited).length := by
  obtain ⟨j, hplan⟩ := planFields_run fields skipped limited s
  have hq : Quiet b s (s.withNames s.registry j) := quiet_withNames (.refl _ _) j
  obtain ⟨w, hw, _⟩ := count_run hplan hq ((h.quiet hq).runs_fields s.schema fields skipped limited)
  rw [hw, ObjectMap.cut_documents, List.length_map]

variable (h : Holding d b m s) (hclass : '.' ∉ d.schema.classField.toList)
include h hclass

/-- A query for fields is read from the documents of the window, as far as the fields show them. -/
theorem Holding.fields_opened (fields : List Field) (skipped limited : Nat) :
    ∃ (p : Plan) (t : Session), Holding d b m t ∧ t.registry = s.registry ∧
      p.projection.isNull = fields.isEmpty ∧
      p.Runs (t.stored b).documents.values [] (m.items.map Item.document) skipped limited ∧
      Cursor.projectAll (t.stored b).idField (Reading.shown p none)
        (cut skipped limited (m.items.map Item.document)) =
          .ok ((m.window skipped limited).map (Item.shown fields)) ∧
      (listed b (.ofFields fields skipped limited) s).1 =
        ((Reading.ofPlan (t.binding b).collection p none).takeAll t.decoder (t.binding b).ids
          t.store).outcome := by
  obtain ⟨j, hplan⟩ := planFields_run fields skipped limited s
  have hh : Holding d b m (s.withNames s.registry j) := h.quiet (quiet_withNames (.refl _ _) j)
  have hruns := hh.runs_fields s.schema fields skipped limited
  refine ⟨_, _, hh, rfl, Plan.isNull_ofFields .., hruns, ?_, listed_run hplan b⟩
  rw [ObjectMap.cut_documents, hh.idField]
  have hall := projectAll_shown hclass fields (m.window skipped limited)
  rwa [← h.schema] at hall ⊢

variable (hr : s.registry.Unchecked d.catalog)
  (ho : ∀ o ∈ m.window skipped limited, o.Traceable ∧ o.Legible)
include hr ho

/-- If what the fields leave lacks nothing, every object of the window is shown. -/
theorem Holding.listed_all
    (hd : ∀ o ∈ m.window skipped limited, ¬ o.Deficient s.registry fields) :
    ∃ vs, (listed b (.ofFields fields skipped limited) s).1 = .ok vs ∧
      List.Forall₂ (Item.ShownAs s.registry fields) (m.window skipped limited) vs := by
  obtain ⟨p, t, ht, hnames, hpartly, hruns, hshown, hlisted⟩ :=
    h.fields_opened hclass fields skipped limited
  rw [← hnames] at hr hd ⊢
  obtain ⟨vs, ids, k, hreads, hvs⟩ := reads_shown (e := t.decoder) ht.catalog ht.schema hclass hr ho
    (fun o hm => ht.named o (ObjectMap.mem_window hm)) hd (t.binding b).ids t.store.issued
  rw [← hpartly] at hreads
  obtain ⟨hitems, hfault, _⟩ := Reading.takeAll_ofPlan hruns hshown hreads
  refine ⟨vs, ?_, hvs⟩
  rw [hlisted, Reading.Taken.outcome, hfault, hitems]

/-- If what the fields leave of some object lacks something, the query fails for it. -/
theorem Holding.listed_refused
    (hd : ∃ o ∈ m.window skipped limited, o.Deficient s.registry fields) :
    ∃ name key, (listed b (.ofFields fields skipped limited) s).1 =
      .error (.unserializable (.missingField name key)) := by
  classical
  obtain ⟨p, t, ht, hnames, hpartly, hruns, hshown, hlisted⟩ :=
    h.fields_opened hclass fields skipped limited
  rw [← hnames] at hr hd
  obtain ⟨o, hmem, hlacks⟩ := hd
  -- the first object that lacks something comes after some that do not
  obtain ⟨o, before, after, hbefore, hlacks, hitems, _⟩ :=
    List.exists_of_eraseP (p := fun o => decide (Item.Deficient t.registry fields o)) hmem
      (decide_eq_true hlacks)
  simp only [decide_eq_true_eq] at hbefore hlacks
  have hnamed (o : Item d) (hm : o ∈ m.window skipped limited) :
      Registry.Grown d.catalog o.names t.registry := ht.named o (ObjectMap.mem_window hm)
  rw [hitems] at ho hnamed hshown
  obtain ⟨vs, ids, k, hreads, _⟩ := reads_shown (e := t.decoder) ht.catalog ht.schema hclass hr
    (fun o hm => ho o (by simp [hm])) (fun o hm => hnamed o (by simp [hm])) hbefore
    (t.binding b).ids t.store.issued
  obtain ⟨htraceable, hlegible⟩ := ho o (by simp)
  obtain ⟨name, key, k', hfails⟩ := (readDocument_shown (e := t.decoder) ht.catalog ht.schema
    hclass hr htraceable hlegible (hnamed o (by simp)) ids k).2 hlacks
  rw [← hpartly] at hreads hfails
  rw [List.map_append, List.map_cons] at hshown
  obtain ⟨_, hfault⟩ := Reading.takeAll_refused hruns hshown hreads hfails
  refine ⟨name, key, ?_⟩
  rw [hlisted, Reading.Taken.outcome, hfault]

end Fields

end Session

/-- A query for fields counts the objects of its window. They are read as objects of their own
classes, with what the fields left out filled in, if nothing is lacking, and else the query fails
for a missing field. Nothing is lacking unless a field asks for the name of an embedded class. -/
theorem fields_listed {s : Session} {b : Nat} (h : s.Opens b)
    (hclass : '.' ∉ s.schema.classField.toList) (qs : List (Request s.decoder))
    (ho : ∀ q ∈ qs, ∀ o ∈ q.written, o.Traceable ∧ o.Legible) {t : Session}
    (ht : (Session.answers b qs s).2 = t) (hr : t.registry.Unchecked s.catalog)
    (fields : List Field) (skipped limited : Nat) {os : List (Item s.decoder)}
    (hos : (ObjectMap.answers qs .empty).2.window skipped limited = os) :
    (Session.count b (.ofFields fields skipped limited) t).1 = .ok os.length ∧
    (∀ o ∈ os, project s.schema.idField (Plan.projectionOf s.schema fields) o.document =
      .ok (o.shown fields)) ∧
    ((∀ o ∈ os, ¬ o.Deficient t.registry fields) →
      ∃ vs, (Session.listed b (.ofFields fields skipped limited) t).1 = .ok vs ∧
        List.Forall₂ (Item.ShownAs t.registry fields) os vs) ∧
    ((∃ o ∈ os, o.Deficient t.registry fields) →
      ∃ name key, (Session.listed b (.ofFields fields skipped limited) t).1 =
        .error (.unserializable (.missingField name key))) ∧
    ((∀ f ∈ fields, s.schema.classField ∉ (segments f.name).tail) →
      ∀ o ∈ os, ¬ o.Deficient t.registry fields) := by
  subst ht hos
  have hholds := (Session.answers_hold h.holding qs fun q hq o hw => (ho q hq o hw).1.carried).2
  have hwindow : ∀ o ∈ (ObjectMap.answers qs .empty).2.window skipped limited,
      o.Traceable ∧ o.Legible := by
    intro o hm
    rcases ObjectMap.mem_answers (ObjectMap.mem_window hm) with hm | ⟨q, hq, hw⟩
    · cases hm
    · exact ho q hq o hw
  refine ⟨hholds.count_fields fields skipped limited, fun o _ => ?_,
    hholds.listed_all hclass hr hwindow, hholds.listed_refused hclass hr hwindow,
    fun hf o hm => ?_⟩
  · obtain ⟨es, hshown, hes, _⟩ := o.shown_selected hclass fields
    rw [hshown]
    exact hes
  · exact o.sound hclass (hwindow o hm).2 (hholds.named o (ObjectMap.mem_window hm)) hf

def livingIn (city street : String) : Value :=
  .record "Address" [(str "city", str city), (str "street", str street)]

def resident (city street : String) : Value :=
  .record "Person" [(str "id", uuid (.ofNat 1)), (str "name", str "Ada"), (str "age", int 36),
    (str "level", Models.junior), (str "address", livingIn city street), (str "tags", list [])]

def residentNames : Registry :=
  ⟨[("Person", "Person"), ("Address", "Address")], [("Person", "Person"), ("Address", "Address")]⟩

theorem equal_resident (city street : String) :
    equal (resident city street) (resident city street) = true := by
  have hage : numberEqual false (int 36) (int 36) = true := rfl
  have hlevel : eqv false Models.junior Models.junior = true := rfl
  simp [equal, resident, livingIn, eqv, eqvEntries, eqvEntry, eqvList, hage, hlevel]

/-- A person with an address. -/
def residentItem (city street : String) : Item peopleSession.decoder where
  object := resident city street
  id := .ofNat 1
  identifiable := rfl
  identified := rfl
  entries := [(str "_id", uuid (.ofNat 1)), (str "class", str "Person"), (str "revision", int 2),
    (str "name", str "Ada"), (str "age", int 36), (str "level", str "junior"),
    (str "address", dict [(str "class", str "Address"), (str "city", str city),
      (str "street", str street)]), (str "tags", list [])]
  names := residentNames
  written := rfl
  returns := fun m => ⟨resident city street, m, rfl, equal_resident city street⟩

theorem traceable_resident (city street : String) : (residentItem city street).Traceable := by
  refine ⟨(residentItem city street).carried_of_names rfl (by decide) (by decide) ?_, ?_⟩
  · intro f hf hid
    have hname : peopleSession.decoder.schema.idField = "_id" := rfl
    simp only [List.mem_cons, List.not_mem_nil, or_false] at hf
    rcases hf with rfl | rfl | rfl | rfl | rfl | rfl <;> simp [hname] at hid
  · intro cls fs c hobject hc
    cases hobject
    obtain rfl : Models.person = c := Option.some.inj hc
    exact ⟨⟨Models.idField, by simp [Models.person, Models.identified], rfl, rfl⟩,
      fun fs gs hfinish => by cases hfinish; rfl⟩

theorem legible_resident (city street : String) : (residentItem city street).Legible := by
  have hlevel : Conforms Models.catalog .standard residentNames Models.levelHint Models.junior :=
    .member (e := Models.level) (m := ("JUNIOR", str "junior")) rfl Codec.level_sound
      (by simp [Models.level])
  have haddress : Conforms Models.catalog .standard residentNames
      (.optional (.cls (.entity "Address"))) (livingIn city street) := by
    refine .record (c := Models.address) (n := "Address") rfl rfl
      ⟨by decide, by decide, by decide, rfl⟩ rfl rfl rfl ?_
    simp only [Models.address, Models.plain, List.zip_cons_cons, List.zip_nil_left,
      List.forall_mem_cons]
    exact ⟨.scalar rfl (by simp), .scalar rfl (by simp), by simp⟩
  have hperson : Conforms Models.catalog .standard residentNames (.cls (.entity "Person"))
      (resident city street) := by
    refine .record (c := Models.person) (n := "Person") rfl rfl
      ⟨by decide, by decide, by decide, rfl⟩ rfl rfl rfl ?_
    simp only [Models.person, Models.identified, List.zip_cons_cons, List.zip_nil_left,
      List.forall_mem_cons]
    exact ⟨.scalar rfl fun _ => rfl, .scalar rfl (by decide), .scalar rfl (by decide), hlevel,
      haddress, .list (by simp), by simp⟩
  have hfirst : Registry.empty.register Models.catalog (.cls (.entity "Person")) none =
      .ok ⟨[("Person", "Person")], [("Person", "Person")]⟩ := rfl
  have hsecond : Registry.register Models.catalog ⟨[("Person", "Person")], [("Person", "Person")]⟩
      (.cls (.entity "Address")) none = .ok residentNames := rfl
  have hreached : Registry.Reached Models.catalog residentNames :=
    .register (.register .empty hfirst) hsecond
  exact Item.legible_of_conforms hreached.coherent (fun _ _ _ => Codec.standard_apart) hperson

/-- A session in which a person lives in a street of London. -/
def londonSession : Session :=
  (Session.answers 0 [.insert (residentItem "London" "Main")] peopleSession).2

theorem unchecked_london : londonSession.registry.Unchecked peopleSession.catalog := by
  have hnames : londonSession.registry = residentNames := rfl
  intro n c hs
  have hheld := hs.held
  simp only [hnames, Registry.classNamed?, residentNames, List.lookup_cons] at hheld
  have hnamed : c.name = "Person" ∨ c.name = "Address" := by
    split at hheld
    · exact .inl (Option.some.inj hheld).symm
    · split at hheld
      · exact .inr (Option.some.inj hheld).symm
      · cases hheld
  have hknown := hs.known
  rcases hnamed with hc | hc
  · rw [hc] at hknown
    obtain rfl : Models.person = c := Option.some.inj hknown
    exact ⟨by decide, fun _ => rfl⟩
  · rw [hc] at hknown
    obtain rfl : Models.address = c := Option.some.inj hknown
    exact ⟨by decide, fun _ => rfl⟩

/-- People as far as the streets that they live in. -/
def streets : List Field := [⟨"address.street", .object, rfl⟩]

theorem fields_listed_london :
    (Session.count 0 (.ofFields streets 0 0) londonSession).1 = .ok 1 ∧
      ∃ v, (Session.listed 0 (.ofFields streets 0 0) londonSession).1 = .ok [v] ∧
        v.classOf = .entity "Person" ∧ v.attribute "id" = .ok (uuid (.ofNat 1)) := by
  have hone : (ObjectMap.answers [.insert (residentItem "London" "Main")] .empty).2.window 0 0 =
      [residentItem "London" "Main"] := rfl
  obtain ⟨hcount, _, hlisted, _, hsound⟩ := fields_listed opens_people (by decide)
    [.insert (residentItem "London" "Main")] (by
      simp only [List.mem_singleton, forall_eq, Request.written]
      exact ⟨traceable_resident _ _, legible_resident _ _⟩)
    (t := londonSession) rfl unchecked_london streets 0 0 hone
  obtain ⟨vs, hvs, hshown⟩ := hlisted (hsound (by decide))
  obtain ⟨v, _, hv, hnone, rfl⟩ := List.forall₂_cons_left_iff.mp hshown
  cases hnone
  exact ⟨hcount, v, hvs, hv.classOf, hv.id⟩

/-- People as far as the streets that they live in, and the names of the classes of these places. -/
def streetsNamed : List Field := ⟨"address.class", .object, rfl⟩ :: streets

/-- If the name of an embedded class is left, but not all that the class must be given, the query
fails. -/
theorem fields_refused_london :
    ∃ e, (Session.listed 0 (.ofFields streetsNamed 0 0) londonSession).1 = .error e ∧
      e.message = "Document for 'Address' is missing required field 'city'" := by
  -- the kernel reads the document, as string comparisons do not unfold otherwise
  have hfails : (Session.listed 0 (.ofFields streetsNamed 0 0) londonSession).1.casesOn
      (fun e => e.message == "Document for 'Address' is missing required field 'city'")
      (fun _ => false) = true := by decide +kernel
  cases hlisted : (Session.listed 0 (.ofFields streetsNamed 0 0) londonSession).1 with
  | error e =>
    rw [hlisted] at hfails
    exact ⟨e, rfl, by simpa using hfails⟩
  | ok vs =>
    rw [hlisted] at hfails
    cases hfails

end DocStore
