import DocStore.Catalog.Models
import DocStore.Proofs.Codec.Passing
import DocStore.Proofs.Codec.Reading

/-! Reading undoes writing: the document of an object is read as the object. -/

namespace DocStore

open Value

variable {c : ClassSpec} {g : String → Value}

theorem lookup_fields {specs : List FieldSpec} {f : FieldSpec} (hf : f ∈ specs) :
    (specs.map fun f => (f.name, g f.name)).lookup f.name = some (g f.name) := by
  induction specs with
  | nil => cases hf
  | cons f' specs ih =>
    rw [List.map_cons, List.lookup_cons]
    by_cases hn : f.name = f'.name
    · simp [hn]
    · rw [beq_eq_false_iff_ne.mpr hn]
      rcases List.mem_cons.mp hf with rfl | hf
      · exact absurd rfl hn
      · exact ih hf

theorem ClassSpec.fill_run {entries : List (String × Value)} {specs : List FieldSpec}
    (h : ∀ f ∈ specs, entries.lookup f.name = some (g f.name)) (m : Nat) :
    fill entries specs m = (.ok (.ok (specs.map fun f => (str f.name, g f.name))), m) := by
  induction specs with
  | nil => rfl
  | cons f specs ih =>
    have hrest := ih fun f' hf => h f' (by simp [hf])
    rw [fill, h f (by simp)]
    dsimp only
    rw [bind_of_ok (run_pure _ m)]
    dsimp only
    rw [map_eq_bind, bind_of_ok hrest]
    rfl

theorem ClassSpec.construct_run (hgiven : ∀ f ∈ c.fields, f.given = true) (m : Nat) :
    c.construct (c.fields.map fun f => (f.name, g f.name)) m =
      (.ok ((c.finish (c.fields.map fun f => (str f.name, g f.name))).map (.record c.name)), m) := by
  have hknown : (c.fields.map fun f => (f.name, g f.name)).all (fun p =>
      c.fields.any fun f => f.given && f.name == p.1) = true := by
    rw [List.all_eq_true]
    intro p hp
    obtain ⟨f, hf, rfl⟩ := List.mem_map.mp hp
    exact List.any_eq_true.mpr ⟨f, hf, by simp [hgiven f hf]⟩
  unfold ClassSpec.construct
  simp only [hknown, Bool.true_and]
  rw [if_pos, bind_of_ok (fill_run (fun _ => lookup_fields) m)]
  · rfl
  · rw [List.all_eq_true]
    intro f hf
    split
    · exact List.any_eq_true.mpr ⟨_, List.mem_map_of_mem hf, by simp⟩
    · rfl

namespace Codec

variable {cat : Catalog} {s : Schema} {r : Registry} {c : ClassSpec} {n : String} {fs : Entries}

/-- A record of a class under its name, all of whose fields come back. -/
structure Returned (cat : Catalog) (s : Schema) (r : Registry) (c : ClassSpec) (n : String)
    (fs : Entries) : Prop where
  known : cat.class? c.name = some c
  apart : c.identifiable = true → s.Apart
  sound : c.Sound s
  named : r.nameOf? c.name = some n
  held : r.classNamed? n = some c.name
  keys : fs.map Prod.fst = c.fields.map fun f => str f.name
  finished : c.finish fs = .ok fs
  fields : ∀ f ∈ c.fields, Returns cat s r (c.hintOf f) (fieldOf fs f.name)
  /-- The identifier is not encoded, and must come back as it is. -/
  raw : ∀ f ∈ c.fields, ∀ m,
    decode cat s r (fieldOf fs f.name) (c.hintOf f) m = (.ok (fieldOf fs f.name), m)

namespace Returned

theorem body_keyed (h : Returned cat s r c n fs) : Entries.Keyed (body cat s r c fs) := by
  constructor
  · intro p hp
    obtain ⟨f, _, rfl⟩ := List.mem_map.mp hp
    exact ⟨f.name, rfl⟩
  · have hnames : (c.fields.filter fun f => !c.identity f).Pairwise fun f f' => f.name ≠ f'.name :=
      (List.pairwise_map.mp h.sound.names).filter _
    exact List.pairwise_map.mpr (hnames.imp fun hne he => hne (str.inj he))

theorem mem_front {p : Value × Value} (hp : p ∈ front s c n fs) :
    p.1 = str s.classField ∨ p.1 = str s.idField ∨ p.1 = str s.revisionField := by
  unfold front at hp
  split at hp
  · simp only [List.mem_cons, List.not_mem_nil, or_false] at hp
    rcases hp with rfl | rfl | rfl
    · exact .inr (.inl rfl)
    · exact .inl rfl
    · exact .inr (.inr rfl)
  · rw [List.mem_singleton.mp hp]
    exact .inl rfl

theorem front_keyed (h : Returned cat s r c n fs) : Entries.Keyed (front s c n fs) := by
  unfold front
  cases hi : c.identifiable with
  | false => exact .singleton _ _
  | true =>
    have ha := h.apart hi
    refine ⟨by simp, ?_⟩
    simp [ha.id_class, ha.id_revision, ha.class_revision]

theorem disjoint (h : Returned cat s r c n fs) :
    ∀ q ∈ body cat s r c fs, ∀ p ∈ front s c n fs, p.1 ≠ q.1 := by
  intro q hq p hp he
  obtain ⟨f, hf, rfl⟩ := List.mem_map.mp hq
  obtain ⟨hf, hid⟩ := List.mem_filter.mp hf
  obtain ⟨hfid, hfclass, hfrevision⟩ := h.sound.free f hf (by simpa using hid)
  rcases mem_front hp with hk | hk | hk
  · exact hfclass (str.inj (he.symm.trans hk))
  · exact hfid (str.inj (he.symm.trans hk))
  · exact hfrevision (str.inj (he.symm.trans hk))

theorem keyed (h : Returned cat s r c n fs) :
    Entries.Keyed (front s c n fs ++ body cat s r c fs) :=
  h.front_keyed.append h.body_keyed h.disjoint

theorem toValue_run (h : Returned cat s r c n fs) :
    toValue cat s (.record c.name fs) r = (.ok (dict (front s c n fs ++ body cat s r c fs)), r) := by
  have hfields := toFields_run h.known (g := fieldOf fs) fun f hf => (h.fields f hf).wrote
  rw [← fields_eq (keyed_fields h.sound h.keys) h.keys] at hfields
  have hmerge := Entries.merge_of_disjoint h.body_keyed h.disjoint
  rw [toValue, bind_of_ok (header_run h.apart h.known h.named), bind_of_ok hfields]
  change (Except.ok (dict (Entries.merge (front s c n fs) (body cat s r c fs))), r) = _
  rw [hmerge]

theorem get?_class (h : Returned cat s r c n fs) :
    Entries.get? (str s.classField) (front s c n fs ++ body cat s r c fs) = some (str n) := by
  refine h.keyed.get?_of_mem (List.mem_append_left _ ?_)
  unfold front
  split <;> simp

theorem get?_id (h : Returned cat s r c n fs) (hi : c.identifiable = true) :
    Entries.get? (str s.idField) (front s c n fs ++ body cat s r c fs) =
      some (fieldOf fs "id") := by
  refine h.keyed.get?_of_mem (List.mem_append_left _ ?_)
  simp [front, hi]

theorem get?_field (h : Returned cat s r c n fs) {f : FieldSpec} (hf : f ∈ c.fields)
    (hid : c.identity f = false) :
    Entries.get? (str f.name) (front s c n fs ++ body cat s r c fs) =
      some (written cat s r (fieldOf fs f.name)) := by
  refine h.keyed.get?_of_mem (List.mem_append_right _ ?_)
  exact List.mem_map.mpr ⟨f, List.mem_filter.mpr ⟨hf, by simp [hid]⟩, rfl⟩

theorem fetch_run (h : Returned cat s r c n fs) {f : FieldSpec} (hf : f ∈ c.fields) (m : Nat) :
    decodeField cat s r (if c.identity f then s.idField else f.name) (c.hintOf f)
      (front s c n fs ++ body cat s r c fs) m = (.ok (some (fieldOf fs f.name)), m) := by
  by_cases hid : c.identity f = true
  · rw [if_pos hid]
    obtain ⟨hi, hname⟩ : c.identifiable = true ∧ f.name = "id" := by
      simpa [ClassSpec.identity] using hid
    have hget := h.get?_id hi
    rw [← hname] at hget
    exact decodeField_run hget (h.raw f hf) m
  · rw [if_neg hid]
    exact decodeField_run (h.get?_field hf (by simpa using hid)) (h.fields f hf).read m

theorem build_run (h : Returned cat s r c n fs) (partly : Bool) (m : Nat) :
    build cat s r (str n) partly
      (fun key hint => decodeField cat s r key hint (front s c n fs ++ body cat s r c fs)) m =
      (.ok (.record c.name fs), m) := by
  have hresolve : r.resolve (str n) = .ok c.name := by
    simp [Registry.resolve, hashable, hashableIn, h.held]
  have hgiven : given s c (str n) partly
      (fun key hint => decodeField cat s r key hint (front s c n fs ++ body cat s r c fs)) c.fields m =
      (.ok (c.fields.map fun f => (f.name, fieldOf fs f.name)), m) :=
    given_run h.sound.given (fun f hf => h.fetch_run hf) m
  have hmade := ClassSpec.construct_run (g := fieldOf fs) h.sound.given m
  rw [← fields_eq (keyed_fields h.sound h.keys) h.keys, h.finished] at hmade
  exact build_eq_ok_iff.mpr
    ⟨rfl, c.name, c, _, m, hresolve, h.known, h.sound.hinted, hgiven, hmade⟩

theorem returns (h : Returned cat s r c n fs) (hint : Hint) :
    Returns cat s r hint (.record c.name fs) := by
  refine .of_run h.toValue_run fun m => ?_
  rw [decode, h.get?_class]
  exact h.build_run false m

end Returned

theorem scalar_record {h : Hint} (hh : h.isRecord = true) (v : Value) : scalar cat h v = .ok v := by
  unfold Hint.isRecord at hh
  split at hh
  · rfl
  · rfl
  · cases hh

theorem scalar_kind {k : Kind} {v : Value} (hv : v.isScalar = true)
    (hk : k = .uuid → v.isStr = false) : scalar cat (.cls (.kind k)) v = .ok v := by
  unfold scalar
  split
  · next he => cases he
  · next he =>
    cases he
    cases v with
    | str _ => cases hk rfl
    | _ => rfl
  · rfl

theorem ofValue?_member {e : Enumeration} (he : e.Sound) {m : String × Value} (hm : m ∈ e.members) :
    e.ofValue? m.2 = some (.member e.name m.1 m.2) := by
  have hfind : e.members.find? (fun m' => equal m'.2 m.2) = some m := by
    obtain ⟨before, after, hsplit⟩ := List.append_of_mem hm
    have hd := he.distinct
    rw [hsplit, List.pairwise_append] at hd
    rw [List.find?_eq_some_iff_append]
    refine ⟨he.itself m hm, before, after, hsplit, fun m' hm' => ?_⟩
    simp [hd.2.2 m' hm' m (by simp)]
  rw [Enumeration.ofValue?, hfind]
  rfl

theorem scalar_member {e : Enumeration} (hc : cat.enumeration? e.name = some e) (he : e.Sound)
    {m : String × Value} (hm : m ∈ e.members) :
    scalar cat (.cls (.enumeration e.name)) m.2 = .ok (.member e.name m.1 m.2) := by
  have hs := he.scalar m hm
  have hother : (m.2.isNull || m.2.classOf == .enumeration e.name) = false := by
    cases hv : m.2 <;> first | rfl | simp [hv, isScalar] at hs
  have hthere : cat.isMemberless e.name = false := by
    simp [Catalog.isMemberless, hc, List.ne_nil_of_mem hm]
  simp [scalar, hother, hthere, hc, ofValue?_member he hm]

/-- What conforms to a hint is read under it as it is, even if it was never written. -/
theorem decode_raw {h : Hint} {v : Value} (hv : Conforms cat s r h v) (m : Nat) :
    decode cat s r v h m = (.ok v, m) := by
  induction hv generalizing m with
  | @null h =>
    refine decode_of_scalar (by simp) (by simp) ?_ m
    unfold scalar
    split <;> rfl
  | scalar hv hk =>
    exact decode_of_scalar (by rintro _ rfl; cases hv) (by rintro _ rfl; cases hv)
      (scalar_kind hv hk) m
  | any hv => exact decode_plain hv m
  | dict hps => exact decode_dict hps m
  | entries hps => exact decode_dict hps m
  | member _ _ _ =>
    refine decode_of_scalar (by simp) (by simp) ?_ m
    simp [scalar, classOf]
  | @list h xs _ ih =>
    have hlist := decode_list (h := .list h) (f := id) (v := .list xs) ih rfl m
    rwa [List.map_id] at hlist
  | tuple _ _ => exact decode_of_scalar (by simp) (by simp) rfl m
  | set _ _ _ _ => exact decode_of_scalar (by simp) (by simp) rfl m
  | optional hv =>
    exact decode_of_scalar (by rintro _ rfl; cases hv) (by rintro _ rfl; cases hv) rfl m
  | record hh _ _ _ _ _ _ _ => exact decode_of_scalar (by simp) (by simp) (scalar_record hh _) m

/-- Lists, tuples and sets are written as lists, which the hint turns back into what they were. -/
theorem returns_list {h : Hint} {v : Value} {xs : List Value}
    (hx : ∀ x ∈ xs, Returns cat s r h.item x) (hv : collect cat h xs = .ok v)
    (hw : ∀ r', toValue cat s v r' =
      (do let ys ← toValues cat s xs; pure (list ys) : Naming Value) r') : Returns cat s r h v := by
  refine .of_run (w := list (xs.map (written cat s r))) ?_ fun m =>
    decode_list (fun x hx' => (hx x hx').read) hv m
  rw [hw, bind_of_ok (toValues_run fun x hx' => (hx x hx').wrote)]
  rfl

theorem mem_zip_fields {c : ClassSpec} {fs : Entries} (hkeyed : Entries.Keyed fs)
    (hkeys : fs.map Prod.fst = c.fields.map fun f => str f.name) {f : FieldSpec}
    (hf : f ∈ c.fields) : (f, str f.name, fieldOf fs f.name) ∈ c.fields.zip fs := by
  have hzip : c.fields.zip fs = c.fields.map fun f => (f, str f.name, fieldOf fs f.name) := by
    conv => lhs; rw [fields_eq hkeyed hkeys]
    rw [List.zip_map_right, List.zip_eq_zipWith, List.zipWith_self, List.map_map]
    rfl
  rw [hzip]
  exact List.mem_map.mpr ⟨f, hf, rfl⟩

theorem Returned.of_fields (hr : r.Coherent)
    (hs : ∀ c ∈ cat.classes, c.identifiable = true → s.Apart) {c : ClassSpec} {n : String}
    {fs : Entries} (hc : cat.class? c.name = some c) (hsound : c.Sound s)
    (hn : r.nameOf? c.name = some n) (hkeys : fs.map Prod.fst = c.fields.map fun f => str f.name)
    (hfinish : c.finish fs = .ok fs)
    (hfields : ∀ p ∈ c.fields.zip fs, Conforms cat s r (c.hintOf p.1) p.2.2)
    (hreturns : ∀ p ∈ c.fields.zip fs, Returns cat s r (c.hintOf p.1) p.2.2) :
    Returned cat s r c n fs := by
  have hmem : ∀ f ∈ c.fields, (f, str f.name, fieldOf fs f.name) ∈ c.fields.zip fs := fun f hf =>
    mem_zip_fields (keyed_fields hsound hkeys) hkeys hf
  exact {
    known := hc
    apart := hs c (List.mem_of_find?_eq_some hc)
    sound := hsound
    named := hn
    held := hr _ _ hn
    keys := hkeys
    finished := hfinish
    fields := fun f hf => hreturns _ (hmem f hf)
    raw := fun f hf => decode_raw (hfields _ (hmem f hf)) }

/-- What conforms to a hint is written and read back under it. -/
theorem returns_of_conforms (hr : r.Coherent)
    (hs : ∀ c ∈ cat.classes, c.identifiable = true → s.Apart) {h : Hint} {v : Value}
    (hv : Conforms cat s r h v) : Returns cat s r h v := by
  induction hv with
  | null => exact .of_run rfl fun m => decode_raw .null m
  | scalar hv hk =>
    exact .of_run (by rw [toValue_scalar hv]; rfl) fun m => decode_raw (.scalar hv hk) m
  | any hv => exact .of_run (toValue_plain hv) fun m => decode_plain hv m
  | dict hps => exact .of_run (toValue_plain hps) fun m => decode_dict hps m
  | entries hps => exact .of_run (toValue_plain hps) fun m => decode_dict hps m
  | member hc he hm =>
    have hscalar := he.scalar _ hm
    refine .of_run rfl fun k => decode_of_scalar ?_ ?_ (scalar_member hc he hm) k
    · intro _ hl
      rw [hl] at hscalar
      cases hscalar
    · intro _ hd
      rw [hd] at hscalar
      cases hscalar
  | @list h xs _ ih => exact returns_list ih rfl fun _ => rfl
  | @tuple h xs _ ih => exact returns_list ih rfl fun _ => rfl
  | @set frozen h xs _ hkeys hdistinct ih =>
    refine returns_list ih ?_ fun _ => rfl
    rw [collect, distinct_run hkeys (by simp) hdistinct]
    rfl
  | optional hv =>
    exact .of_run (by rw [toValue_scalar hv]; rfl) fun m => decode_raw (.optional hv) m
  | @record h c n fs _ hc hsound hn hkeys hfinish hfields ih =>
    exact (Returned.of_fields hr hs hc hsound hn hkeys hfinish hfields ih).returns h

/-- Decoding undoes encoding, for every object that conforms to the hints on its class's fields. -/
theorem fromDocument_toDocument (hr : Registry.Reached cat r)
    (hs : ∀ c ∈ cat.classes, c.identifiable = true → s.Apart) {cls : String} {fs : Entries}
    (hv : Conforms cat s r (.cls (.entity cls)) (.record cls fs)) :
    ∃ document, toDocument cat s (.record cls fs) r = (.ok document, r) ∧
      ∀ m, fromDocument cat s r false document m = (.ok (.record cls fs), m) := by
  cases hv with
  | @record _ c n _ _ hc hsound hn hkeys hfinish hfields =>
    have hreturned : Returned cat s r c n fs :=
      .of_fields hr.coherent hs hc hsound hn hkeys hfinish hfields fun p hp =>
        returns_of_conforms hr.coherent hs (hfields p hp)
    refine ⟨_, hreturned.toValue_run, fun m => ?_⟩
    rw [fromDocument, hreturned.get?_class]
    exact hreturned.build_run false m

/-- Halts do not change, so that they can be members of sets. -/
def haltClass : ClassSpec :=
  ⟨"Halt", false, true, 0, [Models.field "level" Models.levelHint .required,
    Models.field "lines" (.set true (Models.kind .int)) (.value (Value.set true []))],
    .resolved, .ok⟩

def tripClass : ClassSpec :=
  Models.identified "Trip" 3 [
    Models.field "route" (.tuple [.cls (.entity "Halt")]) (.value (tuple [])),
    Models.field "seen" (.set false (.cls (.entity "Halt"))) (.value (Value.set false [])),
    Models.field "before" (Hint.orNull (.cls (.entity "Trip"))) (.value null),
    Models.field "notes" .any (.value null)]

def travel : Catalog := ⟨[haltClass, tripClass], [Models.level]⟩

def travelNames : Registry :=
  ⟨[("Stop", "Halt"), ("Trip", "Trip")], [("Halt", "Stop"), ("Trip", "Trip")]⟩

def halt (level : Value) (lines : List Value) : Value :=
  .record "Halt" [(str "level", level), (str "lines", .set true lines)]

def trip (id : Nat) (route seen : List Value) (before notes : Value) : Value :=
  .record "Trip" [(str "id", uuid (Uuid.ofNat id)), (str "route", tuple route),
    (str "seen", .set false seen), (str "before", before), (str "notes", notes)]

theorem travelNames_reached : Registry.Reached travel travelNames :=
  have hstop : Registry.empty.register travel (.cls (.entity "Halt")) (some "Stop") =
      .ok ⟨[("Stop", "Halt")], [("Halt", "Stop")]⟩ := rfl
  have htrip : Registry.register travel ⟨[("Stop", "Halt")], [("Halt", "Stop")]⟩
      (.cls (.entity "Trip")) none = .ok travelNames := rfl
  .register (.register .empty hstop) htrip

theorem standard_apart : Schema.standard.Apart := ⟨by decide, by decide, by decide⟩

theorem level_sound : Models.level.Sound := ⟨by decide, by decide, by decide⟩

theorem haltClass_sound : haltClass.Sound .standard := ⟨by decide, by decide, by decide, rfl⟩

theorem tripClass_sound : tripClass.Sound .standard := ⟨by decide, by decide, by decide, rfl⟩

theorem halt_conforms {h : Hint} (hh : h.isRecord = true) {level : Value} {lines : List Value}
    (hlevel : Conforms travel .standard travelNames Models.levelHint level)
    (hlines : Conforms travel .standard travelNames (.set true (Models.kind .int))
      (.set true lines)) : Conforms travel .standard travelNames h (halt level lines) := by
  refine .record (c := haltClass) (n := "Stop") hh rfl haltClass_sound rfl rfl rfl ?_
  simp only [haltClass, List.zip_cons_cons, List.zip_nil_left, List.forall_mem_cons]
  exact ⟨hlevel, hlines, by simp⟩

theorem trip_conforms {h : Hint} (hh : h.isRecord = true) {id : Nat} {route seen : List Value}
    {before notes : Value}
    (hroute : Conforms travel .standard travelNames (.tuple [.cls (.entity "Halt")]) (tuple route))
    (hseen : Conforms travel .standard travelNames (.set false (.cls (.entity "Halt")))
      (.set false seen))
    (hbefore : Conforms travel .standard travelNames (.optional (.cls (.entity "Trip"))) before)
    (hnotes : Conforms travel .standard travelNames .any notes) :
    Conforms travel .standard travelNames h (trip id route seen before notes) := by
  refine .record (c := tripClass) (n := "Trip") hh rfl tripClass_sound rfl rfl rfl ?_
  simp only [tripClass, Models.identified, List.zip_cons_cons, List.zip_nil_left,
    List.forall_mem_cons]
  exact ⟨.scalar rfl fun _ => rfl, hroute, hseen, hbefore, hnotes, by simp⟩

/-- A trip with an earlier one in it, with halts in a tuple and in a set, and with notes. -/
theorem fromDocument_trip :
    let v := trip 1 [halt Models.junior [int 1, int 2], null] [halt Models.junior []]
      (trip 2 [] [] null null) (dict [(str "by", list [dict [(str "sea", null)]])])
    ∃ document, toDocument travel .standard v travelNames = (.ok document, travelNames) ∧
      ∀ m, fromDocument travel .standard travelNames false document m = (.ok v, m) := by
  have hlevel : Conforms travel .standard travelNames Models.levelHint Models.junior :=
    .member (e := Models.level) (m := ("JUNIOR", str "junior")) rfl level_sound
      (by simp [Models.level])
  have hlines : Conforms travel .standard travelNames (.set true (Models.kind .int))
      (.set true [int 1, int 2]) := by
    refine .set (fun x hx => ?_) (by decide) (by decide)
    rcases List.mem_cons.mp hx with rfl | hx
    · exact .scalar rfl (by decide)
    · rw [List.mem_singleton.mp hx]
      exact .scalar rfl (by decide)
  have hnone : Conforms travel .standard travelNames (.set true (Models.kind .int))
      (.set true []) := .set (by simp) (by simp) .nil
  have hroute : Conforms travel .standard travelNames (.tuple [.cls (.entity "Halt")])
      (tuple [halt Models.junior [int 1, int 2], null]) := by
    refine .tuple fun x hx => ?_
    rcases List.mem_cons.mp hx with rfl | hx
    · exact halt_conforms rfl hlevel hlines
    · rw [List.mem_singleton.mp hx]
      exact .null
  have hseen : Conforms travel .standard travelNames (.set false (.cls (.entity "Halt")))
      (.set false [halt Models.junior []]) := by
    refine .set (fun x hx => ?_) (by decide) (by decide)
    rw [List.mem_singleton.mp hx]
    exact halt_conforms rfl hlevel hnone
  have hbefore : Conforms travel .standard travelNames (.optional (.cls (.entity "Trip")))
      (trip 2 [] [] null null) :=
    trip_conforms rfl (.tuple (by simp)) (.set (by simp) (by simp) .nil) .null .null
  have hnotes : Plain Schema.standard.classField
      (dict [(str "by", list [dict [(str "sea", null)]])]) := by
    refine .dict (by simp [Schema.standard]) ?_
    simp only [List.mem_singleton, forall_eq]
    refine .list ?_
    simp only [List.mem_singleton, forall_eq]
    refine .dict (by simp [Schema.standard]) ?_
    simp only [List.mem_singleton, forall_eq]
    exact .null
  exact fromDocument_toDocument travelNames_reached (fun _ _ _ => standard_apart)
    (trip_conforms rfl hroute hseen hbefore (.any hnotes))

/-- Where the identifier and the class share a name, the class takes the identifier's place, and the
name of the class is read as an identifier. -/
theorem identifier_displaced :
    let s : Schema := ⟨"class", "class", "revision"⟩
    let names : Registry := ⟨[("Person", "Person")], [("Person", "Person")]⟩
    let ada : Value := .record "Person" [(str "id", uuid (Uuid.ofNat 1)), (str "name", str "Ada"),
      (str "age", int 0), (str "level", Models.junior), (str "address", null), (str "tags", list [])]
    Registry.Reached Models.catalog names ∧
      Conforms Models.catalog s names (.cls (.entity "Person")) ada ∧
      ∃ document, toDocument Models.catalog s ada names = (.ok document, names) ∧
        ∀ m, fromDocument Models.catalog s names false document m = (.error .value, m) := by
  intro s names ada
  have hregister : Registry.empty.register Models.catalog (.cls (.entity "Person")) none =
      .ok names := rfl
  refine ⟨.register .empty hregister, ?_, _, rfl, fun m => ?_⟩
  · refine .record (c := Models.person) (n := "Person") rfl rfl ?_ rfl rfl rfl ?_
    · exact ⟨by decide, by decide, by decide, rfl⟩
    · have hlevel : Conforms Models.catalog s names Models.levelHint Models.junior :=
        .member (e := Models.level) (m := ("JUNIOR", str "junior")) rfl level_sound
          (by simp [Models.level])
      have htags : Conforms Models.catalog s names (.list (Models.kind .str)) (list []) :=
        .list (by simp)
      simp only [Models.person, Models.identified, List.zip_cons_cons, List.zip_nil_left,
        List.forall_mem_cons]
      exact ⟨.scalar rfl fun _ => rfl, .scalar rfl (by decide), .scalar rfl (by decide), hlevel,
        .null, htags, by simp⟩
  · rfl

end Codec

end DocStore
