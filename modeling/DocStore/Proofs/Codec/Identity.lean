import DocStore.Proofs.Codec.Faults
import DocStore.Proofs.Codec.Item
import DocStore.Proofs.Codec.Passing
import DocStore.Proofs.Document.Places

/-! Objects read from parts of documents. A class that keeps the identifier it is given makes an
object with the identifier of the document, whatever else was left out of it. -/

namespace DocStore

open Value

/-- The class is given the identifiers of its objects, and leaves them as they are. -/
structure ClassSpec.KeepsId (c : ClassSpec) : Prop where
  given : ∃ f ∈ c.fields, f.name = "id" ∧ f.given = true
  kept : ∀ fs gs, c.finish fs = .ok gs → Entries.get? (str "id") gs = Entries.get? (str "id") fs

/-- What a class puts into a field that it is not given. -/
inductive FieldSpec.Fills (f : FieldSpec) : Value → Prop
  | value {v : Value} (h : f.default = .value v) : Fills f v
  | fresh {u : Uuid} (h : f.default = .freshId) : Fills f (uuid u)

namespace ClassSpec

variable {c : ClassSpec} {entries : List (String × Value)} {f : FieldSpec} {fs : List FieldSpec}
  {es : Entries} {v x : Value} {m m' : Nat}

theorem fill_cons (h : fill entries (f :: fs) m = (.ok (.ok es), m')) :
    ∃ w rest k, es = (str f.name, w) :: rest ∧ fill entries fs k = (.ok (.ok rest), m') ∧
      (∀ v, entries.lookup f.name = some v → w = v) ∧
      (entries.lookup f.name = none → f.Fills w) := by
  have hrest : ∀ w k, ((Except.map ((str f.name, w) :: ·)) <$> fill entries fs :
      Fresh (Except Refusal Entries)) k = (.ok (.ok es), m') →
      ∃ rest, es = (str f.name, w) :: rest ∧ fill entries fs k = (.ok (.ok rest), m') := by
    intro w k hw
    rw [map_eq_bind] at hw
    obtain ⟨filled, k', hfilled, hw⟩ := bind_eq_ok_iff.mp hw
    cases filled with
    | error why => cases hw
    | ok rest =>
      cases hw
      exact ⟨rest, rfl, hfilled⟩
  rw [fill] at h
  cases hl : entries.lookup f.name with
  | some w =>
    rw [hl] at h
    obtain ⟨rest, hes, hfill⟩ := hrest w m h
    exact ⟨w, rest, m, hes, hfill, fun v hv => Option.some.inj hv, by simp⟩
  | none =>
    rw [hl] at h
    cases hd : f.default with
    | value w =>
      rw [hd] at h
      obtain ⟨rest, hes, hfill⟩ := hrest w m h
      exact ⟨w, rest, m, hes, hfill, by simp, fun _ => .value hd⟩
    | freshId =>
      rw [hd] at h
      obtain ⟨rest, hes, hfill⟩ := hrest _ (m + 1) h
      exact ⟨_, rest, m + 1, hes, hfill, by simp, fun _ => .fresh hd⟩
    | required =>
      rw [hd] at h
      cases h

theorem fill_id (h : fill entries fs m = (.ok (.ok es), m')) (hf : ∃ f ∈ fs, f.name = "id")
    (hx : entries.lookup "id" = some x) : Entries.get? (str "id") es = some x := by
  induction fs generalizing es m with
  | nil => simp at hf
  | cons f fs ih =>
    obtain ⟨w, rest, k, rfl, hrest, hw, _⟩ := fill_cons h
    by_cases hid : f.name = "id"
    · rw [hid] at hw
      rw [Entries.get?_here (by rw [hid]), hw x hx]
    · have hne : str f.name ≠ str "id" := fun he => hid (Value.str.inj he)
      obtain ⟨g, hg, hgid⟩ := hf
      rw [Entries.get?_past hne]
      rcases List.mem_cons.mp hg with rfl | hg
      · exact absurd hgid hid
      · exact ih hrest ⟨g, hg, hgid⟩

theorem construct_id (hc : c.KeepsId) (h : c.construct entries m = (.ok (.ok v), m'))
    (hx : entries.lookup "id" = some x) : v.attribute "id" = .ok x := by
  unfold construct at h
  dsimp only at h
  split at h
  · obtain ⟨filled, k, hfill, h⟩ := bind_eq_ok_iff.mp h
    cases filled with
    | error why => cases h
    | ok es =>
      cases hfinish : c.finish es with
      | error why =>
        simp only [hfinish] at h
        cases h
      | ok gs =>
        simp only [hfinish] at h
        cases h
        obtain ⟨f, hf, hid, _⟩ := hc.given
        rw [Value.attribute, hc.kept es gs hfinish, fill_id hfill ⟨f, hf, hid⟩ hx]
  · cases h

end ClassSpec

namespace Codec

variable {cat : Catalog} {s : Schema} {r : Registry} {c : ClassSpec} {name v : Value}
  {partly : Bool} {fetch : String → Hint → Fresh (Option Value)} {es : Entries} {u : Uuid}
  {m m' : Nat}

/-- A field is passed over, or it is fetched and given, as null if need be, or left out if it need
not be given. -/
theorem given_cons {f : FieldSpec} {fs : List FieldSpec} {entries : List (String × Value)}
    (h : given s c name partly fetch (f :: fs) m = (.ok entries, m')) :
    f.given = false ∧ given s c name partly fetch fs m = (.ok entries, m') ∨
      f.given = true ∧ ∃ a k rest,
        fetch (if c.identifiable && f.name == "id" then s.idField else f.name) (c.hintOf f) m =
          (.ok a, k) ∧
        given s c name partly fetch fs k = (.ok rest, m') ∧
        ((∃ w, a = some w ∧ entries = (f.name, w) :: rest) ∨
          a = none ∧ f.default = .required ∧ partly = true ∧ entries = (f.name, null) :: rest ∨
          a = none ∧ f.default ≠ .required ∧ entries = rest) := by
  rw [given] at h
  cases hgiven : f.given with
  | false =>
    simp only [hgiven, Bool.not_false, if_true] at h
    exact .inl ⟨rfl, h⟩
  | true =>
    simp only [hgiven, Bool.not_true, Bool.false_eq_true, if_false] at h
    obtain ⟨a, k, hfirst, h⟩ := bind_eq_ok_iff.mp h
    refine .inr ⟨rfl, a, k, ?_⟩
    cases a with
    | some w =>
      obtain ⟨rest, k', hrest, h⟩ := bind_eq_ok_iff.mp h
      cases h
      exact ⟨rest, hfirst, hrest, .inl ⟨w, rfl, rfl⟩⟩
    | none =>
      cases hd : f.default with
      | required =>
        simp only [hd] at h
        split at h
        · next hpartly =>
          obtain ⟨rest, k', hrest, h⟩ := bind_eq_ok_iff.mp h
          cases h
          exact ⟨rest, hfirst, hrest, .inr (.inl ⟨rfl, rfl, hpartly, rfl⟩)⟩
        · cases h
      | value w =>
        simp only [hd] at h
        exact ⟨entries, hfirst, h, .inr (.inr ⟨rfl, by simp, rfl⟩)⟩
      | freshId =>
        simp only [hd] at h
        exact ⟨entries, hfirst, h, .inr (.inr ⟨rfl, by simp, rfl⟩)⟩

/-- The identifier is given as the hint of its field has it read. -/
theorem given_id {f : FieldSpec} {fs : List FieldSpec} {entries : List (String × Value)}
    (hi : c.identifiable = true)
    (hfetch : ∀ h k a k', fetch s.idField h k = (.ok a, k') →
      ∃ w, scalar cat h (uuid u) = .ok w ∧ a = some w)
    (hf : fs.find? (fun f => f.name == "id" && f.given) = some f)
    (h : given s c name partly fetch fs m = (.ok entries, m')) :
    ∃ w, scalar cat (c.hintOf f) (uuid u) = .ok w ∧ entries.lookup "id" = some w := by
  induction fs generalizing entries m with
  | nil => simp at hf
  | cons g fs ih =>
    rw [List.find?_cons] at hf
    rcases given_cons h with ⟨hgiven, h⟩ | ⟨hgiven, a, k, rest, hfirst, hrest, hentries⟩
    · simp only [hgiven, Bool.and_false] at hf
      exact ih hf h
    · by_cases hid : g.name = "id"
      · simp only [hgiven, hid, beq_self_eq_true, Bool.and_self, Option.some.injEq] at hf
        subst hf
        simp only [hi, hid, beq_self_eq_true, Bool.and_self, if_true] at hfirst
        obtain ⟨w, hw, rfl⟩ := hfetch _ _ _ _ hfirst
        rcases hentries with ⟨w', hw', rfl⟩ | ⟨hnone, _⟩ | ⟨hnone, _⟩
        · exact ⟨w, hw, by simp [hid, Option.some.inj hw']⟩
        · cases hnone
        · cases hnone
      · have hname : (g.name == "id") = false := beq_eq_false_iff_ne.mpr hid
        simp only [hname, Bool.false_and] at hf
        obtain ⟨w, hw, hlookup⟩ := ih hf hrest
        refine ⟨w, hw, ?_⟩
        have hpast (x : Value) : ((g.name, x) :: rest).lookup "id" = some w := by
          rwa [List.lookup_cons, beq_eq_false_iff_ne.mpr (Ne.symm hid)]
        rcases hentries with ⟨w', _, rfl⟩ | ⟨_, _, _, rfl⟩ | ⟨_, _, rfl⟩
        · exact hpast w'
        · exact hpast null
        · exact hlookup

/-- How a document comes to be an object: by the name it has for its class, what is given of it,
and what the class makes of that. -/
theorem fromDocument_cases (h : fromDocument cat s r partly (dict es) m = (.ok v, m')) :
    ∃ name entity c entries k, Entries.get? (str s.classField) es = some name ∧
      r.resolve name = .ok entity ∧ cat.class? entity = some c ∧ c.uncaught? = none ∧
      given s c name partly (fun key h => decodeField cat s r key h es) c.fields m =
        (.ok entries, k) ∧ c.construct entries k = (.ok (.ok v), m') := by
  obtain ⟨hnull, entity, c, entries, k, hr, hc, hu, hgiven, hmade⟩ := build_eq_ok_iff.mp h
  cases hname : Entries.get? (str s.classField) es with
  | none =>
    rw [hname] at hnull
    cases hnull
  | some name =>
    rw [hname, Option.getD_some] at hr hgiven
    exact ⟨name, entity, c, entries, k, rfl, hr, hc, hu, hgiven, hmade⟩

theorem decodeField_uuid {key : String} (hu : Entries.get? (str key) es = some (uuid u))
    {h : Hint} {k k' : Nat} {a : Option Value}
    (ha : decodeField cat s r key h es k = (.ok a, k')) :
    ∃ w, scalar cat h (uuid u) = .ok w ∧ a = some w := by
  rw [decodeField_eq, hu] at ha
  dsimp only at ha
  rw [map_eq_bind, decode] at ha
  · obtain ⟨w, k₁, hw, ha⟩ := bind_eq_ok_iff.mp ha
    cases ha
    cases hs : scalar cat h (uuid u) with
    | ok w' =>
      simp only [hs] at hw
      cases hw
      exact ⟨_, rfl, rfl⟩
    | error e =>
      simp only [hs] at hw
      cases hw
  all_goals simp

end Codec

/-- The class of an item keeps identifiers. -/
def Item.KeepsId {d : Decoder} (o : Item d) : Prop :=
  ∀ cls fs c, o.object = .record cls fs → d.catalog.class? cls = some c → c.KeepsId

theorem Item.class_of_made {d : Decoder} {o : Item d} {c : ClassSpec}
    {entries : List (String × Value)} {v : Value} {m m' : Nat}
    (hv : c.construct entries m = (.ok (.ok v), m')) (h : equal v o.object = true) :
    ∃ fs, o.object = .record c.name fs := by
  have hi := o.identifiable
  rcases Codec.construct_result c entries m with ⟨gs, n, hrun⟩ | ⟨why, n, hrun, _⟩
  · rw [hrun] at hv
    cases hv
    cases ho : o.object with
    | record cls fs =>
      rw [ho] at h
      obtain ⟨_, he, _⟩ := record_of_equal h
      cases he
      exact ⟨fs, rfl⟩
    | _ =>
      rw [ho] at hi
      cases hi
  · rw [hrun] at hv
    cases hv

/-- The document of an item names a class. -/
theorem Item.named {d : Decoder} (o : Item d) :
    ∃ name, Entries.get? (str d.schema.classField) o.entries = some name := by
  obtain ⟨whole, k, hwhole, _⟩ := o.returns 0
  obtain ⟨name, _, _, _, _, hname, _⟩ := Codec.fromDocument_cases hwhole
  exact ⟨name, hname⟩

section Part

variable {d : Decoder} {o : Item d} {r : Registry} {es : Entries} {partly : Bool} {v : Value}
  {m m' : Nat} (hg : Registry.Grown d.catalog o.names r) (hpart : Part (dict es) (dict o.entries))
  (h : Codec.fromDocument d.catalog d.schema r partly (dict es) m = (.ok v, m'))
include hg hpart h

/-- What a document has of an item's document, and that document, are read as objects of one
class. -/
theorem Item.made_of_part : ∃ name c fs xs k ys l l' whole,
    o.object = .record c.name fs ∧ d.catalog.class? c.name = some c ∧
    Codec.given d.schema c name partly (fun key h => Codec.decodeField d.catalog d.schema r key h es)
      c.fields m = (.ok xs, k) ∧ c.construct xs k = (.ok (.ok v), m') ∧
    Codec.given d.schema c name false
      (fun key h => Codec.decodeField d.catalog d.schema r key h o.entries) c.fields 0 =
      (.ok ys, l) ∧ c.construct ys l = (.ok (.ok whole), l') ∧ equal whole o.object = true := by
  obtain ⟨whole, l', hwhole, hequal⟩ := o.read_onward hg 0
  obtain ⟨name, entity, c, xs, k, hname, hentity, hclass, _, hgiven, hmade⟩ :=
    Codec.fromDocument_cases h
  obtain ⟨name', entity', c', ys, l, hname', hentity', hclass', _, hgiven', hmade'⟩ :=
    Codec.fromDocument_cases hwhole
  -- the part has the same name for its class, since only that can be resolved
  have hsame : name = name' := by
    have hget : getPath [d.schema.classField] (dict es) = some name := by
      rw [getPath_dict, hname]
      rfl
    have hget' : getPath [d.schema.classField] (dict o.entries) = some name' := by
      rw [getPath_dict, hname']
      rfl
    rcases hpart _ _ hget with hh | ⟨qs, _, rfl, _⟩
    · exact Option.some.inj (hh.symm.trans hget')
    · cases hentity
  subst hsame
  obtain rfl : entity = entity' := Except.ok.inj (hentity.symm.trans hentity')
  obtain rfl : c = c' := Option.some.inj (hclass.symm.trans hclass')
  have hcname : c.name = entity := by simpa using List.find?_some hclass
  obtain ⟨fs, hobject⟩ := Item.class_of_made hmade' hequal
  exact ⟨name, c, fs, xs, k, ys, l, l', whole, hobject, by rwa [hcname], hgiven, hmade, hgiven',
    hmade', hequal⟩

theorem Item.part_class : v.classOf = o.object.classOf := by
  obtain ⟨_, c, fs, xs, k, _, _, _, _, hobject, _, _, hmade, _⟩ := Item.made_of_part hg hpart h
  rcases Codec.construct_result c xs k with ⟨gs, _, hrun⟩ | ⟨why, _, hrun, _⟩
  · rw [hrun] at hmade
    cases hmade
    rw [hobject]
    rfl
  · rw [hrun] at hmade
    cases hmade

/-- What a document has of an item's document is read as an object with the item's identifier, if
that is among it. -/
theorem Item.part_id (hk : o.KeepsId) (hc : o.Carried)
    (hid : Entries.get? (str d.schema.idField) es = some (uuid o.id)) :
    v.attribute "id" = .ok (uuid o.id) := by
  obtain ⟨name, c, fs, xs, k, ys, l, l', whole, hobject, hclass, hgiven, hmade, hgiven', hmade',
    hequal⟩ := Item.made_of_part hg hpart h
  have hkeeps : c.KeepsId := hk c.name fs c hobject hclass
  have hi : c.identifiable = true := by
    have hh := o.identifiable
    rw [hobject, Catalog.isIdentifiable, hclass] at hh
    exact hh
  obtain ⟨f, hf⟩ : ∃ f, c.fields.find? (fun f => f.name == "id" && f.given) = some f := by
    obtain ⟨f, hmem, hn, hgiven⟩ := hkeeps.given
    exact Option.isSome_iff_exists.mp (List.find?_isSome.mpr ⟨f, hmem, by simp [hn, hgiven]⟩)
  obtain ⟨w, hw, hlookup⟩ :=
    Codec.given_id hi (fun h k a k' ha => Codec.decodeField_uuid hid ha) hf hgiven
  obtain ⟨w', hw', hlookup'⟩ :=
    Codec.given_id hi (fun h k a k' ha => Codec.decodeField_uuid hc ha) hf hgiven'
  have hread := ClassSpec.construct_id hkeeps hmade' hlookup'
  rw [attribute_of_equal hequal o.identified] at hread
  cases hread
  obtain rfl : w = uuid o.id := Except.ok.inj (hw.symm.trans hw')
  exact ClassSpec.construct_id hkeeps hmade hlookup

end Part

end DocStore
