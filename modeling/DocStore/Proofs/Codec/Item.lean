import DocStore.Proofs.Codec.Reading
import DocStore.Proofs.Document.Entries
import DocStore.Store.Reading

/-! Objects that have an identifier and come back from their documents as they were. Names that
classes take in the meantime change neither way. -/

namespace DocStore

open Value

/-- An object with an identifier, and its document, which is read as an equal object whatever
identifiers were handed out before. -/
structure Item (d : Decoder) where
  object : Value
  id : Uuid
  identifiable : d.catalog.isIdentifiable object = true
  identified : object.attribute "id" = .ok (uuid id)
  entries : Entries
  names : Registry
  written : Codec.toDocument d.catalog d.schema object d.registry = (.ok (dict entries), names)
  returns : ∀ m, ∃ v m', Codec.fromDocument d.catalog d.schema names false (dict entries) m =
    (.ok v, m') ∧ equal v object = true

theorem get?_of_eqvEntries {fs gs : Entries} {n : String} {u : Uuid}
    (h : eqvEntries false gs fs = true) (hu : Entries.get? (str n) fs = some (uuid u)) :
    Entries.get? (str n) gs = some (uuid u) := by
  induction gs generalizing fs with
  | nil =>
    cases fs with
    | nil => exact hu
    | cons f fs => simp [eqvEntries] at h
  | cons g gs ih =>
    cases fs with
    | nil => simp [eqvEntries] at h
    | cons f fs =>
      obtain ⟨k, w⟩ := g
      simp only [eqvEntries, eqvEntry, Bool.and_eq_true] at h
      obtain ⟨⟨hkey, hvalue⟩, hrest⟩ := h
      by_cases hf : f.1 = str n
      · rw [Entries.get?_here hf] at hu
        rw [Option.some.inj hu] at hvalue
        rw [hf] at hkey
        rw [Entries.get?_here (p := (k, w)) (equal_str_right.mp hkey), equal_uuid_right.mp hvalue]
      · have hg : (k, w).1 ≠ str n := by
          rintro rfl
          exact hf (equal_str_left.mp hkey)
        rw [Entries.get?_past hf] at hu
        rw [Entries.get?_past hg]
        exact ih hrest hu

/-- What equals a record is one of the same class. -/
theorem record_of_equal {v : Value} {c : String} {fs : Entries}
    (h : equal v (.record c fs) = true) :
    ∃ gs, v = .record c gs ∧ eqvEntries false gs fs = true := by
  unfold equal at h
  cases v with
  | record e gs =>
    simp only [eqv, Bool.and_eq_true, beq_iff_eq] at h
    exact ⟨gs, by rw [h.1], h.2⟩
  | _ => simp [eqv, numberEqual, number?, isNull] at h

theorem attribute_of_equal {v x : Value} {u : Uuid} (h : equal v x = true)
    (hx : x.attribute "id" = .ok (uuid u)) : v.attribute "id" = .ok (uuid u) := by
  cases x with
  | record c fs =>
    have hfs : Entries.get? (str "id") fs = some (uuid u) := by
      unfold Value.attribute at hx
      cases hg : Entries.get? (str "id") fs with
      | none => simp [hg] at hx
      | some w => simpa [hg] using hx
    obtain ⟨gs, rfl, hgs⟩ := record_of_equal h
    simp [Value.attribute, get?_of_eqvEntries hgs hfs]
  | member owner name w => simp [Value.attribute] at hx
  | _ => cases hx

namespace Item

variable {d : Decoder} {r t : Registry}

def filed (o : Item d) : Uuid × Entries := (o.id, o.entries)

theorem written_onward (o : Item d) (h : Registry.Grown d.catalog d.registry r) :
    ∃ t, Codec.toDocument d.catalog d.schema o.object r = (.ok (dict o.entries), t) ∧
      Registry.Grown d.catalog o.names t :=
  (Codec.toDocument_steady d.catalog d.schema o.object).onward h o.written

theorem read_onward (o : Item d) (h : Registry.Grown d.catalog o.names r) (m : Nat) :
    ∃ v m', Codec.fromDocument d.catalog d.schema r false (dict o.entries) m = (.ok v, m') ∧
      equal v o.object = true := by
  obtain ⟨v, m', hv, he⟩ := o.returns m
  exact ⟨v, m', Codec.fromDocument_extends h.holds false _ _ _ _ hv, he⟩

/-- The document of an item has the item's identifier where documents have theirs. -/
def Carried (o : Item d) : Prop :=
  Entries.get? (str d.schema.idField) o.entries = some (uuid o.id)

end Item

namespace Codec

variable {cat : Catalog} {s : Schema} {cls : String} {r t : Registry}

theorem toEntry_key {p q : Value × Value} (h : toEntry cat s p r = (.ok q, t)) : q.1 = p.1 := by
  obtain ⟨k, v⟩ := p
  rw [toEntry] at h
  obtain ⟨w, u, _, hq⟩ := bind_eq_ok_iff.mp h
  cases hq
  rfl

theorem toFields_keys {fs gs : Entries} (h : toFields cat s cls fs r = (.ok gs, t)) :
    ∀ g ∈ gs, ∃ f ∈ fs, f.1 = g.1 ∧ isIdentity cat cls f.1 = false := by
  induction fs generalizing gs r with
  | nil =>
    cases h
    simp
  | cons f fs ih =>
    rw [toFields] at h
    by_cases hid : isIdentity cat cls f.1 = true
    · rw [if_pos hid] at h
      intro g hg
      obtain ⟨f', hf', hk⟩ := ih h g hg
      exact ⟨f', List.mem_cons_of_mem f hf', hk⟩
    · rw [if_neg hid] at h
      obtain ⟨g, u, hfirst, h⟩ := bind_eq_ok_iff.mp h
      obtain ⟨gs, u', hrest, h⟩ := bind_eq_ok_iff.mp h
      cases h
      intro g' hg'
      rcases List.mem_cons.mp hg' with rfl | hg'
      · exact ⟨f, by simp, (toEntry_key hfirst).symm, by simpa using hid⟩
      · obtain ⟨f', hf', hk⟩ := ih hrest g' hg'
        exact ⟨f', List.mem_cons_of_mem f hf', hk⟩

/-- The header of an object with an identifier starts with it, unless another of the header's
fields has the name. -/
theorem header_id {fs ps : Entries} {id : Value}
    (hi : (cat.class? cls).any ClassSpec.identifiable = true)
    (hclass : s.classField ≠ s.idField) (hrevision : s.revisionField ≠ s.idField)
    (hid : Entries.get? (str "id") fs = some id) (h : header cat s cls fs r = (.ok ps, t)) :
    Entries.get? (str s.idField) ps = some id := by
  unfold header at h
  simp only [hi, hid, if_true, Option.getD_some] at h
  obtain ⟨name, u, _, hps⟩ := bind_eq_ok_iff.mp h
  cases hps
  rw [Entries.get?_put_other hrevision.symm, Entries.get?_put_other hclass.symm]
  exact Entries.get?_here rfl []

end Codec

/-- An item's document has its identifier where documents have theirs if no field of the class and
none of the header's is called so. -/
theorem Item.carried_of_names {d : Decoder} (o : Item d) {cls : String} {fs : Entries}
    (ho : o.object = .record cls fs) (hclass : d.schema.classField ≠ d.schema.idField)
    (hrevision : d.schema.revisionField ≠ d.schema.idField)
    (hfields : ∀ f ∈ fs, f.1 = str d.schema.idField → f.1 = str "id") : o.Carried := by
  have hi : (d.catalog.class? cls).any ClassSpec.identifiable = true := by
    have h := o.identifiable
    rwa [ho] at h
  have hid : Entries.get? (str "id") fs = some (uuid o.id) := by
    have h := o.identified
    rw [ho, Value.attribute] at h
    cases hg : Entries.get? (str "id") fs with
    | none => simp [hg] at h
    | some w => simpa [hg] using h
  have hw := o.written
  rw [ho, Codec.toDocument, Codec.toValue] at hw
  obtain ⟨start, u, hstart, hw⟩ := bind_eq_ok_iff.mp hw
  obtain ⟨encoded, u', hencoded, hw⟩ := bind_eq_ok_iff.mp hw
  have hentries : Entries.merge start encoded = o.entries :=
    Value.dict.inj (Except.ok.inj (congrArg Prod.fst hw))
  have hkeys : ∀ q ∈ encoded, q.1 ≠ str d.schema.idField := by
    intro q hq hname
    obtain ⟨f, hf, hk, hnot⟩ := Codec.toFields_keys hencoded q hq
    have hfid := hfields f hf (hk.trans hname)
    simp [Codec.isIdentity, hi, hfid] at hnot
  unfold Carried
  rw [← hentries, Entries.get?_merge_past hkeys]
  exact Codec.header_id hi hclass hrevision hid hstart

end DocStore
