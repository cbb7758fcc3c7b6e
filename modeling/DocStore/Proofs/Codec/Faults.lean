import DocStore.Catalog.Models
import DocStore.Proofs.Codec.Passing
import DocStore.Proofs.Codec.Reading

/-! How reading a document can fail. What is wrong with it is reported, except where a text stands
for an identifier and cannot be read as one, a set is to hold what cannot be a member, an
enumeration has no members, or a class has annotations that end in an exception. -/

namespace DocStore

open Value

/-- Whether a refusal is one for a value of the wrong kind or of the wrong value. -/
def Refusal.isReported : Refusal → Bool
  | .kind _ => true
  | .value _ => true
  | _ => false

/-- A class refuses records for nothing but the kinds and the values of their fields. -/
def ClassSpec.Reporting (c : ClassSpec) : Prop :=
  ∀ fields why, c.finish fields = .error why → why.isReported = true

/-- All names of a registry stand for classes that refuse records for nothing else. -/
def Registry.Reporting (cat : Catalog) (r : Registry) : Prop :=
  ∀ n entity, r.classNamed? n = some entity → ∃ c, cat.class? entity = some c ∧ c.Reporting

/-- Classes that refuse nothing report what they refuse. -/
theorem Registry.Reporting.of_unchecked {cat : Catalog} {r : Registry}
    (h : ∀ p ∈ r.byName, ∃ c, cat.class? p.2 = some c ∧ c.finish = .ok) : r.Reporting cat := by
  intro n entity hn
  obtain ⟨before, after, hsplit, _⟩ := List.lookup_eq_some_iff.mp hn
  obtain ⟨c, hc, hfinish⟩ := h (n, entity) (by simp [hsplit])
  refine ⟨c, hc, fun fields why he => ?_⟩
  rw [hfinish] at he
  cases he

/-- The key under which documents have a field of a class. -/
def ClassSpec.keyOf (s : Schema) (c : ClassSpec) (f : FieldSpec) : String :=
  if c.identity f then s.idField else f.name

namespace Codec

variable {cat : Catalog} {s : Schema} {r : Registry}

/-- Every dictionary in a value that says of which class it is says so by a text. -/
inductive Labelled (classField : String) : Value → Prop
  | dict {ps : Entries}
      (hname : ∀ name, Entries.get? (str classField) ps = some name → ∃ n, name = str n)
      (hvalues : ∀ p ∈ ps, Labelled classField p.2) : Labelled classField (dict ps)
  | list {xs : List Value} (hxs : ∀ x ∈ xs, Labelled classField x) : Labelled classField (list xs)
  | other {v : Value} (hd : ∀ ps, v ≠ .dict ps) (hl : ∀ xs, v ≠ .list xs) : Labelled classField v

/-- Reading a value under a hint comes to a value in it, under the hint that this has there. -/
inductive Visits (cat : Catalog) (s : Schema) (r : Registry) : Hint → Value → Hint → Value → Prop
  | here {h : Hint} {v : Value} : Visits cat s r h v h v
  | item {h g : Hint} {xs : List Value} {x w : Value} (hx : x ∈ xs)
      (hw : Visits cat s r h.item x g w) : Visits cat s r h (list xs) g w
  | entry {h g : Hint} {ps : Entries} {p : Value × Value} {w : Value}
      (hn : Entries.get? (str s.classField) ps = none) (hp : p ∈ ps)
      (hw : Visits cat s r .any p.2 g w) : Visits cat s r h (dict ps) g w
  | field {h g : Hint} {ps : Entries} {n entity : String} {c : ClassSpec} {f : FieldSpec}
      {v w : Value} (hn : Entries.get? (str s.classField) ps = some (str n))
      (he : r.classNamed? n = some entity) (hc : cat.class? entity = some c)
      (hu : c.uncaught? = none) (hf : f ∈ c.fields) (hgiven : f.given = true)
      (hv : Entries.get? (str (c.keyOf s f)) ps = some v) (hw : Visits cat s r (c.hintOf f) v g w) :
      Visits cat s r h (dict ps) g w

/-- What makes reading a value under a hint fail without a report, and the error that it fails with:
a text that is no identifier, an enumeration without members, an element that cannot be in a set, or
a class whose hints cannot be asked for. -/
inductive Unreadable (cat : Catalog) (s : Schema) (r : Registry) : Hint → Value → Error → Prop
  | identifier {t : String} (ht : Uuid.ofText? t = none) :
      Unreadable cat s r (.cls (.kind .uuid)) (str t) .value
  | memberless {e : String} {v : Value} (hless : cat.isMemberless e = true) (hnull : v ≠ null)
      (hd : ∀ ps, v ≠ .dict ps) (hl : ∀ xs, v ≠ .list xs) :
      Unreadable cat s r (.cls (.enumeration e)) v .kind
  | element {frozen : Bool} {h : Hint} {xs : List Value} {x y : Value} {m m' : Nat} (hx : x ∈ xs)
      (hy : decode cat s r x h m = (.ok y, m')) (hk : y.hashableIn cat.isFrozen = false) :
      Unreadable cat s r (.set frozen h) (list xs) .kind
  | unhinted {h : Hint} {ps : Entries} {n entity exception : String} {c : ClassSpec}
      (hn : Entries.get? (str s.classField) ps = some (str n))
      (he : r.classNamed? n = some entity) (hc : cat.class? entity = some c)
      (hu : c.uncaught? = some exception) : Unreadable cat s r h (dict ps) (.unhinted exception)

/-- An error that reading a value comes to without a report, for something unreadable in it. -/
def Escapes (cat : Catalog) (s : Schema) (r : Registry) (h : Hint) (v : Value) (e : Error) : Prop :=
  ∃ g w, Visits cat s r h v g w ∧ Unreadable cat s r g w e

namespace Escapes

variable {h : Hint} {v : Value} {ps : Entries} {e : Error}

theorem here (hv : Unreadable cat s r h v e) : Escapes cat s r h v e := ⟨h, v, .here, hv⟩

theorem item {xs : List Value} {x : Value} (hx : x ∈ xs) (he : Escapes cat s r h.item x e) :
    Escapes cat s r h (list xs) e := by
  obtain ⟨g, w, hw, hun⟩ := he
  exact ⟨g, w, .item hx hw, hun⟩

theorem entry {p : Value × Value} (hn : Entries.get? (str s.classField) ps = none) (hp : p ∈ ps)
    (he : Escapes cat s r .any p.2 e) : Escapes cat s r h (dict ps) e := by
  obtain ⟨g, w, hw, hun⟩ := he
  exact ⟨g, w, .entry hn hp hw, hun⟩

theorem ne_unserializable {why : Unserializable} (he : Escapes cat s r h v e) :
    e ≠ .unserializable why := by
  obtain ⟨g, w, _, hun⟩ := he
  cases hun <;> exact fun h => nomatch h

end Escapes

/-- Work whose failures are reported as such, but for the errors that may escape. -/
def Reports {α : Type} (escapes : Error → Prop) (x : Fresh α) : Prop :=
  ∀ m e m', x m = (.error e, m') → (∃ why, e = .unserializable why) ∨ escapes e

namespace Reports

variable {α β : Type} {p q : Error → Prop}

theorem pure (a : α) : Reports p (Pure.pure a : Fresh α) := fun _ _ _ h => nomatch h

theorem throw (why : Unserializable) :
    Reports p (MonadExcept.throw (.unserializable why) : Fresh α) := by
  intro m e m' h
  cases h
  exact .inl ⟨why, rfl⟩

theorem escape {e : Error} (he : p e) : Reports p (MonadExcept.throw e : Fresh α) := by
  intro m e' m' h
  cases h
  exact .inr he

theorem mono {x : Fresh α} (h : Reports p x) (hpq : ∀ e, p e → q e) : Reports q x :=
  fun m e m' he => (h m e m' he).imp_right (hpq e)

theorem bind {x : Fresh α} {f : α → Fresh β} (hx : Reports p x)
    (hf : ∀ m a m', x m = (.ok a, m') → Reports p (f a)) : Reports p (x >>= f) := by
  intro m e m' he
  rcases hr : x m with ⟨e' | a, t⟩
  · rw [bind_of_error hr] at he
    cases he
    exact hx m e m' hr
  · rw [bind_of_ok hr] at he
    exact hf m a t hr t e m' he

theorem map {x : Fresh α} (f : α → β) (hx : Reports p x) : Reports p (f <$> x) := by
  rw [map_eq_bind]
  exact hx.bind fun _ a _ _ => pure (f a)

end Reports

theorem distinct_error {kept xs : List Value} {e : Error} (h : distinct cat kept xs = .error e) :
    e = .kind ∧ ∃ x ∈ xs, x.hashableIn cat.isFrozen = false := by
  induction xs generalizing kept with
  | nil => cases h
  | cons x xs ih =>
    rw [distinct] at h
    cases hx : x.hashableIn cat.isFrozen with
    | false =>
      rw [hx] at h
      cases h
      exact ⟨rfl, x, by simp, hx⟩
    | true =>
      simp only [hx, Bool.not_true, Bool.false_eq_true, if_false] at h
      obtain ⟨he, y, hy, hk⟩ : e = .kind ∧ ∃ y ∈ xs, y.hashableIn cat.isFrozen = false := by
        split at h
        · exact ih h
        · exact ih h
      exact ⟨he, y, by simp [hy], hk⟩

/-- Only a set refuses what was read for it. -/
theorem collect_error {h : Hint} {ys : List Value} {e : Error} (he : collect cat h ys = .error e) :
    e = .kind ∧ ∃ frozen item, h = .set frozen item ∧
      ∃ y ∈ ys, y.hashableIn cat.isFrozen = false := by
  unfold collect at he
  split at he
  · cases he
  · next frozen item =>
    cases hd : distinct cat [] ys with
    | ok zs =>
      rw [hd] at he
      cases he
    | error e' =>
      rw [hd] at he
      cases he
      obtain ⟨hkind, y, hy, hk⟩ := distinct_error hd
      exact ⟨hkind, frozen, item, rfl, y, hy, hk⟩
  · cases he

theorem scalar_error {h : Hint} {v : Value} {e : Error} (hd : ∀ ps, v ≠ .dict ps)
    (hl : ∀ xs, v ≠ .list xs) (he : scalar cat h v = .error e) :
    (∃ why, e = .unserializable why) ∨ Unreadable cat s r h v e := by
  unfold scalar at he
  split at he
  · split at he
    · cases he
    · next hother =>
      split at he
      · next hless =>
        cases he
        exact .inr (.memberless hless (by rintro rfl; exact hother rfl) hd hl)
      · split at he
        · cases he
        · cases he
          exact .inl ⟨_, rfl⟩
  · split at he
    · next t =>
      split at he
      · cases he
      · next ht =>
        cases he
        exact .inr (.identifier ht)
    · cases he
  · cases he

theorem mem_of_decodeItems {h : Hint} {xs ys : List Value} {m m' : Nat} {y : Value}
    (hys : decodeItems cat s r h xs m = (.ok ys, m')) (hy : y ∈ ys) :
    ∃ x ∈ xs, ∃ k k', decode cat s r x h k = (.ok y, k') := by
  induction xs generalizing ys m with
  | nil =>
    cases hys
    cases hy
  | cons x xs ih =>
    rw [decodeItems] at hys
    obtain ⟨z, k, hz, hys⟩ := bind_eq_ok_iff.mp hys
    obtain ⟨zs, k', hzs, hys⟩ := bind_eq_ok_iff.mp hys
    cases hys
    rcases List.mem_cons.mp hy with rfl | hy
    · exact ⟨x, by simp, m, k, hz⟩
    · obtain ⟨x', hx', hread⟩ := ih hzs hy
      exact ⟨x', by simp [hx'], hread⟩

/-- Filling in what was not given fails only for a field that must be given. -/
theorem fill_result (entries : List (String × Value)) (fs : List FieldSpec) (m : Nat) :
    ∃ filled m', ClassSpec.fill entries fs m = (.ok filled, m') ∧
      ∀ why, filled = .error why → why = .kind none ∧
        ∃ f ∈ fs, f.default = .required ∧ entries.lookup f.name = none := by
  induction fs generalizing m with
  | nil => exact ⟨_, m, rfl, fun _ h => nomatch h⟩
  | cons f fs ih =>
    have hsome : ∀ (v : Value) (k : Nat), ∃ filled m',
        ((Except.map ((str f.name, v) :: ·)) <$> ClassSpec.fill entries fs :
          Fresh (Except Refusal Entries)) k = (.ok filled, m') ∧
        ∀ why, filled = .error why → why = .kind none ∧
          ∃ f' ∈ f :: fs, f'.default = .required ∧ entries.lookup f'.name = none := by
      intro v k
      obtain ⟨rest, m', hrest, hwhy⟩ := ih k
      refine ⟨_, m', by rw [map_eq_bind, bind_of_ok hrest]; rfl, fun why h => ?_⟩
      cases rest with
      | ok qs => cases h
      | error e =>
        obtain ⟨hkind, f', hf', hlack⟩ := hwhy why h
        exact ⟨hkind, f', List.mem_cons_of_mem f hf', hlack⟩
    rw [ClassSpec.fill]
    cases hl : entries.lookup f.name with
    | some v => exact hsome v m
    | none =>
      cases hd : f.default with
      | value v => exact hsome v m
      | freshId => exact hsome _ (m + 1)
      | required =>
        exact ⟨_, m, rfl, fun _ h => ⟨(Except.error.inj h).symm, f, by simp, hd, hl⟩⟩

/-- A class makes a record of itself, unless a field is lacking or it refuses the fields. -/
theorem construct_result (c : ClassSpec) (fields : List (String × Value)) (m : Nat) :
    (∃ fs m', c.construct fields m = (.ok (.ok (.record c.name fs)), m')) ∨
      ∃ why m', c.construct fields m = (.ok (.error why), m') ∧
        (why = .kind none ∨ ∃ fs, c.finish fs = .error why) := by
  unfold ClassSpec.construct
  dsimp only
  split
  · obtain ⟨filled, m', hfill, hwhy⟩ := fill_result fields c.fields m
    rw [bind_of_ok hfill]
    cases filled with
    | error why => exact .inr ⟨why, m', rfl, .inl (hwhy why rfl).1⟩
    | ok fs =>
      dsimp only
      cases hf : c.finish fs with
      | error why => exact .inr ⟨why, m', rfl, .inr ⟨fs, hf⟩⟩
      | ok gs => exact .inl ⟨gs, m', rfl⟩
  · exact .inr ⟨.kind none, m, rfl, .inl rfl⟩

theorem resolve_named {n entity : String} (h : r.classNamed? n = some entity) :
    r.resolve (str n) = .ok entity := by
  simp [Registry.resolve, h, hashable, hashableIn]

theorem resolve_unnamed {n : String} (h : r.classNamed? n = none) :
    r.resolve (str n) = .error (.unserializable (.unknownDiscriminator (str n))) := by
  simp [Registry.resolve, h, hashable, hashableIn]

theorem resolve_eq_ok {name : Value} {entity : String} (h : r.resolve name = .ok entity) :
    ∃ n, name = str n ∧ r.classNamed? n = some entity := by
  cases name with
  | str n =>
    cases hc : r.classNamed? n with
    | none =>
      rw [resolve_unnamed hc] at h
      cases h
    | some d =>
      rw [resolve_named hc] at h
      cases h
      exact ⟨n, rfl, hc⟩
  | _ =>
    unfold Registry.resolve at h
    split at h
    · cases h
    · cases h

theorem refused_reported (name : Value) {why : Refusal} (h : why.isReported = true) :
    ∃ cause, refused name why = .unserializable cause := by
  cases why with
  | kind words => cases words <;> exact ⟨_, rfl⟩
  | value words => cases words <;> exact ⟨_, rfl⟩
  | key => cases h
  | overflow => cases h

section Build

variable {p : Error → Prop} {n : String} {partly : Bool}
  {fetch : String → Hint → Fresh (Option Value)}

theorem given_reports {c : ClassSpec} {name : Value} {fs : List FieldSpec}
    (hf : ∀ f ∈ fs, f.given = true → Reports p (fetch (c.keyOf s f) (c.hintOf f))) :
    Reports p (given s c name partly fetch fs) := by
  induction fs with
  | nil => exact .pure _
  | cons f fs ih =>
    have hrest := ih fun f' hf' => hf f' (by simp [hf'])
    rw [given]
    split
    · exact hrest
    · next hgiven =>
      refine .bind (hf f (by simp) (by simpa using hgiven)) fun _ v _ _ => ?_
      cases v with
      | some v => exact hrest.bind fun _ _ _ _ => .pure _
      | none =>
        dsimp only
        split
        · split
          · exact hrest.bind fun _ _ _ _ => .pure _
          · exact .throw _
        · exact hrest

theorem build_reports (hr : r.Reporting cat)
    (hu : ∀ entity c exception, r.classNamed? n = some entity → cat.class? entity = some c →
      c.uncaught? = some exception → p (.unhinted exception))
    (hf : ∀ entity c, r.classNamed? n = some entity → cat.class? entity = some c →
      c.uncaught? = none →
      ∀ f ∈ c.fields, f.given = true → Reports p (fetch (c.keyOf s f) (c.hintOf f))) :
    Reports p (build cat s r (str n) partly fetch) := by
  unfold build
  simp only [isNull, Bool.false_eq_true, if_false]
  cases he : r.classNamed? n with
  | none =>
    rw [resolve_unnamed he]
    exact .throw _
  | some entity =>
    obtain ⟨c, hc, hreporting⟩ := hr n entity he
    simp only [resolve_named he, hc]
    cases hx : c.uncaught? with
    | some exception => exact .escape (hu entity c exception he hc hx)
    | none =>
      refine .bind (given_reports (hf entity c he hc hx)) fun _ fields _ _ => ?_
      intro m e m' h
      rcases construct_result c fields m with ⟨fs, k, hrun⟩ | ⟨why, k, hrun, hwhy⟩
      · rw [bind_of_ok hrun] at h
        cases h
      · have hreported : why.isReported = true := by
          rcases hwhy with rfl | ⟨fs, hfs⟩
          · rfl
          · exact hreporting fs why hfs
        obtain ⟨cause, hcause⟩ := refused_reported (str n) hreported
        rw [bind_of_ok hrun] at h
        dsimp only at h
        rw [hcause] at h
        exact Reports.throw cause _ _ _ h

/-- What is made of a document is of the class that the document names. -/
theorem build_result {m m' : Nat} {v : Value}
    (h : build cat s r (str n) partly fetch m = (.ok v, m')) :
    ∃ entity fs, r.classNamed? n = some entity ∧ v = .record entity fs := by
  obtain ⟨_, entity, c, entries, k, hr, hc, _, _, hmade⟩ := build_eq_ok_iff.mp h
  obtain rfl : c.name = entity := by simpa using List.find?_some hc
  obtain ⟨_, he, hnamed⟩ := resolve_eq_ok hr
  obtain rfl := Value.str.inj he
  rcases construct_result c entries k with ⟨fs, k', hrun⟩ | ⟨why, k', hrun, _⟩
  · rw [hrun] at hmade
    cases hmade
    exact ⟨c.name, fs, hnamed, rfl⟩
  · rw [hrun] at hmade
    cases hmade

end Build

/-- A document of a class fails as its hints or its fields do, or is refused with a report. -/
theorem named_reports (hr : r.Reporting cat) {ps : Entries} {n : String}
    (hn : Entries.get? (str s.classField) ps = some (str n)) (h : Hint) (partly : Bool)
    (hfields : ∀ key h, Reports (fun e => ∃ v, Entries.get? (str key) ps = some v ∧
      Escapes cat s r h v e) (decodeField cat s r key h ps)) :
    Reports (Escapes cat s r h (dict ps))
      (build cat s r (str n) partly fun key h => decodeField cat s r key h ps) := by
  refine build_reports hr (fun entity c exception he hc hu => .here (.unhinted hn he hc hu))
    fun entity c he hc hu f hf hgiven => ?_
  refine (hfields (c.keyOf s f) (c.hintOf f)).mono ?_
  rintro e ⟨v, hv, g, w, hw, hun⟩
  exact ⟨g, w, .field hn he hc hu hf hgiven hv hw, hun⟩

mutual

theorem decode_reports (hr : r.Reporting cat) (v : Value) :
    ∀ h, Labelled s.classField v → Reports (Escapes cat s r h v) (decode cat s r v h) := by
  intro h hv
  cases v with
  | dict ps =>
    cases hv with
    | dict hname hvalues =>
      rw [decode]
      cases hn : Entries.get? (str s.classField) ps with
      | some name =>
        obtain ⟨n, rfl⟩ := hname name hn
        exact named_reports hr hn h false fun key h => decodeField_reports hr ps key h hvalues
      | none =>
        refine .bind ?_ fun _ _ _ _ => .pure _
        refine (decodeEntries_reports hr ps hvalues).mono ?_
        rintro e ⟨p, hp, he⟩
        exact .entry hn hp he
    | other hd _ => exact absurd rfl (hd ps)
  | list xs =>
    cases hv with
    | list hxs =>
      rw [decode]
      have hitems : Reports (Escapes cat s r h (list xs)) (decodeItems cat s r h.item xs) :=
        (decodeItems_reports hr xs h.item hxs).mono fun e ⟨x, hx, he⟩ => .item hx he
      refine hitems.bind fun m ys m' hys => ?_
      cases hc : collect cat h ys with
      | ok w => exact .pure _
      | error e =>
        obtain ⟨rfl, frozen, item, rfl, y, hy, hk⟩ := collect_error hc
        obtain ⟨x, hx, k, k', hread⟩ := mem_of_decodeItems hys hy
        exact .escape (.here (.element hx hread hk))
    | other _ hl => exact absurd rfl (hl xs)
  | _ =>
    rw [decode] <;> try simp
    split
    · exact .pure _
    · next he =>
      intro m e' m' h'
      cases h'
      exact (scalar_error (by simp) (by simp) he).imp_right .here
termination_by structural v

theorem decodeItems_reports (hr : r.Reporting cat) (xs : List Value) :
    ∀ h, (∀ x ∈ xs, Labelled s.classField x) →
      Reports (fun e => ∃ x ∈ xs, Escapes cat s r h x e) (decodeItems cat s r h xs) := by
  intro h hxs
  cases xs with
  | nil => exact .pure _
  | cons x xs =>
    obtain ⟨hx, hxs⟩ := List.forall_mem_cons.mp hxs
    rw [decodeItems]
    simp only [List.exists_mem_cons_iff]
    have hhead := (decode_reports hr x h hx).mono fun e he =>
      (.inl he : Escapes cat s r h x e ∨ ∃ y ∈ xs, Escapes cat s r h y e)
    have htail := (decodeItems_reports hr xs h hxs).mono fun e he =>
      (.inr he : Escapes cat s r h x e ∨ ∃ y ∈ xs, Escapes cat s r h y e)
    exact hhead.bind fun _ _ _ _ => htail.bind fun _ _ _ _ => .pure _
termination_by structural xs

theorem decodeEntries_reports (hr : r.Reporting cat) (ps : Entries) :
    (∀ p ∈ ps, Labelled s.classField p.2) →
      Reports (fun e => ∃ p ∈ ps, Escapes cat s r .any p.2 e) (decodeEntries cat s r ps) := by
  intro hps
  cases ps with
  | nil => exact .pure _
  | cons p ps =>
    obtain ⟨hp, hps⟩ := List.forall_mem_cons.mp hps
    rw [decodeEntries]
    simp only [List.exists_mem_cons_iff]
    have hhead := (decodeEntry_reports hr p .any hp).mono fun e he =>
      (.inl he : Escapes cat s r .any p.2 e ∨ ∃ q ∈ ps, Escapes cat s r .any q.2 e)
    have htail := (decodeEntries_reports hr ps hps).mono fun e he =>
      (.inr he : Escapes cat s r .any p.2 e ∨ ∃ q ∈ ps, Escapes cat s r .any q.2 e)
    exact hhead.bind fun _ _ _ _ => htail.bind fun _ _ _ _ => .pure _
termination_by structural ps

theorem decodeEntry_reports (hr : r.Reporting cat) (p : Value × Value) :
    ∀ h, Labelled s.classField p.2 → Reports (Escapes cat s r h p.2) (decodeEntry cat s r h p) := by
  intro h hp
  cases p with
  | mk k v =>
    rw [decodeEntry]
    exact decode_reports hr v h hp
termination_by structural p

theorem decodeField_reports (hr : r.Reporting cat) (ps : Entries) :
    ∀ key h, (∀ p ∈ ps, Labelled s.classField p.2) →
      Reports (fun e => ∃ v, Entries.get? (str key) ps = some v ∧ Escapes cat s r h v e)
        (decodeField cat s r key h ps) := by
  intro key h hps
  cases ps with
  | nil => exact .pure _
  | cons p ps =>
    rw [decodeField]
    by_cases hp : p.1 = str key
    · rw [if_pos (equal_str_right.mpr hp), Entries.get?_here hp]
      exact .map _ ((decodeEntry_reports hr p h (hps p (by simp))).mono
        fun e he => ⟨p.2, rfl, he⟩)
    · rw [if_neg fun he => hp (equal_str_right.mp he), Entries.get?_past hp]
      exact decodeField_reports hr ps key h fun q hq => hps q (by simp [hq])
termination_by structural ps

end

/-- A document is read as an object of the class that it names, or what is wrong with it is
reported, or the error is one that something unreadable in it comes to. -/
theorem fromDocument_reports (hr : r.Reporting cat) {ps : Entries}
    (hd : Labelled s.classField (dict ps)) (partly : Bool) (m : Nat) :
    (∃ n entity fs m', Entries.get? (str s.classField) ps = some (str n) ∧
      r.classNamed? n = some entity ∧
      fromDocument cat s r partly (dict ps) m = (.ok (.record entity fs), m')) ∨
    (∃ why m', fromDocument cat s r partly (dict ps) m = (.error (.unserializable why), m')) ∨
    ∃ e m', fromDocument cat s r partly (dict ps) m = (.error e, m') ∧
      Escapes cat s r .any (dict ps) e := by
  cases hd with
  | other hd _ => exact absurd rfl (hd ps)
  | dict hname hvalues =>
    cases hn : Entries.get? (str s.classField) ps with
    | none =>
      refine .inr (.inl ⟨.noDiscriminator s.classField, m, ?_⟩)
      simp only [fromDocument, hn]
      rfl
    | some name =>
      obtain ⟨n, rfl⟩ := hname name hn
      have hreports := named_reports hr hn .any partly fun key h =>
        decodeField_reports hr ps key h hvalues
      simp only [fromDocument, hn, Option.getD_some]
      rcases hb : build cat s r (str n) partly (fun key h => decodeField cat s r key h ps) m with
        ⟨e | v, m'⟩
      · rcases hreports m e m' hb with ⟨why, rfl⟩ | he
        · exact .inr (.inl ⟨why, m', rfl⟩)
        · exact .inr (.inr ⟨e, m', rfl, he⟩)
      · obtain ⟨entity, fs, he, rfl⟩ := build_result hb
        exact .inl ⟨n, entity, fs, m', rfl, he, rfl⟩

def taskNames : Registry :=
  ⟨[("Task", "Task"), ("Point", "Point"), ("Bag", "Bag")],
    [("Task", "Task"), ("Point", "Point"), ("Bag", "Bag")]⟩

theorem taskNames_reporting : taskNames.Reporting Models.catalog := by
  refine .of_unchecked ?_
  simp only [taskNames, List.forall_mem_cons, List.not_mem_nil, false_implies, implies_true,
    and_true]
  exact ⟨⟨_, rfl, rfl⟩, ⟨_, rfl, rfl⟩, ⟨_, rfl, rfl⟩⟩

/-- A task with a point that lacks a coordinate. -/
def unpointed : Entries :=
  [(str "class", str "Task"), (str "title", str "walk"),
    (str "points", list [dict [(str "class", str "Point"), (str "x", int 1)]])]

theorem labelled_text (n : String) : Labelled "class" (str n) := .other (by simp) (by simp)

theorem labelled_unpointed : Labelled "class" (dict unpointed) := by
  have hpoint : Labelled "class" (dict [(str "class", str "Point"), (str "x", int 1)]) := by
    refine .dict (fun name h => ⟨"Point", (Option.some.inj h).symm⟩) ?_
    simp only [List.forall_mem_cons, List.not_mem_nil, false_implies, implies_true, and_true]
    exact ⟨labelled_text _, .other (by simp) (by simp)⟩
  refine .dict (fun name h => ⟨"Task", (Option.some.inj h).symm⟩) ?_
  simp only [unpointed, List.forall_mem_cons, List.not_mem_nil, false_implies, implies_true,
    and_true]
  exact ⟨labelled_text _, labelled_text _, .list (by simpa using hpoint)⟩

theorem fromDocument_unpointed : taskNames.Reporting Models.catalog ∧
    Labelled "class" (dict unpointed) ∧ ∃ why m',
      fromDocument Models.catalog .standard taskNames false (dict unpointed) 0 =
        (.error (.unserializable why), m') := by
  have hrun : ∃ key, fromDocument Models.catalog .standard taskNames false (dict unpointed) 0 =
      (.error (.unserializable (.missingField (str "Point") key)), 0) := ⟨"y", rfl⟩
  obtain ⟨key, hrun⟩ := hrun
  refine ⟨taskNames_reporting, labelled_unpointed, ?_⟩
  rcases fromDocument_reports (s := .standard) taskNames_reporting labelled_unpointed false 0 with
    ⟨_, _, _, _, _, _, h⟩ | h | ⟨_, _, h, he⟩
  · rw [hrun] at h
    cases h
  · exact h
  · rw [hrun] at h
    cases h
    exact absurd rfl he.ne_unserializable

/-- Notes have a state for which there are no words yet, and drafts an annotation that cannot be
read. -/
def noteCatalog : Catalog where
  classes := [
    Models.plain "Note" [Models.field "state" (.cls (.enumeration "State")) (.value null)],
    ⟨"Draft", false, false, 0, [], .failing "AttributeError", .ok⟩]
  enumerations := [⟨"State", []⟩]

def noteNames : Registry :=
  ⟨[("Note", "Note"), ("Draft", "Draft")], [("Note", "Note"), ("Draft", "Draft")]⟩

theorem noteNames_reporting : noteNames.Reporting noteCatalog := by
  refine .of_unchecked ?_
  simp only [noteNames, List.forall_mem_cons, List.not_mem_nil, false_implies, implies_true,
    and_true]
  exact ⟨⟨_, rfl, rfl⟩, ⟨_, rfl, rfl⟩⟩

/-- A text that is no identifier, a list that is to be in a set, an enumeration without members and
annotations that cannot be read stop the reading of a document without being reported. -/
theorem misplaced_unreported :
    let unnamed :=
      dict [(str "_id", str "zz"), (str "class", str "Task"), (str "title", str "walk")]
    let unlabelled := dict [(str "class", str "Bag"), (str "labels", list [list []])]
    let stateless := dict [(str "class", str "Note"), (str "state", str "new")]
    let draft := dict [(str "class", str "Draft")]
    (taskNames.Reporting Models.catalog ∧ Labelled "class" unnamed ∧ Labelled "class" unlabelled ∧
      (∀ m, fromDocument Models.catalog .standard taskNames false unnamed m = (.error .value, m)) ∧
      ∀ m, fromDocument Models.catalog .standard taskNames false unlabelled m =
        (.error .kind, m)) ∧
    noteNames.Reporting noteCatalog ∧ Labelled "class" stateless ∧ Labelled "class" draft ∧
      (∀ m, fromDocument noteCatalog .standard noteNames false stateless m = (.error .kind, m)) ∧
      ∀ m, fromDocument noteCatalog .standard noteNames false draft m =
        (.error (.unhinted "AttributeError"), m) := by
  intro unnamed unlabelled stateless draft
  refine ⟨⟨taskNames_reporting, ?_, ?_, fun m => rfl, fun m => rfl⟩, noteNames_reporting, ?_, ?_,
    fun m => rfl, fun m => rfl⟩
  · refine .dict (fun name h => ⟨"Task", (Option.some.inj h).symm⟩) ?_
    simp only [List.forall_mem_cons, List.not_mem_nil, false_implies, implies_true, and_true]
    exact ⟨labelled_text _, labelled_text _, labelled_text _⟩
  · refine .dict (fun name h => ⟨"Bag", (Option.some.inj h).symm⟩) ?_
    simp only [List.forall_mem_cons, List.not_mem_nil, false_implies, implies_true, and_true]
    exact ⟨labelled_text _, .list (by simpa using .list (by simp))⟩
  · refine .dict (fun name h => ⟨"Note", (Option.some.inj h).symm⟩) ?_
    simp only [List.forall_mem_cons, List.not_mem_nil, false_implies, implies_true, and_true]
    exact ⟨labelled_text _, labelled_text _⟩
  · refine .dict (fun name h => ⟨"Draft", (Option.some.inj h).symm⟩) ?_
    simpa using labelled_text "Draft"

end Codec

end DocStore
