import DocStore.Catalog.Models
import DocStore.Proofs.Codec.Attributes
import DocStore.Proofs.Codec.Conforming

/-! What the names of classes stand for while classes are registered and documents are written: a
name keeps its class, and so a document keeps the class that its discriminator names. -/

namespace DocStore

open Value

namespace Registry

variable {cat : Catalog} {s : Schema} {r t u : Registry}

/-- Every name that stands for a class goes on standing for it. -/
def Holding (r t : Registry) : Prop :=
  ∀ n c, r.classNamed? n = some c → t.classNamed? n = some c

theorem Holding.refl (r : Registry) : Holding r r := fun _ _ h => h

theorem Holding.trans (h : Holding r t) (h' : Holding t u) : Holding r u :=
  fun n c hn => h' n c (h n c hn)

theorem Grown.holding (h : Grown cat r t) : Holding r t := fun _ _ hn => h.held hn

theorem register_holding {cls : Value} {name : Option String}
    (h : r.register cat cls name = .ok t) : Holding r t := by
  obtain ⟨c, m, hfree, rfl⟩ := register_eq_ok h
  intro n d hd
  simp only [classNamed?, lookup_assign] at hd ⊢
  by_cases hn : n = m
  · rw [if_pos hn, hfree d (hn ▸ hd)]
  · rw [if_neg hn]
    exact hd

/-- What asking for the name of a class leaves and gives. -/
theorem className_cases {cls : Value} {n : String} (h : r.className cat cls = .ok (n, t)) :
    ∃ c, cls = .cls (.entity c) ∧ t.nameOf? c = some n ∧
      (t = r ∨ r.register cat cls none = .ok t) := by
  unfold className at h
  split at h
  · cases h
  split at h
  · cases h
  · next c _ =>
    split at h
    · next m hm =>
      cases h
      exact ⟨c, rfl, hm, .inl rfl⟩
    · obtain ⟨v, hv, h⟩ := except_bind_eq_ok.mp h
      split at h
      · next m hm =>
        cases h
        exact ⟨c, rfl, hm, .inr hv⟩
      · cases h
  · obtain ⟨v, _, h⟩ := except_bind_eq_ok.mp h
    cases h

theorem className_holding {cls : Value} {n : String} (h : r.className cat cls = .ok (n, t)) :
    Holding r t := by
  obtain ⟨_, _, _, rfl | hr⟩ := className_cases h
  · exact .refl _
  · exact register_holding hr

theorem Coherent.grown (hr : r.Coherent) (h : Grown cat r t) : t.Coherent := by
  intro c n hc
  cases hn : r.nameOf? c with
  | none =>
    obtain ⟨_, rfl, hheld⟩ := h.own hn hc
    exact hheld
  | some m =>
    have hm : m = n := Option.some.inj ((h.kept hn).symm.trans hc)
    exact h.held (hm ▸ hr c m hn)

/-- What can be asked of a codec: to register a class as a function or as a decorator, for the name
of a class, and to write an object. -/
inductive Request
  | register (cls : Value) (name : Option String)
  | decorate (cls : Value) (name : Option String)
  | className (cls : Value)
  | write (v : Value)

/-- Whether a request is about classes only. -/
def Request.isCall : Request → Bool
  | write _ => false
  | _ => true

/-- A call that answers and may change the registry. One that is refused leaves it. -/
def calling (x : Registry → Except Error (Value × Registry)) : Naming Value := fun r =>
  match x r with
  | .ok (a, t) => (.ok a, t)
  | .error e => (.error e, r)

/-- The answer to a request, and what it leaves. Registering null as a function gives a decorator
and registers nothing. -/
def request (cat : Catalog) (s : Schema) : Request → Naming Value
  | .register null _ => pure handle
  | .register v name => calling fun r => (r.register cat v name).map fun t => (v, t)
  | .decorate v name => calling fun r => (r.register cat v name).map fun t => (v, t)
  | .className v => calling fun r => (r.className cat v).map fun p => (str p.1, p.2)
  | .write v => Codec.toDocument cat s v

/-- What a run of requests leaves, whether they are refused or not. -/
def afterAll (cat : Catalog) (s : Schema) (r : Registry) (qs : List Request) : Registry :=
  qs.foldl (fun r q => (request cat s q r).2) r

theorem calling_cases {x : Registry → Except Error (Value × Registry)} {a : Except Error Value}
    (h : calling x r = (a, t)) : (∃ v, a = .ok v ∧ x r = .ok (v, t)) ∨ (∃ e, a = .error e) ∧ t = r := by
  unfold calling at h
  split at h
  · next v u hx =>
    cases h
    exact .inl ⟨v, rfl, hx⟩
  · next e _ =>
    cases h
    exact .inr ⟨⟨e, rfl⟩, rfl⟩

/-- How a request can end: a call answers or leaves all as it was, and writing lets the registry
grow. -/
theorem request_cases {q : Request} {a : Except Error Value} (h : request cat s q r = (a, t)) :
    t = r ∨ (∃ v name, a = .ok v ∧ r.register cat v name = .ok t) ∨
      (∃ v n, q = .className v ∧ a = .ok (str n) ∧ r.className cat v = .ok (n, t)) ∨
      ∃ v, q = .write v ∧ Grown cat r t := by
  have hregister {v : Value} {name : Option String}
      (hh : calling (fun r => (r.register cat v name).map fun t => (v, t)) r = (a, t)) :
      t = r ∨ ∃ v name, a = .ok v ∧ r.register cat v name = .ok t := by
    rcases calling_cases hh with ⟨w, rfl, hx⟩ | ⟨_, rfl⟩
    · obtain ⟨u, hu, he⟩ := except_map_eq_ok.mp hx
      cases he
      exact .inr ⟨v, name, rfl, hu⟩
    · exact .inl rfl
  cases q with
  | register v name =>
    by_cases hn : v = null
    · rw [hn] at h
      cases h
      exact .inl rfl
    · have heq : request cat s (.register v name) =
          calling fun r => (r.register cat v name).map fun t => (v, t) := by
        rw [request]
        exact hn
      rw [heq] at h
      rcases hregister h with h | h
      · exact .inl h
      · exact .inr (.inl h)
  | decorate v name =>
    rw [request] at h
    rcases hregister h with h | h
    · exact .inl h
    · exact .inr (.inl h)
  | className v =>
    rw [request] at h
    rcases calling_cases h with ⟨w, rfl, hx⟩ | ⟨_, rfl⟩
    · obtain ⟨⟨n, u⟩, hu, he⟩ := except_map_eq_ok.mp hx
      cases he
      exact .inr (.inr (.inl ⟨v, n, rfl, rfl, hu⟩))
    · exact .inl rfl
  | write v => exact .inr (.inr (.inr ⟨v, rfl, (Codec.toDocument_steady cat s v).grows h⟩))

theorem request_holding (q : Request) (r : Registry) : Holding r (request cat s q r).2 := by
  rcases hq : request cat s q r with ⟨a, t⟩
  rcases request_cases hq with h | ⟨_, _, _, h⟩ | ⟨_, _, _, _, h⟩ | ⟨_, _, h⟩
  · rw [h]
    exact .refl r
  · exact register_holding h
  · exact className_holding h
  · exact h.holding

theorem request_coherent (q : Request) (hr : r.Coherent) : (request cat s q r).2.Coherent := by
  rcases hq : request cat s q r with ⟨a, t⟩
  rcases request_cases hq with h | ⟨_, _, _, h⟩ | ⟨_, _, _, _, h⟩ | ⟨_, _, h⟩
  · rwa [h]
  · exact hr.register h
  · exact hr.className h
  · exact hr.grown h

/-- Names keep their classes over a run, by induction with the step above. -/
theorem afterAll_holding (qs : List Request) (r : Registry) : Holding r (r.afterAll cat s qs) := by
  induction qs generalizing r with
  | nil => exact .refl r
  | cons q qs ih => exact (request_holding q r).trans (ih _)

theorem afterAll_coherent (qs : List Request) (hr : r.Coherent) :
    (r.afterAll cat s qs).Coherent := by
  induction qs generalizing r with
  | nil => exact hr
  | cons q qs ih => exact ih (request_coherent q hr)

theorem resolve_eq_ok {name : Value} {c : String} :
    r.resolve name = .ok c ↔ ∃ n, name = str n ∧ r.classNamed? n = some c := by
  unfold resolve
  constructor
  · intro h
    split at h
    · cases h
    split at h
    · next n _ =>
      split at h
      · next hc =>
        cases h
        exact ⟨n, rfl, hc⟩
      · cases h
    · cases h
  · rintro ⟨n, rfl, hc⟩
    simp [Value.hashable, Value.hashableIn, hc]

theorem resolve_str {n c : String} : r.resolve (str n) = .ok c ↔ r.classNamed? n = some c := by
  rw [resolve_eq_ok]
  constructor
  · rintro ⟨m, hm, hc⟩
    rwa [str.inj hm]
  · intro hc
    exact ⟨n, rfl, hc⟩

theorem Holding.resolve {name : Value} {c : String} (h : Holding r t)
    (hr : r.resolve name = .ok c) : t.resolve name = .ok c := by
  obtain ⟨n, rfl, hc⟩ := resolve_eq_ok.mp hr
  exact resolve_str.mpr (h n c hc)

theorem request_className {v : Value} {n : String}
    (h : request cat s (.className v) r = (.ok (str n), t)) : r.className cat v = .ok (n, t) := by
  rw [request] at h
  rcases calling_cases h with ⟨w, hw, hx⟩ | ⟨⟨e, he⟩, _⟩
  · obtain ⟨⟨m, u⟩, hu, he⟩ := except_map_eq_ok.mp hx
    cases hw
    cases he
    exact hu
  · cases he

theorem request_refused {q : Request} {e : Error} (hq : q.isCall = true)
    (h : request cat s q r = (.error e, t)) : t = r := by
  rcases request_cases h with h | ⟨_, _, h, _⟩ | ⟨_, _, _, h, _⟩ | ⟨_, rfl, _⟩
  · exact h
  · cases h
  · cases h
  · cases hq

end Registry

namespace Codec

open Registry

variable {cat : Catalog} {s : Schema} {c : String} {r t : Registry}

/-- A part of a value, and what stands for it in what the value was written to. -/
inductive Stands (cat : Catalog) : Value → Value → Value → Value → Prop
  | here (v w : Value) : Stands cat v w v w
  | item {v a b x y : Value} {xs ys : List Value} {i : Nat}
      (hv : v = list xs ∨ v = tuple xs ∨ ∃ frozen, v = set frozen xs) (ha : xs[i]? = some a)
      (hb : ys[i]? = some b) (h : Stands cat a b x y) : Stands cat v (list ys) x y
  | entry {p q : Value × Value} {x y : Value} {ps qs : Entries} {i : Nat} (hp : ps[i]? = some p)
      (hq : qs[i]? = some q) (h : Stands cat p.2 q.2 x y) : Stands cat (dict ps) (dict qs) x y
  | field {c n : String} {a b x y : Value} {fs es : Entries} (hfs : fs.Keyed)
      (hn : isIdentity cat c (str n) = false) (ha : Entries.get? (str n) fs = some a)
      (hb : Entries.get? (str n) es = some b) (h : Stands cat a b x y) :
      Stands cat (.record c fs) (dict es) x y

theorem forall₂_at {α β : Type} {R : α → β → Prop} {xs : List α} {ys : List β}
    (h : List.Forall₂ R xs ys) {i : Nat} {a : α} {b : β} (ha : xs[i]? = some a)
    (hb : ys[i]? = some b) : R a b := by
  obtain ⟨hi, rfl⟩ := List.getElem?_eq_some_iff.mp ha
  obtain ⟨hj, rfl⟩ := List.getElem?_eq_some_iff.mp hb
  exact h.get hi hj

/-- What stands for a part is what was written for it. -/
theorem Stands.written {v w x y : Value} (h : Stands cat v w x y) :
    ∀ {r t}, toValue cat s v r = (.ok w, t) → WrittenWithin cat s r t x y := by
  induction h with
  | here v w => exact fun hw => .of_run hw
  | @item v a b x y xs ys i hv ha hb _ ih =>
    intro r t hw
    have hitems : toValues cat s xs r = (.ok ys, t) := by
      rcases hv with rfl | rfl | ⟨_, rfl⟩
      all_goals
        rw [toValue] at hw
        obtain ⟨_, _, hys, hw⟩ := bind_eq_ok_iff.mp hw
        cases hw
        exact hys
    obtain ⟨r', t', hr, hab, ht⟩ := forall₂_at (toValues_parts hitems) ha hb
    exact (ih hab).wider hr ht
  | entry hp hq _ ih =>
    intro r t hw
    rw [toValue] at hw
    obtain ⟨_, _, hqs, hw⟩ := bind_eq_ok_iff.mp hw
    cases hw
    obtain ⟨r', t', hr, hab, ht⟩ := (forall₂_at (toEntries_parts hqs) hp hq).2
    exact (ih hab).wider hr ht
  | field hfs hn ha hb _ ih =>
    intro r t hw
    obtain ⟨_, b', hes, hb', r', t', hr, hab, ht⟩ := record_field hfs hw ha hn
    cases hes
    rw [hb] at hb'
    cases hb'
    exact (ih hab).wider hr ht

/-- The name of a record's class is not written over by a field or the revision. -/
structure Unmasked (cat : Catalog) (s : Schema) (c : String) (fs : Entries) : Prop where
  fields : Unwritten cat c fs s.classField
  revision : (cat.class? c).any ClassSpec.identifiable = true → s.classField ≠ s.revisionField

/-- The document of a record has a name of its class. -/
theorem discriminator_written {fs : Entries} {w : Value} (hr : r.Coherent)
    (hm : Unmasked cat s c fs) (h : toValue cat s (.record c fs) r = (.ok w, t)) :
    ∃ es n, w = dict es ∧ Entries.get? (str s.classField) es = some (str n) ∧
      t.classNamed? n = some c := by
  obtain ⟨start, u, es, hstart, hgrown, rfl, hget⟩ := record_header hm.fields h
  obtain ⟨n, hname, hclass⟩ := header_class hm.revision hstart
  obtain ⟨d, hd, hn, _⟩ := className_cases (className_run_iff.mp hname)
  cases hd
  have hu := hr.grown ((header_steady cat s c fs).grows hstart)
  exact ⟨es, n, rfl, hget.trans hclass, hgrown.held (hu c n hn)⟩

end Codec

namespace Registry

open Codec

variable {cat : Catalog} {s : Schema}

theorem empty_coherent : empty.Coherent := fun _ _ h => nomatch h

/-- Over every run of requests a name that stands for a class goes on standing for it, the name that
a class is given stands for the class, and a call that is refused changes nothing. Every record in a
document that was written has a name that goes on standing for its class, unless something else is
written under the name of the discriminator. -/
theorem discriminator_kept (cat : Catalog) (s : Schema) (before later : List Request) :
    (∀ name c, (empty.afterAll cat s before).resolve name = .ok c →
      ((empty.afterAll cat s before).afterAll cat s later).resolve name = .ok c) ∧
    (∀ cls n t, request cat s (.className cls) (empty.afterAll cat s before) = (.ok (str n), t) →
      ∃ c, cls = .cls (.entity c) ∧ (t.afterAll cat s later).resolve (str n) = .ok c) ∧
    (∀ q e t, q.isCall = true → request cat s q (empty.afterAll cat s before) = (.error e, t) →
      t = empty.afterAll cat s before) ∧
    ∀ v w t, request cat s (.write v) (empty.afterAll cat s before) = (.ok w, t) →
      ∀ c fs x, Stands cat v w (.record c fs) x → Unmasked cat s c fs →
        ∃ es n, x = dict es ∧ Entries.get? (str s.classField) es = some (str n) ∧
          (t.afterAll cat s later).resolve (str n) = .ok c := by
  have hr : (empty.afterAll cat s before).Coherent := afterAll_coherent before empty_coherent
  refine ⟨fun name c h => (afterAll_holding later _).resolve h, fun cls n t h => ?_,
    fun q e t hq h => request_refused hq h, fun v w t h c fs x hx hm => ?_⟩
  · have hname := request_className h
    obtain ⟨c, rfl, hn, _⟩ := className_cases hname
    exact ⟨c, rfl, resolve_str.mpr (afterAll_holding later t n c ((hr.className hname) c n hn))⟩
  · have hw : toValue cat s v (empty.afterAll cat s before) = (.ok w, t) := by
      cases v <;> first | exact h | cases h
    obtain ⟨r', t', hr', hx, ht'⟩ := hx.written hw
    obtain ⟨es, n, rfl, hn, hc⟩ := discriminator_written (hr.grown hr') hm hx
    exact ⟨es, n, rfl, hn, resolve_str.mpr (afterAll_holding later t n c (ht'.held hc))⟩

def personClass : Value := .cls (.entity "Person")

def addressClass : Value := .cls (.entity "Address")

def home : Entries := [(str "city", str "London"), (str "street", str "Main")]

def adaFields : Entries :=
  [(str "id", uuid (Uuid.ofNat 1)), (str "name", str "Ada"), (str "age", int 36),
    (str "level", Models.junior), (str "address", .record "Address" home), (str "tags", list [])]

/-- Requests of which the last is refused. -/
def namings : List Request :=
  [.className personClass, .decorate personClass (some "Human"), .register null none,
    .register addressClass (some "Human")]

def furtherNamings : List Request :=
  [.register personClass (some "Citizen"), .register addressClass (some "Person")]

/-- The registry after the namings. -/
def humans : Registry := ⟨[("Person", "Person"), ("Human", "Person")], [("Person", "Human")]⟩

def adaDocument : Entries :=
  [(str "_id", uuid (Uuid.ofNat 1)), (str "class", str "Human"), (str "revision", int 2),
    (str "name", str "Ada"), (str "age", int 36), (str "level", str "junior"),
    (str "address", dict ((str "class", str "Address") :: home)), (str "tags", list [])]

theorem unmasked_of_names {c : String} {fs : Entries}
    (h : ∀ k ∈ fs.map Prod.fst, k ≠ str s.classField) (hs : s.classField ≠ s.revisionField) :
    Unmasked cat s c fs where
  fields f hf := h f.1 (List.mem_map_of_mem (List.mem_of_mem_filter hf))
  revision _ := hs

theorem discriminator_humans :
    ((empty.afterAll Models.catalog .standard namings).afterAll Models.catalog .standard
      furtherNamings).resolve (str "Person") = .ok "Person" ∧
    (∃ c, personClass = .cls (.entity c) ∧
      (humans.afterAll Models.catalog .standard furtherNamings).resolve (str "Human") = .ok c) ∧
    (∃ e, request Models.catalog .standard (.register addressClass (some "Human")) humans =
      (.error e, humans)) ∧
    ∃ t, request Models.catalog .standard (.write (.record "Person" adaFields)) humans =
      (.ok (dict adaDocument), t) ∧
      (∃ es n, dict adaDocument = dict es ∧ Entries.get? (str "class") es = some (str n) ∧
        (t.afterAll Models.catalog .standard furtherNamings).resolve (str n) = .ok "Person") ∧
      ∃ es n, dict ((str "class", str "Address") :: home) = dict es ∧
        Entries.get? (str "class") es = some (str n) ∧
        (t.afterAll Models.catalog .standard furtherNamings).resolve (str n) = .ok "Address" := by
  obtain ⟨hname, hclass, hrefused, hwritten⟩ :=
    discriminator_kept Models.catalog .standard namings furtherNamings
  have hw : request Models.catalog .standard (.write (.record "Person" adaFields)) humans =
      (.ok (dict adaDocument), _) := rfl
  have hperson : Unmasked Models.catalog .standard "Person" adaFields :=
    unmasked_of_names (by simp [adaFields, Schema.standard]) (by decide)
  have haddress : Unmasked Models.catalog .standard "Address" home :=
    unmasked_of_names (by simp [home, Schema.standard]) (by decide)
  have hkeyed : Entries.Keyed adaFields := ⟨by simp [adaFields], by simp [adaFields]⟩
  refine ⟨hname (str "Person") "Person" rfl, hclass personClass "Human" humans rfl,
    ⟨_, Prod.ext rfl (hrefused (.register addressClass (some "Human")) _ _ rfl rfl)⟩, _, hw,
    hwritten _ _ _ hw _ _ _ (.here _ _) hperson, hwritten _ _ _ hw _ _ _ ?_ haddress⟩
  exact .field (n := "address") hkeyed rfl rfl rfl (.here _ _)

/-- A field of the discriminator's name takes its place, and then the document names no class. -/
theorem discriminator_masked :
    let s : Schema := ⟨"_id", "name", "revision"⟩
    let r := empty.afterAll Models.catalog s [.register personClass none]
    ∃ es t e, request Models.catalog s (.write (.record "Person" adaFields)) r = (.ok (dict es), t) ∧
      Entries.get? (str s.classField) es = some (str "Ada") ∧
      t.resolve (str "Ada") = .error e :=
  ⟨_, _, _, rfl, rfl, rfl⟩

end Registry

end DocStore
