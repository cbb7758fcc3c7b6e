import DocStore.Proofs.Codec.Growth

/-! Values as the hints on fields describe them, and records made of such values. -/

namespace DocStore

open Value

namespace Schema

/-- The names a document's header uses are three different ones. -/
structure Apart (s : Schema) : Prop where
  id_class : s.idField ≠ s.classField
  id_revision : s.idField ≠ s.revisionField
  class_revision : s.classField ≠ s.revisionField

end Schema

def Value.isScalar : Value → Bool
  | int _ => true
  | float _ => true
  | str _ => true
  | .bool _ => true
  | bytes _ => true
  | uuid _ => true
  | date _ => true
  | datetime _ => true
  | _ => false

/-- Data that no class has a part in: dictionaries have texts as keys, and no dictionary says that
it is of a class. -/
inductive Plain (classField : String) : Value → Prop
  | null : Plain classField null
  | scalar {v : Value} (hv : v.isScalar = true) : Plain classField v
  | list {xs : List Value} (hxs : ∀ x ∈ xs, Plain classField x) : Plain classField (list xs)
  | dict {ps : Entries} (hkeys : ∀ p ∈ ps, ∃ n, p.1 = str n ∧ n ≠ classField)
      (hvalues : ∀ p ∈ ps, Plain classField p.2) : Plain classField (dict ps)

/-- An enumeration of scalars no two of which are equal, so that a value tells its member. -/
structure Enumeration.Sound (e : Enumeration) : Prop where
  scalar : ∀ m ∈ e.members, m.2.isScalar = true
  itself : ∀ m ∈ e.members, equal m.2 m.2 = true
  distinct : e.members.Pairwise fun m m' => equal m.2 m'.2 = false

/-- Whether a field is the identifier that documents have in their header. -/
def ClassSpec.identity (c : ClassSpec) (f : FieldSpec) : Bool := c.identifiable && f.name == "id"

/-- A class that is given all its fields, under names that the header leaves free, and whose hints
can be asked for. -/
structure ClassSpec.Sound (s : Schema) (c : ClassSpec) : Prop where
  names : (c.fields.map FieldSpec.name).Nodup
  given : ∀ f ∈ c.fields, f.given = true
  free : ∀ f ∈ c.fields, c.identity f = false →
    f.name ≠ s.idField ∧ f.name ≠ s.classField ∧ f.name ≠ s.revisionField
  hinted : c.uncaught? = none

/-- Whether records are hinted, perhaps as optional. -/
def Hint.isRecord : Hint → Bool
  | cls (.entity _) => true
  | optional (cls (.entity _)) => true
  | _ => false

/-- Values that conform to a hint. A number may stand where another kind of number is hinted, and a
record where another class is, as those of derived classes do. -/
inductive Conforms (cat : Catalog) (s : Schema) (r : Registry) : Hint → Value → Prop
  | null {h : Hint} : Conforms cat s r h null
  | scalar {k : Kind} {v : Value} (hv : v.isScalar = true) (hk : k = .uuid → v.isStr = false) :
      Conforms cat s r (.cls (.kind k)) v
  | any {v : Value} (hv : Plain s.classField v) : Conforms cat s r .any v
  | dict {ps : Entries} (hps : Plain s.classField (dict ps)) :
      Conforms cat s r (.cls (.kind .dict)) (dict ps)
  | entries {k v : Hint} {ps : Entries} (hps : Plain s.classField (Value.dict ps)) :
      Conforms cat s r (.dict k v) (Value.dict ps)
  | member {e : Enumeration} {m : String × Value} (he : cat.enumeration? e.name = some e)
      (hsound : e.Sound) (hm : m ∈ e.members) :
      Conforms cat s r (.cls (.enumeration e.name)) (.member e.name m.1 m.2)
  | list {h : Hint} {xs : List Value} (hxs : ∀ x ∈ xs, Conforms cat s r h x) :
      Conforms cat s r (.list h) (list xs)
  | tuple {h : Hint} {xs : List Value} (hxs : ∀ x ∈ xs, Conforms cat s r h x) :
      Conforms cat s r (.tuple [h]) (tuple xs)
  | set {frozen : Bool} {h : Hint} {xs : List Value} (hxs : ∀ x ∈ xs, Conforms cat s r h x)
      (hkeys : ∀ x ∈ xs, x.hashableIn cat.isFrozen = true)
      (hdistinct : xs.Pairwise fun x y => same y x = false) :
      Conforms cat s r (.set frozen h) (Value.set frozen xs)
  | optional {h : Hint} {v : Value} (hv : v.isScalar = true) : Conforms cat s r (.optional h) v
  | record {h : Hint} {c : ClassSpec} {n : String} {fs : Entries} (hh : h.isRecord = true)
      (hc : cat.class? c.name = some c)
      (hsound : c.Sound s) (hn : r.nameOf? c.name = some n)
      (hkeys : fs.map Prod.fst = c.fields.map fun f => str f.name) (hfinish : c.finish fs = .ok fs)
      (hfields : ∀ p ∈ c.fields.zip fs, Conforms cat s r (c.hintOf p.1) p.2.2) :
      Conforms cat s r h (.record c.name fs)

namespace Registry

variable {cat : Catalog} {r t : Registry}

/-- Registries that come about by registering classes and by asking for their names. -/
inductive Reached (cat : Catalog) : Registry → Prop
  | empty : Reached cat empty
  | register {r t : Registry} {cls : Value} {name : Option String} (hr : Reached cat r)
      (h : r.register cat cls name = .ok t) : Reached cat t
  | className {r t : Registry} {cls : Value} {n : String} (hr : Reached cat r)
      (h : r.className cat cls = .ok (n, t)) : Reached cat t

theorem register_eq_ok {cls : Value} {name : Option String}
    (h : r.register cat cls name = .ok t) : ∃ c n,
      (∀ holder, r.classNamed? n = some holder → holder = c) ∧
      t = ⟨assign n c r.byName, assign c n r.names⟩ := by
  unfold register at h
  split at h
  · next c =>
    split at h
    · dsimp only at h
      split at h
      · next holder hc =>
        split at h
        · next hh =>
          refine ⟨c, _, fun holder' hh' => ?_, (Except.ok.inj h).symm⟩
          rw [hc] at hh'
          rw [← Option.some.inj hh', hh]
        · cases h
      · next hc =>
        refine ⟨c, _, fun holder' hh' => ?_, (Except.ok.inj h).symm⟩
        rw [hc] at hh'
        cases hh'
    · cases h
  · cases h

/-- The name of a class stands for the class. -/
def Coherent (r : Registry) : Prop := ∀ c n, r.nameOf? c = some n → r.classNamed? n = some c

theorem Coherent.register {cls : Value} {name : Option String} (hr : r.Coherent)
    (h : r.register cat cls name = .ok t) : t.Coherent := by
  obtain ⟨c, n, hfree, rfl⟩ := register_eq_ok h
  intro d m hd
  simp only [nameOf?, classNamed?, lookup_assign] at hd ⊢
  by_cases hm : m = n
  · rw [if_pos hm]
    by_cases hdc : d = c
    · rw [hdc]
    · rw [if_neg hdc] at hd
      have hheld := hr d m hd
      rw [hm] at hheld
      rw [hfree d hheld]
  · rw [if_neg hm]
    by_cases hdc : d = c
    · rw [if_pos hdc] at hd
      exact absurd (Option.some.inj hd).symm hm
    · rw [if_neg hdc] at hd
      exact hr d m hd

theorem Coherent.className {cls : Value} {n : String} (hr : r.Coherent)
    (h : r.className cat cls = .ok (n, t)) : t.Coherent := by
  unfold Registry.className at h
  split at h
  · cases h
  split at h
  · cases h
  · split at h
    · cases h
      exact hr
    · obtain ⟨u, hu, h⟩ := except_bind_eq_ok.mp h
      split at h
      · cases h
        exact hr.register hu
      · cases h
  · obtain ⟨u, hu, h⟩ := except_bind_eq_ok.mp h
    cases h

theorem Reached.coherent (h : Reached cat r) : r.Coherent := by
  induction h with
  | empty =>
    intro c n hc
    cases hc
  | register _ h ih => exact ih.register h
  | className _ h ih => exact ih.className h

end Registry

end DocStore
