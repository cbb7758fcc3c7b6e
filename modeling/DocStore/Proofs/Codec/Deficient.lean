import DocStore.Proofs.Codec.Partial
import DocStore.Proofs.Query.Cut

/-! Documents that were cut, and whether they can be read. What stays of a document is read unless
a class that it names below its top lacks a field that must be given. -/

namespace DocStore

open Value

/-- Work that fails for a missing field if something is lacking, and succeeds if nothing is,
whatever identifiers were handed out. -/
structure Settles {α : Type} (lacking : Prop) (x : Fresh α) : Prop where
  fails : lacking → ∀ m, ∃ name key m',
    x m = (.error (.unserializable (.missingField name key)), m')
  succeeds : ¬ lacking → ∀ m, ∃ a m', x m = (.ok a, m')

namespace Settles

variable {α β : Type} {p q : Prop}

theorem pure (a : α) : Settles False (Pure.pure a : Fresh α) :=
  ⟨False.elim, fun _ m => ⟨a, m, rfl⟩⟩

theorem throw (name : Value) (key : String) :
    Settles True (MonadExcept.throw (.unserializable (.missingField name key)) : Fresh α) :=
  ⟨fun _ m => ⟨name, key, m, rfl⟩, fun h => absurd trivial h⟩

theorem congr {x : Fresh α} (hx : Settles p x) (h : p ↔ q) : Settles q x :=
  ⟨fun hq => hx.fails (h.mpr hq), fun hq => hx.succeeds (mt h.mp hq)⟩

theorem bind {x : Fresh α} {f : α → Fresh β} (hx : Settles p x)
    (hf : ∀ m a m', x m = (.ok a, m') → Settles q (f a)) : Settles (p ∨ q) (x >>= f) := by
  constructor
  · intro hpq m
    by_cases hp : p
    · obtain ⟨name, key, m', hrun⟩ := hx.fails hp m
      exact ⟨name, key, m', bind_of_error hrun⟩
    · obtain ⟨a, k, hrun⟩ := hx.succeeds hp m
      obtain ⟨name, key, m', hthen⟩ := (hf m a k hrun).fails (hpq.resolve_left hp) k
      exact ⟨name, key, m', (bind_of_ok hrun).trans hthen⟩
  · intro hpq m
    obtain ⟨hp, hq⟩ := not_or.mp hpq
    obtain ⟨a, k, hrun⟩ := hx.succeeds hp m
    obtain ⟨b, m', hthen⟩ := (hf m a k hrun).succeeds hq k
    exact ⟨b, m', (bind_of_ok hrun).trans hthen⟩

theorem andThen {x : Fresh α} {f : α → Fresh β} (hx : Settles p x)
    (hf : ∀ m a m', x m = (.ok a, m') → Settles False (f a)) : Settles p (x >>= f) :=
  (hx.bind hf).congr (by simp)

end Settles

namespace Codec

/-- A document that lacks what the class that it names must be given, or what has such a document
in it. Of a part of a document, the class is given null for what was left out. -/
inductive Deficient (cat : Catalog) (s : Schema) (r : Registry) : Bool → Value → Prop
  | lacking {qs : Entries} {n : String} {c : ClassSpec} {f : FieldSpec}
      (hn : Entries.get? (str s.classField) qs = some (str n)) (hs : r.Stands cat n c)
      (hf : f ∈ c.fields) (hgiven : f.given = true) (hd : f.default = .required)
      (hlack : Entries.get? (str (c.keyOf s f)) qs = none) : Deficient cat s r false (dict qs)
  | field {partly : Bool} {qs : Entries} {n : String} {c : ClassSpec} {f : FieldSpec} {u : Value}
      (hn : Entries.get? (str s.classField) qs = some (str n)) (hs : r.Stands cat n c)
      (hf : f ∈ c.fields) (hgiven : f.given = true)
      (hu : Entries.get? (str (c.keyOf s f)) qs = some u) (h : Deficient cat s r false u) :
      Deficient cat s r partly (dict qs)
  | entry {partly : Bool} {qs : Entries} {p : Value × Value}
      (hn : Entries.get? (str s.classField) qs = none) (hp : p ∈ qs)
      (h : Deficient cat s r false p.2) : Deficient cat s r partly (dict qs)

variable {cat : Catalog} {s : Schema} {r : Registry} {c : ClassSpec} {name v w : Value}
  {n : String} {partly : Bool} {f : FieldSpec} {fs : List FieldSpec} {qs ps : Entries}
  {entries : List (String × Value)} {h : Hint} {m : Nat}

/-- What can be read in full is not deficient. -/
theorem Legible.sound (hl : Legible cat s r h w) : ¬ Deficient cat s r partly w := by
  intro hd
  induction hd generalizing h with
  | lacking hn hs hf hgiven hd hlack => exact hl.present hn hs hf hgiven hd hlack
  | field hn hs hf hgiven hu _ ih => exact ih (hl.field hn hs hf hgiven hu)
  | entry hn hp _ ih => exact ih (hl.entry hn hp)

/-- How a field of a document's class makes the document deficient. -/
def Deficient.By (cat : Catalog) (s : Schema) (r : Registry) (partly : Bool) (c : ClassSpec)
    (qs : Entries) (f : FieldSpec) : Prop :=
  f.given = true ∧
    (partly = false ∧ f.default = .required ∧ Entries.get? (str (c.keyOf s f)) qs = none ∨
      ∃ u, Entries.get? (str (c.keyOf s f)) qs = some u ∧ Deficient cat s r false u)

theorem deficient_named (hn : Entries.get? (str s.classField) qs = some (str n))
    (hs : r.Stands cat n c) : Deficient cat s r partly (dict qs) ↔
      ∃ f ∈ c.fields, Deficient.By cat s r partly c qs f := by
  constructor
  · intro hd
    cases hd with
    | lacking hn' hs' hf hgiven hd hlack =>
      cases hn.symm.trans hn'
      obtain rfl := hs.unique hs'
      exact ⟨_, hf, hgiven, .inl ⟨rfl, hd, hlack⟩⟩
    | field hn' hs' hf hgiven hu hd =>
      cases hn.symm.trans hn'
      obtain rfl := hs.unique hs'
      exact ⟨_, hf, hgiven, .inr ⟨_, hu, hd⟩⟩
    | entry hn' => cases hn.symm.trans hn'
  · rintro ⟨f, hf, hgiven, ⟨rfl, hd, hlack⟩ | ⟨u, hu, hd⟩⟩
    · exact .lacking hn hs hf hgiven hd hlack
    · exact .field hn hs hf hgiven hu hd

theorem deficient_unnamed (hn : Entries.get? (str s.classField) qs = none) :
    Deficient cat s r partly (dict qs) ↔ ∃ p ∈ qs, Deficient cat s r false p.2 := by
  constructor
  · intro hd
    cases hd with
    | lacking hn' => cases hn.symm.trans hn'
    | field hn' => cases hn.symm.trans hn'
    | entry _ hp hd => exact ⟨_, hp, hd⟩
  · rintro ⟨p, hp, hd⟩
    exact .entry hn hp hd

/-- The fields of a class that a document has are read, or fail for what they lack. -/
def FieldsSettle (cat : Catalog) (s : Schema) (r : Registry) (c : ClassSpec) (qs : Entries)
    (fs : List FieldSpec) : Prop :=
  ∀ f ∈ fs, f.given = true → ∀ u, Entries.get? (str (c.keyOf s f)) qs = some u →
    Settles (Deficient cat s r false u) (decode cat s r u (c.hintOf f))

theorem given_settles (h : FieldsSettle cat s r c qs fs) :
    Settles (∃ f ∈ fs, Deficient.By cat s r partly c qs f)
      (given s c name partly (fun key h => decodeField cat s r key h qs) fs) := by
  induction fs with
  | nil => exact (Settles.pure _).congr (by simp)
  | cons f fs ih =>
    have hrest := ih fun f' hf' => h f' (List.mem_cons_of_mem f hf')
    rw [given]
    simp only [List.exists_mem_cons_iff]
    cases hgiven : f.given with
    | false =>
      rw [if_pos (by simp)]
      exact hrest.congr (by simp [Deficient.By, hgiven])
    | true =>
      rw [if_neg (by simp)]
      change Settles _ (decodeField cat s r (c.keyOf s f) (c.hintOf f) qs >>= _)
      rw [decodeField_eq]
      cases hu : Entries.get? (str (c.keyOf s f)) qs with
      | some u =>
        have hby : Deficient.By cat s r partly c qs f ↔ Deficient cat s r false u := by
          simp [Deficient.By, hgiven, hu]
        dsimp only
        rw [hby, map_eq_bind]
        refine ((h f (by simp) hgiven u hu).andThen fun _ _ _ _ => .pure _).bind
          fun m a m' ha => ?_
        obtain ⟨x, k, _, ha⟩ := bind_eq_ok_iff.mp ha
        cases ha
        exact hrest.andThen fun _ _ _ _ => .pure _
      | none =>
        have hby : Deficient.By cat s r partly c qs f ↔
            partly = false ∧ f.default = .required := by
          simp [Deficient.By, hgiven, hu]
        dsimp only
        rw [hby]
        rw [pure_bind]
        dsimp only
        cases hd : f.default with
        | required =>
          dsimp only
          cases partly with
          | true => exact (hrest.andThen fun _ _ _ _ => .pure _).congr (by simp)
          | false => exact (Settles.throw _ _).congr (by simp)
        | value v => exact hrest.congr (by simp)
        | freshId => exact hrest.congr (by simp)

/-- A class without checks is made of what it is given, if that is all that it must be given. -/
theorem construct_settles (hu : c.Unchecked)
    (hof : ∀ g ∈ entries, ∃ f ∈ c.fields, f.given = true ∧ f.name = g.1)
    (hall : ∀ f ∈ c.fields, f.default = .required → ∃ g ∈ entries, g.1 = f.name) (m : Nat) :
    ∃ v m', c.construct entries m = (.ok (.ok v), m') := by
  have hknown : entries.all (fun g => c.fields.any fun f => f.given && f.name == g.1) = true := by
    refine List.all_eq_true.mpr fun g hg => ?_
    obtain ⟨f, hf, hgiven, hn⟩ := hof g hg
    exact List.any_eq_true.mpr ⟨f, hf, by simp [hgiven, hn]⟩
  obtain ⟨filled, m', hfill, hwhy⟩ := fill_result entries c.fields m
  unfold ClassSpec.construct
  simp only [hknown, Bool.true_and]
  rw [if_pos, bind_of_ok hfill]
  · cases filled with
    | error why =>
      obtain ⟨_, f, hf, hd, hlack⟩ := hwhy why rfl
      obtain ⟨g, hg, hgn⟩ := hall f hf hd
      exact absurd hgn.symm (bne_iff_ne.mp (List.lookup_eq_none_iff.mp hlack g hg))
    | ok fs =>
      dsimp only
      rw [hu.unchanged]
      exact ⟨_, m', rfl⟩
  · refine List.all_eq_true.mpr fun f hf => ?_
    split
    · next hd =>
      obtain ⟨g, hg, hgn⟩ := hall f hf hd
      exact List.any_eq_true.mpr ⟨g, hg, by simp [hgn]⟩
    · rfl

theorem fromDocument_settles (hn : Entries.get? (str s.classField) qs = some (str n))
    (hs : r.Stands cat n c) (hhints : c.uncaught? = none) (hu : c.Unchecked)
    (hgiven : ∀ f ∈ c.fields, f.default = .required → f.given = true)
    (hfields : FieldsSettle cat s r c qs c.fields) :
    Settles (Deficient cat s r partly (dict qs)) (fromDocument cat s r partly (dict qs)) := by
  rw [deficient_named hn hs, fromDocument, hn, Option.getD_some, build,
    if_neg (show ¬ (str n).isNull = true from Bool.false_ne_true), resolve_named hs.held]
  simp only [hs.known, hhints]
  refine (given_settles hfields).andThen fun m entries k hrun => ?_
  obtain ⟨hof, hall⟩ := given_names hrun
  refine ⟨False.elim, fun _ m => ?_⟩
  obtain ⟨v, m', hmade⟩ :=
    construct_settles hu hof (fun f hf hd => hall f hf (hgiven f hf hd) hd) m
  exact ⟨v, m', bind_of_ok hmade⟩

theorem decodeEntries_settles
    (h : ∀ p ∈ qs, Settles (Deficient cat s r false p.2) (decode cat s r p.2 .any)) :
    Settles (∃ p ∈ qs, Deficient cat s r false p.2) (decodeEntries cat s r qs) := by
  induction qs with
  | nil => exact (Settles.pure _).congr (by simp)
  | cons q qs ih =>
    obtain ⟨hfirst, hrest⟩ := List.forall_mem_cons.mp h
    rw [decodeEntries, decodeEntry_eq, List.exists_mem_cons_iff]
    exact hfirst.bind fun _ _ _ _ => (ih hrest).andThen fun _ _ _ _ => .pure _

/-- A document of a class that was cut is read, or fails for what it lacks, if this is so of what is
left of its fields. -/
theorem settles_of_fields (hr : r.Unchecked cat) (hcut : Cut (dict qs) (dict ps))
    (hl : Legible cat s r h (dict ps)) (hn : Entries.get? (str s.classField) qs = some name)
    (hfields : ∀ k w v h, Entries.get? (str k) qs = some w → Entries.get? (str k) ps = some v →
      Legible cat s r h v → Settles (Deficient cat s r false w) (decode cat s r w h)) :
    Settles (Deficient cat s r partly (dict qs)) (fromDocument cat s r partly (dict qs)) := by
  obtain ⟨v, hv, hname⟩ := hcut.entry hn
  obtain ⟨n, c, rfl, hs⟩ := hl.stands hv
  obtain rfl := hname.eq_of_leaf (by simp)
  have hu := hr n c hs
  refine fromDocument_settles hn hs (hl.hinted hv hs) hu (fun f hf => hl.given hv hs hu.names hf) ?_
  intro f hf hgiven w hw
  obtain ⟨u, hu, _⟩ := hcut.entry hw
  exact hfields _ w u _ hw hu (hl.field hv hs hf hgiven hu)

/-- What is left of a value that could be read is read, unless it is deficient. -/
theorem cut_settles (hr : r.Unchecked cat) (hcut : Cut w v) (hv : LegibleThroughout cat s r v)
    (hl : Legible cat s r h v) : Settles (Deficient cat s r false w) (decode cat s r w h) := by
  induction hcut generalizing h with
  | whole v =>
    refine ⟨fun hd => absurd hd hl.sound, fun _ m => ?_⟩
    obtain ⟨x, hx⟩ := hl m
    exact ⟨x, m, hx⟩
  | @entries qs ps hk hthere hchildren ih =>
    cases hn : Entries.get? (str s.classField) qs with
    | some name =>
      rw [decode_named hn]
      exact settles_of_fields hr (.entries hk hthere hchildren) hl hn
        fun k w v h hw hvk hlk => ih k w v hw hvk (hv.entry hvk) hlk
    | none =>
      rw [deficient_unnamed hn, decode, hn]
      refine (decodeEntries_settles fun p hp => ?_).andThen fun _ _ _ _ => .pure _
      obtain ⟨k, u, rfl, hu⟩ := hk.entry_of_mem hp
      obtain ⟨v, hvk⟩ := hthere k u hu
      exact ih k u v hu hvk (hv.entry hvk) (hv.entry hvk [] v rfl)

theorem cut_document_settles (hr : r.Unchecked cat) (hcut : Cut (dict qs) (dict ps))
    (hv : LegibleThroughout cat s r (dict ps))
    (hn : Entries.get? (str s.classField) qs = some name) :
    Settles (Deficient cat s r partly (dict qs)) (fromDocument cat s r partly (dict qs)) := by
  refine settles_of_fields hr hcut (hv [] _ rfl) hn fun k w v h hw hvk hl => ?_
  obtain ⟨v', hv', hchild⟩ := hcut.entry hw
  cases hvk.symm.trans hv'
  exact cut_settles hr hchild (hv.entry hvk) hl

/-- Where all that names a class is whole, nothing is deficient. -/
theorem cut_sound (hcut : Cut w v) (hv : LegibleThroughout cat s r v)
    (hwhole : ∀ q x, getPath (q ++ [s.classField]) w = some x → getPath q w = getPath q v) :
    ¬ Deficient cat s r false w := by
  induction hcut with
  | whole v => exact (hv [] v rfl).sound
  | @entries qs ps hk hthere hchildren ih =>
    cases hn : Entries.get? (str s.classField) qs with
    | some name =>
      have hsame := hwhole [] name (by rw [List.nil_append, getPath_dict, hn]; rfl)
      rw [Option.some.inj hsame]
      exact (hv [] _ rfl).sound
    | none =>
      rw [deficient_unnamed hn]
      rintro ⟨p, hp, hd⟩
      obtain ⟨k, u, rfl, hu⟩ := hk.entry_of_mem hp
      obtain ⟨v, hvk⟩ := hthere k u hu
      refine ih k u v hu hvk (hv.entry hvk) (fun q x hx => ?_) hd
      have hsame := hwhole (k :: q) x (by rw [List.cons_append, getPath_dict, hu]; exact hx)
      rwa [getPath_dict, getPath_dict, hu, hvk] at hsame

end Codec

end DocStore
