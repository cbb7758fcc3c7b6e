import DocStore.Proofs.Codec.Item
import DocStore.Proofs.Document.Places
import Mathlib.Data.List.Forall2

/-! What becomes of the parts of an object in its document: each is written as the codec writes it,
under a registry that the work has grown by then. -/

namespace DocStore

open Value

namespace Entries

variable {ps qs : Entries} {n : String} {v : Value}

/-- Entries that are put later win. -/
theorem get?_merge_here (hq : Keyed qs) (h : get? (str n) qs = some v) (ps : Entries) :
    get? (str n) (merge ps qs) = some v := by
  induction qs generalizing ps with
  | nil => cases h
  | cons q qs ih =>
    have hcons : merge ps (q :: qs) = merge (put q.1 q.2 ps) qs := rfl
    rw [hcons]
    by_cases hn : q.1 = str n
    · have hrest : ∀ r ∈ qs, r.1 ≠ str n := fun r hr he =>
        (List.pairwise_cons.mp hq.distinct).1 r hr (hn.trans he.symm)
      rw [get?_here hn] at h
      rw [get?_merge_past hrest, hn, get?_put_here n, h]
    · rw [get?_past hn] at h
      exact ih hq.tail h _

theorem keyed_iff_keys : Keyed ps ↔
    (∀ k ∈ ps.map Prod.fst, ∃ n, k = str n) ∧ (ps.map Prod.fst).Nodup := by
  rw [List.forall_mem_map, List.Nodup, List.pairwise_map]
  exact ⟨fun h => ⟨h.text, h.distinct⟩, fun h => ⟨h.1, h.2⟩⟩

end Entries

namespace Codec

variable {cat : Catalog} {s : Schema} {c : String} {r t r₀ t₀ : Registry}

/-- In work that leads from one registry to another, a value is written as another one. -/
def WrittenWithin (cat : Catalog) (s : Schema) (r t : Registry) (v w : Value) : Prop :=
  ∃ r' t', Registry.Grown cat r r' ∧ toValue cat s v r' = (.ok w, t') ∧ Registry.Grown cat t' t

theorem WrittenWithin.of_run {v w : Value} (h : toValue cat s v r = (.ok w, t)) :
    WrittenWithin cat s r t v w := ⟨r, t, .refl cat r, h, .refl cat t⟩

theorem WrittenWithin.wider {v w : Value} (h : WrittenWithin cat s r t v w)
    (hr : Registry.Grown cat r₀ r) (ht : Registry.Grown cat t t₀) :
    WrittenWithin cat s r₀ t₀ v w := by
  obtain ⟨r', t', hg, hw, hg'⟩ := h
  exact ⟨r', t', hr.trans hg, hw, hg'.trans ht⟩

/-- Entries with the same keys, each value written as the other one's. -/
def EntryWithin (cat : Catalog) (s : Schema) (r t : Registry) (p q : Value × Value) : Prop :=
  p.1 = q.1 ∧ WrittenWithin cat s r t p.2 q.2

theorem EntryWithin.of_run {p q : Value × Value} (h : toEntry cat s p r = (.ok q, t)) :
    EntryWithin cat s r t p q := by
  obtain ⟨k, v⟩ := p
  rw [toEntry] at h
  obtain ⟨w, u, hw, hq⟩ := bind_eq_ok_iff.mp h
  cases hq
  exact ⟨rfl, .of_run hw⟩

theorem EntryWithin.wider {p q : Value × Value} (h : EntryWithin cat s r t p q)
    (hr : Registry.Grown cat r₀ r) (ht : Registry.Grown cat t t₀) :
    EntryWithin cat s r₀ t₀ p q := ⟨h.1, h.2.wider hr ht⟩

theorem toValues_parts {xs ys : List Value} (h : toValues cat s xs r = (.ok ys, t)) :
    List.Forall₂ (WrittenWithin cat s r t) xs ys := by
  induction xs generalizing ys r with
  | nil =>
    cases h
    exact .nil
  | cons x xs ih =>
    rw [toValues] at h
    obtain ⟨y, u, hy, h⟩ := bind_eq_ok_iff.mp h
    obtain ⟨ys, u', hys, h⟩ := bind_eq_ok_iff.mp h
    cases h
    have hfirst := (toValue_steady cat s x).grows hy
    have hrest := (toValues_steady cat s xs).grows hys
    refine .cons ((WrittenWithin.of_run hy).wider (.refl cat r) hrest) ?_
    exact (ih hys).imp fun _ _ hw => hw.wider hfirst (.refl cat _)

/-- Each item is written as some item. -/
theorem toValues_mem {xs ys : List Value} {x : Value} (h : toValues cat s xs r = (.ok ys, t))
    (hx : x ∈ xs) : ∃ y ∈ ys, WrittenWithin cat s r t x y := by
  have hparts := toValues_parts h
  obtain ⟨i, hi, rfl⟩ := List.mem_iff_getElem.mp hx
  have hj : i < ys.length := hparts.length_eq ▸ hi
  exact ⟨ys[i], List.getElem_mem hj, hparts.get hi hj⟩

theorem toEntries_parts {ps qs : Entries} (h : toEntries cat s ps r = (.ok qs, t)) :
    List.Forall₂ (EntryWithin cat s r t) ps qs := by
  induction ps generalizing qs r with
  | nil =>
    cases h
    exact .nil
  | cons p ps ih =>
    rw [toEntries] at h
    obtain ⟨q, u, hq, h⟩ := bind_eq_ok_iff.mp h
    obtain ⟨qs, u', hqs, h⟩ := bind_eq_ok_iff.mp h
    cases h
    have hfirst := (toEntry_steady cat s p).grows hq
    have hrest := (toEntries_steady cat s ps).grows hqs
    refine .cons ((EntryWithin.of_run hq).wider (.refl cat r) hrest) ?_
    exact (ih hqs).imp fun _ _ hw => hw.wider hfirst (.refl cat _)

/-- The fields that are written as such, all but the identifier. -/
def ownFields (cat : Catalog) (c : String) (fs : Entries) : Entries :=
  fs.filter fun f => !isIdentity cat c f.1

theorem toFields_parts {fs gs : Entries} (h : toFields cat s c fs r = (.ok gs, t)) :
    List.Forall₂ (EntryWithin cat s r t) (ownFields cat c fs) gs := by
  induction fs generalizing gs r with
  | nil =>
    cases h
    exact .nil
  | cons f fs ih =>
    rw [toFields] at h
    by_cases hid : isIdentity cat c f.1 = true
    · rw [if_pos hid] at h
      rw [ownFields, List.filter_cons_of_neg (by simp [hid])]
      exact ih h
    · rw [if_neg hid] at h
      obtain ⟨g, u, hg, h⟩ := bind_eq_ok_iff.mp h
      obtain ⟨gs, u', hgs, h⟩ := bind_eq_ok_iff.mp h
      cases h
      have hfirst := (toEntry_steady cat s f).grows hg
      have hrest := (toFields_steady cat s c fs).grows hgs
      rw [ownFields, List.filter_cons_of_pos (by simp [hid])]
      refine .cons ((EntryWithin.of_run hg).wider (.refl cat r) hrest) ?_
      exact (ih hgs).imp fun _ _ hw => hw.wider hfirst (.refl cat _)

theorem keys_of_parts {ps qs : Entries} (h : List.Forall₂ (EntryWithin cat s r t) ps qs) :
    ps.map Prod.fst = qs.map Prod.fst :=
  Entries.keys_of_forall₂ (fun _ _ hp => hp.1) h

theorem keyed_of_parts {ps qs : Entries} (h : List.Forall₂ (EntryWithin cat s r t) ps qs)
    (hp : ps.Keyed) : qs.Keyed := by
  rw [Entries.keyed_iff_keys] at hp ⊢
  rwa [← keys_of_parts h]

theorem ownFields_keyed {fs : Entries} (h : fs.Keyed) : (ownFields cat c fs).Keyed :=
  ⟨fun p hp => h.text p (List.mem_of_mem_filter hp), h.distinct.filter _⟩

theorem get?_parts {ps qs : Entries} {n : String} {v : Value}
    (h : List.Forall₂ (EntryWithin cat s r t) ps qs) (hv : Entries.get? (str n) ps = some v) :
    ∃ w, Entries.get? (str n) qs = some w ∧ WrittenWithin cat s r t v w := by
  induction h with
  | nil => cases hv
  | @cons p q ps qs hp _ ih =>
    by_cases hn : p.1 = str n
    · rw [Entries.get?_here hn] at hv
      cases hv
      exact ⟨q.2, Entries.get?_here (hp.1 ▸ hn) qs, hp.2⟩
    · rw [Entries.get?_past hn] at hv
      rw [Entries.get?_past (hp.1 ▸ hn)]
      exact ih hv

theorem get?_ownFields {fs : Entries} {n : String} {v : Value}
    (hn : isIdentity cat c (str n) = false) (hv : Entries.get? (str n) fs = some v) :
    Entries.get? (str n) (ownFields cat c fs) = some v := by
  induction fs with
  | nil => cases hv
  | cons f fs ih =>
    by_cases hf : f.1 = str n
    · rw [Entries.get?_here hf] at hv
      rw [ownFields, List.filter_cons_of_pos (by simp [hf, hn]), Entries.get?_here hf, hv]
    · rw [Entries.get?_past hf] at hv
      by_cases hid : isIdentity cat c f.1 = true
      · rw [ownFields, List.filter_cons_of_neg (by simp [hid])]
        exact ih hv
      · rw [ownFields, List.filter_cons_of_pos (by simp [hid]), Entries.get?_past hf]
        exact ih hv

/-- The document of a record: the header, and over it the fields. -/
theorem toValue_record {fs : Entries} {w : Value} (h : toValue cat s (.record c fs) r = (.ok w, t)) :
    ∃ start u gs, header cat s c fs r = (.ok start, u) ∧ toFields cat s c fs u = (.ok gs, t) ∧
      w = dict (Entries.merge start gs) := by
  rw [toValue] at h
  obtain ⟨start, u, hstart, h⟩ := bind_eq_ok_iff.mp h
  obtain ⟨gs, u', hgs, h⟩ := bind_eq_ok_iff.mp h
  cases h
  exact ⟨start, u, gs, hstart, hgs, rfl⟩

/-- What stands under the name of a field is what is written for it. -/
theorem record_field {fs : Entries} {n : String} {v w : Value} (hfs : fs.Keyed)
    (h : toValue cat s (.record c fs) r = (.ok w, t)) (hv : Entries.get? (str n) fs = some v)
    (hn : isIdentity cat c (str n) = false) :
    ∃ es x, w = dict es ∧ Entries.get? (str n) es = some x ∧ WrittenWithin cat s r t v x := by
  obtain ⟨start, u, gs, hstart, hgs, rfl⟩ := toValue_record h
  have hparts := toFields_parts hgs
  obtain ⟨x, hx, hw⟩ := get?_parts hparts (get?_ownFields hn hv)
  have hkeyed := keyed_of_parts hparts (ownFields_keyed hfs)
  exact ⟨_, x, rfl, Entries.get?_merge_here hkeyed hx start,
    hw.wider ((header_steady cat s c fs).grows hstart) (.refl cat t)⟩

/-- No field of a record is written under a name. -/
def Unwritten (cat : Catalog) (c : String) (fs : Entries) (n : String) : Prop :=
  ∀ f ∈ ownFields cat c fs, f.1 ≠ str n

/-- What the header has under a name is left, if no field is written under it. -/
theorem record_header {fs : Entries} {n : String} {w : Value} (hn : Unwritten cat c fs n)
    (h : toValue cat s (.record c fs) r = (.ok w, t)) :
    ∃ start u es, header cat s c fs r = (.ok start, u) ∧ Registry.Grown cat u t ∧ w = dict es ∧
      Entries.get? (str n) es = Entries.get? (str n) start := by
  obtain ⟨start, u, gs, hstart, hgs, rfl⟩ := toValue_record h
  refine ⟨start, u, _, hstart, (toFields_steady cat s c fs).grows hgs, rfl, ?_⟩
  refine Entries.get?_merge_past (fun g hg he => ?_) start
  have hkey : str n ∈ (ownFields cat c fs).map Prod.fst := by
    rw [keys_of_parts (toFields_parts hgs), ← he]
    exact List.mem_map_of_mem hg
  obtain ⟨f, hf, hfn⟩ := List.mem_map.mp hkey
  exact hn f hf hfn

theorem header_eq_ok {fs ps : Entries} (h : header cat s c fs r = (.ok ps, t)) :
    ∃ name start, Naming.className cat c r = (.ok name, t) ∧
      ((cat.class? c).any ClassSpec.identifiable = false →
        ps = Entries.put (str s.classField) (str name) start) ∧
      ((cat.class? c).any ClassSpec.identifiable = true → ∃ revision,
        ps = Entries.put (str s.revisionField) revision
          (Entries.put (str s.classField) (str name) start)) := by
  unfold header at h
  obtain ⟨name, u, hname, h⟩ := bind_eq_ok_iff.mp h
  by_cases hi : (cat.class? c).any ClassSpec.identifiable = true
  · simp only [hi, if_true] at h
    cases h
    exact ⟨name, _, hname, by simp [hi], fun _ => ⟨_, rfl⟩⟩
  · simp only [hi] at h
    cases h
    exact ⟨name, _, hname, fun _ => rfl, fun hh => absurd hh hi⟩

/-- The header has the name of the class, unless the revision is written in its place. -/
theorem header_class {fs ps : Entries}
    (hrevision : (cat.class? c).any ClassSpec.identifiable = true → s.classField ≠ s.revisionField)
    (h : header cat s c fs r = (.ok ps, t)) :
    ∃ name, Naming.className cat c r = (.ok name, t) ∧
      Entries.get? (str s.classField) ps = some (str name) := by
  obtain ⟨name, start, hname, hplain, hfull⟩ := header_eq_ok h
  refine ⟨name, hname, ?_⟩
  by_cases hi : (cat.class? c).any ClassSpec.identifiable = true
  · obtain ⟨revision, rfl⟩ := hfull hi
    rw [Entries.get?_put_other (hrevision hi), Entries.get?_put_here]
  · rw [hplain (Bool.eq_false_iff.mpr hi), Entries.get?_put_here]

end Codec

end DocStore
