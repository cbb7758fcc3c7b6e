import DocStore.Catalog.Models
import DocStore.Proofs.Filter.Compile
import DocStore.Proofs.Filter.Conjunction

/-! Merging query documents keeps every constraint. Each way of adding an entry is followed on its
own; whole documents and lists of filters go by induction, since the shape is kept. -/

namespace DocStore

open Value

theorem not_fieldPath_group {word : String} (hw : word = "$and" ∨ word = "$or") :
    ¬ FieldPath word := by
  intro hp
  have hn := hp.no_operator
  rcases hw with rfl | rfl
  · simp [startsWithDollar] at hn
  · simp [startsWithDollar] at hn

theorem Clause.of_group {word : String} {v : Value} (hw : word = "$and" ∨ word = "$or")
    (h : Clause (str word, v)) : ∃ qs, v = list qs ∧ qs ≠ [] ∧ ∀ q ∈ qs, ∃ ps, q = dict ps := by
  cases h with
  | group _ hne hq => exact ⟨_, rfl, hne, hq⟩
  | condition hp _ => exact absurd hp (not_fieldPath_group hw)

theorem Clause.of_path {path : String} {v : Value} (hp : FieldPath path)
    (h : Clause (str path, v)) : ∃ os, v = dict os ∧ Operators os := by
  cases h with
  | group hw _ _ => exact absurd hp (not_fieldPath_group hw)
  | condition _ ho => exact ⟨_, rfl, ho⟩

theorem Shaped.of_get? {ts : Entries} {n : String} {v : Value} (h : Shaped ts)
    (hv : Entries.get? (str n) ts = some v) : Clause (str n, v) :=
  h.clause _ (Entries.mem_of_get? hv)

namespace Merged

variable {ts : Entries}

/-- The outcome of a merge that kept all constraints. -/
def Keeps (m : Merged) (ts ps : Entries) : Prop :=
  m.result = .ok () ∧ Shaped m.target ∧ ∀ d, Conjoins d m.target ts ps

theorem Keeps.of_same {m : Merged} {p q : Value × Value} (h : m.Keeps ts [p])
    (he : ∀ d, matchesEntry d p = matchesEntry d q) : m.Keeps ts [q] :=
  ⟨h.1, h.2.1, fun d => (h.2.2 d).of_same (he d)⟩

theorem keeps_put_absent {n : String} {v : Value} (ht : Shaped ts)
    (hn : Entries.get? (str n) ts = none) (hv : Clause (str n, v)) :
    Keeps ⟨Entries.put (str n) v ts, .ok ()⟩ ts [(str n, v)] :=
  ⟨rfl, ht.put hv, fun _ => .put_absent v hn⟩

theorem keeps_put_present {n : String} {old v : Value} {p : Value × Value} (ht : Shaped ts)
    (ho : Entries.get? (str n) ts = some old) (hv : Clause (str n, v))
    (h : ∀ d, Joins (matchesEntry d (str n, v)) (matchesEntry d (str n, old)) (matchesEntry d p)) :
    Keeps ⟨Entries.put (str n) v ts, .ok ()⟩ ts [p] :=
  ⟨rfl, ht.put hv, fun d => .put_present ht.keyed ho (h d)⟩

theorem keeps_extend {more : List Value} (ht : Shaped ts) (hne : more ≠ [])
    (hd : ∀ q ∈ more, ∃ ps, q = dict ps) :
    (extend ts (.ok more)).Keeps ts [(str "$and", list more)] := by
  cases hg : Entries.get? (str "$and") ts with
  | none =>
    have he : extend ts (.ok more) = ⟨Entries.put (str "$and") (list more) ts, .ok ()⟩ := by
      simp [extend, hg, Entries.put_put]
    rw [he]
    exact keeps_put_absent ht hg (.group (.inl rfl) hne hd)
  | some v =>
    obtain ⟨qs, rfl, hqs, hq⟩ := (ht.of_get? hg).of_group (.inl rfl)
    have he : extend ts (.ok more) =
        ⟨Entries.put (str "$and") (list (qs ++ more)) ts, .ok ()⟩ := by
      simp [extend, hg, Entries.put_put]
    have hall : ∀ q ∈ qs ++ more, ∃ ps, q = dict ps := List.forall_mem_append.mpr ⟨hq, hd⟩
    rw [he]
    exact keeps_put_present ht hg (.group (.inl rfl) (by simp [hqs]) hall)
      fun d => joins_groups hqs hne

theorem keeps_moved (ht : Shaped ts) (p : Value × Value) :
    (extend ts (.ok [dict [p]])).Keeps ts [p] :=
  (keeps_extend ht (by simp) (by simp)).of_same fun _ => matchesEntry_moved p

theorem disjoint_of_sharesKey {ps qs : Entries} (hp : Entries.Keyed ps)
    (h : sharesKey ps qs = false) : ∀ q ∈ qs, ∀ p ∈ ps, p.1 ≠ q.1 := by
  intro q hq p hm he
  obtain ⟨n, hn⟩ := hp.text p hm
  have hc : Entries.contains p.1 qs = true := by
    rw [hn]
    refine Entries.contains_str.mpr ⟨q.2, ?_⟩
    rw [← hn, he]
    exact hq
  have hs : sharesKey ps qs = true := List.any_eq_true.mpr ⟨p, hm, hc⟩
  rw [hs] at h
  cases h

theorem keeps_addEntry_condition {path : String} {qs : Entries} (ht : Shaped ts)
    (hp : FieldPath path) (hq : Operators qs) :
    (addEntry ts (str path) (dict qs)).Keeps ts [(str path, dict qs)] := by
  have hword : ∀ {word}, word = "$and" ∨ word = "$or" → ¬ equal (str path) (str word) = true := by
    intro word hw he
    have hpath : path = word := by simpa using he
    exact not_fieldPath_group hw (hpath ▸ hp)
  have hand := hword (.inl rfl)
  have hor := hword (.inr rfl)
  unfold addEntry
  rw [if_neg hand, if_neg hor]
  cases hg : Entries.get? (str path) ts with
  | none => exact keeps_put_absent ht hg (.condition hp hq)
  | some v =>
    obtain ⟨ps, rfl, hps⟩ := (ht.of_get? hg).of_path hp
    by_cases hs : sharesKey ps qs = true
    · simp only [hs, if_true]
      exact keeps_moved ht _
    · have hd := disjoint_of_sharesKey hps.keyed (Bool.not_eq_true _ ▸ hs)
      have hpq := hps.append hq hd
      simp only [hs, Entries.merge_of_disjoint hq.keyed hd]
      exact keeps_put_present ht hg (.condition hp hpq) fun d => joins_conditions hp hps hq hpq

theorem keeps_addEntry {p : Value × Value} (ht : Shaped ts) (hp : Clause p) :
    (addEntry ts p.1 p.2).Keeps ts [p] := by
  cases hp with
  | condition hp ho => exact keeps_addEntry_condition ht hp ho
  | @group word qs hw hne hq =>
    rcases hw with rfl | rfl
    · have he : addEntry ts (str "$and") (list qs) = extend ts (.ok qs) := by
        simp [addEntry, items, iterate?, sequence?]
      rw [he]
      exact keeps_extend ht hne hq
    · cases hg : Entries.get? (str "$or") ts with
      | none =>
        have he : addEntry ts (str "$or") (list qs) =
            ⟨Entries.put (str "$or") (list qs) ts, .ok ()⟩ := by
          simp [addEntry, items, iterate?, sequence?, Entries.contains_str_eq_false.mpr hg]
        rw [he]
        exact keeps_put_absent ht hg (.group (.inr rfl) hne hq)
      | some v =>
        have hc : Entries.contains (str "$or") ts = true := by simp [Entries.contains, hg]
        have he : addEntry ts (str "$or") (list qs) =
            extend ts (.ok [dict [(str "$or", list qs)]]) := by simp [addEntry, hc]
        rw [he]
        exact keeps_moved ht _

theorem addEntries_cons {p : Value × Value} {ps : Entries}
    (h : (addEntry ts p.1 p.2).result = .ok ()) :
    addEntries ts (p :: ps) = addEntries (addEntry ts p.1 p.2).target ps := by
  obtain ⟨k, v⟩ := p
  simp [addEntries, h]

/-- Adding entries one after the other keeps the constraints of all, however often they repeat. -/
theorem keeps_addEntries {ps : Entries} (ht : Shaped ts) (hp : ∀ p ∈ ps, Clause p) :
    (addEntries ts ps).Keeps ts ps := by
  induction ps generalizing ts with
  | nil => exact ⟨rfl, ht, fun d => .nil d ts⟩
  | cons p ps ih =>
    obtain ⟨hr, hs, hc⟩ := keeps_addEntry ht (hp p (by simp))
    obtain ⟨hr', hs', hc'⟩ := ih hs fun q hq => hp q (by simp [hq])
    rw [addEntries_cons hr]
    exact ⟨hr', hs', fun d => (hc d).cons (hc' d)⟩

end Merged

section Compiled

variable {cat : Catalog} {s : Schema} {limit : Value}

theorem operators_of_condition {op : Operator} {word : String} (h : op.condition? = some word)
    (w : Value) : Operators [(str word, w)] := by
  obtain ⟨hd, ho⟩ := Operator.word_of_condition h
  exact ⟨.singleton word w, by simp, by simpa [isOperatorKey] using hd, by simpa using ho⟩

theorem compileAt_clause (f : Filter) {depth : Nat} {path : String} {r t : Registry} {q : Value}
    (hscope : Scope path) (hgenuine : f.Genuine) (hf : ∀ op, ¬ Filter.Within (.group op []) f)
    (h : Filter.compileAt cat s limit depth path f r = (.ok q, t)) :
    ∃ p, q = dict [p] ∧ Clause p := by
  cases f with
  | field fld op v =>
    obtain ⟨word, w, hop, _, rfl⟩ := Filter.compileAt_field h
    have hp : FieldPath (path ++ fld.name) := ⟨path, fld.name, hscope, fld.named, rfl⟩
    exact ⟨_, rfl, .condition hp (operators_of_condition hop w)⟩
  | sub fld c =>
    exact compileAt_clause c (hscope.inside fld.named) (hgenuine.of_within (.sub fld))
      (fun op hw => hf op (.sub fld hw))
      (Filter.compileAt_sub h)
  | group op cs =>
    obtain ⟨word, qs, hop, hqs, rfl⟩ := Filter.compileAt_group h
    have hcs : cs ≠ [] := by
      rintro rfl
      exact hf op (.here _)
    have hclause := Clause.group (Operator.word_of_group hop) (Filter.compileEach_ne_nil hcs hqs)
      (Filter.compileEach_dicts hqs)
    exact ⟨_, rfl, hclause⟩
  | posing k v tagged cs => exact absurd (.here _) hgenuine.not_posing
  | foreign v untagged => exact absurd h Filter.not_compileAt_foreign
termination_by structural f

/-- How the query that a filter compiles to by itself is answered on a document. -/
def Filter.answer (cat : Catalog) (s : Schema) (limit : Value) (r : Registry) (f : Filter)
    (d : Value) : Except Error Bool :=
  match (compile cat s limit "" f r).1 with
  | .ok q => matchesQuery d q
  | .error e => .error e

/-- A filter that can be compiled, without empty groups and without what only poses as a filter. -/
def Filter.Compiles (cat : Catalog) (s : Schema) (limit : Value) (r : Registry) (f : Filter) :
    Prop :=
  f.Genuine ∧ (∀ op, ¬ Within (group op []) f) ∧ ∃ q t, compile cat s limit "" f r = (.ok q, t)

theorem Filter.Compiles.entry {r₀ : Registry} {f : Filter} (h : f.Compiles cat s limit r₀) :
    ∃ p, Clause p ∧ (∀ d, f.answer cat s limit r₀ d = matchesEntry d p) ∧
      ∀ {r}, Registry.Grown cat r₀ r →
        ∃ t, compile cat s limit "" f r = (.ok (dict [p]), t) ∧ Registry.Grown cat r₀ t := by
  obtain ⟨hgenuine, hf, q, u, hq⟩ := h
  obtain ⟨p, rfl, hp⟩ := compileAt_clause f .top hgenuine hf hq
  refine ⟨p, hp, fun d => ?_, fun hg => ?_⟩
  · unfold Filter.answer
    rw [hq]
    exact matchesQuery_single d p.1 p.2
  · obtain ⟨t, ht, _⟩ := (compile_steady cat s limit "" f).onward hg hq
    exact ⟨t, ht, hg.trans ((compile_steady cat s limit "" f).grows ht)⟩

theorem compileAll_entries {r₀ : Registry} {fs : List Filter}
    (hf : ∀ f ∈ fs, f.Compiles cat s limit r₀) :
    ∃ ps, (∀ p ∈ ps, Clause p) ∧
      (∀ d (P : Except Error Bool → Prop),
        (∀ f ∈ fs, P (f.answer cat s limit r₀ d)) ↔ ∀ p ∈ ps, P (matchesEntry d p)) ∧
      ∀ {ts r}, Shaped ts → Registry.Grown cat r₀ r →
        ∃ t, Filter.compileAll cat s limit ts fs r = (.ok (Merged.addEntries ts ps).target, t) := by
  induction fs with
  | nil => exact ⟨[], by simp, by simp, fun _ _ => ⟨_, rfl⟩⟩
  | cons f fs ih =>
    obtain ⟨p, hp, ha, hrun⟩ := (hf f (by simp)).entry
    obtain ⟨ps, hps, hans, hall⟩ := ih fun g hg => hf g (by simp [hg])
    refine ⟨p :: ps, List.forall_mem_cons.mpr ⟨hp, hps⟩, fun d P => ?_, fun {ts r} ht hg => ?_⟩
    · rw [List.forall_mem_cons, List.forall_mem_cons, ha, hans]
    · obtain ⟨u, hu, hgu⟩ := hrun hg
      obtain ⟨hr, hs, _⟩ := Merged.keeps_addEntry ht hp
      obtain ⟨t, hrest⟩ := hall hs hgu
      have hone : Merged.addEntries ts [p] = ⟨(Merged.addEntry ts p.1 p.2).target, .ok ()⟩ :=
        Merged.addEntries_cons hr
      refine ⟨t, ?_⟩
      rw [Filter.compileAll, bind_of_ok hu]
      simp only [hone]
      rw [Merged.addEntries_cons hr, hrest]

end Compiled

/-- Merging query documents, or compiling several filters, keeps all constraints: what comes out
has the shape that was put in, holds where everything that was merged holds, and is answered where
all of it is. -/
theorem merge_holds_iff :
    (∀ {ts ps}, Shaped ts → Shaped ps →
      ∃ ms, mergeQuery (dict ts) (dict ps) = (dict ms, .ok ()) ∧ Shaped ms ∧
        ∀ d, (matchesQuery d (dict ms) = .ok true ↔
            matchesQuery d (dict ts) = .ok true ∧ matchesQuery d (dict ps) = .ok true) ∧
          ((∀ p ∈ ts ++ ps, ∃ b, matchesEntry d p = .ok b) →
            ∃ b, matchesQuery d (dict ms) = .ok b)) ∧
    ∀ {cat s limit r fs}, (∀ f ∈ fs, Filter.Compiles cat s limit r f) →
      ∃ ms t, Filter.compileAll cat s limit [] fs r = (.ok ms, t) ∧ Shaped ms ∧
        ∀ d, (matchesQuery d (dict ms) = .ok true ↔
            ∀ f ∈ fs, f.answer cat s limit r d = .ok true) ∧
          ((∀ f ∈ fs, ∃ b, f.answer cat s limit r d = .ok b) →
            ∃ b, matchesQuery d (dict ms) = .ok b) := by
  constructor
  · intro ts ps ht hp
    obtain ⟨hr, hs, hc⟩ := Merged.keeps_addEntries ht hp.clause
    have hm : mergeQuery (dict ts) (dict ps) = (dict (Merged.addEntries ts ps).target, .ok ()) := by
      cases ps with
      | nil => rfl
      | cons p ps => rw [← hr]; rfl
    refine ⟨_, hm, hs, fun d => ⟨?_, fun ha => ?_⟩⟩
    · simp only [matchesQuery_holds_iff]
      exact (hc d).holds_iff
    · rw [List.forall_mem_append] at ha
      exact matchesQuery_answered ((hc d).answered ha.1 ha.2)
  · intro cat s limit r fs hf
    obtain ⟨ps, hp, hans, hrun⟩ := compileAll_entries hf
    obtain ⟨t, ht⟩ := hrun .nil (.refl cat r)
    obtain ⟨_, hs, hc⟩ := Merged.keeps_addEntries .nil hp
    refine ⟨_, t, ht, hs, fun d => ⟨?_, fun ha => ?_⟩⟩
    · rw [matchesQuery_holds_iff, (hc d).holds_iff, hans d fun a => a = .ok true]
      simp
    · rw [hans d fun a => ∃ b, a = .ok b] at ha
      exact matchesQuery_answered ((hc d).answered (by simp) ha)

def olderFrom (n : Int) (place other : String) : Entries :=
  [(str "age", dict [(str "$gt", int n)]),
    (str "$or", list [dict [(str "city", dict [(str "$eq", str place)])],
      dict [(str "city", dict [(str "$eq", str other)])]])]

theorem olderFrom_shaped (n : Int) (place other : String) : Shaped (olderFrom n place other) := by
  have ho : Operators [(str "$gt", int n)] :=
    operators_of_condition (show Operator.greaterThan.condition? = some "$gt" from rfl) _
  refine ⟨⟨by simp [olderFrom], by simp [olderFrom]⟩, ?_⟩
  unfold olderFrom
  rw [List.forall_mem_cons, List.forall_mem_singleton]
  exact ⟨.condition (.of_name (by decide)) ho, .group (.inr rfl) (by simp) (by simp)⟩

def olderOrUnknown (n : Int) : Filter :=
  .group .any [.field ⟨"age", .object, by decide⟩ .greaterThan (int n),
    .field ⟨"age", .object, by decide⟩ .present (bool false)]

theorem olderOrUnknown_compiles (n : Int) :
    (olderOrUnknown n).Compiles Models.catalog Schema.standard (int 32) .empty := by
  refine ⟨.group _ fun c hc => ?_, fun op h => ?_, ⟨_, _, rfl⟩⟩
  · simp only [List.mem_cons, List.not_mem_nil, or_false] at hc
    rcases hc with rfl | rfl
    · exact .field ..
    · exact .field ..
  · cases h with
    | group _ hc h =>
      simp only [List.mem_cons, List.not_mem_nil, or_false] at hc
      rcases hc with rfl | rfl
      · cases h
      · cases h

theorem merge_olderFrom :
    (∃ ms, mergeQuery (dict (olderFrom 5 "Rome" "Oslo")) (dict (olderFrom 7 "Oslo" "Bonn")) =
        (dict ms, .ok ()) ∧ Shaped ms ∧
      ∀ d, matchesQuery d (dict ms) = .ok true ↔
        matchesQuery d (dict (olderFrom 5 "Rome" "Oslo")) = .ok true ∧
          matchesQuery d (dict (olderFrom 7 "Oslo" "Bonn")) = .ok true) ∧
    ∃ ms t, Filter.compileAll Models.catalog Schema.standard (int 32) []
        [olderOrUnknown 5, olderOrUnknown 7, olderOrUnknown 5] .empty = (.ok ms, t) ∧
      Shaped ms := by
  obtain ⟨ms, hm, hs, hd⟩ := merge_holds_iff.1 (olderFrom_shaped 5 "Rome" "Oslo")
    (olderFrom_shaped 7 "Oslo" "Bonn")
  have hf : ∀ f ∈ [olderOrUnknown 5, olderOrUnknown 7, olderOrUnknown 5],
      f.Compiles Models.catalog Schema.standard (int 32) .empty := by
    simp [olderOrUnknown_compiles]
  obtain ⟨ns, t, hn, hns, _⟩ := merge_holds_iff.2 hf
  exact ⟨⟨ms, hm, hs, fun d => (hd d).1⟩, ns, t, hn, hns⟩

end DocStore
