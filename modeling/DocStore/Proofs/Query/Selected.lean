import DocStore.Proofs.Query.Cut
import DocStore.Query.Plan

/-! What the fields of a query leave of a document: the values at their paths, its identifier, and
the name of its class. The names of embedded classes stay only with what is whole, or where a field
asks for them. -/

namespace DocStore

open Value

/-- What is left of a document where the fields of a query were selected. -/
structure Selected (s : Schema) (fields : List Field) (ds es : Entries) : Prop where
  cut : Cut (dict es) (dict ds)
  part : Part (dict es) (dict ds)
  id : Entries.get? (str s.idField) es = Entries.get? (str s.idField) ds
  cls : Entries.get? (str s.classField) es = Entries.get? (str s.classField) ds
  whole : (∀ f ∈ fields, s.classField ∉ (segments f.name).tail) →
    ∀ q x, q ≠ [] → getPath (q ++ [s.classField]) (dict es) = some x →
      getPath q (dict es) = getPath q (dict ds)

section Selected

variable {s : Schema} {fields : List Field}

theorem Selected.refl (s : Schema) (fields : List Field) (ds : Entries) : Selected s fields ds ds :=
  ⟨.whole _, .refl _, rfl, rfl, fun _ _ _ _ _ => rfl⟩

/-- The projection of fields, if there are any. -/
def selection (s : Schema) (fields : List Field) : Entries :=
  Entries.put (str s.classField) (bool true)
    (Entries.ofList (fields.map fun f => (str f.name, bool true)))

theorem projectionOf_eq (s : Schema) (hf : fields ≠ []) :
    Plan.projectionOf s fields = dict (selection s fields) := by
  rw [Plan.projectionOf, if_neg (by simpa using hf)]
  rfl

theorem selection_chooses (s : Schema) (fields : List Field) :
    (selection s fields).Keyed ∧ Chooses (selection s fields) true s.classField ∧
      (∀ p, ¬ Chooses (selection s fields) false p) ∧
      ∀ p, Chooses (selection s fields) true p → p = s.classField ∨ ∃ f ∈ fields, f.name = p := by
  have htext : ∀ q ∈ fields.map (fun f : Field => (str f.name, Value.bool true)),
      ∃ n, q.1 = str n := by
    intro q hq
    obtain ⟨f, _, rfl⟩ := List.mem_map.mp hq
    exact ⟨f.name, rfl⟩
  have hkeyed : (Entries.ofList (fields.map fun f : Field => (str f.name, bool true))).Keyed :=
    Entries.Keyed.nil.merge htext
  have hall : ∀ p ∈ selection s fields, p.2 = bool true ∧
      (p.1 = str s.classField ∨ ∃ f ∈ fields, p.1 = str f.name) := by
    refine hkeyed.forall_put.mpr ⟨⟨rfl, .inl rfl⟩, fun p hp _ => ?_⟩
    refine Entries.Keyed.nil.forall_merge (P := fun p => p.2 = bool true ∧
      (p.1 = str s.classField ∨ ∃ f ∈ fields, p.1 = str f.name)) (by simp) htext ?_ p hp
    intro q hq
    obtain ⟨f, hf, rfl⟩ := List.mem_map.mp hq
    exact ⟨rfl, .inr ⟨f, hf, rfl⟩⟩
  refine ⟨hkeyed.put _ _, ⟨bool true, (hkeyed.mem_put _ _).mpr (.inl rfl), rfl⟩, ?_, ?_⟩
  · rintro p ⟨v, hm, hv⟩
    obtain rfl : v = bool true := (hall _ hm).1
    cases hv
  · rintro p ⟨v, hm, _⟩
    rcases (hall _ hm).2 with hp | ⟨f, hf, hp⟩
    · exact .inl (str.inj hp)
    · exact .inr ⟨f, hf, (str.inj hp).symm⟩

/-- A path that leads further than one segment ends in no name of a class, if no field does. -/
theorem last_ne_class {a : String} {p q t : List String} (hq : q ≠ []) (hp : a ∉ p.tail) :
    p ≠ q ++ a :: t := by
  rintro rfl
  obtain ⟨b, q, rfl⟩ := List.exists_cons_of_ne_nil hq
  exact hp (by simp)

theorem Inclusion.whole {ds es : Entries} (hclass : '.' ∉ s.classField.toList)
    (h : Inclusion s.idField (selection s fields) ds es)
    (hf : ∀ f ∈ fields, s.classField ∉ (segments f.name).tail) {q : List String} {x : Value}
    (hq : q ≠ []) (hx : getPath (q ++ [s.classField]) (dict es) = some x) :
    getPath q (dict es) = getPath q (dict ds) := by
  obtain ⟨_, _, hnone, hchosen⟩ := selection_chooses s fields
  have htail (p : String) (hp : Chooses (selection s fields) true p) :
      s.classField ∉ (segments p).tail := by
    rcases hchosen p hp with rfl | ⟨f, hmem, rfl⟩
    · simp [segments_of_no_dot hclass]
    · exact hf f hmem
  refine Classical.byContradiction fun hne => ?_
  have habsent : getPath (q ++ [s.classField]) (dict es) = none := by
    refine h.only _ (fun p hp hpid => ⟨fun hpast => ?_, ?_⟩) ⟨fun hpast => ?_, ?_⟩
    · rcases List.prefix_concat_iff.mp hpast with heq | hpre
      · exact last_ne_class hq (htail p hp) heq
      · exact hne (h.kept p hp (.inl hpid) q hpre)
    · rintro ⟨rest, hrest⟩
      refine last_ne_class (t := rest) hq (htail p hp) ?_
      rw [← hrest, List.append_assoc, List.singleton_append]
    · rcases List.prefix_concat_iff.mp hpast with heq | hpre
      · exact last_ne_class hq (by simp) heq
      · exact hne (h.id (hnone _) q hpre)
    · rintro ⟨rest, hrest⟩
      refine last_ne_class (t := rest) (p := [s.idField]) (a := s.classField) hq (by simp) ?_
      rw [← hrest, List.append_assoc, List.singleton_append]
  rw [hx] at habsent
  cases habsent

theorem project_selected (hclass : '.' ∉ s.classField.toList) (fields : List Field)
    (ds : Entries) :
    ∃ es, project s.idField (Plan.projectionOf s fields) (dict ds) = .ok (dict es) ∧
      Selected s fields ds es := by
  by_cases hf : fields = []
  · subst hf
    exact ⟨ds, rfl, .refl s [] ds⟩
  · rw [projectionOf_eq s hf]
    obtain ⟨hkeyed, hcls, hnone, _⟩ := selection_chooses s fields
    have hdrop (p : String) (hp : Chooses (selection s fields) false p) : p = s.idField :=
      absurd hp (hnone p)
    obtain ⟨es, hes, _, hinc⟩ := project_inclusion hkeyed ⟨_, hcls⟩ hdrop ds
    have hsegs := segments_of_no_dot hclass
    have hid := hinc.id (hnone _) [s.idField] List.prefix_rfl
    have hkept := hinc.kept _ hcls (.inr hsegs) [s.classField] (hsegs ▸ List.prefix_rfl)
    refine ⟨es, hes, project_cut hkeyed ⟨_, hcls⟩ hdrop hes, hinc.part, ?_, ?_, ?_⟩
    · simpa [getPath_dict, getPath] using hid
    · simpa [getPath_dict, getPath] using hkept
    · exact fun hf q x hq hx => hinc.whole hclass hf hq hx

end Selected

end DocStore
