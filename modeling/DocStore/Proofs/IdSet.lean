import DocStore.IdSet
import DocStore.Proofs.Value.Equal
import Mathlib.Order.Defs.Unbundled

/-! Sets of identifiers grow by those that are added to them, and by no others. -/

namespace DocStore

open Value

namespace IdSet

variable {s t : IdSet} {v : Value}

theorem add_cases (h : s.add v = .ok t) :
    t = s ∧ s.holds v = true ∨ t = ⟨s.ids ++ [v]⟩ := by
  unfold add at h
  split at h
  · cases h
  · split at h
    · next hv =>
      cases h
      exact .inl ⟨rfl, hv⟩
    · cases h
      exact .inr rfl

theorem holds_uuid {u : Uuid} : s.holds (uuid u) = true ↔ uuid u ∈ s.ids := by
  simp [holds, equal_uuid_left]

theorem contains_uuid (s : IdSet) (u : Uuid) : s.contains (uuid u) = .ok (s.holds (uuid u)) := rfl

theorem mem_of_add_uuid {u : Uuid} (h : s.add (uuid u) = .ok t) : uuid u ∈ t.ids := by
  rcases add_cases h with ⟨rfl, hu⟩ | rfl
  · exact holds_uuid.mp hu
  · simp

theorem holds_of_append {vs : List Value} (h : s.holds v = true) :
    (IdSet.mk (s.ids ++ vs)).holds v = true := by
  simp only [holds, List.any_append, Bool.or_eq_true] at h ⊢
  exact .inl h

/-- Sets with more values: all that were in one and those added, and no others. -/
structure With (s : IdSet) (vs : List Value) (t : IdSet) : Prop where
  earlier : s.ids <+: t.ids
  added : ∀ v ∈ vs, v ∈ t.ids ∨ t.holds v = true
  only : ∀ v ∈ t.ids, v ∈ s.ids ∨ v ∈ vs

theorem with_addAll {vs : List Value} (h : s.addAll vs = (t, .ok ())) : s.With vs t := by
  induction vs generalizing s with
  | nil =>
    cases h
    exact ⟨List.prefix_refl _, by simp, fun v hv => .inl hv⟩
  | cons v vs ih =>
    cases hv : s.add v with
    | error e =>
      rw [addAll, hv] at h
      cases h
    | ok u =>
      rw [addAll, hv] at h
      obtain ⟨⟨rest, hrest⟩, hadded, honly⟩ := ih h
      have ht : t = ⟨u.ids ++ rest⟩ := by rw [hrest]
      rcases add_cases hv with ⟨rfl, hheld⟩ | rfl
      · refine ⟨⟨rest, hrest⟩, fun w hw => ?_, fun w hw => ?_⟩
        · rcases List.mem_cons.mp hw with rfl | hw
          · exact .inr (ht ▸ holds_of_append hheld)
          · exact hadded w hw
        · exact (honly w hw).imp_right (List.mem_cons_of_mem v)
      · rw [List.append_assoc] at hrest
        refine ⟨⟨_, hrest⟩, fun w hw => ?_, fun w hw => ?_⟩
        · rcases List.mem_cons.mp hw with rfl | hw
          · exact .inl (hrest ▸ by simp)
          · exact hadded w hw
        · rcases honly w hw with hw | hw
          · rw [List.mem_append, List.mem_singleton] at hw
            exact hw.imp_right fun he => List.mem_cons.mpr (.inl he)
          · exact .inr (List.mem_cons_of_mem v hw)

/-- A set that kept what was in it, and gained nothing but what has a property. -/
structure Gains (Q : Value → Prop) (s t : IdSet) : Prop where
  kept : ∀ v ∈ s.ids, v ∈ t.ids
  only : ∀ v ∈ t.ids, v ∈ s.ids ∨ Q v

variable {Q : Value → Prop}

instance : IsPreorder IdSet (Gains Q) where
  refl _ := ⟨fun _ h => h, fun _ h => .inl h⟩
  trans _ _ _ h h' := by
    refine ⟨fun v hv => h'.kept v (h.kept v hv), fun v hv => ?_⟩
    rcases h'.only v hv with hv | hv
    · exact h.only v hv
    · exact .inr hv

theorem gains_add (h : s.add v = .ok t) (hv : Q v) : s.Gains Q t := by
  rcases add_cases h with ⟨rfl, _⟩ | rfl
  · exact refl_of (Gains Q) _
  · refine ⟨fun w hw => List.mem_append_left _ hw, fun w hw => ?_⟩
    rcases List.mem_append.mp hw with hw | hw
    · exact .inl hw
    · rw [List.mem_singleton.mp hw]
      exact .inr hv

end IdSet

end DocStore
