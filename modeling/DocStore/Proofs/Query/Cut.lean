import DocStore.Proofs.Query.Projected

/-! What is left of a value where only some paths of a document are kept. Values are cut at their
keys; where none of the paths leads further, they stay whole. -/

namespace DocStore

open Value

/-- What is left of a value: all of it, or some of its entries, with what is left of theirs. -/
inductive Cut : Value → Value → Prop
  | whole (v : Value) : Cut v v
  | entries {qs ps : Entries} (hk : qs.Keyed)
      (hthere : ∀ n w, Entries.get? (str n) qs = some w → ∃ v, Entries.get? (str n) ps = some v)
      (hcut : ∀ n w v, Entries.get? (str n) qs = some w → Entries.get? (str n) ps = some v →
        Cut w v) : Cut (dict qs) (dict ps)

namespace Cut

variable {n : String} {v w : Value} {qs ps : Entries}

theorem nil (ps : Entries) : Cut (dict []) (dict ps) :=
  .entries .nil (fun _ _ h => by cases h) fun _ _ _ h => by cases h

theorem entry (h : Cut (dict qs) (dict ps)) (hw : Entries.get? (str n) qs = some w) :
    ∃ v, Entries.get? (str n) ps = some v ∧ Cut w v := by
  cases h with
  | whole => exact ⟨w, hw, .whole w⟩
  | entries _ hthere hcut =>
    obtain ⟨v, hv⟩ := hthere n w hw
    exact ⟨v, hv, hcut n w v hw hv⟩

theorem eq_of_leaf (h : Cut w v) (hv : ∀ ps, v ≠ dict ps) : w = v := by
  cases h with
  | whole => rfl
  | entries => exact absurd rfl (hv _)

theorem put (hk : qs.Keyed) (h : Cut (dict qs) (dict ps)) (hv : Entries.get? (str n) ps = some v)
    (hw : Cut w v) : Cut (dict (Entries.put (str n) w qs)) (dict ps) := by
  refine .entries (hk.put n w) (fun m x hx => ?_) fun m x y hx hy => ?_
  · by_cases hm : m = n
    · exact ⟨v, hm ▸ hv⟩
    · rw [Entries.get?_put_other hm] at hx
      obtain ⟨y, hy, _⟩ := h.entry hx
      exact ⟨y, hy⟩
  · by_cases hm : m = n
    · subst hm
      rw [Entries.get?_put_here] at hx
      cases hx
      cases hv.symm.trans hy
      exact hw
    · rw [Entries.get?_put_other hm] at hx
      obtain ⟨y', hy', hcut⟩ := h.entry hx
      cases hy.symm.trans hy'
      exact hcut

end Cut

/-- Setting what a document has at a path, in what is left of that document. -/
theorem Entries.setPath_cut {v : Value} {path : List String} {qs qs' ps : Entries} (hp : path ≠ [])
    (hcut : Cut (dict qs) (dict ps)) (hv : getPath path (dict ps) = some v)
    (h : setPath v path qs = .ok qs') : Cut (dict qs') (dict ps) := by
  induction path generalizing qs qs' ps with
  | nil => exact absurd rfl hp
  | cons s rest ih =>
    obtain ⟨_, x, hd, hx, hrest⟩ := getPath_cons_eq_some hv
    cases hd
    cases hcut with
    | whole =>
      rw [setPath_same hp hv] at h
      cases h
      exact .whole _
    | entries hk hthere hchildren =>
      have hcut : Cut (dict qs) (dict ps) := .entries hk hthere hchildren
      cases rest with
      | nil =>
        cases h
        cases hrest
        exact hcut.put hk hx (.whole v)
      | cons t rest =>
        obtain ⟨cs, _, rfl, _, _⟩ := getPath_cons_eq_some hrest
        obtain ⟨child, child', hset, rfl, hchild⟩ := setPath_below h
        have hbelow : Cut (dict child) (dict cs) := by
          rcases hchild with hc | ⟨rfl, _⟩
          · exact hchildren s _ _ hc hx
          · exact .nil cs
        exact hcut.put hk hx (ih (by simp) hbelow hrest hset)

section Projection

variable {idField : String} {cs : Choices} {ds qs res projection : Entries} {x : Value}

theorem keepPaths_cut (hc : cs.Textual) (hcut : Cut (dict qs) (dict ds))
    (h : keepPaths idField (dict ds) cs qs = .ok res) : Cut (dict res) (dict ds) := by
  induction cs generalizing qs with
  | nil =>
    cases h
    exact hcut
  | cons c cs ih =>
    obtain ⟨k, keep⟩ := c
    obtain ⟨p, rfl⟩ : ∃ n, k = str n := hc _ List.mem_cons_self
    by_cases hskip : keep = false ∨ p = idField
    · rw [keepPaths_skipped hskip] at h
      exact ih hc.tail hcut h
    · obtain ⟨hkeep, hp⟩ := not_or.mp hskip
      obtain rfl := eq_true_of_ne_false hkeep
      cases hv : getPath (segments p) (dict ds) with
      | none =>
        rw [keepPaths_missing hp hv] at h
        exact ih hc.tail hcut h
      | some v =>
        rw [keepPaths_found hp hv] at h
        obtain ⟨qs', hset, hrest⟩ := except_bind_eq_ok.mp h
        exact ih hc.tail (Entries.setPath_cut (segments_ne_nil p) hcut hv hset) hrest

theorem idEntry_cut (wanted : Bool) : Cut (dict (idEntry idField wanted ds)) (dict ds) := by
  unfold idEntry
  split
  · next v hv => exact (Cut.nil ds).put .nil hv (.whole v)
  · exact .nil ds

theorem project_cut (hp : projection.Keyed) (ht : ∃ p, Chooses projection true p)
    (hf : ∀ p, Chooses projection false p → p = idField)
    (h : project idField (dict projection) (dict ds) = .ok x) : Cut x (dict ds) := by
  rw [project_keeping hp ht hf] at h
  obtain ⟨res, hres, rfl⟩ := except_map_eq_ok.mp h
  exact keepPaths_cut (choices_textual hp) (idEntry_cut _) hres

end Projection

end DocStore
