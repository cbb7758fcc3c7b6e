import DocStore.Proofs.Codec.Legible
import DocStore.Proofs.Codec.RoundTrip

/-! What is written for values that conform to hints can be read at every path, not only as a
whole. -/

namespace DocStore

open Value

namespace Codec

variable {cat : Catalog} {s : Schema} {r : Registry} {h : Hint} {v w : Value} {xs : List Value}
  {ps : Entries}

theorem legible_leaf (hlist : ∀ xs, w ≠ list xs) (hdict : ∀ ps, w ≠ dict ps) :
    Legible cat s r .any w := fun m => ⟨w, decode_of_scalar hlist hdict rfl m⟩

theorem legible_list (h : ∀ x ∈ xs, Legible cat s r .any x) : Legible cat s r .any (list xs) := by
  have hitems (m : Nat) : ∃ ys, decodeItems cat s r .any xs m = (.ok ys, m) := by
    induction xs with
    | nil => exact ⟨[], rfl⟩
    | cons x xs ih =>
      obtain ⟨hfirst, hrest⟩ := List.forall_mem_cons.mp h
      obtain ⟨y, hy⟩ := hfirst m
      obtain ⟨ys, hys⟩ := ih hrest
      rw [decodeItems, bind_of_ok hy, bind_of_ok hys]
      exact ⟨y :: ys, rfl⟩
  intro m
  obtain ⟨ys, hys⟩ := hitems m
  rw [decode]
  exact ⟨list ys, bind_of_ok hys⟩

/-- Where there is no dictionary, no path leads further. -/
theorem throughout_flat (hdict : ∀ ps, w ≠ dict ps) (hl : Legible cat s r .any w) :
    LegibleThroughout cat s r w := by
  intro q u hu
  cases q with
  | nil =>
    cases hu
    exact hl
  | cons n q =>
    obtain ⟨ps, _, rfl, _, _⟩ := getPath_cons_eq_some hu
    exact absurd rfl (hdict ps)

theorem throughout_leaf (hlist : ∀ xs, w ≠ list xs) (hdict : ∀ ps, w ≠ dict ps) :
    LegibleThroughout cat s r w := throughout_flat hdict (legible_leaf hlist hdict)

theorem throughout_list (h : ∀ x ∈ xs, LegibleThroughout cat s r x) :
    LegibleThroughout cat s r (list xs) :=
  throughout_flat (by simp) (legible_list fun x hx => h x hx [] x rfl)

theorem throughout_dict (hl : Legible cat s r .any (dict ps))
    (h : ∀ p ∈ ps, LegibleThroughout cat s r p.2) : LegibleThroughout cat s r (dict ps) := by
  intro q u hu
  cases q with
  | nil =>
    cases hu
    exact hl
  | cons n q =>
    obtain ⟨_, x, hd, hx, hu⟩ := getPath_cons_eq_some hu
    cases hd
    exact h _ (Entries.mem_of_get? hx) q u hu

theorem throughout_scalar (hv : v.isScalar = true) : LegibleThroughout cat s r v :=
  throughout_leaf (by rintro _ rfl; cases hv) (by rintro _ rfl; cases hv)

theorem throughout_plain (hv : Plain s.classField v) : LegibleThroughout cat s r v := by
  induction hv with
  | null => exact throughout_leaf (by simp) (by simp)
  | scalar hv => exact throughout_scalar hv
  | list _ ih => exact throughout_list ih
  | dict hkeys hvalues ih =>
    exact throughout_dict (fun m => ⟨_, decode_plain (.dict hkeys hvalues) m⟩) ih

/-- What conforms to a hint can be read even if it was never written. -/
theorem throughout_raw (hv : Conforms cat s r h v) : LegibleThroughout cat s r v := by
  induction hv with
  | any hv => exact throughout_plain hv
  | dict hps => exact throughout_plain hps
  | entries hps => exact throughout_plain hps
  | scalar hv _ => exact throughout_scalar hv
  | optional hv => exact throughout_scalar hv
  | list _ ih => exact throughout_list ih
  | _ => exact throughout_leaf (by simp) (by simp)

theorem toValue_of_toDocument {t : Registry} (hw : toDocument cat s v r = (.ok w, t)) :
    toValue cat s v r = (.ok w, t) := by
  cases v with
  | record _ _ => exact hw
  | _ => cases hw

theorem written_eq {t : Registry} (hw : toValue cat s v r = (.ok w, t)) :
    written cat s r v = w := by
  rw [written, hw]

/-- What is written as it is. -/
theorem throughout_same (hw : toValue cat s v r = (.ok v, r)) (h : LegibleThroughout cat s r v) :
    LegibleThroughout cat s r (written cat s r v) := by
  rwa [written_eq hw]

/-- What is written as a list. -/
theorem throughout_items (hx : ∀ x ∈ xs, Returns cat s r h x)
    (hw : ∀ r', toValue cat s v r' =
      (do let ys ← toValues cat s xs; pure (list ys) : Naming Value) r')
    (hi : ∀ x ∈ xs, LegibleThroughout cat s r (written cat s r x)) :
    LegibleThroughout cat s r (written cat s r v) := by
  have hrun : toValue cat s v r = (.ok (list (xs.map (written cat s r))), r) := by
    rw [hw, bind_of_ok (toValues_run fun x hx' => (hx x hx').wrote)]
    rfl
  rw [written_eq hrun]
  exact throughout_list (List.forall_mem_map.mpr hi)

/-- The document of a record can be read at every path, if what is written for its fields can. -/
theorem throughout_record {c : ClassSpec} {n : String} {fs : Entries}
    (h : Returned cat s r c n fs)
    (hraw : ∀ f ∈ c.fields, LegibleThroughout cat s r (fieldOf fs f.name))
    (hfields : ∀ f ∈ c.fields, LegibleThroughout cat s r (written cat s r (fieldOf fs f.name))) :
    LegibleThroughout cat s r (written cat s r (.record c.name fs)) := by
  have hid : LegibleThroughout cat s r (fieldOf fs "id") := by
    unfold fieldOf
    cases hget : Entries.get? (str "id") fs with
    | none => exact throughout_leaf (by simp) (by simp)
    | some v =>
      have hkey := List.mem_map_of_mem (f := Prod.fst) (Entries.mem_of_get? hget)
      rw [h.keys] at hkey
      obtain ⟨f, hf, hname⟩ := List.mem_map.mp hkey
      have hv := hraw f hf
      rwa [fieldOf, hname, hget] at hv
  have hread := (h.returns .any).read
  rw [written_eq h.toValue_run] at hread ⊢
  refine throughout_dict (fun m => ⟨_, hread m⟩) fun p hp => ?_
  rcases List.mem_append.mp hp with hp | hp
  · unfold front at hp
    split at hp
    · simp only [List.mem_cons, List.not_mem_nil, or_false] at hp
      rcases hp with rfl | rfl | rfl
      · exact hid
      · exact throughout_scalar rfl
      · exact throughout_scalar rfl
    · rw [List.mem_singleton.mp hp]
      exact throughout_scalar rfl
  · obtain ⟨f, hf, rfl⟩ := List.mem_map.mp hp
    exact hfields f (List.mem_of_mem_filter hf)

/-- What is written for a value that conforms to a hint can be read at every path. -/
theorem throughout_written (hr : r.Coherent)
    (hs : ∀ c ∈ cat.classes, c.identifiable = true → s.Apart) (hv : Conforms cat s r h v) :
    LegibleThroughout cat s r (written cat s r v) := by
  induction hv with
  | null => exact throughout_same rfl (throughout_leaf (by simp) (by simp))
  | scalar hv _ => exact throughout_same (by rw [toValue_scalar hv]; rfl) (throughout_scalar hv)
  | optional hv => exact throughout_same (by rw [toValue_scalar hv]; rfl) (throughout_scalar hv)
  | any hv => exact throughout_same (toValue_plain hv) (throughout_plain hv)
  | dict hps => exact throughout_same (toValue_plain hps) (throughout_plain hps)
  | entries hps => exact throughout_same (toValue_plain hps) (throughout_plain hps)
  | member _ he hm => exact throughout_scalar (he.scalar _ hm)
  | list hxs ih =>
    exact throughout_items (fun x hx => returns_of_conforms hr hs (hxs x hx)) (fun _ => rfl) ih
  | tuple hxs ih =>
    exact throughout_items (fun x hx => returns_of_conforms hr hs (hxs x hx)) (fun _ => rfl) ih
  | set hxs _ _ ih =>
    exact throughout_items (fun x hx => returns_of_conforms hr hs (hxs x hx)) (fun _ => rfl) ih
  | @record h c n fs _ hc hsound hn hkeys hfinish hfields ih =>
    have hzip (f : FieldSpec) (hf : f ∈ c.fields) :=
      mem_zip_fields (keyed_fields hsound hkeys) hkeys hf
    exact throughout_record
      (.of_fields hr hs hc hsound hn hkeys hfinish hfields fun p hp =>
        returns_of_conforms hr hs (hfields p hp))
      (fun f hf => throughout_raw (hfields _ (hzip f hf))) fun f hf => ih _ (hzip f hf)

end Codec

end DocStore
