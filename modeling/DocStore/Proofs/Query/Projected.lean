import DocStore.Proofs.Document.Places
import DocStore.Proofs.Names
import DocStore.Query.Projection

/-! What a projection leaves of a document. Paths that overlap are no obstacle: what was copied
from the document stays as it is in the document, whatever is copied afterwards, and what was
removed stays away. -/

namespace DocStore

open Value

variable {idField : String} {cs : Choices} {ds qs res : Entries}

/-- Choices whose keys are all paths. -/
def Choices.Textual (cs : Choices) : Prop := ∀ c ∈ cs, ∃ n, c.1 = str n

theorem Choices.Textual.tail {c : Value × Bool} (h : Choices.Textual (c :: cs)) : cs.Textual :=
  fun d hd => h d (List.mem_cons_of_mem c hd)

theorem Choices.chosen_iff {keep : Bool} (hc : cs.Textual) :
    cs.chosen idField keep = true ↔ ∃ p, (str p, keep) ∈ cs ∧ p ≠ idField := by
  rw [Choices.chosen, List.any_eq_true]
  constructor
  · rintro ⟨⟨k, kept⟩, hm, h⟩
    obtain ⟨p, rfl⟩ : ∃ n, k = str n := hc _ hm
    simp only [Bool.and_eq_true, beq_iff_eq, Bool.not_eq_true'] at h
    obtain ⟨rfl, hne⟩ := h
    refine ⟨p, hm, ?_⟩
    rintro rfl
    rw [equal_str_right.mpr rfl] at hne
    cases hne
  · rintro ⟨p, hm, hne⟩
    refine ⟨_, hm, ?_⟩
    have he : equal (str p) (str idField) = false :=
      Bool.eq_false_iff.mpr fun h => hne (Value.str.inj (equal_str_right.mp h))
    simp [he]

/-! Keeping paths -/

section Keep

variable {p : String} {keep : Bool} {d e v : Value}

theorem keepPaths_skipped (h : keep = false ∨ p = idField) :
    keepPaths idField d ((str p, keep) :: cs) qs = keepPaths idField d cs qs := by
  rw [keepPaths, if_pos]
  rcases h with rfl | rfl <;> simp

theorem keepPaths_missing (hp : p ≠ idField) (h : getPath (segments p) d = none) :
    keepPaths idField d ((str p, true) :: cs) qs = keepPaths idField d cs qs := by
  have hne : ¬ (!true || equal (str p) (str idField)) = true :=
    fun h => hp (Value.str.inj (equal_str_right.mp h))
  rw [keepPaths, if_neg hne]
  simp only [h]

theorem keepPaths_found (hp : p ≠ idField) (h : getPath (segments p) d = some v) :
    keepPaths idField d ((str p, true) :: cs) qs =
      (Entries.setPath v (segments p) qs).bind (keepPaths idField d cs) := by
  have hne : ¬ (!true || equal (str p) (str idField)) = true :=
    fun h => hp (Value.str.inj (equal_str_right.mp h))
  rw [keepPaths, if_neg hne]
  simp only [h]

/-- Keeping paths needs no more of a document than what it has at those paths. -/
theorem keepPaths_congr (hc : cs.Textual)
    (h : ∀ p, (str p, true) ∈ cs → p ≠ idField →
      getPath (segments p) d = getPath (segments p) e) (qs : Entries) :
    keepPaths idField d cs qs = keepPaths idField e cs qs := by
  induction cs generalizing qs with
  | nil => rfl
  | cons c cs ih =>
    obtain ⟨k, keep⟩ := c
    obtain ⟨p, rfl⟩ : ∃ n, k = str n := hc _ List.mem_cons_self
    have hrest := ih hc.tail fun q hq => h q (List.mem_cons_of_mem _ hq)
    by_cases hskip : keep = false ∨ p = idField
    · rw [keepPaths_skipped hskip, keepPaths_skipped hskip, hrest]
    · obtain ⟨hkeep, hp⟩ := not_or.mp hskip
      obtain rfl := eq_true_of_ne_false hkeep
      have hsame := h p (by simp) hp
      cases hv : getPath (segments p) e with
      | none =>
        rw [hv] at hsame
        rw [keepPaths_missing hp hsame, keepPaths_missing hp hv, hrest]
      | some v =>
        rw [hv] at hsame
        rw [keepPaths_found hp hsame, keepPaths_found hp hv]
        exact congrArg _ (funext hrest)

/-- What keeping paths of `ds` adds to `qs`. -/
structure Copied (idField : String) (ds : Entries) (cs : Choices) (qs res : Entries) : Prop where
  run : keepPaths idField (dict ds) cs qs = .ok res
  part : Part (dict res) (dict ds)
  agree : ∀ q, getPath q (dict qs) = getPath q (dict ds) →
    getPath q (dict res) = getPath q (dict ds)
  chosen : ∀ p, (str p, true) ∈ cs → p ≠ idField →
    getPath (segments p) (dict res) = getPath (segments p) (dict ds)
  aloof : ∀ q, (∀ p, (str p, true) ∈ cs → p ≠ idField → Aloof (segments p) q) →
    getPath q (dict res) = getPath q (dict qs)

theorem keepPaths_copied (hc : cs.Textual) (hpart : Part (dict qs) (dict ds)) :
    ∃ res, Copied idField ds cs qs res := by
  induction cs generalizing qs with
  | nil => exact ⟨qs, rfl, hpart, fun _ h => h, by simp, fun _ _ => rfl⟩
  | cons c cs ih =>
    obtain ⟨k, keep⟩ := c
    obtain ⟨n, rfl⟩ : ∃ n, k = str n := hc _ List.mem_cons_self
    by_cases hskip : keep = false ∨ n = idField
    · obtain ⟨res, h⟩ := ih hc.tail hpart
      refine ⟨res, (keepPaths_skipped hskip).trans h.run, h.part, h.agree, fun p hp hne => ?_,
        fun q hq => h.aloof q fun p hp => hq p (List.mem_cons_of_mem _ hp)⟩
      rcases List.mem_cons.mp hp with he | hp
      · cases he
        rcases hskip with hf | he
        · cases hf
        · exact absurd he hne
      · exact h.chosen p hp hne
    · obtain ⟨hkeep, hn⟩ := not_or.mp hskip
      obtain rfl := eq_true_of_ne_false hkeep
      cases hv : getPath (segments n) (dict ds) with
      | none =>
        obtain ⟨res, h⟩ := ih hc.tail hpart
        refine ⟨res, (keepPaths_missing hn hv).trans h.run, h.part, h.agree, fun p hp hne => ?_,
          fun q hq => h.aloof q fun p hp => hq p (List.mem_cons_of_mem _ hp)⟩
        · rcases List.mem_cons.mp hp with he | hp
          · cases he
            exact (h.part.absent hv).trans hv.symm
          · exact h.chosen p hp hne
      | some v =>
        obtain ⟨qs', hset, hpart'⟩ := Entries.setPath_part (segments_ne_nil n) hpart hv
        obtain ⟨res, h⟩ := ih hc.tail hpart'
        refine ⟨res, ?_, h.part, fun q hq => h.agree q ?_, fun p hp hne => ?_, fun q hq => ?_⟩
        · rw [keepPaths_found hn hv]
          exact except_bind_eq_ok.mpr ⟨qs', hset, h.run⟩
        · exact Entries.setPath_agree (segments_ne_nil n) hv hset hq
        · rcases List.mem_cons.mp hp with he | hp
          · cases he
            exact h.agree _ ((Entries.getPath_setPath (segments_ne_nil n) hset).trans hv.symm)
          · exact h.chosen p hp hne
        · rw [h.aloof q fun p hp => hq p (List.mem_cons_of_mem _ hp),
            Entries.getPath_setPath_aloof hset (hq n (by simp) hn)]

theorem Copied.again (h : Copied idField ds cs qs res) (hc : cs.Textual) :
    keepPaths idField (dict res) cs qs = .ok res :=
  (keepPaths_congr hc h.chosen qs).trans h.run

end Keep

/-! Leaving paths out -/

/-! The identifier, which is kept with the paths to keep -/

/-- What a projection keeps of the identifier. -/
def idEntry (idField : String) (wanted : Bool) (ds : Entries) : Entries :=
  match wanted, Entries.get? (str idField) ds with
  | true, some v => [(str idField, v)]
  | _, _ => []

theorem idEntry_part (wanted : Bool) : Part (dict (idEntry idField wanted ds)) (dict ds) := by
  unfold idEntry
  split
  · next v hv => exact (Part.empty ds).put hv (Part.refl v)
  · exact Part.empty ds

theorem getPath_idEntry : getPath [idField] (dict (idEntry idField true ds)) =
    getPath [idField] (dict ds) := by
  rw [getPath_dict, getPath_dict]
  unfold idEntry
  split
  · next v hv => rw [hv, Entries.get?_here rfl]
  · next h =>
    cases hv : Entries.get? (str idField) ds with
    | none => rfl
    | some v => exact absurd hv (h v rfl)

theorem getPath_idEntry_aloof {wanted : Bool} {q : List String} (hq : Aloof [idField] q) :
    getPath q (dict (idEntry idField wanted ds)) = none := by
  obtain ⟨s, q, rfl⟩ := List.exists_cons_of_ne_nil hq.ne_nil
  have hs : str idField ≠ str s := by
    intro h
    exact hq.past (List.cons_prefix_cons.mpr ⟨Value.str.inj h, List.nil_prefix⟩)
  rw [getPath_dict]
  unfold idEntry
  split
  · rw [Entries.get?_past hs]
    rfl
  · rfl

/-- How choices are seen to keep paths. -/
theorem keeping_of_chosen (hf : cs.chosen idField false = false)
    (ht : cs.chosen idField true = true ∨ cs.keepsId? idField = some true) :
    (cs.chosen idField true && cs.chosen idField false) = false ∧
      (cs.chosen idField true || (!cs.chosen idField false &&
        (cs.keepsId? idField).getD false)) = true := by
  rcases ht with h | h <;> simp [h, hf]

/-- How choices are seen to leave paths out. -/
theorem leaving_of_chosen (ht : cs.chosen idField true = false)
    (hk : cs.chosen idField false = true ∨ cs.keepsId? idField ≠ some true) :
    (cs.chosen idField true && cs.chosen idField false) = false ∧
      (cs.chosen idField true || (!cs.chosen idField false &&
        (cs.keepsId? idField).getD false)) = false := by
  rcases hk with h | h
  · simp [h, ht]
  · cases hi : cs.keepsId? idField with
    | none => simp [ht]
    | some b =>
      cases b with
      | true => exact absurd hi h
      | false => simp [ht]

theorem projectChoices_keep {projection : Value} (hf : cs.chosen idField false = false)
    (ht : cs.chosen idField true = true ∨ cs.keepsId? idField = some true) :
    projectChoices idField projection (dict ds) cs =
      (keepPaths idField (dict ds) cs
        (idEntry idField ((cs.keepsId? idField).getD true) ds)).map dict := by
  obtain ⟨hmix, hkeep⟩ := keeping_of_chosen hf ht
  unfold projectChoices
  simp only [hmix, hkeep]
  rw [if_neg Bool.false_ne_true, if_pos trivial]
  cases (cs.keepsId? idField).getD true with
  | true =>
    unfold idEntry
    cases hv : Entries.get? (str idField) ds <;> simp [idIn, hv, Except.map, bind, Except.bind]
  | false => rfl

theorem projectChoices_drop {projection : Value} (ht : cs.chosen idField true = false)
    (hk : cs.chosen idField false = true ∨ cs.keepsId? idField ≠ some true) :
    projectChoices idField projection (dict ds) cs = (dropPaths cs ds).map dict := by
  obtain ⟨hmix, hkeep⟩ := leaving_of_chosen ht hk
  unfold projectChoices
  simp only [hmix, hkeep]
  rw [if_neg Bool.false_ne_true, if_neg Bool.false_ne_true]
  rfl

theorem idEntry_congr {wanted : Bool}
    (h : wanted = true → Entries.get? (str idField) res = Entries.get? (str idField) ds) :
    idEntry idField wanted res = idEntry idField wanted ds := by
  cases wanted with
  | true =>
    unfold idEntry
    rw [h rfl]
  | false => rfl

/-! Projections as dictionaries -/

/-- The paths that a projection keeps, or those that it leaves out. -/
def Chooses (projection : Entries) (keep : Bool) (p : String) : Prop :=
  ∃ v, (str p, v) ∈ projection ∧ v.truthy = keep

/-- A projection names paths to keep, and leaves out none but the identifier. -/
structure Keeps (idField : String) (projection : Entries) : Prop where
  some : ∃ p, Chooses projection true p
  only : ∀ p, Chooses projection false p → p = idField

/-- A projection names no path to keep but the identifier, and that not alone. -/
structure Leaves (idField : String) (projection : Entries) : Prop where
  only : ∀ p, Chooses projection true p → p = idField
  some : (∃ p, Chooses projection false p ∧ p ≠ idField) ∨ ∀ p, ¬ Chooses projection true p

/-- A projection's choices, as they are read. -/
def choices (projection : Entries) : Choices := projection.map fun p => (p.1, p.2.truthy)

section Dictionary

variable {projection : Entries} {p : String} {keep : Bool}

theorem mem_choices : (str p, keep) ∈ choices projection ↔ Chooses projection keep p := by
  rw [choices, List.mem_map]
  constructor
  · rintro ⟨⟨k, v⟩, hm, he⟩
    cases he
    exact ⟨v, hm, rfl⟩
  · rintro ⟨v, hm, rfl⟩
    exact ⟨(str p, v), hm, rfl⟩

theorem choices_textual (hp : Entries.Keyed projection) : (choices projection).Textual := by
  intro c hc
  obtain ⟨q, hq, rfl⟩ := List.mem_map.mp hc
  exact hp.text q hq

theorem keepsId?_choices (projection : Entries) : (choices projection).keepsId? idField =
    (Entries.get? (str idField) projection).map truthy := by
  induction projection with
  | nil => rfl
  | cons q rest ih =>
    by_cases hq : q.1 = str idField
    · rw [Entries.get?_here hq]
      simp [choices, Choices.keepsId?, equal_str_right.mpr hq]
    · have he : equal q.1 (str idField) = false :=
        Bool.eq_false_iff.mpr fun h => hq (equal_str_right.mp h)
      rw [Entries.get?_past hq, ← ih]
      simp [choices, Choices.keepsId?, he]

theorem keepsId?_iff (hp : Entries.Keyed projection) :
    (choices projection).keepsId? idField = some keep ↔ Chooses projection keep idField := by
  rw [keepsId?_choices, Option.map_eq_some_iff]
  constructor
  · rintro ⟨v, hv, hk⟩
    exact ⟨v, Entries.mem_of_get? hv, hk⟩
  · rintro ⟨v, hv, hk⟩
    exact ⟨v, hp.get?_of_mem hv, hk⟩

theorem project_choices (h : projection ≠ []) (d : Value) :
    project idField (dict projection) d =
      projectChoices idField (dict projection) d (choices projection) := by
  cases projection with
  | nil => exact absurd rfl h
  | cons q rest => rfl

/-- What is left of `ds` where paths are kept. -/
structure Inclusion (idField : String) (projection ds res : Entries) : Prop where
  part : Part (dict res) (dict ds)
  kept : ∀ p, Chooses projection true p → (p ≠ idField ∨ segments p = [p]) →
    ∀ q, segments p <+: q → getPath q (dict res) = getPath q (dict ds)
  only : ∀ q, (∀ p, Chooses projection true p → p ≠ idField → Aloof (segments p) q) →
    Aloof [idField] q → getPath q (dict res) = none
  id : ¬ Chooses projection false idField →
    ∀ q, [idField] <+: q → getPath q (dict res) = getPath q (dict ds)
  noId : Chooses projection false idField →
    (∀ p, Chooses projection true p → ¬ [idField] <+: segments p) →
      getPath [idField] (dict res) = none

/-- Whether a projection keeps the identifier when it keeps paths. -/
def wantsId (idField : String) (projection : Entries) : Bool :=
  ((choices projection).keepsId? idField).getD true

theorem wantsId_iff (hp : Entries.Keyed projection) :
    wantsId idField projection = true ↔ ¬ Chooses projection false idField := by
  rw [← keepsId?_iff hp, wantsId]
  cases (choices projection).keepsId? idField with
  | none => simp
  | some b => cases b <;> simp

/-- The identifier stands among what is kept to begin with, and stays there. -/
theorem Copied.id_agree
    (h : Copied idField ds (choices projection) (idEntry idField true ds) res) :
    getPath [idField] (dict res) = getPath [idField] (dict ds) :=
  h.agree _ getPath_idEntry

theorem Copied.inclusion (hp : Entries.Keyed projection)
    (h : Copied idField ds (choices projection)
      (idEntry idField (wantsId idField projection) ds) res) :
    Inclusion idField projection ds res := by
  have hid (hn : ¬ Chooses projection false idField) :
      getPath [idField] (dict res) = getPath [idField] (dict ds) := by
    rw [(wantsId_iff hp).mpr hn] at h
    exact h.id_agree
  refine ⟨h.part, fun p hc hpid q hq => ?_, fun q hq hqid => ?_,
    fun hn q hq => getPath_under (hid hn) hq, fun hx hbelow => ?_⟩
  · by_cases he : p = idField
    · subst he
      have hn : ¬ Chooses projection false p := by
        rw [← keepsId?_iff hp, (keepsId?_iff hp).mpr hc]
        simp
      have hsegs := hpid.resolve_left fun hne => hne rfl
      exact getPath_under (hid hn) (hsegs ▸ hq)
    · exact getPath_under (h.chosen p (mem_choices.mpr hc) he) hq
  · rw [h.aloof q fun p hm => hq p (mem_choices.mp hm), getPath_idEntry_aloof hqid]
  · have hw : wantsId idField projection = false :=
      Bool.eq_false_iff.mpr fun hw => (wantsId_iff hp).mp hw hx
    rw [hw] at h
    rw [h.aloof [idField] fun p hm _ => ?_]
    · rfl
    · refine ⟨fun hpre => ?_, hbelow p (mem_choices.mp hm)⟩
      -- all that leads to a name is the name itself
      rcases List.prefix_cons_iff.mp hpre with hnil | ⟨rest, hsegs, hrest⟩
      · exact segments_ne_nil p hnil
      · rw [List.prefix_nil.mp hrest] at hsegs
        exact hbelow p (mem_choices.mp hm) (hsegs ▸ List.prefix_rfl)

theorem chosen_keeping (hp : Entries.Keyed projection) (ht : ∃ p, Chooses projection true p)
    (hf : ∀ p, Chooses projection false p → p = idField) :
    (choices projection).chosen idField false = false ∧
      ((choices projection).chosen idField true = true ∨
        (choices projection).keepsId? idField = some true) := by
  have hc := choices_textual hp
  refine ⟨?_, ?_⟩
  · rw [Bool.eq_false_iff, ne_eq, Choices.chosen_iff hc]
    rintro ⟨p, hm, hpid⟩
    exact hpid (hf p (mem_choices.mp hm))
  · obtain ⟨p, h⟩ := ht
    by_cases hpid : p = idField
    · exact .inr ((keepsId?_iff hp).mpr (hpid ▸ h))
    · exact .inl ((Choices.chosen_iff hc).mpr ⟨p, mem_choices.mpr h, hpid⟩)

theorem chosen_leaving (hp : Entries.Keyed projection)
    (ht : ∀ p, Chooses projection true p → p = idField)
    (hf : (∃ p, Chooses projection false p ∧ p ≠ idField) ∨ ∀ p, ¬ Chooses projection true p) :
    (choices projection).chosen idField true = false ∧
      ((choices projection).chosen idField false = true ∨
        (choices projection).keepsId? idField ≠ some true) := by
  have hc := choices_textual hp
  refine ⟨?_, ?_⟩
  · rw [Bool.eq_false_iff, ne_eq, Choices.chosen_iff hc]
    rintro ⟨p, hm, hpid⟩
    exact hpid (ht p (mem_choices.mp hm))
  · rcases hf with ⟨p, h, hpid⟩ | hno
    · exact .inl ((Choices.chosen_iff hc).mpr ⟨p, mem_choices.mpr h, hpid⟩)
    · exact .inr fun h => hno idField ((keepsId?_iff hp).mp h)

theorem ne_nil_of_chooses {p : String} {keep : Bool} (h : Chooses projection keep p) :
    projection ≠ [] := by
  rintro rfl
  obtain ⟨v, hm, _⟩ := h
  cases hm

theorem project_keeping (hp : Entries.Keyed projection) (ht : ∃ p, Chooses projection true p)
    (hf : ∀ p, Chooses projection false p → p = idField) (ds : Entries) :
    project idField (dict projection) (dict ds) =
      (keepPaths idField (dict ds) (choices projection)
        (idEntry idField (wantsId idField projection) ds)).map dict := by
  obtain ⟨p, h⟩ := ht
  obtain ⟨hnone, hsome⟩ := chosen_keeping hp ⟨p, h⟩ hf
  rw [project_choices (ne_nil_of_chooses h), projectChoices_keep hnone hsome]
  rfl

theorem project_leaving (hp : Entries.Keyed projection) (hne : projection ≠ [])
    (ht : ∀ p, Chooses projection true p → p = idField)
    (hf : (∃ p, Chooses projection false p ∧ p ≠ idField) ∨ ∀ p, ¬ Chooses projection true p)
    (ds : Entries) : project idField (dict projection) (dict ds) =
      (dropPaths (choices projection) ds).map dict := by
  obtain ⟨hnone, hsome⟩ := chosen_leaving hp ht hf
  rw [project_choices hne, projectChoices_drop hnone hsome]

theorem project_inclusion (hp : Entries.Keyed projection) (ht : ∃ p, Chooses projection true p)
    (hf : ∀ p, Chooses projection false p → p = idField) (ds : Entries) :
    ∃ res, project idField (dict projection) (dict ds) = .ok (dict res) ∧
      project idField (dict projection) (dict res) = .ok (dict res) ∧
      Inclusion idField projection ds res := by
  have hc := choices_textual hp
  obtain ⟨res, h⟩ : ∃ res, Copied idField ds (choices projection)
      (idEntry idField (wantsId idField projection) ds) res :=
    keepPaths_copied hc (idEntry_part (wantsId idField projection))
  have hsame : idEntry idField (wantsId idField projection) res =
      idEntry idField (wantsId idField projection) ds := by
    refine idEntry_congr fun hw => ?_
    rw [hw] at h
    simpa [getPath_dict, getPath] using h.id_agree
  refine ⟨res, ?_, ?_, h.inclusion hp⟩
  · rw [project_keeping hp ht hf, h.run]
    rfl
  · rw [project_keeping hp ht hf, hsame, h.again hc]
    rfl

theorem Leaves.not_keeps (h : Leaves idField projection) : ¬ Keeps idField projection := by
  rintro ⟨⟨p, hp⟩, hf⟩
  rcases h.some with ⟨q, hq, hqid⟩ | hno
  · exact hqid (hf q hq)
  · exact hno p hp

/-- A projection that does not mix keeps paths or leaves paths out. -/
theorem keeps_or_leaves (hm : (∀ p, Chooses projection true p → p = idField) ∨
    ∀ p, Chooses projection false p → p = idField) :
    Keeps idField projection ∨ Leaves idField projection := by
  by_cases ht : ∃ p, Chooses projection true p
  · rcases hm with honly | hf
    · by_cases hf : ∀ p, Chooses projection false p → p = idField
      · exact .inl ⟨ht, hf⟩
      · obtain ⟨p, hp⟩ := Classical.not_forall.mp hf
        exact .inr ⟨honly, .inl ⟨p, Classical.not_imp.mp hp⟩⟩
    · exact .inl ⟨ht, hf⟩
  · have hno := not_exists.mp ht
    exact .inr ⟨fun p hp => absurd hp (hno p), .inr hno⟩

end Dictionary

end DocStore
