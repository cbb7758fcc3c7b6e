import DocStore.Document.Entries
import DocStore.Proofs.Value.Equal
import Mathlib.Data.List.Forall2

/-! Dictionaries whose keys are distinct texts: what putting, merging and looking up do to the
entries. -/

namespace DocStore

open Value

theorem exists_partner {α β : Type} {R : α → β → Prop} {xs : List α} {ys : List β} {x : α}
    (h : List.Forall₂ R xs ys) (hx : x ∈ xs) : ∃ y ∈ ys, R x y := by
  induction h with
  | nil => cases hx
  | @cons z y xs ys hzy _ ih =>
    rcases List.mem_cons.mp hx with rfl | hx
    · exact ⟨y, by simp, hzy⟩
    · obtain ⟨w, hw, hxw⟩ := ih hx
      exact ⟨w, by simp [hw], hxw⟩

namespace Entries

variable {α : Type}

/-- Entries under texts, no two of them under the same one. -/
structure Keyed (ps : Entries) : Prop where
  text : ∀ p ∈ ps, ∃ n, p.1 = str n
  distinct : ps.Pairwise fun p q => p.1 ≠ q.1

theorem keys_of_forall₂ {R : Value × Value → Value × Value → Prop} {ps qs : Entries}
    (hR : ∀ p q, R p q → p.1 = q.1) (h : List.Forall₂ R ps qs) :
    ps.map Prod.fst = qs.map Prod.fst := by
  induction h with
  | nil => rfl
  | cons hpq _ ih => rw [List.map_cons, List.map_cons, hR _ _ hpq, ih]

theorem Keyed.nil : Keyed [] := ⟨by simp, .nil⟩

theorem Keyed.singleton (n : String) (v : Value) : Keyed [(str n, v)] := ⟨by simp, by simp⟩

theorem Keyed.tail {p : Value × Value} {ps : Entries} (h : Keyed (p :: ps)) : Keyed ps :=
  ⟨fun q hq => h.text q (by simp [hq]), (List.pairwise_cons.mp h.distinct).2⟩

theorem get?_here {p : Value × α} {n : String} (h : p.1 = str n) (ps : List (Value × α)) :
    get? (str n) (p :: ps) = some p.2 := by
  simp [get?, h]

theorem get?_past {p : Value × α} {n : String} (h : p.1 ≠ str n) (ps : List (Value × α)) :
    get? (str n) (p :: ps) = get? (str n) ps := by
  have he : ¬ equal p.1 (str n) = true := fun hh => h (equal_str_right.mp hh)
  simp [get?, he]

theorem put_here {p : Value × α} {n : String} (h : p.1 = str n) (v : α) (ps : List (Value × α)) :
    put (str n) v (p :: ps) = (str n, v) :: ps := by
  simp [put, h]

theorem put_past {p : Value × α} {n : String} (h : p.1 ≠ str n) (v : α) (ps : List (Value × α)) :
    put (str n) v (p :: ps) = p :: put (str n) v ps := by
  have he : ¬ equal p.1 (str n) = true := fun hh => h (equal_str_right.mp hh)
  simp [put, he]

theorem get?_eq_none_iff {ps : List (Value × α)} {n : String} :
    get? (str n) ps = none ↔ ∀ p ∈ ps, p.1 ≠ str n := by
  induction ps with
  | nil => simp [get?]
  | cons p ps ih =>
    by_cases hp : p.1 = str n
    · simp [get?_here hp, hp]
    · rw [get?_past hp, ih]
      simp [hp]

theorem mem_of_get? {ps : List (Value × α)} {n : String} {v : α} (h : get? (str n) ps = some v) :
    (str n, v) ∈ ps := by
  induction ps with
  | nil => simp [get?] at h
  | cons p ps ih =>
    by_cases hp : p.1 = str n
    · have hv : p.2 = v := by simpa [get?_here hp] using h
      have he : p = (str n, v) := Prod.ext hp hv
      simp [he]
    · rw [get?_past hp] at h
      exact List.mem_cons_of_mem _ (ih h)

theorem Keyed.get?_of_mem {ps : Entries} (h : Keyed ps) {n : String} {v : Value}
    (hm : (str n, v) ∈ ps) : get? (str n) ps = some v := by
  induction ps with
  | nil => simp at hm
  | cons p ps ih =>
    rcases List.mem_cons.mp hm with rfl | hm
    · exact get?_here rfl ps
    · have hp : p.1 ≠ str n := (List.pairwise_cons.mp h.distinct).1 _ hm
      rw [get?_past hp]
      exact ih h.tail hm

theorem get?_put_past {k : Value} {n : String} (hk : k ≠ str n) (v : α) (ps : List (Value × α)) :
    get? (str n) (put k v ps) = get? (str n) ps := by
  induction ps with
  | nil => exact get?_past hk []
  | cons p ps ih =>
    rw [put]
    split
    · next he =>
      have hp : p.1 ≠ str n := by
        intro hp
        rw [hp] at he
        exact hk (equal_str_left.mp he)
      rw [get?_past hp, get?_past (p := (p.1, v)) hp]
    · by_cases hp : p.1 = str n
      · rw [get?_here hp, get?_here hp]
      · rw [get?_past hp, get?_past hp, ih]

theorem get?_put_other {n m : String} (hm : m ≠ n) (v : α) (ps : List (Value × α)) :
    get? (str m) (put (str n) v ps) = get? (str m) ps :=
  get?_put_past (fun h => hm (Value.str.inj h).symm) v ps

theorem get?_merge_past {qs : Entries} {n : String} (hq : ∀ q ∈ qs, q.1 ≠ str n)
    (ps : Entries) : get? (str n) (merge ps qs) = get? (str n) ps := by
  unfold merge
  induction qs generalizing ps with
  | nil => rfl
  | cons q qs ih =>
    rw [List.foldl_cons, ih fun p hp => hq p (List.mem_cons_of_mem q hp),
      get?_put_past (hq q (by simp))]

theorem Keyed.entry_of_mem {ps : Entries} (h : Keyed ps) {p : Value × Value} (hp : p ∈ ps) :
    ∃ n v, p = (str n, v) ∧ get? (str n) ps = some v := by
  obtain ⟨k, v⟩ := p
  obtain ⟨n, rfl⟩ : ∃ n, k = str n := h.text _ hp
  exact ⟨n, v, rfl, h.get?_of_mem hp⟩

/-- Putting a value under a key replaces what was there and leaves the rest. -/
theorem Keyed.mem_put {ps : Entries} (h : Keyed ps) (n : String) (v : Value)
    {p : Value × Value} : p ∈ put (str n) v ps ↔ p = (str n, v) ∨ p ∈ ps ∧ p.1 ≠ str n := by
  induction ps with
  | nil => simp [put]
  | cons q ps ih =>
    have hd := List.pairwise_cons.mp h.distinct
    by_cases hq : q.1 = str n
    · have hne : ∀ r ∈ ps, r.1 ≠ str n := fun r hr he => hd.1 r hr (hq.trans he.symm)
      rw [put_here hq, List.mem_cons, List.mem_cons]
      constructor
      · rintro (rfl | hp)
        · exact .inl rfl
        · exact .inr ⟨.inr hp, hne p hp⟩
      · rintro (rfl | ⟨rfl | hp, hn⟩)
        · exact .inl rfl
        · exact absurd hq hn
        · exact .inr hp
    · rw [put_past hq, List.mem_cons, List.mem_cons, ih h.tail]
      constructor
      · rintro (rfl | rfl | ⟨hp, hn⟩)
        · exact .inr ⟨.inl rfl, hq⟩
        · exact .inl rfl
        · exact .inr ⟨.inr hp, hn⟩
      · rintro (rfl | ⟨rfl | hp, hn⟩)
        · exact .inr (.inl rfl)
        · exact .inl rfl
        · exact .inr (.inr ⟨hp, hn⟩)

theorem Keyed.forall_put {ps : Entries} (h : Keyed ps) {n : String} {v : Value}
    {P : Value × Value → Prop} :
    (∀ p ∈ put (str n) v ps, P p) ↔ P (str n, v) ∧ ∀ p ∈ ps, p.1 ≠ str n → P p := by
  constructor
  · intro hh
    exact ⟨hh _ ((h.mem_put n v).mpr (.inl rfl)),
      fun p hp hn => hh p ((h.mem_put n v).mpr (.inr ⟨hp, hn⟩))⟩
  · rintro ⟨hv, hh⟩ p hp
    rcases (h.mem_put n v).mp hp with rfl | ⟨hp, hn⟩
    · exact hv
    · exact hh p hp hn

theorem Keyed.forall_of_get? {ps : Entries} (h : Keyed ps) {n : String} {v : Value}
    {P : Value × Value → Prop} (hv : get? (str n) ps = some v) :
    (∀ p ∈ ps, P p) ↔ P (str n, v) ∧ ∀ p ∈ ps, p.1 ≠ str n → P p := by
  constructor
  · intro hh
    exact ⟨hh _ (mem_of_get? hv), fun p hp _ => hh p hp⟩
  · rintro ⟨hn, hh⟩ p hp
    by_cases hk : p.1 = str n
    · have hm : (str n, p.2) ∈ ps := by rw [← hk]; exact hp
      have he : p.2 = v := Option.some.inj ((h.get?_of_mem hm).symm.trans hv)
      have hpn : p = (str n, v) := Prod.ext hk he
      rw [hpn]
      exact hn
    · exact hh p hp hk

theorem Keyed.put {ps : Entries} (h : Keyed ps) (n : String) (v : Value) :
    Keyed (put (str n) v ps) := by
  refine ⟨fun p hp => ?_, ?_⟩
  · rcases (h.mem_put n v).mp hp with rfl | ⟨hp, _⟩
    · exact ⟨n, rfl⟩
    · exact h.text p hp
  · induction ps with
    | nil => simp [Entries.put]
    | cons q ps ih =>
      have hd := List.pairwise_cons.mp h.distinct
      by_cases hq : q.1 = str n
      · rw [put_here hq, List.pairwise_cons]
        exact ⟨fun r hr he => hd.1 r hr (hq.trans he), hd.2⟩
      · rw [put_past hq, List.pairwise_cons]
        refine ⟨fun r hr => ?_, ih h.tail⟩
        rcases (h.tail.mem_put n v).mp hr with rfl | ⟨hr, _⟩
        · exact hq
        · exact hd.1 r hr

theorem put_put (n : String) (v w : α) (ps : List (Value × α)) :
    put (str n) w (put (str n) v ps) = put (str n) w ps := by
  induction ps with
  | nil => simp [put]
  | cons p ps ih =>
    by_cases hp : p.1 = str n
    · rw [put_here hp, put_here hp]
      exact put_here rfl w ps
    · rw [put_past hp, put_past hp, put_past hp, ih]

theorem put_of_absent {k : Value} {ps : List (Value × α)} (v : α) (h : get? k ps = none) :
    put k v ps = ps ++ [(k, v)] := by
  induction ps with
  | nil => rfl
  | cons p ps ih =>
    simp only [get?] at h
    split at h
    · simp at h
    · next hp => simp [put, hp, ih h]

theorem contains_str {ps : Entries} {n : String} :
    contains (str n) ps = true ↔ ∃ v, (str n, v) ∈ ps := by
  constructor
  · intro h
    obtain ⟨v, hv⟩ := Option.isSome_iff_exists.mp h
    exact ⟨v, mem_of_get? hv⟩
  · rintro ⟨v, hv⟩
    rw [contains, ← Option.ne_none_iff_isSome]
    intro hn
    exact get?_eq_none_iff.mp hn _ hv rfl

theorem contains_str_eq_false {ps : Entries} {n : String} :
    contains (str n) ps = false ↔ get? (str n) ps = none := by
  simp [contains, Option.isSome_eq_false_iff]

theorem merge_of_disjoint {ps qs : Entries} (hq : Keyed qs)
    (hd : ∀ q ∈ qs, ∀ p ∈ ps, p.1 ≠ q.1) : merge ps qs = ps ++ qs := by
  induction qs generalizing ps with
  | nil => simp [merge]
  | cons q qs ih =>
    obtain ⟨n, hn⟩ := hq.text q (by simp)
    have habsent : get? q.1 ps = none := by
      rw [hn]
      exact get?_eq_none_iff.mpr fun p hp he => hd q (by simp) p hp (he.trans hn.symm)
    have hrest : ∀ r ∈ qs, ∀ p ∈ ps ++ [q], p.1 ≠ r.1 := by
      intro r hr p hp
      rcases List.mem_append.mp hp with hp | hp
      · exact hd r (by simp [hr]) p hp
      · rw [List.mem_singleton.mp hp]
        exact (List.pairwise_cons.mp hq.distinct).1 r hr
    have hh := ih hq.tail hrest
    simp only [merge, List.foldl_cons] at hh ⊢
    rw [put_of_absent q.2 habsent, hh]
    simp

theorem Keyed.merge {ps qs : Entries} (h : Keyed ps) (ht : ∀ q ∈ qs, ∃ n, q.1 = str n) :
    Keyed (merge ps qs) := by
  induction qs generalizing ps with
  | nil => exact h
  | cons q qs ih =>
    obtain ⟨⟨n, hn⟩, ht⟩ := List.forall_mem_cons.mp ht
    have hput : Keyed (Entries.put q.1 q.2 ps) := hn ▸ h.put n q.2
    exact ih hput ht

theorem Keyed.forall_merge {ps qs : Entries} {P : Value × Value → Prop} (h : Keyed ps)
    (hp : ∀ p ∈ ps, P p) (ht : ∀ q ∈ qs, ∃ n, q.1 = str n) (hq : ∀ q ∈ qs, P q) :
    ∀ p ∈ Entries.merge ps qs, P p := by
  induction qs generalizing ps with
  | nil => exact hp
  | cons q qs ih =>
    obtain ⟨⟨n, hn⟩, ht⟩ := List.forall_mem_cons.mp ht
    obtain ⟨hfirst, hq⟩ := List.forall_mem_cons.mp hq
    have hput : Keyed (Entries.put q.1 q.2 ps) := hn ▸ h.put n q.2
    refine ih hput (fun p hm => ?_) ht hq
    have hm : p ∈ Entries.put (str n) q.2 ps := hn ▸ hm
    rcases (h.mem_put n q.2).mp hm with rfl | ⟨hm, _⟩
    · rwa [← hn]
    · exact hp p hm

theorem Keyed.append {ps qs : Entries} (hp : Keyed ps) (hq : Keyed qs)
    (hd : ∀ q ∈ qs, ∀ p ∈ ps, p.1 ≠ q.1) : Keyed (ps ++ qs) := by
  refine ⟨fun p h => ?_, List.pairwise_append.mpr ⟨hp.distinct, hq.distinct, ?_⟩⟩
  · rcases List.mem_append.mp h with h | h
    · exact hp.text p h
    · exact hq.text p h
  · exact fun p h q h' => hd q h' p h

end Entries

end DocStore
