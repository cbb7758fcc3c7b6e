import DocStore.Document.Path
import DocStore.Proofs.Document.Entries
import DocStore.Proofs.Run

/-! What stands at the paths of a document once a value was set at one of them or removed from it.
Only the paths that lead through that place, or out of it, see a difference. -/

namespace DocStore

open Value

namespace Entries

variable {α : Type} {n : String} {v : α} {ps : List (Value × α)}

theorem get?_put_here (n : String) (v : α) (ps : List (Value × α)) :
    get? (str n) (put (str n) v ps) = some v := by
  induction ps with
  | nil => exact get?_here rfl []
  | cons p ps ih =>
    by_cases hp : p.1 = str n
    · rw [put_here hp]
      exact get?_here rfl ps
    · rw [put_past hp, get?_past hp, ih]

theorem put_same (h : get? (str n) ps = some v) : put (str n) v ps = ps := by
  induction ps with
  | nil => cases h
  | cons p ps ih =>
    by_cases hp : p.1 = str n
    · rw [get?_here hp] at h
      rw [put_here hp, ← hp, ← Option.some.inj h]
    · rw [get?_past hp] at h
      rw [put_past hp, ih h]

theorem get?_erase_other {m : String} (hm : m ≠ n) (ps : List (Value × α)) :
    get? (str m) (erase (str n) ps) = get? (str m) ps := by
  induction ps with
  | nil => rfl
  | cons p ps ih =>
    rw [erase]
    by_cases hp : p.1 = str n
    · have hpm : p.1 ≠ str m := fun h => hm (Value.str.inj (h.symm.trans hp))
      rw [if_pos (equal_str_right.mpr hp), get?_past hpm]
    · rw [if_neg fun he => hp (equal_str_right.mp he)]
      by_cases hpm : p.1 = str m
      · rw [get?_here hpm, get?_here hpm]
      · rw [get?_past hpm, get?_past hpm, ih]

theorem erase_sublist (k : Value) (ps : List (Value × α)) : (erase k ps).Sublist ps := by
  induction ps with
  | nil => exact .slnil
  | cons p ps ih =>
    rw [erase]
    split
    · exact List.sublist_cons_self p ps
    · exact ih.cons_cons p

theorem get?_erase_here (h : ps.Pairwise fun p q => p.1 = str n → q.1 ≠ str n) :
    get? (str n) (erase (str n) ps) = none := by
  induction ps with
  | nil => rfl
  | cons p ps ih =>
    obtain ⟨hfirst, hrest⟩ := List.pairwise_cons.mp h
    rw [erase]
    by_cases hp : p.1 = str n
    · rw [if_pos (equal_str_right.mpr hp), get?_eq_none_iff]
      exact fun q hq => hfirst q hq hp
    · rw [if_neg fun he => hp (equal_str_right.mp he), get?_past hp]
      exact ih hrest

end Entries

namespace Value

/-- Dictionaries without keys that are there twice, and so are those in them. -/
inductive Unrepeated : Value → Prop
  | dict {ps : Entries} (hk : ps.Pairwise fun p q => p.1 ≠ q.1) (hv : ∀ p ∈ ps, Unrepeated p.2) :
      Unrepeated (dict ps)
  | other {v : Value} (h : ∀ ps, v ≠ .dict ps) : Unrepeated v

theorem unrepeated_dict {ps : Entries} :
    Unrepeated (dict ps) ↔ (ps.Pairwise fun p q => p.1 ≠ q.1) ∧ ∀ p ∈ ps, Unrepeated p.2 := by
  constructor
  · intro h
    cases h with
    | dict hk hv => exact ⟨hk, hv⟩
    | other h => exact absurd rfl (h ps)
  · rintro ⟨hk, hv⟩
    exact .dict hk hv

theorem getPath_dict (s : String) (rest : List String) (ps : Entries) :
    getPath (s :: rest) (dict ps) = (Entries.get? (str s) ps).bind (getPath rest) := rfl

theorem getPath_cons_eq_some {s : String} {rest : List String} {d w : Value}
    (h : getPath (s :: rest) d = some w) :
    ∃ ps v, d = dict ps ∧ Entries.get? (str s) ps = some v ∧ getPath rest v = some w := by
  cases d with
  | dict ps =>
    obtain ⟨v, hv, hw⟩ := Option.bind_eq_some_iff.mp h
    exact ⟨ps, v, rfl, hv, hw⟩
  | _ => cases h

theorem getPath_append (p q : List String) (d : Value) :
    getPath (p ++ q) d = (getPath p d).bind (getPath q) := by
  induction p generalizing d with
  | nil => rfl
  | cons s p ih =>
    cases d with
    | dict ps =>
      rw [List.cons_append, getPath_dict, getPath_dict, Option.bind_assoc]
      exact congrArg _ (funext ih)
    | _ => rfl

/-- Where one document has what another one has, it has all that is under it. -/
theorem getPath_under {p q : List String} {d e : Value} (h : getPath p d = getPath p e)
    (hq : p <+: q) : getPath q d = getPath q e := by
  obtain ⟨rest, rfl⟩ := hq
  rw [getPath_append, getPath_append, h]

end Value

/-- A path leads from dictionary to dictionary, up to an entry that is missing. -/
inductive Lacks : List String → Value → Prop
  | missing {s : String} {rest : List String} {ps : Entries} (h : Entries.get? (str s) ps = none) :
      Lacks (s :: rest) (dict ps)
  | entry {s : String} {rest : List String} {ps : Entries} {v : Value}
      (hv : Entries.get? (str s) ps = some v) (h : Lacks rest v) : Lacks (s :: rest) (dict ps)

theorem Lacks.getPath {path : List String} {d : Value} (h : Lacks path d) :
    getPath path d = none := by
  induction h with
  | missing h => rw [getPath_dict, h, Option.bind_none]
  | entry hv _ ih => rw [getPath_dict, hv, Option.bind_some, ih]

/-- What one value has of another one: where it has no document of its own, the other has the
same. -/
def Part (w v : Value) : Prop :=
  ∀ q x, getPath q w = some x →
    getPath q v = some x ∨ ∃ qs ps, x = dict qs ∧ getPath q v = some (dict ps)

namespace Part

variable {s : String} {q : List String} {v w : Value} {qs ps : Entries}

theorem refl (v : Value) : Part v v := fun _ _ h => .inl h

theorem empty (ps : Entries) : Part (dict []) (dict ps) := by
  intro q x hx
  cases q with
  | nil =>
    cases hx
    exact .inr ⟨[], ps, rfl, rfl⟩
  | cons s q => cases hx

theorem entry (h : Part (dict qs) (dict ps)) (hw : Entries.get? (str s) qs = some w)
    (hv : Entries.get? (str s) ps = some v) : Part w v := by
  intro q x hx
  have hh := h (s :: q) x (by rw [getPath_dict, hw]; exact hx)
  rwa [getPath_dict, hv] at hh

theorem put (h : Part (dict qs) (dict ps)) (hv : Entries.get? (str s) ps = some v)
    (hw : Part w v) : Part (dict (Entries.put (str s) w qs)) (dict ps) := by
  intro q x hx
  cases q with
  | nil =>
    cases hx
    exact .inr ⟨_, ps, rfl, rfl⟩
  | cons u q =>
    by_cases hu : u = s
    · subst hu
      rw [getPath_dict, Entries.get?_put_here] at hx
      rw [getPath_dict, hv]
      exact hw q x hx
    · rw [getPath_dict, Entries.get?_put_other hu] at hx
      exact h (u :: q) x hx

theorem of_dict (h : Part w (dict ps)) : ∃ qs, w = dict qs := by
  rcases h [] w rfl with hh | ⟨qs, _, rfl, _⟩
  · exact ⟨ps, (Option.some.inj hh).symm⟩
  · exact ⟨qs, rfl⟩

theorem absent (h : Part w v) (hv : getPath q v = none) : getPath q w = none := by
  rw [Option.eq_none_iff_forall_ne_some]
  intro x hx
  rcases h q x hx with hh | ⟨_, _, _, hh⟩
  · rw [hv] at hh
    cases hh
  · rw [hv] at hh
    cases hh

end Part

/-- Paths neither of which leads through the place of the other. -/
structure Aloof (p q : List String) : Prop where
  past : ¬ p <+: q
  short : ¬ q <+: p

namespace Aloof

variable {p q : List String} {s : String}

theorem cons_iff : Aloof (s :: p) (s :: q) ↔ Aloof p q :=
  ⟨fun h => ⟨fun hp => h.past (List.cons_prefix_cons.mpr ⟨rfl, hp⟩),
      fun hp => h.short (List.cons_prefix_cons.mpr ⟨rfl, hp⟩)⟩,
    fun h => ⟨fun hp => h.past (List.cons_prefix_cons.mp hp).2,
      fun hp => h.short (List.cons_prefix_cons.mp hp).2⟩⟩

theorem symm (h : Aloof p q) : Aloof q p := ⟨h.short, h.past⟩

theorem ne_nil (h : Aloof p q) : q ≠ [] := by
  rintro rfl
  exact h.short List.nil_prefix

end Aloof

namespace Entries

section Set

variable {v : Value} {s t : String} {path rest q : List String} {ps ps' : Entries}

/-- Setting below a segment goes on in the embedded document there, or in a new one. -/
theorem setPath_below (h : setPath v (s :: t :: rest) ps = .ok ps') :
    ∃ child child', setPath v (t :: rest) child = .ok child' ∧ ps' = put (str s) (dict child') ps ∧
      (get? (str s) ps = some (dict child) ∨
        child = [] ∧ (get? (str s) ps = none ∨ get? (str s) ps = some null)) := by
  rw [setPath] at h
  split at h
  · next child hc =>
    obtain ⟨child', hset, rfl⟩ := except_map_eq_ok.mp h
    exact ⟨child, child', hset, rfl, .inl hc⟩
  · next hc =>
    obtain ⟨child', hset, rfl⟩ := except_map_eq_ok.mp h
    exact ⟨[], child', hset, rfl, .inr ⟨rfl, .inl hc⟩⟩
  · next hc =>
    obtain ⟨child', hset, rfl⟩ := except_map_eq_ok.mp h
    exact ⟨[], child', hset, rfl, .inr ⟨rfl, .inr hc⟩⟩
  · cases h
  · simp

theorem getPath_setPath (hp : path ≠ []) (h : setPath v path ps = .ok ps') :
    getPath path (dict ps') = some v := by
  induction path generalizing ps ps' with
  | nil => exact absurd rfl hp
  | cons s rest ih =>
    cases rest with
    | nil =>
      cases h
      rw [getPath_dict, get?_put_here]
      rfl
    | cons t rest =>
      obtain ⟨child, child', hset, rfl, _⟩ := setPath_below h
      rw [getPath_dict, get?_put_here]
      exact ih (by simp) hset

/-- A value that is set is not seen from paths aloof of its own. -/
theorem getPath_setPath_aloof (h : setPath v path ps = .ok ps') (hq : Aloof path q) :
    getPath q (dict ps') = getPath q (dict ps) := by
  induction path generalizing ps ps' q with
  | nil => exact absurd List.nil_prefix hq.past
  | cons s rest ih =>
    cases q with
    | nil => exact absurd rfl hq.ne_nil
    | cons u q =>
      by_cases hu : u = s
      · subst hu
        cases rest with
        | nil => exact absurd (List.cons_prefix_cons.mpr ⟨rfl, List.nil_prefix⟩) hq.past
        | cons t rest =>
          obtain ⟨child, child', hset, rfl, hchild⟩ := setPath_below h
          have hrest := Aloof.cons_iff.mp hq
          have hsame := ih hset hrest
          rw [getPath_dict, getPath_dict, get?_put_here, Option.bind_some, hsame]
          -- what was there before has nothing at the path if it was no document
          obtain ⟨w, q, rfl⟩ := List.exists_cons_of_ne_nil hrest.ne_nil
          rcases hchild with hc | ⟨rfl, hc | hc⟩
          · rw [hc]
            rfl
          · rw [hc]
            rfl
          · rw [hc]
            rfl
      · cases rest with
        | nil =>
          cases h
          rw [getPath_dict, getPath_dict, get?_put_other hu]
        | cons t rest =>
          obtain ⟨child, child', hset, rfl, hchild⟩ := setPath_below h
          rw [getPath_dict, getPath_dict, get?_put_other hu]

theorem setPath_same (hp : path ≠ []) (h : getPath path (dict ps) = some v) :
    setPath v path ps = .ok ps := by
  induction path generalizing ps with
  | nil => exact absurd rfl hp
  | cons s rest ih =>
    obtain ⟨_, w, hd, hw, hrest⟩ := getPath_cons_eq_some h
    cases hd
    cases rest with
    | nil =>
      cases hrest
      rw [setPath, put_same hw]
    | cons t rest =>
      obtain ⟨child, _, rfl, _, _⟩ := getPath_cons_eq_some hrest
      rw [setPath, hw]
      · change (setPath v (t :: rest) child).map _ = _
        rw [ih (by simp) hrest]
        exact congrArg Except.ok (put_same hw)
      · simp

/-- Setting what a document has at a path, in a part of that document. -/
theorem setPath_part {qs : Entries} (hp : path ≠ []) (hpart : Part (dict qs) (dict ps))
    (hv : getPath path (dict ps) = some v) :
    ∃ qs', setPath v path qs = .ok qs' ∧ Part (dict qs') (dict ps) := by
  induction path generalizing qs ps with
  | nil => exact absurd rfl hp
  | cons s rest ih =>
    obtain ⟨_, w, hd, hw, hrest⟩ := getPath_cons_eq_some hv
    cases hd
    cases rest with
    | nil =>
      cases hrest
      exact ⟨put (str s) v qs, rfl, hpart.put hw (Part.refl v)⟩
    | cons t rest =>
      obtain ⟨cs, _, rfl, _, _⟩ := getPath_cons_eq_some hrest
      cases hq : get? (str s) qs with
      | none =>
        obtain ⟨child, hset, hchild⟩ := ih (by simp) (Part.empty cs) hrest
        refine ⟨put (str s) (dict child) qs, ?_, hpart.put hw hchild⟩
        simp only [setPath, hq, hset, Except.map]
      | some x =>
        obtain ⟨xs, rfl⟩ := (hpart.entry hq hw).of_dict
        obtain ⟨child, hset, hchild⟩ := ih (by simp) (hpart.entry hq hw) hrest
        refine ⟨put (str s) (dict child) qs, ?_, hpart.put hw hchild⟩
        simp only [setPath, hq, hset, Except.map]

/-- Setting what a document has at a path parts nothing from that document that was as in it. -/
theorem setPath_agree {qs qs' : Entries} (hp : path ≠ []) (hv : getPath path (dict ps) = some v)
    (h : setPath v path qs = .ok qs') (hq : getPath q (dict qs) = getPath q (dict ps)) :
    getPath q (dict qs') = getPath q (dict ps) := by
  by_cases hbelow : path <+: q
  · exact getPath_under ((getPath_setPath hp h).trans hv.symm) hbelow
  · by_cases habove : q <+: path
    · -- all that stands under `q` is there already
      have hsame := setPath_same hp ((getPath_under hq habove).trans hv)
      rw [hsame] at h
      cases h
      exact hq
    · rw [getPath_setPath_aloof h ⟨hbelow, habove⟩, hq]

end Set

section Pop

variable {v : Value} {s t : String} {path rest q : List String} {ps ps' : Entries}

theorem popPath_below (h : popPath (s :: t :: rest) ps = some (v, ps')) :
    ∃ child child', get? (str s) ps = some (dict child) ∧
      popPath (t :: rest) child = some (v, child') ∧ ps' = put (str s) (dict child') ps := by
  rw [popPath] at h
  · split at h
    · next child hc =>
      obtain ⟨⟨_, child'⟩, hpop, he⟩ := Option.map_eq_some_iff.mp h
      cases he
      exact ⟨child, child', hc, hpop, rfl⟩
    · cases h
  · simp

/-- What is taken away is what stood there. -/
theorem value_popPath (hp : path ≠ []) :
    (popPath path ps).map Prod.fst = getPath path (dict ps) := by
  induction path generalizing ps with
  | nil => exact absurd rfl hp
  | cons s rest ih =>
    rw [getPath_dict]
    cases rest with
    | nil => cases hs : get? (str s) ps <;> simp [popPath, hs, getPath]
    | cons t rest =>
      rw [popPath]
      · split
        · next child hc =>
          rw [hc, Option.map_map, Option.bind_some, ← ih (by simp)]
          rfl
        · next hc =>
          -- what is no document has nothing below it
          refine (Option.bind_eq_none_iff.mpr fun w hw => ?_).symm
          cases w with
          | dict child => exact absurd hw (hc child)
          | _ => rfl
      · simp

theorem popPath_eq_none_iff (hp : path ≠ []) :
    popPath path ps = none ↔ getPath path (dict ps) = none := by
  rw [← value_popPath hp, Option.map_eq_none_iff]

theorem lacks_popPath (hu : Unrepeated (dict ps)) (h : popPath path ps = some (v, ps')) :
    Lacks path (dict ps') := by
  induction path generalizing ps ps' with
  | nil => cases h
  | cons s rest ih =>
    obtain ⟨hk, hin⟩ := unrepeated_dict.mp hu
    cases rest with
    | nil =>
      obtain ⟨w, _, he⟩ := Option.map_eq_some_iff.mp h
      cases he
      exact .missing (get?_erase_here (hk.imp fun hne hp hq => hne (hp.trans hq.symm)))
    | cons t rest =>
      obtain ⟨child, child', hc, hpop, rfl⟩ := popPath_below h
      exact .entry (get?_put_here s (dict child') ps) (ih (hin _ (mem_of_get? hc)) hpop)

theorem lacks_put {w : Value} (h : Lacks (t :: q) (dict ps)) (hne : t ≠ s) :
    Lacks (t :: q) (dict (put (str s) w ps)) := by
  cases h with
  | missing h => exact .missing ((get?_put_other hne w ps).trans h)
  | entry hv h => exact .entry ((get?_put_other hne w ps).trans hv) h

/-- What is missing from a document still is when a value is set elsewhere. -/
theorem lacks_setPath (h : setPath v path ps = .ok ps') (hq : Aloof path q)
    (hlacks : Lacks q (dict ps)) : Lacks q (dict ps') := by
  induction path generalizing ps ps' q with
  | nil => exact absurd List.nil_prefix hq.past
  | cons s rest ih =>
    obtain ⟨u, q, rfl⟩ := List.exists_cons_of_ne_nil hq.ne_nil
    cases rest with
    | nil =>
      cases h
      refine lacks_put hlacks ?_
      rintro rfl
      exact hq.past (List.cons_prefix_cons.mpr ⟨rfl, List.nil_prefix⟩)
    | cons t rest =>
      obtain ⟨child, child', hset, rfl, hchild⟩ := setPath_below h
      by_cases hu : u = s
      · subst hu
        have hrest := Aloof.cons_iff.mp hq
        refine .entry (get?_put_here u (dict child') ps) (ih hset hrest ?_)
        rcases hchild with hc | ⟨rfl, _⟩
        · cases hlacks with
          | missing h => simp [hc] at h
          | entry hv h =>
            rw [hc] at hv
            cases hv
            exact h
        · obtain ⟨w, q, rfl⟩ := List.exists_cons_of_ne_nil hrest.ne_nil
          exact .missing rfl
      · exact lacks_put hlacks hu

end Pop

end Entries

end DocStore
