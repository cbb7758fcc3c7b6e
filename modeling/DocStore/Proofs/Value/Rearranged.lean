import DocStore.Value.Text
import Mathlib.Data.List.Forall2
import Mathlib.Algebra.BigOperators.Group.List.Basic
import Mathlib.Algebra.GroupWithZero.Nat

/-! Values whose dictionaries hold the same entries in another order. Their texts differ, but are of
one length, so that texts made of several of them are the same only if all of these are. -/

namespace DocStore

section Lists

variable {as bs : List String} {a b s t : String}

theorem append_inj_of_length (h : a ++ s = b ++ t) (hlen : a.length = b.length) :
    a = b ∧ s = t := by
  have hlist := congrArg String.toList h
  rw [String.toList_append, String.toList_append] at hlist
  obtain ⟨hab, hst⟩ := List.append_inj hlist hlen
  exact ⟨String.toList_inj.mp hab, String.toList_inj.mp hst⟩

theorem commaList_cons (a b : String) (bs : List String) :
    commaList (a :: b :: bs) = a ++ ", " ++ commaList (b :: bs) :=
  String.intercalate_cons_cons

theorem length_commaList (as : List String) :
    (commaList as).length = (as.map String.length).sum + 2 * (as.length - 1) := by
  induction as with
  | nil => rfl
  | cons a as ih =>
    cases as with
    | nil => simp [commaList]
    | cons b bs =>
      rw [commaList_cons, String.length_append, String.length_append, ih]
      simp only [List.map_cons, List.sum_cons, List.length_cons]
      have hcomma : (", " : String).length = 2 := rfl
      omega

/-- Lists of texts whose lengths are the same, in whatever order. -/
def Spread (as bs : List String) : Prop := (as.map String.length).Perm (bs.map String.length)

theorem Spread.of_forall₂ (h : List.Forall₂ (fun a b => a.length = b.length) as bs) :
    Spread as bs := by
  induction h with
  | nil => exact .refl _
  | cons hab _ ih =>
    rw [Spread, List.map_cons, List.map_cons, hab]
    exact ih.cons _

theorem Spread.commaList (h : Spread as bs) :
    (commaList as).length = (DocStore.commaList bs).length := by
  have hlen : as.length = bs.length := by simpa using h.length_eq
  rw [length_commaList, length_commaList, h.sum_eq, hlen]

theorem length_inParens (as : List String) :
    (inParens as).length = (commaList as).length + if as.length = 1 then 3 else 2 := by
  have hopen : ("(" : String).length = 1 := rfl
  have hclose : (")" : String).length = 1 := rfl
  have hcomma : (",)" : String).length = 2 := rfl
  match as with
  | [] => rfl
  | [a] =>
    simp only [inParens, commaList, String.length_append, String.intercalate_singleton,
      List.length_singleton, if_pos]
    omega
  | a :: b :: as =>
    have hmany : (a :: b :: as).length ≠ 1 := by simp
    rw [if_neg hmany]
    simp only [inParens, String.length_append]
    omega

theorem commaList_inj (h : List.Forall₂ (fun a b => a.length = b.length) as bs)
    (he : commaList as = commaList bs) : as = bs := by
  induction h with
  | nil => rfl
  | @cons a b as bs hab hrest ih =>
    cases hrest with
    | nil => simpa [commaList] using he
    | cons hab' hrest =>
      rw [commaList_cons, commaList_cons, String.append_assoc, String.append_assoc] at he
      obtain ⟨hhead, htail⟩ := append_inj_of_length he hab
      rw [hhead, ih (append_inj_of_length htail rfl).2]

theorem eq_of_zip {α : Type} {as bs : List α} (hlen : as.length = bs.length)
    (h : ∀ r ∈ as.zip bs, r.1 = r.2) : as = bs := by
  have hall : List.Forall₂ Eq as bs := List.forall₂_iff_zip.mpr ⟨hlen, fun hr => h _ hr⟩
  rwa [List.forall₂_eq_eq_eq] at hall

end Lists

namespace Value

/-- Two values are the same up to the order of the entries of their dictionaries, and of the
dictionaries at any depth in them. -/
inductive Rearranged : Value → Value → Prop
  | same (v : Value) : Rearranged v v
  | list {xs ys : List Value} (hlen : xs.length = ys.length)
      (h : ∀ r ∈ xs.zip ys, Rearranged r.1 r.2) : Rearranged (list xs) (list ys)
  | tuple {xs ys : List Value} (hlen : xs.length = ys.length)
      (h : ∀ r ∈ xs.zip ys, Rearranged r.1 r.2) : Rearranged (tuple xs) (tuple ys)
  | dict {ps mid qs : Entries} (hp : ps.Perm mid) (hlen : mid.length = qs.length)
      (hkeys : ∀ r ∈ mid.zip qs, r.1.1 = r.2.1) (h : ∀ r ∈ mid.zip qs, Rearranged r.1.2 r.2.2) :
      Rearranged (dict ps) (dict qs)
  | record {c : String} {fs gs : Entries} (hlen : fs.length = gs.length)
      (hnames : ∀ r ∈ fs.zip gs, r.1.1 = r.2.1) (h : ∀ r ∈ fs.zip gs, Rearranged r.1.2 r.2.2) :
      Rearranged (record c fs) (record c gs)

/-- Two entries under one key, with values that are related. -/
def UnderOneKey (R : Value → Value → Prop) (p q : Value × Value) : Prop := p.1 = q.1 ∧ R p.2 q.2

variable {v w : Value} {xs ys : List Value} {ps qs : Entries}

theorem rearranged_list :
    Rearranged (list xs) w ↔ ∃ ys, w = list ys ∧ List.Forall₂ Rearranged xs ys := by
  constructor
  · intro h
    cases h with
    | same => exact ⟨xs, rfl, List.forall₂_same.mpr fun x _ => .same x⟩
    | list hlen h => exact ⟨_, rfl, List.forall₂_iff_zip.mpr ⟨hlen, fun hr => h _ hr⟩⟩
  · rintro ⟨ys, rfl, h⟩
    obtain ⟨hlen, h⟩ := List.forall₂_iff_zip.mp h
    exact .list hlen fun r hr => h hr

theorem rearranged_dict : Rearranged (dict ps) w ↔
    ∃ mid qs, w = dict qs ∧ ps.Perm mid ∧ List.Forall₂ (UnderOneKey Rearranged) mid qs := by
  constructor
  · intro h
    cases h with
    | same => exact ⟨ps, ps, rfl, .refl ps, List.forall₂_same.mpr fun p _ => ⟨rfl, .same p.2⟩⟩
    | dict hp hlen hkeys h =>
      exact ⟨_, _, rfl, hp, List.forall₂_iff_zip.mpr ⟨hlen, fun hr => ⟨hkeys _ hr, h _ hr⟩⟩⟩
  · rintro ⟨mid, qs, rfl, hp, h⟩
    obtain ⟨hlen, h⟩ := List.forall₂_iff_zip.mp h
    exact .dict hp hlen (fun r hr => (h hr).1) fun r hr => (h hr).2

theorem texts_eq (xs : List Value) : texts xs = xs.map text := by
  induction xs with
  | nil => rfl
  | cons x xs ih => rw [texts, List.map_cons, ih]

theorem entryTexts_eq (ps : Entries) : entryTexts ps = ps.map entryText := by
  induction ps with
  | nil => rfl
  | cons p ps ih => rw [entryTexts, List.map_cons, ih]

theorem fieldTexts_eq (fs : Entries) : fieldTexts fs = fs.map fieldText := by
  induction fs with
  | nil => rfl
  | cons f fs ih => rw [fieldTexts, List.map_cons, ih]

theorem length_entryText (p : Value × Value) :
    (entryText p).length = p.1.text.length + 2 + p.2.text.length := by
  cases p with
  | mk k v =>
    change (k.text ++ ": " ++ v.text).length = _
    rw [String.length_append, String.length_append]
    rfl

theorem length_fieldText (f : Value × Value) :
    (fieldText f).length = f.1.bare.length + 1 + f.2.text.length := by
  cases f with
  | mk k v =>
    change (k.bare ++ "=" ++ v.text).length = _
    rw [String.length_append, String.length_append]
    rfl

theorem spread_texts (hlen : xs.length = ys.length)
    (h : ∀ r ∈ xs.zip ys, r.1.text.length = r.2.text.length) : Spread (texts xs) (texts ys) := by
  rw [texts_eq, texts_eq]
  refine .of_forall₂ (List.forall₂_map_left_iff.mpr (List.forall₂_map_right_iff.mpr ?_))
  exact List.forall₂_iff_zip.mpr ⟨hlen, fun hr => h _ hr⟩

theorem spread_entries {f : Value × Value → String} {ps qs : Entries}
    (hlen : ps.length = qs.length)
    (h : ∀ r ∈ ps.zip qs, (f r.1).length = (f r.2).length) : Spread (ps.map f) (qs.map f) := by
  refine .of_forall₂ (List.forall₂_map_left_iff.mpr (List.forall₂_map_right_iff.mpr ?_))
  exact List.forall₂_iff_zip.mpr ⟨hlen, fun hr => h _ hr⟩

/-- The records whose texts do not follow the common form. -/
inductive Terse (c : String) : Entries → Prop
  | comparison (hc : c = "FieldFilter") (k l m f op v : Value) : Terse c [(k, f), (l, op), (m, v)]
  | group (hc : c = "SubFilter") (k l op : Value) (xs : List Value) :
      Terse c [(k, op), (l, tuple xs)]

theorem text_record {c : String} {fs : Entries} (h : ¬ Terse c fs) :
    text (record c fs) = c ++ "(" ++ commaList (fieldTexts fs) ++ ")" := by
  rw [text.eq_def]
  split
  any_goals contradiction
  · next heq =>
    cases heq
    exact absurd (.comparison rfl ..) h
  · next heq =>
    cases heq
    exact absurd (.group rfl ..) h
  · next heq =>
    cases heq
    rfl

namespace Rearranged

theorem bare (h : Rearranged v w) : v.bare = w.bare := by
  cases h <;> rfl

theorem fieldName (h : Rearranged v w) : v.fieldName = w.fieldName := by
  cases h with
  | @record c fs gs hlen hnames h =>
    have hname : ∀ (f : Value × Value) (fs : Entries),
        Value.fieldName (Value.record c (f :: fs)) = f.2.bare := by
      rintro ⟨k, x⟩ fs
      cases x <;> rfl
    match fs, gs with
    | [], [] => rfl
    | f :: fs, g :: gs =>
      rw [hname, hname]
      exact (h (f, g) (by simp)).bare
  | _ => rfl

theorem length_unquoted (h : Rearranged v w) (htext : v.text.length = w.text.length) :
    (unquoted v v.text).length = (unquoted w w.text).length := by
  cases h with
  | same => rfl
  | _ => exact htext

theorem tuple_iff (h : Rearranged v w) : (∃ xs, v = .tuple xs) ↔ ∃ ys, w = .tuple ys := by
  cases h <;> simp

theorem length_tuple (h : Rearranged (.tuple xs) (.tuple ys)) : xs.length = ys.length := by
  cases h with
  | same => rfl
  | tuple hlen _ => exact hlen

theorem terse_iff {c : String} {fs gs : Entries}
    (h : List.Forall₂ (UnderOneKey Rearranged) fs gs) : Terse c fs ↔ Terse c gs := by
  constructor
  · rintro (⟨hc, k, l, m, f, op, v⟩ | ⟨hc, k, l, op, xs⟩)
    · obtain ⟨⟨k', f'⟩, _, -, ⟨⟨l', op'⟩, _, -, ⟨⟨m', v'⟩, _, -, ⟨⟩, rfl⟩, rfl⟩, rfl⟩ := by
        simpa only [List.forall₂_cons_left_iff] using h
      exact .comparison hc ..
    · obtain ⟨⟨k', op'⟩, _, -, ⟨⟨l', x⟩, _, ⟨-, hx⟩, ⟨⟩, rfl⟩, rfl⟩ := by
        simpa only [List.forall₂_cons_left_iff] using h
      obtain ⟨ys, rfl⟩ := hx.tuple_iff.mp ⟨xs, rfl⟩
      exact .group hc ..
  · rintro (⟨hc, k, l, m, f, op, v⟩ | ⟨hc, k, l, op, ys⟩)
    · obtain ⟨⟨k', f'⟩, _, -, ⟨⟨l', op'⟩, _, -, ⟨⟨m', v'⟩, _, -, ⟨⟩, rfl⟩, rfl⟩, rfl⟩ := by
        simpa only [List.forall₂_cons_right_iff] using h
      exact .comparison hc ..
    · obtain ⟨⟨k', op'⟩, _, -, ⟨⟨l', x⟩, _, ⟨-, hx⟩, ⟨⟩, rfl⟩, rfl⟩ := by
        simpa only [List.forall₂_cons_right_iff] using h
      obtain ⟨xs, rfl⟩ := hx.tuple_iff.mpr ⟨ys, rfl⟩
      exact .group hc ..

theorem length_terse {c : String} {fs gs : Entries} (hf : Terse c fs) (hg : Terse c gs)
    (h : ∀ r ∈ fs.zip gs, Rearranged r.1.2 r.2.2)
    (htext : ∀ r ∈ fs.zip gs, r.1.2.text.length = r.2.2.text.length) :
    (text (Value.record c fs)).length = (text (Value.record c gs)).length := by
  cases hf with
  | comparison hc k l m f op v =>
    cases hg with
    | group hc' => exact absurd (hc.symm.trans hc') (by decide)
    | comparison _ k' l' m' f' op' v' =>
      subst hc
      have hname := (h ((k, f), (k', f')) (by simp)).fieldName
      have hop := (h ((l, op), (l', op')) (by simp)).length_unquoted
        (htext ((l, op), (l', op')) (by simp))
      have hv := htext ((m, v), (m', v')) (by simp)
      change ("FieldFilter(" ++ f.fieldName ++ " " ++ unquoted op op.text ++ " " ++ v.text ++
        ")").length = ("FieldFilter(" ++ f'.fieldName ++ " " ++ unquoted op' op'.text ++ " " ++
        v'.text ++ ")").length
      simp [hname, hop, hv]
  | group hc k l op xs =>
    cases hg with
    | comparison hc' => exact absurd (hc.symm.trans hc') (by decide)
    | group _ k' l' op' ys =>
      subst hc
      have hop := (h ((k, op), (k', op')) (by simp)).length_unquoted
        (htext ((k, op), (k', op')) (by simp))
      have hlen := (h ((l, .tuple xs), (l', .tuple ys)) (by simp)).length_tuple
      have hxs := htext ((l, .tuple xs), (l', .tuple ys)) (by simp)
      change (inParens (texts xs)).length = (inParens (texts ys)).length at hxs
      rw [length_inParens, length_inParens, texts_eq, texts_eq, List.length_map, List.length_map,
        hlen, ← texts_eq, ← texts_eq] at hxs
      change ("SubFilter(" ++ unquoted op op.text ++ " " ++ inBrackets (texts xs) ++ ")").length =
        ("SubFilter(" ++ unquoted op' op'.text ++ " " ++ inBrackets (texts ys) ++ ")").length
      simp [inBrackets, hop, Nat.add_right_cancel hxs]

theorem length_text (h : Rearranged v w) : v.text.length = w.text.length := by
  induction h with
  | same v => rfl
  | @list xs ys hlen _ ih =>
    change (inBrackets (texts xs)).length = (inBrackets (texts ys)).length
    simp [inBrackets, (spread_texts hlen ih).commaList]
  | @tuple xs ys hlen _ ih =>
    change (inParens (texts xs)).length = (inParens (texts ys)).length
    rw [length_inParens, length_inParens, (spread_texts hlen ih).commaList, texts_eq, texts_eq,
      List.length_map, List.length_map, hlen]
  | @dict ps mid qs hp hlen hkeys _ ih =>
    have hperm : Spread (entryTexts ps) (entryTexts mid) := by
      rw [entryTexts_eq, entryTexts_eq]
      exact (hp.map _).map _
    have hspread : Spread (entryTexts mid) (entryTexts qs) := by
      rw [entryTexts_eq, entryTexts_eq]
      refine spread_entries hlen fun r hr => ?_
      rw [length_entryText, length_entryText, hkeys r hr, ih r hr]
    change (inBraces (entryTexts ps)).length = (inBraces (entryTexts qs)).length
    simp [inBraces, Spread.commaList (hperm.trans hspread)]
  | @record c fs gs hlen hnames h ih =>
    have hall : List.Forall₂ (UnderOneKey Rearranged) fs gs :=
      List.forall₂_iff_zip.mpr ⟨hlen, fun hr => ⟨hnames _ hr, h _ hr⟩⟩
    by_cases hf : Terse c fs
    · exact length_terse hf ((terse_iff hall).mp hf) h ih
    · have hspread : Spread (fieldTexts fs) (fieldTexts gs) := by
        rw [fieldTexts_eq, fieldTexts_eq]
        refine spread_entries hlen fun r hr => ?_
        rw [length_fieldText, length_fieldText, hnames r hr, ih r hr]
      rw [text_record hf, text_record fun hg => hf ((terse_iff hall).mpr hg)]
      simp [hspread.commaList]

end Rearranged

/-- The text of an entry, as a pair. -/
def pairText (p : Value × Value) : String := inParens [p.1.text, p.2.text]

theorem text_pairs (ps : Entries) :
    text (list (ps.map fun p => tuple [p.1, p.2])) = inBrackets (ps.map pairText) := by
  change inBrackets (texts _) = _
  rw [texts_eq, List.map_map]
  rfl

section Pairs

variable {p q : Value × Value} (h : UnderOneKey Rearranged p q)
include h

theorem length_pairText : (pairText p).length = (pairText q).length := by
  simp only [pairText, length_inParens, length_commaList, h.1, h.2.length_text, List.map_cons,
    List.length_cons]

theorem pairText_iff : pairText p = pairText q ↔ p.2.text = q.2.text := by
  have hpair (k v : Value) : pairText (k, v) = "(" ++ k.text ++ ", " ++ v.text ++ ")" := by
    simp [pairText, inParens, commaList, String.append_assoc]
  obtain ⟨k, v⟩ := p
  obtain ⟨l, w⟩ := q
  obtain ⟨rfl, hvw⟩ : k = l ∧ Rearranged v w := h
  rw [hpair, hpair]
  simp

end Pairs

/-- Texts of entries with rearranged values are the same only if all their values read the same. -/
theorem text_pairs_iff (h : List.Forall₂ (UnderOneKey Rearranged) ps qs) :
    text (list (ps.map fun p => tuple [p.1, p.2])) =
        text (list (qs.map fun q => tuple [q.1, q.2])) ↔
      List.Forall₂ (fun p q => p.2.text = q.2.text) ps qs := by
  have hlen : List.Forall₂ (fun a b => String.length a = b.length) (ps.map pairText)
      (qs.map pairText) :=
    List.forall₂_map_left_iff.mpr
      (List.forall₂_map_right_iff.mpr (h.imp fun _ _ => length_pairText))
  have hbrackets : inBrackets (ps.map pairText) = inBrackets (qs.map pairText) ↔
      ps.map pairText = qs.map pairText :=
    ⟨fun he => commaList_inj hlen (by simpa [inBrackets] using he), fun he => by rw [he]⟩
  rw [text_pairs, text_pairs, hbrackets]
  clear hlen hbrackets
  induction h with
  | nil => simp
  | cons hpq _ ih =>
    rw [List.map_cons, List.map_cons, List.cons_eq_cons, List.forall₂_cons]
    exact and_congr (pairText_iff hpq) ih

mutual

/-- No dictionary in a value has two entries, so that it cannot be rearranged. -/
def plain : Value → Bool
  | list xs => plains xs
  | tuple xs => plains xs
  | dict ps => ps.length ≤ 1 && plainEntries ps
  | record _ fs => plainEntries fs
  | _ => true
termination_by structural x => x

def plains : List Value → Bool
  | [] => true
  | x :: xs => plain x && plains xs
termination_by structural x => x

def plainEntries : Entries → Bool
  | [] => true
  | p :: ps => plainEntry p && plainEntries ps
termination_by structural x => x

def plainEntry : Value × Value → Bool
  | (_, v) => plain v
termination_by structural x => x

end

theorem plains_iff : plains xs = true ↔ ∀ x ∈ xs, x.plain = true := by
  induction xs with
  | nil => simp [plains]
  | cons x xs ih => rw [plains, Bool.and_eq_true, ih, List.forall_mem_cons]

theorem plainEntries_iff : plainEntries ps = true ↔ ∀ p ∈ ps, p.2.plain = true := by
  induction ps with
  | nil => simp [plainEntries]
  | cons p ps ih => rw [plainEntries, Bool.and_eq_true, ih, List.forall_mem_cons, plainEntry]

theorem eq_of_zip_plains (hlen : xs.length = ys.length)
    (h : ∀ r ∈ xs.zip ys, r.1.plain = true → r.1 = r.2) (hx : plains xs = true) : xs = ys :=
  eq_of_zip hlen fun r hr => h r hr (plains_iff.mp hx _ (List.of_mem_zip hr).1)

theorem eq_of_zip_plainEntries (hlen : ps.length = qs.length)
    (hkeys : ∀ r ∈ ps.zip qs, r.1.1 = r.2.1)
    (h : ∀ r ∈ ps.zip qs, r.1.2.plain = true → r.1.2 = r.2.2) (hp : plainEntries ps = true) :
    ps = qs :=
  eq_of_zip hlen fun r hr =>
    Prod.ext (hkeys r hr) (h r hr (plainEntries_iff.mp hp _ (List.of_mem_zip hr).1))

theorem Rearranged.eq_of_plain (h : Rearranged v w) : v.plain = true → v = w := by
  induction h with
  | same v => exact fun _ => rfl
  | list hlen _ ih => exact fun hv => congrArg Value.list (eq_of_zip_plains hlen ih hv)
  | tuple hlen _ ih => exact fun hv => congrArg Value.tuple (eq_of_zip_plains hlen ih hv)
  | @dict ps mid qs hp hlen hkeys _ ih =>
    intro hv
    rw [plain, Bool.and_eq_true, decide_eq_true_eq] at hv
    have hsame : ps = mid := by
      match ps, hv.1 with
      | [], _ => exact (List.nil_perm.mp hp).symm
      | [p], _ => exact List.singleton_perm.mp hp
    rw [hsame] at hv
    rw [hsame, eq_of_zip_plainEntries hlen hkeys ih hv.2]
  | record hlen hnames _ ih =>
    exact fun hv => congrArg (Value.record _) (eq_of_zip_plainEntries hlen hnames ih hv)

end Value

end DocStore
