import DocStore.Proofs.Value.Mark
import Mathlib.Data.List.Forall2

/-! Equality of values that have parts is symmetric and transitive, as long as no set holds two
equal items and no dictionary two equal keys. What is no number keeps it from being reflexive. -/

namespace DocStore

open Value

section Lists

variable {α β : Type} {R : α → α → Prop} {P : α → Prop} {xs ys zs : List α}

theorem forall₂_symm (hR : ∀ x y, P x → P y → R x y → R y x) (hx : ∀ x ∈ xs, P x)
    (hy : ∀ y ∈ ys, P y) (h : List.Forall₂ R xs ys) : List.Forall₂ R ys xs := by
  induction h with
  | nil => exact .nil
  | cons h _ ih =>
    obtain ⟨hx, hxs⟩ := List.forall_mem_cons.mp hx
    obtain ⟨hy, hys⟩ := List.forall_mem_cons.mp hy
    exact .cons (hR _ _ hx hy h) (ih hxs hys)

theorem forall₂_trans (hR : ∀ x y z, P x → P y → P z → R x y → R y z → R x z)
    (hx : ∀ x ∈ xs, P x) (hy : ∀ y ∈ ys, P y) (hz : ∀ z ∈ zs, P z) (h : List.Forall₂ R xs ys)
    (h' : List.Forall₂ R ys zs) : List.Forall₂ R xs zs := by
  induction h generalizing zs with
  | nil =>
    cases h'
    exact .nil
  | cons h _ ih =>
    cases h' with
    | cons h' hrest =>
      obtain ⟨hx, hxs⟩ := List.forall_mem_cons.mp hx
      obtain ⟨hy, hys⟩ := List.forall_mem_cons.mp hy
      obtain ⟨hz, hzs⟩ := List.forall_mem_cons.mp hz
      exact .cons (hR _ _ _ hx hy hz h h') (ih hxs hys hzs hrest)

/-- Where each item of one list has a partner in another one of the same length, and no two have
the same, all items of the other list are partners. -/
theorem all_partners {R : α → β → Prop} {ys : List β} (hlen : xs.length = ys.length)
    (hR : ∀ x ∈ xs, ∃ y ∈ ys, R x y)
    (hone : xs.Pairwise fun x x' => ∀ y ∈ ys, R x y → ¬ R x' y) :
    ∀ y ∈ ys, ∃ x ∈ xs, R x y := by
  induction xs generalizing ys with
  | nil =>
    obtain rfl := List.length_eq_zero_iff.mp hlen.symm
    simp
  | cons x xs ih =>
    obtain ⟨⟨y, hy, hxy⟩, hrest⟩ := List.forall_mem_cons.mp hR
    obtain ⟨hfirst, hone⟩ := List.pairwise_cons.mp hone
    obtain ⟨before, after, rfl⟩ := List.append_of_mem hy
    have hin : ∀ {w}, w ∈ before ++ after → w ∈ before ++ y :: after := by
      intro w hw
      exact List.mem_append.mpr ((List.mem_append.mp hw).imp_right (List.mem_cons_of_mem y))
    -- the others have their partners beside that of the first
    have hothers : ∀ z ∈ xs, ∃ w ∈ before ++ after, R z w := by
      intro z hz
      obtain ⟨w, hw, hzw⟩ := hrest z hz
      refine ⟨w, ?_, hzw⟩
      rcases List.mem_append.mp hw with hw | hw
      · exact List.mem_append_left _ hw
      · rcases List.mem_cons.mp hw with rfl | hw
        · exact absurd hzw (hfirst z hz w hy hxy)
        · exact List.mem_append_right _ hw
    have hall := ih (by simp at hlen ⊢; omega) hothers
      (hone.imp fun h w hw => h w (hin hw))
    intro w hw
    rcases List.mem_append.mp hw with hw | hw
    · obtain ⟨z, hz, hzw⟩ := hall w (List.mem_append_left _ hw)
      exact ⟨z, List.mem_cons_of_mem x hz, hzw⟩
    · rcases List.mem_cons.mp hw with rfl | hw
      · exact ⟨x, List.mem_cons_self, hxy⟩
      · obtain ⟨z, hz, hzw⟩ := hall w (List.mem_append_right _ hw)
        exact ⟨z, List.mem_cons_of_mem x hz, hzw⟩

end Lists

/-- What equality sees of a value: its parts and how they are held together, its name, or its mark.
What equals nothing is alone. -/
inductive Shape
  | list (xs : List Value)
  | tuple (xs : List Value)
  | set (xs : List Value)
  | dict (ps : Entries)
  | record (cls : String) (fs : Entries)
  | named (v : Value)
  | plain (m : Mark)
  | alone

namespace Shape

def ofMark : Option Mark → Shape
  | some m => plain m
  | none => alone

def parts : Shape → List Value
  | list xs | tuple xs | set xs => xs
  | dict ps | record _ ps => ps.map Prod.fst ++ ps.map Prod.snd
  | _ => []

/-- No two items of a set are equal, and no two keys of a dictionary. -/
def Distinct : Shape → Prop
  | set xs => xs.Pairwise fun x y => equal x y = false
  | dict ps => ps.Pairwise fun p q => equal p.1 q.1 = false
  | _ => True

def Alike (x y : Value) : Prop := equal x y = true

def AlikeEntries (p q : Value × Value) : Prop := Alike p.1 q.1 ∧ Alike p.2 q.2

/-- Shapes of the same kind with parts that are equal, in order or each to one of the other's. -/
inductive Linked : Shape → Shape → Prop
  | list {xs ys : List Value} (h : List.Forall₂ Alike xs ys) : Linked (list xs) (list ys)
  | tuple {xs ys : List Value} (h : List.Forall₂ Alike xs ys) : Linked (tuple xs) (tuple ys)
  | set {xs ys : List Value} (hlen : xs.length = ys.length) (h : ∀ x ∈ xs, ∃ y ∈ ys, Alike x y) :
    Linked (set xs) (set ys)
  | dict {ps qs : Entries} (hlen : ps.length = qs.length)
    (h : ∀ p ∈ ps, ∃ q ∈ qs, AlikeEntries p q) : Linked (dict ps) (dict qs)
  | record {cls : String} {fs gs : Entries} (h : List.Forall₂ AlikeEntries fs gs) :
    Linked (record cls fs) (record cls gs)
  | named (v : Value) : Linked (named v) (named v)
  | plain (m : Mark) : Linked (plain m) (plain m)

end Shape

namespace Value

open Shape

variable {a b c v : Value} {xs ys : List Value} {ps qs : Entries} {m : Mark}

def shape : Value → Shape
  | list xs => .list xs
  | tuple xs => .tuple xs
  | ext code data => .tuple [int code, bytes data]
  | set _ xs => .set xs
  | dict ps => .dict ps
  | record c fs => .record c fs
  | member owner name _ => .named (member owner name null)
  | cls c => .named (cls c)
  | generic name args => .named (generic name args)
  | v => ofMark v.mark?

/-- Nothing is there twice in a set or dictionary, nor in those in its parts. -/
inductive Sound : Value → Prop
  | mk {v : Value} (hparts : ∀ x ∈ v.shape.parts, Sound x) (hdistinct : v.shape.Distinct) : Sound v

theorem shape_of_single (h : a.single = true) : a.shape = ofMark a.mark? := by
  cases a <;> first | rfl | cases h

/-- The values of each shape. -/
inductive Has : Value → Shape → Prop
  | list (xs : List Value) : Has (list xs) (.list xs)
  | tuple (xs : List Value) : Has (tuple xs) (.tuple xs)
  | ext (code : Int) (data : List UInt8) : Has (ext code data) (.tuple [int code, bytes data])
  | set (u : Bool) (xs : List Value) : Has (set u xs) (.set xs)
  | dict (ps : Entries) : Has (dict ps) (.dict ps)
  | record (c : String) (fs : Entries) : Has (record c fs) (.record c fs)
  | member (owner name : String) (x : Value) :
    Has (member owner name x) (.named (member owner name null))
  | cls (c : ClassRef) : Has (cls c) (.named (cls c))
  | generic (name args : String) : Has (generic name args) (.named (generic name args))
  | plain {a : Value} {m : Mark} (h : a.mark? = some m) : Has a (.plain m)
  | alone {a : Value} : Has a .alone

theorem has_shape (a : Value) : Has a a.shape := by
  by_cases hs : a.single = true
  · rw [shape_of_single hs]
    cases hm : a.mark? with
    | none => exact .alone
    | some m => exact .plain hm
  cases a with
  | list xs => exact .list xs
  | tuple xs => exact .tuple xs
  | ext code data => exact .ext code data
  | set u xs => exact .set u xs
  | dict ps => exact .dict ps
  | record c fs => exact .record c fs
  | member owner name x => exact .member owner name x
  | cls c => exact .cls c
  | generic name args => exact .generic name args
  | handle => exact .alone
  | _ => exact absurd rfl hs

theorem shape_of_mark (h : a.mark? = some m) : a.shape = .plain m := by
  have hs : a.single = true := by
    cases a <;> first | rfl | simp [mark?, single] at h
  rw [shape_of_single hs, h]
  rfl

theorem eqvList_iff : eqvList false xs ys = true ↔ List.Forall₂ Alike xs ys := by
  induction xs generalizing ys with
  | nil => cases ys <;> simp [eqvList]
  | cons x xs ih =>
    cases ys with
    | nil => simp [eqvList]
    | cons y ys =>
      rw [eqvList, Bool.and_eq_true, ih, List.forall₂_cons]
      rfl

theorem eqvEntries_iff : eqvEntries false ps qs = true ↔ List.Forall₂ AlikeEntries ps qs := by
  induction ps generalizing qs with
  | nil => cases qs <;> simp [eqvEntries]
  | cons p ps ih =>
    cases qs with
    | nil => simp [eqvEntries]
    | cons q qs =>
      rw [eqvEntries, Bool.and_eq_true, ih, List.forall₂_cons, eqvEntry, Bool.and_eq_true]
      rfl

theorem withinSet_iff : withinSet false xs ys = true ↔ ∀ x ∈ xs, ∃ y ∈ ys, Alike x y := by
  induction xs with
  | nil => simp [withinSet]
  | cons x xs ih =>
    rw [withinSet, Bool.and_eq_true, ih, List.forall_mem_cons, List.any_eq_true]
    rfl

theorem withinDict_iff :
    withinDict false ps qs = true ↔ ∀ p ∈ ps, hasEntry false p qs = true := by
  induction ps with
  | nil => simp [withinDict]
  | cons p ps ih => rw [withinDict, Bool.and_eq_true, ih, List.forall_mem_cons]

theorem alike_of_hasEntry {p : Value × Value} (h : hasEntry false p qs = true) :
    ∃ q ∈ qs, AlikeEntries p q := by
  rw [hasEntry] at h
  split at h
  · next q hq =>
    have hkey : eqv false p.1 q.1 = true := by simpa using List.find?_some hq
    exact ⟨q, List.mem_of_find?_eq_some hq, hkey, h⟩
  · cases h

theorem hasEntry_of_alike {p q : Value × Value}
    (hone : qs.Pairwise fun q q' => Alike p.1 q.1 → ¬ Alike p.1 q'.1) (hq : q ∈ qs)
    (h : AlikeEntries p q) : hasEntry false p qs = true := by
  have hfind : qs.find? (fun q => eqv false p.1 q.1) = some q := by
    induction qs with
    | nil => cases hq
    | cons q' qs ih =>
      obtain ⟨hfirst, hrest⟩ := List.pairwise_cons.mp hone
      rcases List.mem_cons.mp hq with rfl | hq
      · have hhere : eqv false p.1 q.1 = true := h.1
        rw [List.find?_cons, hhere]
      · have hpast : eqv false p.1 q'.1 = false :=
          Bool.eq_false_iff.mpr fun he => hfirst q hq he h.1
        rw [List.find?_cons, hpast]
        exact ih hrest hq
  rw [hasEntry, hfind]
  exact h.2

theorem alike_bytes {x : List UInt8} : Alike (bytes x) v ↔ v = bytes x := by
  unfold Alike equal
  cases v with
  | bytes y => simpa [eqv] using eq_comm
  | _ => simp [eqv]

theorem alike_int {m n : Int} : Alike (int m) (int n) ↔ m = n := by
  simp [Alike, equal, eqv, numberEqual, number?, Exact.ofInt, Exact.compare]

section Ext

variable {code : Int} {data : List UInt8}

theorem alike_ext_tuple :
    Alike (ext code data) (tuple ys) ↔ List.Forall₂ Alike [int code, bytes data] ys := by
  constructor
  · intro h
    unfold Alike equal eqv at h
    split at h
    · next he => cases he
    · next c data' he =>
      cases he
      obtain ⟨hcode, hdata⟩ := Bool.and_eq_true_iff.mp h
      obtain rfl : data = data' := by simpa using hdata
      exact .cons hcode (.cons (alike_bytes.mpr rfl) .nil)
    · cases h
  · intro h
    cases h with
    | cons hcode h =>
      cases h with
      | cons hdata h =>
        cases h
        obtain rfl := alike_bytes.mp hdata
        have hnumber : numberEqual false (int code) _ = true := hcode
        simp [Alike, equal, eqv, hnumber]

theorem alike_ext_ext {code' : Int} {data' : List UInt8} :
    Alike (ext code data) (ext code' data') ↔
      List.Forall₂ Alike [int code, bytes data] [int code', bytes data'] := by
  rw [List.forall₂_cons, List.forall₂_cons, alike_int, alike_bytes, Value.bytes.injEq,
    eq_comm (a := data')]
  simp [Alike, equal, eqv]

end Ext

theorem linked_of_alike (h : Alike a b) : Linked a.shape b.shape := by
  by_cases hs : a.single = true
  · obtain ⟨m, hma, hmb⟩ := marks_of_equal hs h
    rw [shape_of_mark hma, shape_of_mark hmb]
    exact .plain m
  cases a with
  | list xs =>
    cases b with
    | list ys => exact .list (eqvList_iff.mp h)
    | _ => cases h
  | tuple xs =>
    cases b with
    | tuple ys => exact .tuple (eqvList_iff.mp h)
    | ext code data => exact .tuple (eqvList_iff.mp h)
    | _ => cases h
  | ext code data =>
    cases b with
    | tuple ys => exact .tuple (alike_ext_tuple.mp h)
    | ext code' data' => exact .tuple (alike_ext_ext.mp h)
    | _ => cases h
  | set u xs =>
    cases b with
    | set u' ys =>
      obtain ⟨hlen, hwithin⟩ := Bool.and_eq_true_iff.mp h
      exact .set (by simpa using hlen) (withinSet_iff.mp hwithin)
    | _ => cases h
  | dict ps =>
    cases b with
    | dict qs =>
      obtain ⟨hlen, hwithin⟩ := Bool.and_eq_true_iff.mp h
      exact .dict (by simpa using hlen) fun p hp =>
        alike_of_hasEntry (withinDict_iff.mp hwithin p hp)
    | _ => cases h
  | record c fs =>
    cases b with
    | record d gs =>
      obtain ⟨hclass, hfields⟩ := Bool.and_eq_true_iff.mp h
      obtain rfl : c = d := by simpa using hclass
      exact .record (eqvEntries_iff.mp hfields)
    | _ => cases h
  | member owner name _ =>
    cases b with
    | member owner' name' _ =>
      obtain ⟨rfl, rfl⟩ : owner = owner' ∧ name = name' := by simpa [Alike, equal, eqv] using h
      exact .named _
    | _ => cases h
  | cls c =>
    cases b with
    | cls d =>
      obtain rfl : c = d := by simpa [Alike, equal, eqv] using h
      exact .named _
    | _ => cases h
  | generic name args =>
    cases b with
    | generic name' args' =>
      obtain ⟨rfl, rfl⟩ : name = name' ∧ args = args' := by simpa [Alike, equal, eqv] using h
      exact .named _
    | _ => cases h
  | handle => cases b <;> cases h
  | _ => exact absurd rfl hs

/-- Equality among certain values is symmetric and transitive. -/
structure PerOn (P : Value → Prop) : Prop where
  symm : ∀ x y, P x → P y → Alike x y → Alike y x
  trans : ∀ x y z, P x → P y → P z → Alike x y → Alike y z → Alike x z

namespace PerOn

variable {P : Value → Prop} {σ τ υ : Shape} (h : PerOn P)
include h

theorem entries_symm (p q : Value × Value) (hp : P p.1 ∧ P p.2) (hq : P q.1 ∧ P q.2)
    (hpq : AlikeEntries p q) : AlikeEntries q p :=
  ⟨h.symm _ _ hp.1 hq.1 hpq.1, h.symm _ _ hp.2 hq.2 hpq.2⟩

theorem entries_trans (p q r : Value × Value) (hp : P p.1 ∧ P p.2) (hq : P q.1 ∧ P q.2)
    (hr : P r.1 ∧ P r.2) (hpq : AlikeEntries p q) (hqr : AlikeEntries q r) : AlikeEntries p r :=
  ⟨h.trans _ _ _ hp.1 hq.1 hr.1 hpq.1 hqr.1, h.trans _ _ _ hp.2 hq.2 hr.2 hpq.2 hqr.2⟩

/-- What is equal to two values makes them equal. -/
theorem alike_of_both {x x' y : Value} (hx : P x) (hx' : P x') (hy : P y) (hxy : Alike x y)
    (hxy' : Alike x' y) : Alike x x' :=
  h.trans x y x' hx hy hx' hxy (h.symm x' y hx' hy hxy')

omit h in
theorem entries_of_parts (hσ : ∀ x ∈ ps.map Prod.fst ++ ps.map Prod.snd, P x) :
    ∀ p ∈ ps, P p.1 ∧ P p.2 := fun _ hp =>
  ⟨hσ _ (List.mem_append_left _ (List.mem_map_of_mem hp)),
    hσ _ (List.mem_append_right _ (List.mem_map_of_mem hp))⟩

theorem linked_symm (hσ : ∀ x ∈ σ.parts, P x) (hτ : ∀ x ∈ τ.parts, P x) (hd : σ.Distinct)
    (hl : Linked σ τ) : Linked τ σ := by
  cases hl with
  | list hl => exact .list (forall₂_symm h.symm hσ hτ hl)
  | tuple hl => exact .tuple (forall₂_symm h.symm hσ hτ hl)
  | set hlen hl =>
    refine .set hlen.symm fun y hy => ?_
    have hone := List.Pairwise.imp_of_mem (fun {x x'} hx hx' hne y hy hxy hxy' =>
      Bool.eq_false_iff.mp hne (h.alike_of_both (hσ x hx) (hσ x' hx') (hτ y hy) hxy hxy')) hd
    obtain ⟨x, hx, hxy⟩ := all_partners hlen hl hone y hy
    exact ⟨x, hx, h.symm x y (hσ x hx) (hτ y hy) hxy⟩
  | dict hlen hl =>
    have hσ := entries_of_parts hσ
    have hτ := entries_of_parts hτ
    refine .dict hlen.symm fun q hq => ?_
    have hone := List.Pairwise.imp_of_mem (fun {p p'} hp hp' hne q hq (hpq : AlikeEntries p q)
      (hpq' : AlikeEntries p' q) => Bool.eq_false_iff.mp hne
        (h.alike_of_both (hσ p hp).1 (hσ p' hp').1 (hτ q hq).1 hpq.1 hpq'.1)) hd
    obtain ⟨p, hp, hpq⟩ := all_partners (R := AlikeEntries) hlen hl hone q hq
    exact ⟨p, hp, h.entries_symm p q (hσ p hp) (hτ q hq) hpq⟩
  | record hl =>
    exact .record (forall₂_symm h.entries_symm (entries_of_parts hσ) (entries_of_parts hτ) hl)
  | named v => exact .named v
  | plain m => exact .plain m

theorem linked_trans (hσ : ∀ x ∈ σ.parts, P x) (hτ : ∀ x ∈ τ.parts, P x)
    (hυ : ∀ x ∈ υ.parts, P x) (hl : Linked σ τ) (hl' : Linked τ υ) : Linked σ υ := by
  cases hl with
  | list hl =>
    cases hl' with
    | list hl' => exact .list (forall₂_trans h.trans hσ hτ hυ hl hl')
  | tuple hl =>
    cases hl' with
    | tuple hl' => exact .tuple (forall₂_trans h.trans hσ hτ hυ hl hl')
  | set hlen hl =>
    cases hl' with
    | set hlen' hl' =>
      refine .set (hlen.trans hlen') fun x hx => ?_
      obtain ⟨y, hy, hxy⟩ := hl x hx
      obtain ⟨z, hz, hyz⟩ := hl' y hy
      exact ⟨z, hz, h.trans x y z (hσ x hx) (hτ y hy) (hυ z hz) hxy hyz⟩
  | dict hlen hl =>
    cases hl' with
    | dict hlen' hl' =>
      refine .dict (hlen.trans hlen') fun p hp => ?_
      obtain ⟨q, hq, hpq⟩ := hl p hp
      obtain ⟨r, hr, hqr⟩ := hl' q hq
      exact ⟨r, hr, h.entries_trans p q r (entries_of_parts hσ p hp) (entries_of_parts hτ q hq)
        (entries_of_parts hυ r hr) hpq hqr⟩
  | record hl =>
    cases hl' with
    | record hl' =>
      exact .record (forall₂_trans h.entries_trans (entries_of_parts hσ) (entries_of_parts hτ)
        (entries_of_parts hυ) hl hl')
  | named v =>
    cases hl'
    exact .named v
  | plain m =>
    cases hl'
    exact .plain m

theorem alike_of_linked (ha : ∀ x ∈ a.shape.parts, P x) (hb : ∀ x ∈ b.shape.parts, P x)
    (hd : b.shape.Distinct) (hl : Linked a.shape b.shape) : Alike a b := by
  have hsa := has_shape a
  have hsb := has_shape b
  generalize a.shape = σ at ha hl hsa
  generalize b.shape = τ at hb hd hl hsb
  cases hl with
  | list hl =>
    cases hsa
    cases hsb
    exact eqvList_iff.mpr hl
  | tuple hl =>
    cases hsa with
    | tuple => cases hsb <;> exact eqvList_iff.mpr hl
    | ext code data =>
      cases hsb with
      | tuple => exact alike_ext_tuple.mpr hl
      | ext code' data' => exact alike_ext_ext.mpr hl
  | set hlen hl =>
    cases hsa
    cases hsb
    exact Bool.and_eq_true_iff.mpr ⟨beq_iff_eq.mpr hlen, withinSet_iff.mpr hl⟩
  | dict hlen hl =>
    cases hsa
    cases hsb
    have ha := entries_of_parts ha
    have hb := entries_of_parts hb
    refine Bool.and_eq_true_iff.mpr ⟨beq_iff_eq.mpr hlen, withinDict_iff.mpr fun p hp => ?_⟩
    obtain ⟨q, hq, hpq⟩ := hl p hp
    refine hasEntry_of_alike (List.Pairwise.imp_of_mem (fun {q q'} hq hq' hne hpq hpq' => ?_) hd)
      hq hpq
    have hqp := h.symm _ _ (ha p hp).1 (hb q hq).1 hpq
    exact Bool.eq_false_iff.mp hne
      (h.trans _ _ _ (hb q hq).1 (ha p hp).1 (hb q' hq').1 hqp hpq')
  | record hl =>
    cases hsa
    cases hsb
    exact Bool.and_eq_true_iff.mpr ⟨beq_self_eq_true _, eqvEntries_iff.mpr hl⟩
  | named v => cases hsa <;> cases hsb <;> simp [Alike, equal, eqv]
  | plain m =>
    cases hsa with
    | plain ha =>
      cases hsb with
      | plain hb => exact equal_of_marks ha hb

end PerOn

theorem sizeOf_parts (v : Value) : ∀ x ∈ v.shape.parts, sizeOf x < sizeOf v := by
  have hentries : ∀ ps : Entries, ∀ x ∈ ps.map Prod.fst ++ ps.map Prod.snd,
      sizeOf x < sizeOf ps := by
    intro ps x hx
    have hin : ∃ p ∈ ps, sizeOf x < sizeOf p := by
      rcases List.mem_append.mp hx with hx | hx
      · obtain ⟨⟨k, w⟩, hp, rfl⟩ := List.mem_map.mp hx
        exact ⟨(k, w), hp, by simp; omega⟩
      · obtain ⟨⟨k, w⟩, hp, rfl⟩ := List.mem_map.mp hx
        exact ⟨(k, w), hp, by simp⟩
    obtain ⟨p, hp, hlt⟩ := hin
    exact hlt.trans (List.sizeOf_lt_of_mem hp)
  intro x hx
  by_cases hs : v.single = true
  · rw [shape_of_single hs] at hx
    cases hm : v.mark? <;> simp [hm, ofMark, parts] at hx
  cases v with
  | list xs =>
    have hlt := List.sizeOf_lt_of_mem (show x ∈ xs from hx)
    simp only [Value.list.sizeOf_spec]
    omega
  | tuple xs =>
    have hlt := List.sizeOf_lt_of_mem (show x ∈ xs from hx)
    simp only [Value.tuple.sizeOf_spec]
    omega
  | set u xs =>
    have hlt := List.sizeOf_lt_of_mem (show x ∈ xs from hx)
    simp only [Value.set.sizeOf_spec]
    omega
  | dict ps =>
    have hlt := hentries ps x hx
    simp only [Value.dict.sizeOf_spec]
    omega
  | record c fs =>
    have hlt := hentries fs x hx
    simp only [Value.record.sizeOf_spec]
    omega
  | ext code data =>
    simp only [Value.ext.sizeOf_spec]
    rcases List.mem_cons.mp (show x ∈ [int code, bytes data] from hx) with rfl | hx
    · have hdata : 0 < sizeOf data := by cases data <;> simp
      simp only [Value.int.sizeOf_spec]
      omega
    · rw [List.mem_singleton.mp hx]
      have hcode : 0 < sizeOf code := by
        cases code with
        | ofNat n => rw [Int.ofNat.sizeOf_spec]; omega
        | negSucc n => rw [Int.negSucc.sizeOf_spec]; omega
      simp only [Value.bytes.sizeOf_spec]
      omega
  | member owner name w => cases hx
  | cls c => cases hx
  | generic name args => cases hx
  | handle => cases hx
  | _ => exact absurd rfl hs

theorem Sound.parts (h : Sound a) : ∀ x ∈ a.shape.parts, Sound x := by
  cases h
  assumption

theorem Sound.distinct (h : Sound a) : a.shape.Distinct := by
  cases h
  assumption

theorem sound_of_single (h : a.single = true) : Sound a := by
  have hparts : a.shape.parts = [] := by
    rw [shape_of_single h]
    cases a.mark? <;> rfl
  have hdistinct : a.shape.Distinct := by
    rw [shape_of_single h]
    cases a.mark? <;> trivial
  exact .mk (by simp [hparts]) hdistinct

/-- Values are compared by their parts, which are smaller. -/
theorem perOn_smaller (n : Nat) : PerOn fun v => Sound v ∧ sizeOf v < n := by
  induction n with
  | zero =>
    exact ⟨fun x y hx => absurd hx.2 (Nat.not_lt_zero _),
      fun x y z hx => absurd hx.2 (Nat.not_lt_zero _)⟩
  | succ n ih =>
    have hparts : ∀ v, Sound v ∧ sizeOf v < n + 1 →
        ∀ x ∈ v.shape.parts, Sound x ∧ sizeOf x < n := by
      intro v hv x hx
      have hlt := sizeOf_parts v x hx
      exact ⟨hv.1.parts x hx, by omega⟩
    constructor
    · intro x y hx hy hxy
      exact ih.alike_of_linked (hparts y hy) (hparts x hx) hx.1.distinct
        (ih.linked_symm (hparts x hx) (hparts y hy) hx.1.distinct (linked_of_alike hxy))
    · intro x y z hx hy hz hxy hyz
      exact ih.alike_of_linked (hparts x hx) (hparts z hz) hz.1.distinct
        (ih.linked_trans (hparts x hx) (hparts y hy) (hparts z hz) (linked_of_alike hxy)
          (linked_of_alike hyz))

theorem perOn_sound : PerOn Sound where
  symm x y hx hy hxy := by
    have h := perOn_smaller (sizeOf x + sizeOf y + 1)
    exact h.symm x y ⟨hx, by omega⟩ ⟨hy, by omega⟩ hxy
  trans x y z hx hy hz hxy hyz := by
    have h := perOn_smaller (sizeOf x + sizeOf y + sizeOf z + 1)
    exact h.trans x y z ⟨hx, by omega⟩ ⟨hy, by omega⟩ ⟨hz, by omega⟩ hxy hyz

end Value

end DocStore
