import DocStore.Document.Objects
import DocStore.Proofs.Document.Places

/-! The places at which an object stands in a document. A step that is set anew or taken away
leaves each object at one place if it was at one place before, and what is set there is at none. -/

namespace DocStore

open Value

/-- A step from a container to what stands in it: under a text, or as an item. The entries of a
dictionary under other keys are counted as items. -/
inductive Step
  | key (s : String)
  | item (i : Nat)
  deriving DecidableEq

abbrev Place := List Step

/-- The places that a dotted path names. -/
def keySteps (path : List String) : Place := path.map .key

/-- What stands where a step from a container leads. -/
abbrev Edges := Nat → Step → Option Node

namespace Edges

variable {E : Edges} {D : Nat → Prop} {A : Place → Prop} {n m x : Node} {next : Option Node}
  {a c : Nat} {st : Step} {p q y z : Place}

def leads (E : Edges) : Place → Node → Option Node
  | [], n => some n
  | st :: p, .ref a => (E a st).bind (E.leads p)
  | _ :: _, .leaf _ => none

theorem leads_append (p q : Place) (n : Node) :
    E.leads (p ++ q) n = (E.leads p n).bind (E.leads q) := by
  induction p generalizing n with
  | nil => rfl
  | cons st p ih =>
    cases n with
    | ref a =>
      change (E a st).bind (E.leads (p ++ q)) = ((E a st).bind (E.leads p)).bind (E.leads q)
      rw [Option.bind_assoc]
      exact congrArg _ (funext ih)
    | leaf v => rfl

theorem leads_append_of (h : E.leads p n = some m) (q : Place) :
    E.leads (p ++ q) n = E.leads q m := by
  rw [leads_append, h, Option.bind_some]

theorem leads_ref (st : Step) (p : Place) (a : Nat) :
    E.leads (st :: p) (.ref a) = (E a st).bind (E.leads p) := rfl

theorem leads_snoc (h : E.leads p n = some (.ref a)) (st : Step) :
    E.leads (p ++ [st]) n = E a st := by
  rw [leads_append_of h, leads_ref]
  cases E a st <;> rfl

/-- Containers of a kind stand at one place each, but for places of a sort that may have the same
ones. -/
def Solo (E : Edges) (D : Nat → Prop) (A : Place → Prop) (n : Node) : Prop :=
  ∀ ⦃y z c⦄, D c → E.leads y n = some (.ref c) → E.leads z n = some (.ref c) → ¬ A y → y = z

/-- Edges of which one leads elsewhere, or nowhere. -/
def set (E : Edges) (a : Nat) (st : Step) (next : Option Node) : Edges :=
  fun b t => if b = a ∧ t = st then next else E b t

theorem set_here : E.set a st next a st = next := if_pos ⟨rfl, rfl⟩

theorem set_past {b : Nat} {t : Step} (h : ¬ (b = a ∧ t = st)) : E.set a st next b t = E b t :=
  if_neg h

/-- A place that leads over the new edge: the part of it before the edge is met first was there
before, and so was the part after it is met last. -/
structure Over (E : Edges) (a : Nat) (st : Step) (next : Option Node) (p : Place) (n m : Node) :
    Prop where
  first : ∃ w t, p = w ++ st :: t ∧ E.leads w n = some (.ref a)
  last : ∃ w t x, next = some x ∧ p = w ++ st :: t ∧ (E.set a st next).leads w n = some (.ref a) ∧
    E.leads t x = some m

theorem leads_set (h : (E.set a st next).leads p n = some m) :
    E.leads p n = some m ∨ Over E a st next p n m := by
  induction p generalizing n with
  | nil => exact .inl h
  | cons t p ih =>
    cases n with
    | leaf v => cases h
    | ref b =>
      obtain ⟨x, hx, hp⟩ := Option.bind_eq_some_iff.mp h
      by_cases hb : b = a ∧ t = st
      · obtain ⟨rfl, rfl⟩ := hb
        rw [set_here] at hx
        subst hx
        refine .inr ⟨⟨[], p, rfl, rfl⟩, ?_⟩
        rcases ih hp with hold | ⟨-, w, r, x', hx', rfl, hw, hr⟩
        · exact ⟨[], p, x, rfl, rfl, rfl, hold⟩
        · refine ⟨t :: w, r, x', hx', rfl, ?_, hr⟩
          rw [leads_ref, set_here]
          exact hw
      · have hold := hx
        rw [set_past hb] at hold
        rcases ih hp with hp | ⟨⟨w, r, rfl, hw⟩, w', r', x', hx', he, hw', hr'⟩
        · refine .inl ?_
          rw [leads_ref, hold]
          exact hp
        · refine .inr ⟨⟨t :: w, r, rfl, ?_⟩, t :: w', r', x', hx', by rw [he]; rfl, ?_, hr'⟩
          · rw [leads_ref, hold]
            exact hw
          · rw [leads_ref, hx]
            exact hw'

/-- Taking an edge away makes no new places. -/
theorem leads_of_set_none (h : (E.set a st none).leads p n = some m) : E.leads p n = some m := by
  rcases leads_set h with h | ⟨-, _, _, _, hx, _⟩
  · exact h
  · cases hx

theorem Solo.set_none (h : E.Solo D A n) : (E.set a st none).Solo D A n :=
  fun _ _ _ hd hy hz => h hd (leads_of_set_none hy) (leads_of_set_none hz)

theorem Solo.mono {B : Place → Prop} (h : E.Solo D A n) (hab : ∀ p, A p → B p) : E.Solo D B n :=
  fun _ _ _ hd hy hz hb => h hd hy hz fun ha => hb (hab _ ha)

theorem Solo.below (h : E.Solo D A n) (hm : E.leads p n = some m) :
    E.Solo D (fun q => A (p ++ q)) m := fun y z _ hd hy hz ha =>
  List.append_cancel_left (h hd ((leads_append_of hm y).trans hy) ((leads_append_of hm z).trans hz)
    ha)

/-- What a node brings along where it is set: its containers stand at one place below it, and at no
place of the document that it is set in. -/
structure Brings (E : Edges) (D : Nat → Prop) (A : Place → Prop) (n : Node) (p : Place) (x : Node) :
    Prop where
  solo : E.Solo D (fun q => A (p ++ q)) x
  apart : ∀ ⦃y z c⦄, D c → E.leads y n = some (.ref c) → E.leads z x = some (.ref c) →
    A y ∧ A (p ++ z)

/-- Over a new edge no place leads to the container that it starts from but the one of it. -/
theorem Solo.back (ha : D a) (hp : E.leads p n = some (.ref a)) (h : E.Solo D A n)
    (hx : E.Brings D A n (p ++ [st]) x) (hnp : ¬ A p)
    (hq : (E.set a st (some x)).leads q n = some (.ref a)) : q = p := by
  rcases leads_set hq with hq | ⟨-, _, t, _, he, _, _, ht⟩
  · exact (h ha hp hq hnp).symm
  · cases he
    exact absurd (hx.apart ha hp ht).1 hnp

/-- Setting an edge of a container keeps objects at one place each. -/
theorem Solo.set (hA : ∀ p q, A p → A (p ++ q)) (ha : D a) (hp : E.leads p n = some (.ref a))
    (h : E.Solo D A n) (hx : E.Brings D A n (p ++ [st]) x) :
    (E.set a st (some x)).Solo D A n := by
  -- a place of the other sort that leads over the edge does so from `p`, and only once
  have hover : ∀ {w m}, ¬ A w → Over E a st (some x) w n m →
      ¬ A p ∧ ∃ t, w = p ++ [st] ++ t ∧ E.leads t x = some m := by
    rintro w m hnw ⟨⟨u, t, rfl, hu⟩, u', t', x', he, hw, hu', ht'⟩
    cases he
    have hup : u = p := h ha hu hp fun hau => hnw (hA _ _ hau)
    have hnp : ¬ A p := fun hap => hnw (hup ▸ hA _ _ hap)
    refine ⟨hnp, t', ?_, ht'⟩
    rw [hw, h.back ha hp hx hnp hu']
    simp
  intro y z c hc hy hz hny
  rcases leads_set hy with hyo | hyo
  · rcases leads_set hz with hzo | ⟨-, _, t, _, he, _, _, ht⟩
    · exact h hc hyo hzo hny
    · cases he
      exact absurd (hx.apart hc hyo ht).1 hny
  · obtain ⟨hnp, t, rfl, ht⟩ := hover hny hyo
    rcases leads_set hz with hzo | ⟨-, u, r, _, he, rfl, hu, hr⟩
    · exact absurd (hx.apart hc hzo ht).2 hny
    · cases he
      rw [h.back ha hp hx hnp hu, hx.solo hc ht hr hny]
      simp

/-- A place leads to the same over other edges, if they are the same on the way. -/
theorem leads_congr {E' : Edges}
    (h : ∀ u t r b, p = u ++ t :: r → E.leads u n = some (.ref b) → E' b t = E b t) :
    E'.leads p n = E.leads p n := by
  induction p generalizing n with
  | nil => rfl
  | cons t p ih =>
    cases n with
    | leaf v => rfl
    | ref b =>
      rw [leads_ref, leads_ref, h [] t p b rfl rfl]
      refine Option.bind_congr fun y hy => ih fun u t' r c hp hu => ?_
      refine h (t :: u) t' r c (by rw [hp]; rfl) ?_
      rw [leads_ref, hy]
      exact hu

/-- A place that does not lead over an edge leads to the same when the edge is set. -/
theorem leads_set_past (hp : E.leads p n = some m)
    (hpast : ∀ w t, p = w ++ st :: t → E.leads w n ≠ some (.ref a)) :
    (E.set a st next).leads p n = some m := by
  refine (leads_congr fun u t r b hu hlead => set_past ?_).trans hp
  rintro ⟨rfl, rfl⟩
  exact hpast u r hu hlead

end Edges

end DocStore
