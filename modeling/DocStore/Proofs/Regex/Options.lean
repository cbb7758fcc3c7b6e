import DocStore.Proofs.Run
import DocStore.Regex.Pattern

/-! The options of an expression. Once its start is past, a text changes nothing about them; and
the text read with the options it gave is the same expression again. -/

namespace DocStore

namespace Regex

variable {s t : State}

theorem lift_bind_eq_ok {α β : Type} {x : Option α} {f : α → Except Fault β} {b : β}
    (h : ((liftM x : Except Fault α) >>= f) = .ok b) : ∃ a, x = some a ∧ f a = .ok b := by
  cases x with
  | some a => exact ⟨a, rfl, h⟩
  | none => cases h

namespace State

theorem take_options {c : Char} (h : s.take c = some t) : t.options = s.options := by
  unfold take at h
  split at h
  · split at h
    · cases h
      rfl
    · cases h
  · cases h

theorem takeWhile_options (p : Char → Bool) (n : Nat) :
    (s.takeWhile p n).2.options = s.options := by
  induction n generalizing s with
  | zero => rfl
  | succ n ih =>
    unfold takeWhile
    split
    · split
      · next rest _ _ => exact ih (s := { s with rest := rest })
      · rfl
    · rfl

theorem takeUntil_options {c : Char} {cs : List Char} (h : s.takeUntil c = some (cs, t)) :
    t.options = s.options := by
  unfold takeUntil at h
  dsimp only at h
  split at h
  · cases h
  · cases h
    rfl

end State

theorem hexEscape_options {n v : Nat} (h : hexEscape n s = some (v, t)) :
    t.options = s.options := by
  unfold hexEscape at h
  dsimp only at h
  split at h
  · cases h
    exact s.takeWhile_options isHex n
  · cases h

theorem numberEscape?_options {c : Char} {r : Option (Nat × State)} {v : Nat}
    (h : numberEscape? c s = some r) (hr : r = some (v, t)) : t.options = s.options := by
  unfold numberEscape? at h
  subst hr
  split at h
  · exact hexEscape_options (Option.some.inj h)
  · split at h
    · exact hexEscape_options (Option.some.inj h)
    · split at h
      · exact hexEscape_options (Option.filter_eq_some_iff.mp (Option.some.inj h)).1
      · cases h

theorem setEscape_options {c : Char} {i : SetItem} (h : setEscape c s = some (i, t)) :
    t.options = s.options := by
  unfold setEscape at h
  split at h
  · cases h
    rfl
  · split at h
    · cases h
      rfl
    · split at h
      · next hn =>
        obtain ⟨⟨v, u⟩, hr, he⟩ := Option.map_eq_some_iff.mp h
        cases he
        exact numberEscape?_options hn hr
      · split at h
        · dsimp only at h
          obtain ⟨v, _, he⟩ := Option.map_eq_some_iff.mp h
          cases he
          exact s.takeWhile_options isOctal 2
        · split at h
          · cases h
          · cases h
            rfl

theorem setItem_options {i : SetItem} (h : setItem s = some (i, t)) : t.options = s.options := by
  unfold setItem at h
  split at h
  · cases h
  · cases h
    rfl
  · have hh := setEscape_options h
    exact hh
  · cases h

theorem setItems_options {fuel : Nat} {is js : List SetItem}
    (h : setItems fuel is s = some (js, t)) :
    t.options = s.options := by
  induction fuel generalizing is s with
  | zero => cases h
  | succ fuel ih =>
    unfold setItems at h
    split at h
    · next hclose =>
      cases h
      split at hclose
      · cases hclose
      · exact State.take_options hclose
    · obtain ⟨⟨first, s₁⟩, hfirst, h⟩ := Option.bind_eq_some_iff.mp h
      have h₁ := setItem_options hfirst
      dsimp only at h
      split at h
      · rw [ih h, h₁]
      · next s₂ hdash =>
        have h₂ := State.take_options hdash
        split at h
        · next hclose =>
          cases h
          rw [State.take_options hclose, h₂, h₁]
        · obtain ⟨⟨second, s₃⟩, hsecond, h⟩ := Option.bind_eq_some_iff.mp h
          obtain ⟨lo, _, h⟩ := Option.bind_eq_some_iff.mp h
          obtain ⟨hi, _, h⟩ := Option.bind_eq_some_iff.mp h
          split at h
          · cases h
          · rw [ih h, setItem_options hsecond, h₂, h₁]

theorem backreference_options {o : Options} {i : Nat} {e : Expr}
    (h : backreference o i s = some (e, t)) : t.options = s.options := by
  unfold backreference at h
  split at h
  · cases h
    rfl
  · cases h

theorem digitEscape_options {o : Options} {c : Char} {e : Expr}
    (h : digitEscape o c s = some (e, t)) : t.options = s.options := by
  unfold digitEscape at h
  split at h
  · dsimp only at h
    obtain ⟨v, _, he⟩ := Option.map_eq_some_iff.mp h
    cases he
    exact s.takeWhile_options isOctal 2
  · have hone := s.takeWhile_options isDecimalAscii 1
    split at h
    · next d s₁ htake =>
      rw [htake] at hone
      split at h
      · next e s₂ hnext =>
        obtain ⟨v, _, he⟩ := Option.map_eq_some_iff.mp h
        cases he
        split at hnext
        · have htwo := s₁.takeWhile_options isOctal 1
          rw [hnext] at htwo
          exact htwo.trans hone
        · cases hnext
      · next s₂ _ hnext =>
        have htwo : s₂.options = s₁.options := by
          split at hnext
          · have hh := s₁.takeWhile_options isOctal 1
            rwa [hnext] at hh
          · cases hnext
            rfl
        rw [backreference_options h, htwo, hone]
    · next s₁ _ htake =>
      rw [htake] at hone
      rw [backreference_options h, hone]

theorem escapeExpr_options {o : Options} {c : Char} {e : Expr} {b : Bool}
    (h : escapeExpr o c s = some (e, b, t)) : t.options = s.options := by
  unfold escapeExpr at h
  split at h
  · cases h
    rfl
  split at h
  · cases h
    rfl
  split at h
  · cases h
    rfl
  split at h
  · cases h
    rfl
  split at h
  · cases h
    rfl
  split at h
  · cases h
    rfl
  split at h
  · next hn =>
    obtain ⟨⟨v, u⟩, hr, he⟩ := Option.map_eq_some_iff.mp h
    cases he
    exact numberEscape?_options hn hr
  split at h
  · obtain ⟨⟨v, u⟩, hr, he⟩ := Option.map_eq_some_iff.mp h
    cases he
    exact digitEscape_options hr
  split at h
  · cases h
  · cases h
    rfl

theorem braces_options {r : Nat × Option Nat} (h : braces s = some (r, t)) :
    t.options = s.options := by
  unfold braces at h
  split at h
  · cases h
  · dsimp only at h
    obtain ⟨u, hu, he⟩ := Option.map_eq_some_iff.mp h
    cases he
    have hlo := s.takeWhile_options isDecimalAscii s.rest.length
    rw [State.take_options hu]
    split
    · next s₁ hcomma =>
      rw [State.takeWhile_options, State.take_options hcomma, hlo]
    · exact hlo

theorem bounds?_options {c : Char} {r : Nat × Option Nat} (h : bounds? c s = some (some (r, t))) :
    t.options = s.options := by
  unfold bounds? at h
  split at h
  · cases h
    rfl
  split at h
  · cases h
    rfl
  split at h
  · cases h
    rfl
  split at h
  · exact braces_options (Option.some.inj h)
  · cases h

theorem greed_options : (greed s).2.options = s.options := by
  unfold greed
  split
  · next hq => exact State.take_options hq
  · split
    · next hp => exact State.take_options hp
    · rfl

theorem openGroup_options {name : Option String} {i : Nat} (h : openGroup name s = some (i, t)) :
    t.options = s.options := by
  unfold openGroup at h
  dsimp only at h
  split at h
  · cases h
    rfl
  · split at h
    · cases h
    · cases h
      rfl

theorem conditionGroup_options {cs : List Char} {i : Nat} (h : conditionGroup cs s = some (i, t)) :
    t.options = s.options := by
  unfold conditionGroup at h
  split at h
  · obtain ⟨j, _, h⟩ := Option.bind_eq_some_iff.mp h
    split at h
    · cases h
      rfl
    · cases h
  · obtain ⟨j, _, h⟩ := Option.bind_eq_some_iff.mp h
    split at h
    · cases h
    · split at h
      · cases h
        rfl
      · cases h

/-- Past the start of the text, reading with this much fuel leaves the options alone. -/
structure Keeps (fuel : Nat) : Prop where
  alternatives : ∀ {o o' s t e}, alternatives fuel false o s = .ok (e, o', t) →
    t.options = s.options
  items : ∀ {o o' s t e last done}, items fuel false o last done s = .ok (e, o', t) →
    t.options = s.options
  captured : ∀ {i o o' s t e done}, captured fuel i o done s = .ok (e, o', t) →
    t.options = s.options
  extension : ∀ {o o' s t e last done}, extension fuel false o last done s = .ok (e, o', t) →
    t.options = s.options

theorem alternatives_keeps {fuel : Nat} (ih : Keeps fuel) {o o' : Options} {e : Expr}
    (h : alternatives (fuel + 1) false o s = .ok (e, o', t)) : t.options = s.options := by
  rw [alternatives] at h
  obtain ⟨⟨first, o₁, s₁⟩, hfirst, h⟩ := except_bind_eq_ok.mp h
  dsimp only at h
  split at h
  · cases h
    exact ih.items hfirst
  · next s₂ hbar =>
    obtain ⟨⟨others, o₂, s₃⟩, hothers, h⟩ := except_bind_eq_ok.mp h
    cases h
    rw [ih.alternatives hothers, State.take_options hbar, ih.items hfirst]

theorem captured_keeps {fuel : Nat} (ih : Keeps fuel) {i : Nat} {o o' : Options} {e : Expr}
    {done : List Expr} (h : captured (fuel + 1) i o done s = .ok (e, o', t)) :
    t.options = s.options := by
  rw [captured] at h
  obtain ⟨⟨body, o₁, s₁⟩, hbody, h⟩ := except_bind_eq_ok.mp h
  obtain ⟨s₂, hclose, h⟩ := lift_bind_eq_ok h
  have hitems := ih.items h
  rw [hitems]
  exact (State.take_options hclose).trans (ih.alternatives hbody)

/-- A group that is read, closed and put in front of what was read. -/
theorem enclosed_keeps {fuel : Nat} (ih : Keeps fuel) {inner o o' : Options} {e : Expr} {u : State}
    {f : Expr → List Expr} {last : Last}
    (h : (do
      let (body, _, s) ← alternatives fuel false inner u
      let s ← s.take ')'
      items fuel false o last (f body) s) = .ok (e, o', t)) : t.options = u.options := by
  obtain ⟨⟨body, o₁, s₁⟩, hbody, h⟩ := except_bind_eq_ok.mp h
  obtain ⟨s₂, hclose, h⟩ := lift_bind_eq_ok h
  rw [ih.items h, State.take_options hclose, ih.alternatives hbody]

/-- The options stay unless layout, a comment or an extension comes first. -/
theorem items_cases {fuel : Nat} (ih : Keeps fuel) {top : Bool} {o o' : Options} {e : Expr}
    {last : Last} {done : List Expr}
    (h : items (fuel + 1) top o last done s = .ok (e, o', t)) :
    t.options = s.options ∨
    (∃ c rest, s.rest = .plain c :: rest ∧ isLayout c = true ∧ o.verbose = true ∧
      items fuel top o last done { s with rest := rest } = .ok (e, o', t)) ∨
    (∃ rest, s.rest = .plain '#' :: rest ∧ o.verbose = true ∧
      items fuel top o last done { s with rest := dropComment rest } = .ok (e, o', t)) ∨
    ∃ rest u, s.rest = .plain '(' :: rest ∧ ({ s with rest := rest } : State).take '?' = some u ∧
      extension fuel top o last done u = .ok (e, o', t) := by
  rw [items] at h
  split at h
  · cases h
    exact .inl rfl
  · cases h
  · obtain ⟨⟨e₁, b, s₁⟩, hescape, h⟩ := lift_bind_eq_ok h
    exact .inl ((ih.items h).trans ((escapeExpr_options hescape).trans rfl))
  next c rest hrest =>
  by_cases hend : c = '|' ∨ c = ')'
  · rw [if_pos hend] at h
    cases h
    exact .inl rfl
  rw [if_neg hend] at h
  dsimp only at h
  by_cases hlayout : (o.verbose && isLayout c) = true
  · rw [if_pos hlayout] at h
    obtain ⟨hv, hc⟩ := Bool.and_eq_true_iff.mp hlayout
    exact .inr (.inl ⟨c, rest, hrest, hc, hv, h⟩)
  rw [if_neg hlayout] at h
  by_cases hcomment : (o.verbose && c == '#') = true
  · rw [if_pos hcomment] at h
    obtain ⟨hv, hc⟩ := Bool.and_eq_true_iff.mp hcomment
    rw [beq_iff_eq.mp hc] at hrest
    exact .inr (.inr (.inl ⟨rest, hrest, hv, h⟩))
  rw [if_neg hcomment] at h
  by_cases hset : c = '['
  · rw [if_pos hset] at h
    obtain ⟨⟨members, s₁⟩, hmembers, h⟩ := lift_bind_eq_ok h
    left
    rw [ih.items h, setItems_options hmembers]
    split
    · next hcaret => exact (State.take_options hcaret).trans rfl
    · rfl
  rw [if_neg hset] at h
  by_cases hdot : c = '.'
  · rw [if_pos hdot] at h
    exact .inl ((ih.items h).trans rfl)
  rw [if_neg hdot] at h
  by_cases hstart : c = '^'
  · rw [if_pos hstart] at h
    exact .inl ((ih.items h).trans rfl)
  rw [if_neg hstart] at h
  by_cases hfinal : c = '$'
  · rw [if_pos hfinal] at h
    exact .inl ((ih.items h).trans rfl)
  rw [if_neg hfinal] at h
  by_cases hopen : c = '('
  · rw [if_pos hopen] at h
    split at h
    · obtain ⟨⟨i, s₁⟩, hgroup, h⟩ := lift_bind_eq_ok h
      exact .inl ((ih.captured h).trans ((openGroup_options hgroup).trans rfl))
    · next u hmark =>
      rw [hopen] at hrest
      exact .inr (.inr (.inr ⟨rest, u, hrest, hmark, h⟩))
  rw [if_neg hopen] at h
  split at h
  · exact .inl ((ih.items h).trans rfl)
  · next hbounds =>
    split at h
    · cases h
    · split at h
      · left
        rw [ih.items h, greed_options]
        exact (bounds?_options hbounds).trans rfl
      · cases h
  · exact .inl ((ih.items h).trans rfl)

theorem items_keeps {fuel : Nat} (ih : Keeps fuel) {o o' : Options} {e : Expr} {last : Last}
    {done : List Expr} (h : items (fuel + 1) false o last done s = .ok (e, o', t)) :
    t.options = s.options := by
  rcases items_cases ih h with hs | ⟨c, rest, _, _, _, h⟩ | ⟨rest, _, _, h⟩ | ⟨rest, u, _, hmark, h⟩
  · exact hs
  · exact (ih.items h).trans rfl
  · exact (ih.items h).trans rfl
  · exact (ih.extension h).trans ((State.take_options hmark).trans rfl)

theorem optionGroup_options {o : Options} {g : OptionGroup} (h : optionGroup s o = some (g, t)) :
    t.options = s.options := by
  unfold optionGroup at h
  dsimp only at h
  split at h
  · cases h
  · split at h
    · split at h
      · cases h
      · cases h
        rfl
    · split at h
      · cases h
      · cases h
        rfl
    · split at h
      · split at h
        · cases h
        · cases h
          rfl
      · cases h
    · cases h

theorem behind_keeps {fuel : Nat} (ih : Keeps fuel) {o o' : Options} {e : Expr} {u : State}
    {outer : Option Nat} {f : Nat → Expr → List Expr}
    (h : (do
      let (body, _, s) ← alternatives fuel false o u
      let s ← s.take ')'
      let w := body.width s.closed
      items fuel false o .item (f w.lo body)
        { s with behindFrom := outer, loose := s.loose || w.hi ≠ some w.lo }) = .ok (e, o', t)) :
    t.options = u.options := by
  obtain ⟨⟨body, o₁, s₁⟩, hbody, h⟩ := except_bind_eq_ok.mp h
  obtain ⟨s₂, hclose, h⟩ := lift_bind_eq_ok h
  dsimp only at h
  rw [ih.items h]
  exact (State.take_options hclose).trans (ih.alternatives hbody)

theorem ifGroup_keeps {fuel : Nat} (ih : Keeps fuel) {o o' : Options} {e : Expr} {u : State}
    {i : Nat} {done : List Expr}
    (h : (do
      let (yes, _, s) ← items fuel false o .nothing [] u
      let (no, s) ← match s.take '|' with
        | none => .ok (Expr.empty, s)
        | some s => (items fuel false o .nothing [] s).map fun r => (r.1, r.2.2)
      let s ← s.take ')'
      items fuel false o .item (.ifGroup i yes no :: done) s :
        Except Fault (Expr × Options × State)) = .ok (e, o', t)) :
    t.options = u.options := by
  obtain ⟨⟨yes, o₁, s₁⟩, hyes, h⟩ := except_bind_eq_ok.mp h
  dsimp only at h
  split at h
  · obtain ⟨⟨no, s₂⟩, hno, h⟩ := except_bind_eq_ok.mp h
    obtain ⟨s₃, hclose, h⟩ := lift_bind_eq_ok h
    cases hno
    rw [ih.items h, State.take_options hclose, ih.items hyes]
  · next s₂ hbar =>
    obtain ⟨⟨no, s₃⟩, hno, h⟩ := except_bind_eq_ok.mp h
    obtain ⟨s₄, hclose, h⟩ := lift_bind_eq_ok h
    obtain ⟨⟨e₁, o₂, s₅⟩, hitems, he⟩ := except_map_eq_ok.mp hno
    cases he
    rw [ih.items h, State.take_options hclose, ih.items hitems, State.take_options hbar,
      ih.items hyes]

/-- The options stay unless a comment comes, or at the start of the text options for all of it. -/
theorem extension_cases {fuel : Nat} (ih : Keeps fuel) {top : Bool} {o o' : Options} {e : Expr}
    {last : Last} {done : List Expr}
    (h : extension (fuel + 1) top o last done s = .ok (e, o', t)) :
    t.options = s.options ∨
    (∃ rest cs u, s.rest = .plain '#' :: rest ∧
      ({ s with rest := rest } : State).takeUntil ')' = some (cs, u) ∧
      items fuel top o last done u = .ok (e, o', t)) ∨
    ∃ on u, top = true ∧ optionGroup s o = some (.whole on, u) ∧
      items fuel true on last done { u with options := on } = .ok (e, o', t) := by
  rw [extension] at h
  split at h
  · obtain ⟨⟨name, s₁⟩, huntil, h⟩ := lift_bind_eq_ok h
    dsimp only at h
    split at h
    · obtain ⟨⟨i, s₂⟩, hopen, h⟩ := lift_bind_eq_ok h
      left
      rw [ih.captured h, openGroup_options hopen]
      exact (State.takeUntil_options huntil).trans rfl
    · cases h
  · obtain ⟨⟨name, s₁⟩, huntil, h⟩ := lift_bind_eq_ok h
    obtain ⟨i, _, h⟩ := lift_bind_eq_ok h
    obtain ⟨⟨e₁, s₂⟩, hback, h⟩ := lift_bind_eq_ok h
    left
    rw [ih.items h, backreference_options hback]
    exact (State.takeUntil_options huntil).trans rfl
  · exact .inl ((enclosed_keeps ih (f := (· :: done)) h).trans rfl)
  · exact .inl ((enclosed_keeps ih (f := (.atomic · :: done)) h).trans rfl)
  · next rest hrest =>
    obtain ⟨⟨cs, u⟩, huntil, h⟩ := lift_bind_eq_ok h
    exact .inr (.inl ⟨rest, cs, u, hrest, huntil, h⟩)
  · exact .inl ((enclosed_keeps ih (f := (.ahead false · :: done)) h).trans rfl)
  · exact .inl ((enclosed_keeps ih (f := (.ahead true · :: done)) h).trans rfl)
  · split at h
    · exact .inl ((behind_keeps ih (f := fun w body => .behind _ w body :: done) h).trans rfl)
    · cases h
  · obtain ⟨⟨name, s₁⟩, huntil, h⟩ := lift_bind_eq_ok h
    obtain ⟨⟨i, s₂⟩, hcondition, h⟩ := lift_bind_eq_ok h
    left
    rw [ifGroup_keeps ih h, conditionGroup_options hcondition]
    exact (State.takeUntil_options huntil).trans rfl
  · split at h
    · next on u hwhole =>
      split at h
      · next htop => exact .inr (.inr ⟨on, u, htop, hwhole, h⟩)
      · cases h
    · next hscoped =>
      exact .inl ((enclosed_keeps ih (f := (· :: done)) h).trans (optionGroup_options hscoped))
    · cases h

theorem extension_keeps {fuel : Nat} (ih : Keeps fuel) {o o' : Options} {e : Expr} {last : Last}
    {done : List Expr} (h : extension (fuel + 1) false o last done s = .ok (e, o', t)) :
    t.options = s.options := by
  rcases extension_cases ih h with hs | ⟨rest, cs, u, _, huntil, h⟩ | ⟨on, u, htop, _, _⟩
  · exact hs
  · exact (ih.items h).trans ((State.takeUntil_options huntil).trans rfl)
  · cases htop

theorem keeps (fuel : Nat) : Keeps fuel := by
  induction fuel with
  | zero =>
    refine ⟨?_, ?_, ?_, ?_⟩
    all_goals
      intros
      contradiction
  | succ fuel ih =>
    exact ⟨alternatives_keeps ih, items_keeps ih, captured_keeps ih, extension_keeps ih⟩

end Regex

end DocStore
