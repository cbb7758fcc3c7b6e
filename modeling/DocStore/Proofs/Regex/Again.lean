import DocStore.Proofs.Regex.Options

/-! A text read with the options it gave is the same expression again. Only at its start does a
text change its options, and there they do not matter except for the layout that they skip. -/

namespace DocStore

namespace Regex

/-- Every option of the third is one of the first or of the second. -/
structure Options.Between (o f p : Options) : Prop where
  ignoreCase : p.ignoreCase = o.ignoreCase ∨ p.ignoreCase = f.ignoreCase
  multiline : p.multiline = o.multiline ∨ p.multiline = f.multiline
  dotAll : p.dotAll = o.dotAll ∨ p.dotAll = f.dotAll
  verbose : p.verbose = o.verbose ∨ p.verbose = f.verbose
  ascii : p.ascii = o.ascii ∨ p.ascii = f.ascii
  locale : p.locale = o.locale ∨ p.locale = f.locale
  template : p.template = o.template ∨ p.template = f.template
  debug : p.debug = o.debug ∨ p.debug = f.debug

namespace Options

variable {o f p o₁ : Options} {c : Char}

theorem Between.final (o f : Options) : o.Between f f :=
  ⟨.inr rfl, .inr rfl, .inr rfl, .inr rfl, .inr rfl, .inr rfl, .inr rfl, .inr rfl⟩

theorem Between.eq (h : o.Between o p) : p = o := by
  obtain ⟨hi, hm, hs, hx, ha, hl, ht, hd⟩ := h
  cases o
  cases p
  simp_all

theorem set_between (h : o.set true c = some o₁) (hp : o.Between f p) :
    ∃ p₁, p.set true c = some p₁ ∧ o₁.Between f p₁ := by
  unfold set at h ⊢
  split at h
  · next hc =>
    cases h
    exact ⟨_, if_pos hc, { hp with ignoreCase := .inl rfl }⟩
  next hi =>
  rw [if_neg hi]
  split at h
  · next hc =>
    cases h
    exact ⟨_, if_pos hc, { hp with multiline := .inl rfl }⟩
  next hm =>
  rw [if_neg hm]
  split at h
  · next hc =>
    cases h
    exact ⟨_, if_pos hc, { hp with dotAll := .inl rfl }⟩
  next hs =>
  rw [if_neg hs]
  split at h
  · next hc =>
    cases h
    exact ⟨_, if_pos hc, { hp with verbose := .inl rfl }⟩
  next hx =>
  rw [if_neg hx]
  split at h
  · next hc =>
    cases h
    exact ⟨_, if_pos hc, { hp with ascii := .inl rfl }⟩
  next ha =>
  rw [if_neg ha]
  split at h
  · next hc =>
    cases h
    exact ⟨_, if_pos hc, { hp with locale := .inl rfl }⟩
  next hl =>
  rw [if_neg hl]
  split at h
  · next hc =>
    cases h
    exact ⟨_, if_pos hc, { hp with template := .inl rfl }⟩
  next ht =>
  rw [if_neg ht]
  split at h
  · next hc =>
    cases h
    exact ⟨_, if_pos hc, hp⟩
  · cases h

theorem set_eq_none (h : o.set true c = Option.none) (p : Options) :
    p.set true c = Option.none := by
  unfold set at h ⊢
  repeat
    split at h
    · cases h
  simp [*]

theorem verbose_of_set (h : o.set true c = some o₁) (hv : o.verbose = true) :
    o₁.verbose = true := by
  unfold set at h
  repeat
    split at h
    · cases h
      first
      | exact hv
      | rfl
  cases h

end Options

section Letters

variable {o f p : Options}

/-- The letters that are read do not depend on the options, and turn the same ones on. -/
theorem optionLetters_between (bytes : Bool) (seen : List Char) (ts : List Token)
    (hp : o.Between f p) :
    (optionLetters bytes true p seen ts).2 = (optionLetters bytes true o seen ts).2 ∧
      (optionLetters bytes true o seen ts).1.Between f (optionLetters bytes true p seen ts).1 := by
  induction ts generalizing o p seen with
  | nil => exact ⟨rfl, hp⟩
  | cons t ts ih =>
    cases t with
    | escaped c => exact ⟨rfl, hp⟩
    | dangling => exact ⟨rfl, hp⟩
    | plain c =>
      rw [optionLetters, optionLetters]
      by_cases hc : permits bytes true c = true
      · rw [if_pos hc, if_pos hc]
        cases hset : o.set true c with
        | none =>
          rw [Options.set_eq_none hset]
          exact ⟨rfl, hp⟩
        | some o₁ =>
          obtain ⟨p₁, hp₁, hbetween⟩ := Options.set_between hset hp
          rw [hp₁]
          exact ih _ hbetween
      · rw [if_neg hc, if_neg hc]
        exact ⟨rfl, hp⟩

theorem verbose_of_optionLetters (bytes : Bool) (seen : List Char) (ts : List Token)
    (hv : o.verbose = true) :
    (optionLetters bytes true o seen ts).1.verbose = true := by
  induction ts generalizing o seen with
  | nil => exact hv
  | cons t ts ih =>
    cases t with
    | escaped c => exact hv
    | dangling => exact hv
    | plain c =>
      rw [optionLetters]
      by_cases hc : permits bytes true c = true
      · rw [if_pos hc]
        cases hset : o.set true c with
        | none => exact hv
        | some o₁ => exact ih _ (Options.verbose_of_set hset hv)
      · rw [if_neg hc]
        exact hv

end Letters

variable {s t u : State} {o o' f p on : Options} {e : Expr} {last : Last} {done : List Expr}
  {fuel : Nat} {top : Bool}

/-- Options for the whole text: letters, and nothing else, up to the parenthesis. -/
theorem optionGroup_whole (h : optionGroup s o = some (.whole on, t)) :
    ∃ seen rest, optionLetters s.bytes true o [] s.rest = (on, seen, .plain ')' :: rest) ∧
      (seen.contains 'a' && (seen.contains 'u' || seen.contains 'L')) = false ∧
      seen.isEmpty = false ∧ t = { s with rest := rest, unicode := s.unicode || seen.contains 'u' } := by
  unfold optionGroup at h
  rcases hletters : optionLetters s.bytes true o [] s.rest with ⟨letters, seen, ts⟩
  rw [hletters] at h
  dsimp only at h
  split at h
  · cases h
  next hboth =>
  split at h
  · next rest =>
    split at h
    · cases h
    · next hempty =>
      cases h
      exact ⟨seen, rest, rfl, by simpa using hboth, by simpa using hempty, rfl⟩
  · split at h
    · cases h
    · cases h
  · split at h
    · split at h
      · cases h
      · cases h
    · cases h
  · cases h

theorem whole_optionGroup {seen : List Char} {rest : List Token}
    (hletters : optionLetters s.bytes true o [] s.rest = (on, seen, .plain ')' :: rest))
    (hboth : (seen.contains 'a' && (seen.contains 'u' || seen.contains 'L')) = false)
    (hempty : seen.isEmpty = false) : optionGroup s o =
      some (.whole on, { s with rest := rest, unicode := s.unicode || seen.contains 'u' }) := by
  unfold optionGroup
  rw [hletters]
  dsimp only
  rw [hboth, hempty]
  rfl

theorem optionGroup_between (h : optionGroup s o = some (.whole on, t)) (hp : o.Between f p) :
    ∃ pn, optionGroup { s with options := p } p = some (.whole pn, { t with options := p }) ∧
      on.Between f pn := by
  obtain ⟨seen, rest, hletters, hboth, hempty, rfl⟩ := optionGroup_whole h
  obtain ⟨hread, hbetween⟩ := optionLetters_between s.bytes [] s.rest hp
  rw [hletters] at hread hbetween
  exact ⟨_, whole_optionGroup (s := { s with options := p }) (Prod.ext rfl hread) hboth hempty,
    hbetween⟩

theorem verbose_of_optionGroup (h : optionGroup s o = some (.whole on, t)) (hv : o.verbose = true) :
    on.verbose = true := by
  obtain ⟨seen, rest, hletters, _⟩ := optionGroup_whole h
  have hl := verbose_of_optionLetters s.bytes [] s.rest hv
  rwa [hletters] at hl

theorem items_layout {c : Char} {rest : List Token} (hrest : s.rest = .plain c :: rest)
    (hc : isLayout c = true) (hv : o.verbose = true) :
    items (fuel + 1) top o last done s = items fuel top o last done { s with rest := rest } := by
  have hbar : ¬ (c = '|' ∨ c = ')') := by
    rintro (rfl | rfl) <;> cases hc
  rw [items, hrest]
  simp only [hbar, if_false, hc, hv, Bool.and_self, if_true]

theorem items_comment {rest : List Token} (hrest : s.rest = .plain '#' :: rest)
    (hv : o.verbose = true) : items (fuel + 1) top o last done s =
      items fuel top o last done { s with rest := dropComment rest } := by
  rw [items, hrest]
  have hlayout : isLayout '#' = false := rfl
  simp [hlayout, hv]

theorem items_extension {rest : List Token} (hrest : s.rest = .plain '(' :: rest)
    (hq : ({ s with rest := rest } : State).take '?' = some u) :
    items (fuel + 1) top o last done s = extension fuel top o last done u := by
  rw [items, hrest]
  have hlayout : isLayout '(' = false := rfl
  simp [hlayout, hq]

theorem extension_comment {rest : List Token} {cs : List Char}
    (hrest : s.rest = .plain '#' :: rest)
    (hu : ({ s with rest := rest } : State).takeUntil ')' = some (cs, u)) :
    extension (fuel + 1) top o last done s = items fuel top o last done u := by
  rw [extension, hrest]
  simp only [hu]
  rfl

theorem not_whole {c : Char} {rest : List Token} (hrest : s.rest = .plain c :: rest)
    (hc : o.set true c = none) (hclose : c ≠ ')') :
    optionGroup s o ≠ some (.whole on, u) := by
  intro h
  obtain ⟨seen, rest', hletters, _⟩ := optionGroup_whole h
  rw [hrest, optionLetters, hc, ite_self] at hletters
  cases hletters
  exact hclose rfl

theorem extension_whole (h : optionGroup s o = some (.whole on, u)) :
    extension (fuel + 1) true o last done s =
      items fuel true on last done { u with options := on } := by
  rw [extension]
  split
  · next hrest => exact absurd h (not_whole hrest rfl (by decide))
  · next hrest => exact absurd h (not_whole hrest rfl (by decide))
  · next hrest => exact absurd h (not_whole hrest rfl (by decide))
  · next hrest => exact absurd h (not_whole hrest rfl (by decide))
  · next hrest => exact absurd h (not_whole hrest rfl (by decide))
  · next hrest => exact absurd h (not_whole hrest rfl (by decide))
  · next hrest => exact absurd h (not_whole hrest rfl (by decide))
  · next hrest => exact absurd h (not_whole hrest rfl (by decide))
  · next hrest => exact absurd h (not_whole hrest rfl (by decide))
  · rw [h]
    rfl

/-- With this much fuel, what turned layout skipping on finds it on at the end, and other options
that are the old or the final ones make no difference. -/
structure Again (fuel : Nat) : Prop where
  verbose : ∀ {o o' s t e last done}, items fuel true o last done s = .ok (e, o', t) →
    s.options = o → o.verbose = true → t.options.verbose = true
  items : ∀ {o o' s t e last done p}, items fuel true o last done s = .ok (e, o', t) →
    s.options = o → o.Between t.options p →
    items fuel true p last done { s with options := p } = .ok (e, o', t)
  verbose_extension : ∀ {o o' s t e last done},
    extension fuel true o last done s = .ok (e, o', t) → s.options = o → o.verbose = true →
    t.options.verbose = true
  extension : ∀ {o o' s t e last done p}, extension fuel true o last done s = .ok (e, o', t) →
    s.options = o → o.Between t.options p →
    extension fuel true p last done { s with options := p } = .ok (e, o', t)

theorem State.take_withOptions {c : Char} (h : s.take c = some u) (p : Options) :
    ({ s with options := p } : State).take c = some { u with options := p } := by
  unfold take at h ⊢
  split at h
  · next hrest =>
    split at h
    · next hd =>
      cases h
      simp [hrest, hd]
    · cases h
  · cases h

theorem State.takeUntil_withOptions {c : Char} {cs : List Char} (h : s.takeUntil c = some (cs, u))
    (p : Options) :
    ({ s with options := p } : State).takeUntil c = some (cs, { u with options := p }) := by
  unfold takeUntil at h ⊢
  dsimp only at h ⊢
  split at h
  · cases h
  · cases h
    simp

theorem State.withOptions_self (h : s.options = o) : ({ s with options := o } : State) = s := by
  rw [← h]

theorem items_verbose (ih : Again fuel)
    (h : items (fuel + 1) true o last done s = .ok (e, o', t)) (hs : s.options = o)
    (hv : o.verbose = true) :
    t.options.verbose = true := by
  rcases items_cases (keeps fuel) h with hkept | ⟨c, rest, _, _, _, h⟩ | ⟨rest, _, _, h⟩ |
    ⟨rest, u, _, hmark, h⟩
  · rw [hkept, hs, hv]
  · exact ih.verbose h hs hv
  · exact ih.verbose h hs hv
  · have hu : u.options = s.options := (State.take_options hmark).trans rfl
    exact ih.verbose_extension h (hu.trans hs) hv

theorem extension_verbose (ih : Again fuel)
    (h : extension (fuel + 1) true o last done s = .ok (e, o', t)) (hs : s.options = o)
    (hv : o.verbose = true) :
    t.options.verbose = true := by
  rcases extension_cases (keeps fuel) h with hkept | ⟨rest, cs, u, _, huntil, h⟩ |
    ⟨on, u, _, hwhole, h⟩
  · rw [hkept, hs, hv]
  · have hu : u.options = s.options := (State.takeUntil_options huntil).trans rfl
    exact ih.verbose h (hu.trans hs) hv
  · have hon := verbose_of_optionGroup hwhole hv
    exact ih.verbose h rfl hon

theorem items_again (ih : Again fuel)
    (h : items (fuel + 1) true o last done s = .ok (e, o', t)) (hs : s.options = o)
    (hp : o.Between t.options p) :
    items (fuel + 1) true p last done { s with options := p } = .ok (e, o', t) := by
  rcases items_cases (keeps fuel) h with hkept | ⟨c, rest, hrest, hc, hv, h'⟩ |
    ⟨rest, hrest, hv, h'⟩ | ⟨rest, u, hrest, hmark, h'⟩
  · rw [hkept, hs] at hp
    rw [hp.eq, State.withOptions_self hs, h]
  · have hpv : p.verbose = true := by
      rcases hp.verbose with hpo | hpf
      · rw [hpo, hv]
      · rw [hpf, ih.verbose h' hs hv]
    rw [items_layout (s := { s with options := p }) hrest hc hpv]
    exact ih.items h' hs hp
  · have hpv : p.verbose = true := by
      rcases hp.verbose with hpo | hpf
      · rw [hpo, hv]
      · rw [hpf, ih.verbose h' hs hv]
    rw [items_comment (s := { s with options := p }) hrest hpv]
    exact ih.items h' hs hp
  · have hu : u.options = s.options := (State.take_options hmark).trans rfl
    rw [items_extension (s := { s with options := p }) hrest (State.take_withOptions hmark p)]
    exact ih.extension h' (hu.trans hs) hp

theorem extension_again (ih : Again fuel)
    (h : extension (fuel + 1) true o last done s = .ok (e, o', t)) (hs : s.options = o)
    (hp : o.Between t.options p) :
    extension (fuel + 1) true p last done { s with options := p } = .ok (e, o', t) := by
  rcases extension_cases (keeps fuel) h with hkept | ⟨rest, cs, u, hrest, huntil, h'⟩ |
    ⟨on, u, _, hwhole, h'⟩
  · rw [hkept, hs] at hp
    rw [hp.eq, State.withOptions_self hs, h]
  · have hu : u.options = s.options := (State.takeUntil_options huntil).trans rfl
    rw [extension_comment (s := { s with options := p }) hrest (State.takeUntil_withOptions huntil p)]
    exact ih.items h' (hu.trans hs) hp
  · obtain ⟨pn, hpn, hbetween⟩ := optionGroup_between hwhole hp
    rw [extension_whole hpn]
    have hagain := ih.items h' rfl hbetween
    exact hagain

theorem again (fuel : Nat) : Again fuel := by
  induction fuel with
  | zero =>
    refine ⟨?_, ?_, ?_, ?_⟩
    all_goals
      intros
      contradiction
  | succ fuel ih =>
    exact ⟨items_verbose ih, items_again ih, extension_verbose ih, extension_again ih⟩

theorem alternatives_again (h : alternatives fuel true o s = .ok (e, o', t)) (hs : s.options = o)
    (hp : o.Between t.options p) :
    alternatives fuel true p { s with options := p } = .ok (e, o', t) := by
  cases fuel with
  | zero => cases h
  | succ fuel =>
    rw [alternatives] at h ⊢
    obtain ⟨⟨first, o₁, s₁⟩, hfirst, h⟩ := except_bind_eq_ok.mp h
    have hkept : t.options = s₁.options := by
      dsimp only at h
      split at h
      · cases h
        rfl
      · next s₂ hbar =>
        obtain ⟨⟨others, o₂, s₃⟩, hothers, h⟩ := except_bind_eq_ok.mp h
        cases h
        rw [(keeps fuel).alternatives hothers, State.take_options hbar]
    rw [hkept] at hp
    rw [(again fuel).items hfirst hs hp]
    exact h

/-- A text read with the options it gave is the same expression, and gives them again. -/
theorem parse_again {source : Source} (h : parse o source = .ok (e, f)) :
    parse f source = .ok (e, f) := by
  unfold parse at h ⊢
  obtain ⟨⟨e₁, o₁, s₁⟩, hread, h⟩ := except_bind_eq_ok.mp h
  dsimp only at h
  split at h
  · cases h
  next hclash =>
  split at h
  · next hend =>
    cases h
    have hagain := alternatives_again hread rfl (.final o s₁.options)
    refine except_bind_eq_ok.mpr ⟨_, hagain, ?_⟩
    dsimp only
    rw [if_neg hclash, if_pos hend]
  · cases h

end Regex

namespace Pattern

theorem compiled_eq_ok {o : Regex.Options} {source : Regex.Source} {p : Pattern} :
    compiled o source = .ok p ↔ compile o source = .ok p := by
  rw [compiled]
  cases compile o source with
  | ok q =>
    constructor <;>
    · intro h
      cases h
      rfl
  | error e => exact ⟨fun h => (by cases h), fun h => (by cases h)⟩

/-- A pattern that some options and a source were compiled to. -/
def Compiled (p : Pattern) : Prop := ∃ o source, compile o source = .ok p

theorem compile_again {o : Regex.Options} {source : Regex.Source} {p : Pattern}
    (h : compile o source = .ok p) : compile p.options p.source = .ok p := by
  obtain ⟨⟨e, f⟩, hparse, rfl⟩ := except_map_eq_ok.mp h
  rw [compile, Regex.parse_again hparse]
  rfl

end Pattern

end DocStore
