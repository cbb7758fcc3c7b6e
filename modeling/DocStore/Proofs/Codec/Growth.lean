import DocStore.Codec.Encode
import DocStore.Proofs.Run

/-! Registries grow by classes that take their own names. Writing objects depends on nothing else
of a registry: what is written under one is written the same way under any that it grew into, and
under any that it grew from. -/

namespace DocStore

namespace Registry

theorem lookup_assign (k v m : String) (ps : List (String × String)) :
    (assign k v ps).lookup m = if m = k then some v else ps.lookup m := by
  induction ps with
  | nil =>
    by_cases hm : m = k
    · simp [assign, hm]
    · simp [assign, List.lookup_cons, beq_eq_false_iff_ne.mpr hm, hm]
  | cons p ps ih =>
    obtain ⟨k', w⟩ := p
    by_cases hk : k' = k
    · subst hk
      by_cases hm : m = k'
      · simp [assign, hm]
      · simp [assign, List.lookup_cons, beq_eq_false_iff_ne.mpr hm, hm]
    · by_cases hm : m = k'
      · have hmk : ¬ m = k := fun h => hk (hm.symm.trans h)
        simp [assign, hk, hm]
      · simp [assign, hk, List.lookup_cons, beq_eq_false_iff_ne.mpr hm, ih]

/-- A class can be given its own name: it is a class of records, and no other one has the name. -/
def Open (cat : Catalog) (r : Registry) (c : String) : Prop :=
  isEntity cat c = true ∧ ∀ holder, r.classNamed? c = some holder → holder = c

def named (r : Registry) (c : String) : Registry := ⟨assign c c r.byName, assign c c r.names⟩

theorem nameOf?_named (r : Registry) (c d : String) :
    (r.named c).nameOf? d = if d = c then some c else r.nameOf? d :=
  lookup_assign c c d r.names

theorem classNamed?_named (r : Registry) (c n : String) :
    (r.named c).classNamed? n = if n = c then some c else r.classNamed? n :=
  lookup_assign c c n r.byName

theorem register_own_eq {cat : Catalog} {r t : Registry} {c : String} :
    r.register cat (.cls (.entity c)) none = .ok t ↔ r.Open cat c ∧ t = r.named c := by
  simp only [register, Open, named]
  cases he : isEntity cat c with
  | false => simp
  | true =>
    cases hc : r.classNamed? c with
    | none => simp [eq_comm]
    | some holder =>
      by_cases hh : holder = c
      · simp [hh, eq_comm]
      · simp [hh]

theorem className_eq_ok_iff {cat : Catalog} {r t : Registry} {c n : String} :
    r.className cat (.cls (.entity c)) = .ok (n, t) ↔
      (r.nameOf? c = some n ∧ t = r) ∨
      (r.nameOf? c = none ∧ r.Open cat c ∧ n = c ∧ t = r.named c) := by
  simp only [className, Value.hashable, Value.hashableIn]
  cases hc : r.nameOf? c with
  | some m => simp [eq_comm]
  | none =>
    cases hr : r.register cat (.cls (.entity c)) none with
    | error e =>
      have hno : ¬ r.Open cat c := fun ho => by
        simp [register_own_eq.mpr ⟨ho, rfl⟩] at hr
      simp [hno, Except.bind]
    | ok t' =>
      obtain ⟨ho, rfl⟩ := register_own_eq.mp hr
      simp [Except.bind, nameOf?_named, ho, eq_comm]

/-- A registry after some classes took their own names. -/
structure Grown (cat : Catalog) (r t : Registry) : Prop where
  kept : ∀ {c n}, r.nameOf? c = some n → t.nameOf? c = some n
  own : ∀ {c n}, r.nameOf? c = none → t.nameOf? c = some n →
    r.Open cat c ∧ n = c ∧ t.classNamed? c = some c
  held : ∀ {n c}, r.classNamed? n = some c → t.classNamed? n = some c
  taken : ∀ {n c}, r.classNamed? n = none → t.classNamed? n = some c → c = n

namespace Grown

variable {cat : Catalog} {r t u : Registry}

theorem refl (cat : Catalog) (r : Registry) : Grown cat r r where
  kept h := h
  own h h' := by simp [h] at h'
  held h := h
  taken h h' := by simp [h] at h'

theorem trans (h : Grown cat r t) (h' : Grown cat t u) : Grown cat r u where
  kept hn := h'.kept (h.kept hn)
  held hn := h'.held (h.held hn)
  own {c n} hr hu := by
    cases ht : t.nameOf? c with
    | some m =>
      obtain ⟨ho, rfl, hc⟩ := h.own hr ht
      have hm := h'.kept ht
      rw [hu] at hm
      exact ⟨ho, Option.some.inj hm, h'.held hc⟩
    | none =>
      obtain ⟨ho, hn, hc⟩ := h'.own ht hu
      exact ⟨⟨ho.1, fun holder hh => ho.2 holder (h.held hh)⟩, hn, hc⟩
  taken {n c} hr hu := by
    cases ht : t.classNamed? n with
    | some d =>
      have hd := h.taken hr ht
      have hm := h'.held ht
      rw [hu] at hm
      exact (Option.some.inj hm).trans hd
    | none => exact h'.taken ht hu

theorem open_onward {c : String} (h : Grown cat r t) (ho : r.Open cat c) : t.Open cat c := by
  refine ⟨ho.1, fun holder hh => ?_⟩
  cases hr : r.classNamed? c with
  | some d =>
    have hd := h.held hr
    rw [hh] at hd
    exact (Option.some.inj hd).trans (ho.2 d hr)
  | none => exact h.taken hr hh

theorem open_back {c : String} (h : Grown cat r t) (ho : t.Open cat c) : r.Open cat c :=
  ⟨ho.1, fun holder hh => ho.2 holder (h.held hh)⟩

end Grown

theorem Open.grown {cat : Catalog} {r : Registry} {c : String} (ho : r.Open cat c)
    (hn : r.nameOf? c = none) : Grown cat r (r.named c) where
  kept {d n} hd := by
    have hne : ¬ d = c := by
      rintro rfl
      simp [hn] at hd
    simpa [nameOf?_named, hne] using hd
  own {d n} hd hd' := by
    rw [nameOf?_named] at hd'
    by_cases he : d = c
    · subst he
      have hnc : n = d := by simpa [eq_comm] using hd'
      exact ⟨ho, hnc, by simp [classNamed?_named]⟩
    · simp [he, hd] at hd'
  held {n d} hd := by
    rw [classNamed?_named]
    by_cases he : n = c
    · subst he
      simp [ho.2 d hd]
    · simpa [he] using hd
  taken {n d} hd hd' := by
    rw [classNamed?_named] at hd'
    by_cases he : n = c
    · simpa [he, eq_comm] using hd'
    · simp [he, hd] at hd'

theorem Grown.named {cat : Catalog} {r t : Registry} (h : Grown cat r t) (c : String) :
    Grown cat (r.named c) (t.named c) where
  kept {d n} hd := by
    rw [nameOf?_named] at hd ⊢
    by_cases he : d = c
    · simpa [he] using hd
    · simp only [he, if_false] at hd ⊢
      exact h.kept hd
  own {d n} hd hd' := by
    rw [nameOf?_named] at hd hd'
    by_cases he : d = c
    · simp [he] at hd
    · simp only [he, if_false] at hd hd'
      obtain ⟨hod, hn, hc⟩ := h.own hd hd'
      simp only [Open, classNamed?_named, he, if_false]
      exact ⟨hod, hn, hc⟩
  held {n d} hd := by
    rw [classNamed?_named] at hd ⊢
    by_cases he : n = c
    · simpa [he] using hd
    · simp only [he, if_false] at hd ⊢
      exact h.held hd
  taken {n d} hd hd' := by
    rw [classNamed?_named] at hd hd'
    by_cases he : n = c
    · simp [he] at hd
    · simp only [he, if_false] at hd hd'
      exact h.taken hd hd'

theorem Grown.named_left {cat : Catalog} {r t : Registry} {c : String} (h : Grown cat r t)
    (hr : r.nameOf? c = none) (ht : t.nameOf? c = some c) : Grown cat (r.named c) t where
  kept {d n} hd := by
    rw [nameOf?_named] at hd
    by_cases he : d = c
    · have hn : n = c := by simpa [he, eq_comm] using hd
      simpa [he, hn] using ht
    · simp only [he, if_false] at hd
      exact h.kept hd
  own {d n} hd hd' := by
    rw [nameOf?_named] at hd
    by_cases he : d = c
    · simp [he] at hd
    · simp only [he, if_false] at hd
      simp only [Open, classNamed?_named, he, if_false]
      exact h.own hd hd'
  held {n d} hd := by
    rw [classNamed?_named] at hd
    by_cases he : n = c
    · have hd' : d = c := by simpa [he, eq_comm] using hd
      rw [he, hd']
      exact (h.own hr ht).2.2
    · simp only [he, if_false] at hd
      exact h.held hd
  taken {n d} hd hd' := by
    rw [classNamed?_named] at hd
    by_cases he : n = c
    · simp [he] at hd
    · simp only [he, if_false] at hd
      exact h.taken hd hd'

end Registry

open Registry

instance {cat : Catalog} : IsPreorder Registry (Grown cat) where
  refl := .refl cat
  trans _ _ _ h h' := h.trans h'

/-- Work whose success and result depend on a registry only up to growth, and that makes it
grow. -/
structure Steady (cat : Catalog) {α : Type} (x : Naming α) : Prop where
  grown : Within (Grown cat) x
  onward : ∀ {r r' t a}, Grown cat r r' → x r = (.ok a, t) →
    ∃ t', x r' = (.ok a, t') ∧ Grown cat t t'
  back : ∀ {r r' t' a}, Grown cat r r' → x r' = (.ok a, t') →
    ∃ t, x r = (.ok a, t) ∧ Grown cat t t'

namespace Steady

variable {cat : Catalog} {α β : Type}

theorem grows {x : Naming α} (hx : Steady cat x) {r t : Registry} {a : Except Error α}
    (h : x r = (a, t)) : Grown cat r t := by
  have hg := hx.grown r
  rwa [h] at hg

theorem pure (a : α) : Steady cat (Pure.pure a) where
  grown := within_pure a
  onward hg h := by
    cases h
    exact ⟨_, rfl, hg⟩
  back hg h := by
    cases h
    exact ⟨_, rfl, hg⟩

theorem throw (e : Error) : Steady cat (MonadExcept.throw e : Naming α) where
  grown := within_throw e
  onward _ h := by cases h
  back _ h := by cases h

theorem lift (a : Except Error α) : Steady cat (liftExcept a : Naming α) := by
  cases a with
  | ok a => exact .pure a
  | error e => exact .throw e

theorem bind {x : Naming α} {f : α → Naming β} (hx : Steady cat x)
    (hf : ∀ a, Steady cat (f a)) : Steady cat (x >>= f) where
  grown := within_bind hx.grown fun a => (hf a).grown
  onward hg h := by
    obtain ⟨a, t, ha, hb⟩ := bind_eq_ok_iff.mp h
    obtain ⟨t', ha', hg'⟩ := hx.onward hg ha
    obtain ⟨u', hb', hu⟩ := (hf a).onward hg' hb
    exact ⟨u', bind_eq_ok_iff.mpr ⟨a, t', ha', hb'⟩, hu⟩
  back hg h := by
    obtain ⟨a, t', ha', hb'⟩ := bind_eq_ok_iff.mp h
    obtain ⟨t, ha, hg'⟩ := hx.back hg ha'
    obtain ⟨u, hb, hu⟩ := (hf a).back hg' hb'
    exact ⟨u, bind_eq_ok_iff.mpr ⟨a, t, ha, hb⟩, hu⟩

theorem map {x : Naming α} (f : α → β) (hx : Steady cat x) : Steady cat (f <$> x) := by
  rw [map_eq_bind]
  exact hx.bind fun a => .pure (f a)

/-- Registries with a common origin give the same result. -/
theorem agree {x : Naming α} (hx : Steady cat x) {r₀ r r' t t' : Registry} {a a' : α}
    (hg : Grown cat r₀ r) (hg' : Grown cat r₀ r') (h : x r = (.ok a, t)) (h' : x r' = (.ok a', t')) :
    a = a' := by
  obtain ⟨u, hu, _⟩ := hx.back hg h
  obtain ⟨u', hu', _⟩ := hx.back hg' h'
  rw [hu] at hu'
  cases hu'
  rfl

end Steady

theorem className_run_iff {cat : Catalog} {r t : Registry} {c n : String} :
    Naming.className cat c r = (.ok n, t) ↔ r.className cat (.cls (.entity c)) = .ok (n, t) := by
  unfold Naming.className
  cases r.className cat (.cls (.entity c)) with
  | error e =>
    constructor
    · intro h
      cases h
    · intro h
      cases h
  | ok p =>
    constructor
    · intro h
      cases h
      rfl
    · intro h
      cases h
      rfl

theorem className_run_error {cat : Catalog} {r t : Registry} {c : String} {e : Error}
    (h : Naming.className cat c r = (.error e, t)) : t = r := by
  unfold Naming.className at h
  split at h
  · cases h
  · cases h
    rfl

theorem className_steady (cat : Catalog) (c : String) : Steady cat (Naming.className cat c) where
  grown := by
    intro r
    rcases hx : Naming.className cat c r with ⟨e | n, t⟩
    · obtain rfl : t = r := className_run_error hx
      exact .refl cat _
    · rcases className_eq_ok_iff.mp (className_run_iff.mp hx) with ⟨_, rfl⟩ | ⟨hn, ho, _, rfl⟩
      · exact .refl cat _
      · exact ho.grown hn
  onward {r r' t n} hg h := by
    simp only [className_run_iff, className_eq_ok_iff] at h ⊢
    rcases h with ⟨hn, rfl⟩ | ⟨hn, ho, rfl, rfl⟩
    · exact ⟨r', .inl ⟨hg.kept hn, rfl⟩, hg⟩
    · cases hc : r'.nameOf? n with
      | none =>
        exact ⟨r'.named n, .inr ⟨rfl, hg.open_onward ho, rfl, rfl⟩, hg.named n⟩
      | some m =>
        obtain ⟨_, rfl, _⟩ := hg.own hn hc
        exact ⟨r', .inl ⟨rfl, rfl⟩, hg.named_left hn hc⟩
  back {r r' t' n} hg h := by
    simp only [className_run_iff, className_eq_ok_iff] at h ⊢
    rcases h with ⟨hn, rfl⟩ | ⟨hn, ho, rfl, rfl⟩
    · cases hc : r.nameOf? c with
      | some m =>
        have hm : m = n := Option.some.inj ((hg.kept hc).symm.trans hn)
        exact ⟨r, .inl ⟨congrArg some hm, rfl⟩, hg⟩
      | none =>
        obtain ⟨ho, rfl, _⟩ := hg.own hc hn
        exact ⟨r.named n, .inr ⟨rfl, ho, rfl, rfl⟩, hg.named_left hc hn⟩
    · have hc : r.nameOf? n = none := by
        cases hc : r.nameOf? n with
        | none => rfl
        | some m => simp [hg.kept hc] at hn
      exact ⟨r.named n, .inr ⟨hc, hg.open_back ho, rfl, rfl⟩,
        hg.named n⟩

namespace Codec

theorem header_steady (cat : Catalog) (s : Schema) (cls : String) (fields : Entries) :
    Steady cat (header cat s cls fields) := by
  unfold header
  refine (className_steady cat cls).bind fun name => ?_
  split
  · exact .pure _
  · exact .pure _

mutual

theorem toValue_steady (cat : Catalog) (s : Schema) (v : Value) : Steady cat (toValue cat s v) := by
  cases v with
  | record c fs =>
    rw [toValue]
    exact (header_steady cat s c fs).bind fun start =>
      (toFields_steady cat s c fs).bind fun _ => .pure _
  | list xs =>
    rw [toValue]
    exact (toValues_steady cat s xs).bind fun _ => .pure _
  | tuple xs =>
    rw [toValue]
    exact (toValues_steady cat s xs).bind fun _ => .pure _
  | set frozen xs =>
    rw [toValue]
    exact (toValues_steady cat s xs).bind fun _ => .pure _
  | dict ps =>
    rw [toValue]
    exact (toEntries_steady cat s ps).bind fun _ => .pure _
  | _ =>
    rw [toValue] <;> first | exact .pure _ | simp
termination_by structural v

theorem toValues_steady (cat : Catalog) (s : Schema) (xs : List Value) :
    Steady cat (toValues cat s xs) := by
  cases xs with
  | nil => exact .pure []
  | cons x xs =>
    rw [toValues]
    exact (toValue_steady cat s x).bind fun _ =>
      (toValues_steady cat s xs).bind fun _ => .pure _
termination_by structural xs

theorem toEntries_steady (cat : Catalog) (s : Schema) (ps : Entries) :
    Steady cat (toEntries cat s ps) := by
  cases ps with
  | nil => exact .pure []
  | cons p ps =>
    rw [toEntries]
    exact (toEntry_steady cat s p).bind fun _ =>
      (toEntries_steady cat s ps).bind fun _ => .pure _
termination_by structural ps

theorem toEntry_steady (cat : Catalog) (s : Schema) (p : Value × Value) :
    Steady cat (toEntry cat s p) := by
  cases p with
  | mk k v =>
    rw [toEntry]
    exact (toValue_steady cat s v).bind fun _ => .pure _
termination_by structural p

theorem toFields_steady (cat : Catalog) (s : Schema) (cls : String) (fs : Entries) :
    Steady cat (toFields cat s cls fs) := by
  cases fs with
  | nil => exact .pure []
  | cons f fs =>
    rw [toFields]
    split
    · exact toFields_steady cat s cls fs
    · exact (toEntry_steady cat s f).bind fun _ =>
        (toFields_steady cat s cls fs).bind fun _ => .pure _
termination_by structural fs

end

theorem toDocument_steady (cat : Catalog) (s : Schema) (v : Value) :
    Steady cat (toDocument cat s v) := by
  cases v with
  | record c fs => exact toValue_steady cat s _
  | _ => exact .throw _

end Codec

end DocStore
