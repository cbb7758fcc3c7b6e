import DocStore.Error
import Mathlib.Order.Defs.Unbundled

/-! Work that may fail and keeps a state, run step by step. -/

namespace DocStore

variable {σ ε α β : Type}

theorem except_bind_eq_ok {x : Except ε α} {f : α → Except ε β} {b : β} :
    x.bind f = .ok b ↔ ∃ a, x = .ok a ∧ f a = .ok b := by
  cases x <;> simp [Except.bind]

theorem except_map_eq_ok {x : Except ε α} {f : α → β} {b : β} :
    x.map f = .ok b ↔ ∃ a, x = .ok a ∧ f a = b := by
  cases x <;> simp [Except.map]

theorem bind_of_ok {x : ExceptT Error (StateM σ) α} {f : α → ExceptT Error (StateM σ) β}
    {s t : σ} {a : α} (h : x s = (.ok a, t)) : (x >>= f) s = f a t := by
  change (ExceptT.bindCont f (x s).1 : StateM σ (Except Error β)) (x s).2 = f a t
  rw [h]
  rfl

theorem bind_of_error {x : ExceptT Error (StateM σ) α} {f : α → ExceptT Error (StateM σ) β}
    {s t : σ} {e : Error} (h : x s = (.error e, t)) : (x >>= f) s = (.error e, t) := by
  change (ExceptT.bindCont f (x s).1 : StateM σ (Except Error β)) (x s).2 = (.error e, t)
  rw [h]
  rfl

theorem bind_eq_ok_iff {x : ExceptT Error (StateM σ) α} {f : α → ExceptT Error (StateM σ) β}
    {s u : σ} {b : β} :
    (x >>= f) s = (.ok b, u) ↔ ∃ a t, x s = (.ok a, t) ∧ f a t = (.ok b, u) := by
  constructor
  · intro h
    rcases hx : x s with ⟨e | a, t⟩
    · rw [bind_of_error hx] at h
      cases h
    · rw [bind_of_ok hx] at h
      exact ⟨a, t, rfl, h⟩
  · rintro ⟨a, t, hx, hf⟩
    rw [bind_of_ok hx, hf]

theorem map_eq_bind (f : α → β) (x : ExceptT Error (StateM σ) α) :
    f <$> x = x >>= fun a => pure (f a) := by
  funext s
  rcases hx : x s with ⟨e | a, t⟩
  · rw [bind_of_error hx]
    change (ExceptT.map f x : StateM σ (Except Error β)) s = _
    simp only [ExceptT.map, ExceptT.mk, bind, StateT.bind, hx]
    rfl
  · rw [bind_of_ok hx]
    change (ExceptT.map f x : StateM σ (Except Error β)) s = _
    simp only [ExceptT.map, ExceptT.mk, bind, StateT.bind, hx]
    rfl

theorem run_discard (x : ExceptT Error (StateM σ) α) (s : σ) :
    (discard x : ExceptT Error (StateM σ) PUnit) s = ((x s).1.map fun _ => ⟨⟩, (x s).2) := by
  have hd : (discard x : ExceptT Error (StateM σ) PUnit) = x >>= fun _ => pure ⟨⟩ := by
    rw [← map_eq_bind]
    rfl
  rw [hd]
  rcases hx : x s with ⟨e | a, t⟩
  · rw [bind_of_error hx]
    rfl
  · rw [bind_of_ok hx]
    rfl

theorem run_pure (a : α) (s : σ) : (pure a : ExceptT Error (StateM σ) α) s = (.ok a, s) := rfl

theorem map_injective {f : α → β} (hf : Function.Injective f)
    {x y : ExceptT Error (StateM σ) α} (h : f <$> x = f <$> y) : x = y := by
  funext m
  have hm := congrFun h m
  rw [map_eq_bind, map_eq_bind] at hm
  rcases hx : x m with ⟨e | a, t⟩ <;> rcases hy : y m with ⟨e' | b, u⟩
  · rw [bind_of_error hx, bind_of_error hy] at hm
    cases hm
    rfl
  · rw [bind_of_error hx, bind_of_ok hy] at hm
    cases hm
  · rw [bind_of_ok hx, bind_of_error hy] at hm
    cases hm
  · rw [bind_of_ok hx, bind_of_ok hy, run_pure, run_pure, Prod.mk.injEq, Except.ok.injEq] at hm
    rw [hf hm.1, hm.2]

theorem run_get (s : σ) : (get : ExceptT Error (StateM σ) σ) s = (.ok s, s) := rfl

theorem run_modify (f : σ → σ) (s : σ) :
    (modify f : ExceptT Error (StateM σ) Unit) s = (.ok (), f s) := rfl

theorem run_liftExcept (a : Except Error α) (s : σ) :
    (liftExcept a : ExceptT Error (StateM σ) α) s = (a, s) := by
  cases a <;> rfl

theorem liftExcept_bind_eq_ok {a : Except Error α} {f : α → ExceptT Error (StateM σ) β} {s u : σ}
    {b : β} (h : (liftExcept a >>= f) s = (.ok b, u)) : ∃ v, a = .ok v ∧ f v s = (.ok b, u) := by
  cases a with
  | error e =>
    rw [bind_of_error (run_liftExcept _ s)] at h
    cases h
  | ok v =>
    rw [bind_of_ok (run_liftExcept _ s)] at h
    exact ⟨v, rfl, h⟩

/-! What work leaves behind, whether it succeeds or not -/

/-- Work whose states before and after are related. -/
def Within (R : σ → σ → Prop) (x : ExceptT Error (StateM σ) α) : Prop := ∀ s, R s (x s).2

section Within

variable {R : σ → σ → Prop} [IsPreorder σ R] {x : ExceptT Error (StateM σ) α}
  {f : α → ExceptT Error (StateM σ) β}

theorem within_pure (a : α) : Within R (pure a) := fun s => refl_of R s

theorem within_throw (e : Error) : Within R (throw e : ExceptT Error (StateM σ) α) :=
  fun s => refl_of R s

theorem within_get : Within R (get : ExceptT Error (StateM σ) σ) := fun s => refl_of R s

omit [IsPreorder σ R] in
/-- Work that starts with the state it is done in. -/
theorem within_of_get {y : σ → ExceptT Error (StateM σ) α} (hy : ∀ s, R s (y s s).2) :
    Within R (get >>= y) := by
  intro s
  rw [bind_of_ok (run_get s)]
  exact hy s

theorem within_liftExcept (a : Except Error α) :
    Within R (liftExcept a : ExceptT Error (StateM σ) α) := by
  intro s
  rw [run_liftExcept]
  exact refl_of R s

theorem bind_related {s : σ} (hs : R s (x s).2) (hf : ∀ a, Within R (f a)) :
    R s ((x >>= f) s).2 := by
  rcases hr : x s with ⟨e | a, t⟩
  · rw [bind_of_error hr]
    rwa [hr] at hs
  · rw [bind_of_ok hr]
    rw [hr] at hs
    exact trans_of R hs (hf a t)

theorem within_bind (hx : Within R x) (hf : ∀ a, Within R (f a)) : Within R (x >>= f) :=
  fun s => bind_related (hx s) hf

theorem within_bind_liftExcept {a : Except Error α}
    (hf : ∀ v, a = .ok v → Within R (f v)) : Within R (liftExcept a >>= f) := by
  intro s
  cases a with
  | ok v =>
    rw [bind_of_ok (run_liftExcept _ s)]
    exact hf v rfl s
  | error e =>
    rw [bind_of_error (run_liftExcept _ s)]
    exact refl_of R s

theorem within_step {c : Bool} {y : ExceptT Error (StateM σ) Unit}
    {rest : Unit → ExceptT Error (StateM σ) β} (hy : Within R y) (hrest : ∀ u, Within R (rest u)) :
    Within R (if c then y >>= rest else rest ()) := by
  cases c with
  | true => exact within_bind hy hrest
  | false => exact hrest ()

omit [IsPreorder σ R] in
theorem within_ite {c : Bool} {y : ExceptT Error (StateM σ) α} (hx : Within R x)
    (hy : Within R y) : Within R (if c then x else y) := by
  cases c with
  | true => exact hx
  | false => exact hy

omit [IsPreorder σ R] in
theorem within_discard (hx : Within R x) : Within R (discard x) := by
  intro s
  rw [run_discard]
  exact hx s

end Within

end DocStore
