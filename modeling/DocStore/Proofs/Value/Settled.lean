import DocStore.Value.Order
import Mathlib.Algebra.Order.Field.Rat
import Mathlib.Data.List.Lex
import Mathlib.Tactic.Positivity
import Mathlib.Tactic.NormNum

/-! Lists of numbers that are compared before either of them ends, so that whatever follows them
makes no difference. -/

namespace DocStore

/-- Two lists compare in a way that holds for all that may follow. -/
def Settled : Ordering → List ℚ → List ℚ → Prop
  | .lt, u, v => ∀ s t, u ++ s < v ++ t
  | .eq, u, v => u = v
  | .gt, u, v => ∀ s t, v ++ s < u ++ t

namespace Settled

variable {o : Ordering} {u v : List ℚ}

theorem swap (h : Settled o u v) : Settled o.swap v u := by
  cases o with
  | eq => exact Eq.symm h
  | _ => exact h

theorem cons (a : ℚ) (h : Settled o u v) : Settled o (a :: u) (a :: v) := by
  cases o with
  | eq => exact congrArg (a :: ·) h
  | lt => exact fun s t => List.cons_lt_cons_iff.mpr (.inr ⟨rfl, h s t⟩)
  | gt => exact fun s t => List.cons_lt_cons_iff.mpr (.inr ⟨rfl, h s t⟩)

theorem append_left (w : List ℚ) (h : Settled o u v) : Settled o (w ++ u) (w ++ v) := by
  induction w with
  | nil => exact h
  | cons a w ih => exact ih.cons a

theorem append_right (h : Settled o u v) (ho : o ≠ .eq) (u' v' : List ℚ) :
    Settled o (u ++ u') (v ++ v') := by
  cases o with
  | eq => exact absurd rfl ho
  | lt =>
    intro s t
    rw [List.append_assoc, List.append_assoc]
    exact h _ _
  | gt =>
    intro s t
    rw [List.append_assoc, List.append_assoc]
    exact h _ _

theorem of_heads {a b : ℚ} (hab : a < b) (u v : List ℚ) : Settled .lt (a :: u) (b :: v) :=
  fun _ _ => List.cons_lt_cons_iff.mpr (.inl hab)

theorem of_compare {a b : ℚ} (h : Settled o u v) :
    Settled ((compare a b).then o) (a :: u) (b :: v) := by
  rcases lt_trichotomy a b with hab | rfl | hab
  · rw [compare_lt_iff_lt.mpr hab]
    exact of_heads hab u v
  · rw [compare_eq_iff_eq.mpr rfl]
    exact h.cons a
  · rw [compare_gt_iff_gt.mpr hab]
    exact (of_heads hab v u).swap

theorem lt_iff (h : Settled o u v) : u < v ↔ o = .lt := by
  cases o with
  | eq =>
    have he : u = v := h
    simp [he]
  | lt => simpa using h [] []
  | gt =>
    have hh : v < u := by simpa using h [] []
    simpa using hh.le

end Settled

end DocStore
