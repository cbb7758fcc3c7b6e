import DocStore.Proofs.Value.Equal
import DocStore.Proofs.Value.SortOrder

/-! Equality of values without parts. Each has a mark, and two of them are equal if their marks are
the same; what is no number has none, and equals nothing. -/

namespace DocStore

open Value

inductive Mark
  | number (code : List ℚ)
  | moment (aware : Bool) (utcMicros : Int)
  | exactly (v : Value)

def Exact.mark? : Exact → Option Mark
  | .nan => none
  | x => some (.number x.code)

theorem Exact.mark?_of_ne {x : Exact} (h : x ≠ .nan) : x.mark? = some (.number x.code) := by
  cases x with
  | nan => exact absurd rfl h
  | _ => rfl

theorem Exact.code_eq_of_compare {x y : Exact} (h : x.compare y = some .eq) :
    x ≠ .nan ∧ y ≠ .nan ∧ x.code = y.code := by
  refine ⟨?_, ?_, Exact.settled h⟩
  · rintro rfl
    cases h
  · rintro rfl
    cases x <;> cases h

theorem Exact.compare_of_code_eq {x y : Exact} (hx : x ≠ .nan) (hy : y ≠ .nan)
    (h : x.code = y.code) : x.compare y = some .eq := by
  obtain ⟨o, ho⟩ := compared_of_numbers hx hy
  have hlt := (Exact.settled ho).lt_iff
  have hgt := (Exact.settled ho).swap.lt_iff
  rw [h] at hlt hgt
  cases o with
  | eq => exact ho
  | lt => simp at hlt
  | gt => simp at hgt

namespace Value

/-- Whether a value has no parts: it is no sequence, no dictionary, and no object of a class. -/
def single : Value → Bool
  | null | bool _ | int _ | float _ | str _ | bytes _ | uuid _ | datetime _ | date _ => true
  | pattern _ | timestamp _ _ => true
  | _ => false

def mark? : Value → Option Mark
  | datetime t => some (.moment t.offset.isSome t.utcMicros)
  | bool b => (number? (bool b)).bind Exact.mark?
  | int n => (number? (int n)).bind Exact.mark?
  | float x => (number? (float x)).bind Exact.mark?
  | v => if v.single then some (.exactly v) else none

variable {a b k l : Value}

theorem mark?_of_number {x : Exact} (h : a.number? = some x) : a.mark? = x.mark? := by
  cases a with
  | bool b =>
    rw [mark?, h]
    rfl
  | int n =>
    rw [mark?, h]
    rfl
  | float y =>
    rw [mark?, h]
    rfl
  | _ => cases h

theorem marks_of_numberEqual (h : numberEqual false a b = true) :
    ∃ m, a.mark? = some m ∧ b.mark? = some m := by
  rw [numberEqual_eq, beq_iff_eq] at h
  obtain ⟨x, y, hx, hy, hc⟩ := comparedNumbers_eq_some h
  obtain ⟨hxn, hyn, hcode⟩ := Exact.code_eq_of_compare hc
  refine ⟨.number x.code, ?_, ?_⟩
  · rw [mark?_of_number hx, Exact.mark?_of_ne hxn]
  · rw [mark?_of_number hy, Exact.mark?_of_ne hyn, hcode]

theorem marks_of_datetimes {t u : DateTime} (h : t.compare u = some .eq) :
    (datetime t).mark? = (datetime u).mark? := by
  unfold DateTime.compare at h
  split at h
  · next haware =>
    have hmicros := compare_eq_iff_eq.mp (Option.some.inj h)
    rw [mark?, mark?, haware, hmicros]
  · cases h

/-- A value without parts has the mark of all that it is equal to. -/
theorem marks_of_equal (ha : a.single = true) (h : equal a b = true) :
    ∃ m, a.mark? = some m ∧ b.mark? = some m := by
  unfold equal at h
  cases a with
  | bool x => exact marks_of_numberEqual h
  | int x => exact marks_of_numberEqual h
  | float x => exact marks_of_numberEqual h
  | datetime t =>
    cases b with
    | datetime u => exact ⟨_, rfl, (marks_of_datetimes (by simpa [eqv] using h)).symm⟩
    | _ => cases h
  | null =>
    obtain rfl := isNull_iff.mp h
    exact ⟨_, rfl, rfl⟩
  | timestamp s n =>
    cases b with
    | timestamp s' n' =>
      obtain ⟨rfl, rfl⟩ : s = s' ∧ n = n' := by simpa [eqv] using h
      exact ⟨_, rfl, rfl⟩
    | _ => cases h
  | str s =>
    cases b with
    | str t =>
      obtain rfl : s = t := by simpa [eqv] using h
      exact ⟨_, rfl, rfl⟩
    | _ => cases h
  | bytes x =>
    cases b with
    | bytes y =>
      obtain rfl : x = y := by simpa [eqv] using h
      exact ⟨_, rfl, rfl⟩
    | _ => cases h
  | uuid x =>
    cases b with
    | uuid y =>
      obtain rfl : x = y := by simpa [eqv] using h
      exact ⟨_, rfl, rfl⟩
    | _ => cases h
  | date x =>
    cases b with
    | date y =>
      obtain rfl : x = y := by simpa [eqv] using h
      exact ⟨_, rfl, rfl⟩
    | _ => cases h
  | pattern x =>
    cases b with
    | pattern y =>
      obtain rfl : x = y := by simpa [eqv] using h
      exact ⟨_, rfl, rfl⟩
    | _ => cases h
  | _ => cases ha

theorem number_of_mark {code : List ℚ} (h : a.mark? = some (.number code)) :
    ∃ x, a.number? = some x ∧ x ≠ .nan ∧ x.code = code := by
  have hnumber : ∀ {x : Exact}, a.number? = some x →
      ∃ x, a.number? = some x ∧ x ≠ .nan ∧ x.code = code := by
    intro x hx
    rw [mark?_of_number hx] at h
    cases x with
    | nan => cases h
    | _ => exact ⟨_, hx, nofun, Mark.number.inj (Option.some.inj h)⟩
  cases a with
  | bool b => exact hnumber rfl
  | int n => exact hnumber rfl
  | float x => exact hnumber rfl
  | _ => simp [mark?, single] at h

theorem datetime_of_mark {aware : Bool} {micros : Int}
    (h : a.mark? = some (.moment aware micros)) :
    ∃ t, a = datetime t ∧ t.offset.isSome = aware ∧ t.utcMicros = micros := by
  have hnumber : ∀ {x : Exact}, a.number? ≠ some x := by
    intro x hx
    rw [mark?_of_number hx] at h
    cases x <;> cases h
  cases a with
  | datetime t =>
    obtain ⟨haware, hmicros⟩ := Mark.moment.inj (Option.some.inj h)
    exact ⟨t, rfl, haware, hmicros⟩
  | bool b => exact absurd rfl hnumber
  | int n => exact absurd rfl hnumber
  | float x => exact absurd rfl hnumber
  | _ => simp [mark?, single] at h

theorem eq_of_mark {v : Value} (h : a.mark? = some (.exactly v)) : a = v ∧ equal a a = true := by
  have hnumber : ∀ {x : Exact}, a.number? ≠ some x := by
    intro x hx
    rw [mark?_of_number hx] at h
    cases x <;> cases h
  cases a with
  | bool b => exact absurd rfl hnumber
  | int n => exact absurd rfl hnumber
  | float x => exact absurd rfl hnumber
  | _ => simp [mark?, single] at h <;> simp [h, equal, eqv, isNull]

theorem equal_of_marks {m : Mark} (ha : a.mark? = some m) (hb : b.mark? = some m) :
    equal a b = true := by
  cases m with
  | number code =>
    obtain ⟨x, hx, hxn, hxc⟩ := number_of_mark ha
    obtain ⟨y, hy, hyn, hyc⟩ := number_of_mark hb
    have hcompare : x.compare y = some .eq :=
      Exact.compare_of_code_eq hxn hyn (hxc.trans hyc.symm)
    have hequal : numberEqual false a b = true := by
      rw [numberEqual_eq, comparedNumbers, hx, hy]
      simp [hcompare]
    cases a with
    | bool _ => exact hequal
    | int _ => exact hequal
    | float _ => exact hequal
    | _ => cases hx
  | moment aware micros =>
    obtain ⟨t, rfl, htaware, htmicros⟩ := datetime_of_mark ha
    obtain ⟨u, rfl, huaware, humicros⟩ := datetime_of_mark hb
    have hcompare : t.compare u = some .eq := by
      rw [DateTime.compare, if_pos (htaware.trans huaware.symm), htmicros, humicros]
      simp
    simp [equal, eqv, hcompare]
  | exactly v =>
    obtain ⟨rfl, hself⟩ := eq_of_mark ha
    obtain ⟨rfl, _⟩ := eq_of_mark hb
    exact hself

/-- What is found under a key: the key itself, or what is equal to it. -/
def Under (k v : Value) : Prop := v = k ∨ equal v k = true

/-- Values that are equal stand under equal keys. -/
theorem Under.equal_keys (ha : Under k a) (hb : Under l b) (hsa : a.single = true)
    (hsb : b.single = true) (h : equal a b = true) : equal k l = true := by
  obtain ⟨m, hma, hmb⟩ := marks_of_equal hsa h
  have hmark : ∀ {v key : Value}, Under key v → v.single = true → v.mark? = some m →
      key.mark? = some m := by
    intro v key hv hs hm
    rcases hv with rfl | he
    · exact hm
    · obtain ⟨m', hm', hkey⟩ := marks_of_equal hs he
      rw [hkey, ← hm', hm]
  exact equal_of_marks (hmark ha hsa hma) (hmark hb hsb hmb)

end Value

end DocStore
