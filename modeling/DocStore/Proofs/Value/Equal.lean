import DocStore.Value.Equal

/-! Values that are equal to a text, to an identifier or to null are just these. -/

namespace DocStore

namespace Value

/-- No number is equal to what is none. -/
theorem numberEqual_other {v w : Value} (hw : w.number? = none) :
    ¬ numberEqual false v w = true := by
  cases hv : v.number? <;> simp [numberEqual, hv, hw]

theorem equal_str_right {v : Value} {s : String} : equal v (str s) = true ↔ v = str s := by
  cases v with
  | str t => exact beq_iff_eq.trans (by rw [str.injEq])
  | float x => exact ⟨fun h => absurd h (numberEqual_other rfl), nofun⟩
  | _ => exact ⟨nofun, nofun⟩

theorem equal_str_left {v : Value} {s : String} : equal (str s) v = true ↔ v = str s := by
  cases v with
  | str t => exact beq_iff_eq.trans (by rw [str.injEq, eq_comm])
  | _ => exact ⟨nofun, nofun⟩

theorem equal_uuid_right {v : Value} {u : Uuid} : equal v (uuid u) = true ↔ v = uuid u := by
  cases v with
  | uuid w => exact beq_iff_eq.trans (by rw [uuid.injEq])
  | float x => exact ⟨fun h => absurd h (numberEqual_other rfl), nofun⟩
  | _ => exact ⟨nofun, nofun⟩

theorem equal_uuid_left {v : Value} {u : Uuid} : equal (uuid u) v = true ↔ v = uuid u := by
  cases v with
  | uuid w => exact beq_iff_eq.trans (by rw [uuid.injEq, eq_comm])
  | _ => exact ⟨nofun, nofun⟩

theorem equal_null_right (v : Value) : equal v null = v.isNull := by
  cases v with
  | float x => exact Bool.eq_false_iff.mpr (numberEqual_other rfl)
  | _ => rfl

@[simp] theorem equal_str (s t : String) : equal (str s) (str t) = decide (s = t) := rfl

theorem isNull_iff {v : Value} : v.isNull = true ↔ v = null := by
  cases v <;> simp [isNull]

theorem strictEqual_null (v : Value) : strictEqual v null = v.isNull := by
  simp only [strictEqual, equal_null_right]
  cases v <;> simp [isBool, isNull]

theorem strictEqual_null_left (v : Value) : strictEqual null v = v.isNull := by
  cases v <;> rfl

theorem strictEqual_uuid {v : Value} {u : Uuid} :
    strictEqual v (uuid u) = true ↔ v = uuid u := by
  simp only [strictEqual, Bool.and_eq_true, equal_uuid_right]
  constructor
  · exact fun h => h.2
  · rintro rfl
    simp [isBool]

end Value

end DocStore
