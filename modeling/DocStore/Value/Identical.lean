import DocStore.Value.Basic

/-! Whether two values are one and the same, which is decided part by part. -/

namespace DocStore

namespace Value

mutual

def identical : Value → Value → Bool
  | null, b => match b with | null => true | _ => false
  | bool x, b => match b with | bool y => x == y | _ => false
  | int x, b => match b with | int y => x == y | _ => false
  | float x, b => match b with | float y => x == y | _ => false
  | str x, b => match b with | str y => x == y | _ => false
  | list xs, b => match b with | list ys => identicalList xs ys | _ => false
  | dict ps, b => match b with | dict qs => identicalEntries ps qs | _ => false
  | bytes x, b => match b with | bytes y => x == y | _ => false
  | uuid x, b => match b with | uuid y => x == y | _ => false
  | datetime x, b => match b with | datetime y => x == y | _ => false
  | date x, b => match b with | date y => x == y | _ => false
  | tuple xs, b => match b with | tuple ys => identicalList xs ys | _ => false
  | set f xs, b => match b with | set g ys => f == g && identicalList xs ys | _ => false
  | pattern x, b => match b with | pattern y => x == y | _ => false
  | member o n v, b =>
    match b with | member o' n' w => o == o' && n == n' && identical v w | _ => false
  | record c fs, b => match b with | record d gs => c == d && identicalEntries fs gs | _ => false
  | cls x, b => match b with | cls y => x == y | _ => false
  | ext c x, b => match b with | ext d y => c == d && x == y | _ => false
  | timestamp s n, b => match b with | timestamp s' n' => s == s' && n == n' | _ => false
  | generic n x, b => match b with | generic n' y => n == n' && x == y | _ => false
  | handle, b => match b with | handle => true | _ => false
termination_by structural x => x

def identicalList : List Value → List Value → Bool
  | [], ys => ys.isEmpty
  | x :: xs, ys => match ys with | y :: ys => identical x y && identicalList xs ys | [] => false
termination_by structural x => x

def identicalEntries : Entries → Entries → Bool
  | [], qs => qs.isEmpty
  | p :: ps, qs =>
    match qs with
    | q :: qs => identicalEntry p q && identicalEntries ps qs
    | [] => false
termination_by structural x => x

def identicalEntry : Value × Value → Value × Value → Bool
  | (k, v), q => identical k q.1 && identical v q.2
termination_by structural x => x

end

mutual

theorem identical_iff (a : Value) : ∀ {b}, identical a b = true ↔ a = b := by
  intro b
  cases a with
  | list xs => cases b <;> simp [identical, identicalList_iff xs]
  | tuple xs => cases b <;> simp [identical, identicalList_iff xs]
  | dict ps => cases b <;> simp [identical, identicalEntries_iff ps]
  | set f xs => cases b <;> simp [identical, identicalList_iff xs]
  | record c fs => cases b <;> simp [identical, identicalEntries_iff fs]
  | member o n v => cases b <;> simp [identical, identical_iff v, and_assoc]
  | _ => cases b <;> simp [identical]
termination_by structural a

theorem identicalList_iff (xs : List Value) : ∀ {ys}, identicalList xs ys = true ↔ xs = ys := by
  intro ys
  cases xs with
  | nil => cases ys <;> simp [identicalList]
  | cons x xs => cases ys <;> simp [identicalList, identical_iff x, identicalList_iff xs]
termination_by structural xs

theorem identicalEntries_iff (ps : Entries) : ∀ {qs}, identicalEntries ps qs = true ↔ ps = qs := by
  intro qs
  cases ps with
  | nil => cases qs <;> simp [identicalEntries]
  | cons p ps => cases qs <;> simp [identicalEntries, identicalEntry_iff p, identicalEntries_iff ps]
termination_by structural ps

theorem identicalEntry_iff (p : Value × Value) : ∀ {q}, identicalEntry p q = true ↔ p = q := by
  intro q
  obtain ⟨k, v⟩ := p
  obtain ⟨l, w⟩ := q
  simp [identicalEntry, identical_iff k, identical_iff v]
termination_by structural p

end

instance : DecidableEq Value := fun a _ => decidable_of_iff _ (identical_iff a)

end Value

end DocStore
