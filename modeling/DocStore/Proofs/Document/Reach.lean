import DocStore.Document.Path
import DocStore.Proofs.Document.Entries

/-! What a path reaches, as a relation. Reading a path whose numbers can be read gives just the
values that it reaches. -/

namespace DocStore

open Value

theorem lookupEntry_eq (s : String) (rest : List String) (ps : Entries) :
    lookupEntry s rest ps =
      match Entries.get? (str s) ps with
      | some v => lookup rest v
      | none => .ok [] := by
  induction ps with
  | nil => rfl
  | cons p ps ih =>
    obtain ⟨k, v⟩ := p
    rw [lookupEntry, Entries.get?]
    split
    · rfl
    · exact ih

theorem isDict_iff {v : Value} : v.isDict = true ↔ ∃ ps, v = dict ps := by
  cases v <;> simp [isDict]

theorem lookup_nil (v : Value) : lookup [] v = .ok [v] := by
  cases v with
  | dict ps => rw [lookup]
  | list xs => rw [lookup]
  | _ =>
    rw [lookup]
    · rfl
    · simp
    · simp

theorem lookup_bare {v : Value} (hd : ∀ ps, v ≠ dict ps) (hl : ∀ xs, v ≠ list xs) (s : String)
    (rest : List String) : lookup (s :: rest) v = .ok [] := by
  cases v with
  | dict ps => exact absurd rfl (hd ps)
  | list xs => exact absurd rfl (hl xs)
  | _ => rw [lookup] <;> simp

/-- A path leads from a value to another: by the entry of a dictionary, by the number of an item,
or across the dictionaries of an array. -/
inductive Reaches : List String → Value → Value → Prop
  | here (v : Value) : Reaches [] v v
  | entry {s : String} {rest : List String} {ps : Entries} {v w : Value}
      (hv : Entries.get? (str s) ps = some v) (hw : Reaches rest v w) :
      Reaches (s :: rest) (dict ps) w
  | item {s : String} {rest : List String} {xs : List Value} {i : Int} {v w : Value}
      (hs : isIndex s = true) (hi : Integer.ofText? s = some i) (hv : xs[i.toNat]? = some v)
      (hw : Reaches rest v w) : Reaches (s :: rest) (list xs) w
  | across {s : String} {rest : List String} {xs : List Value} {ps : Entries} {w : Value}
      (hs : isIndex s = false) (hp : dict ps ∈ xs) (hw : Reaches (s :: rest) (dict ps) w) :
      Reaches (s :: rest) (list xs) w

/-- Every segment made of digits is a number. -/
def ReadableSegments (segs : List String) : Prop :=
  ∀ s ∈ segs, isIndex s = true → ∃ i, Integer.ofText? s = some i

def Readable (path : String) : Prop := ReadableSegments (segments path)

instance (segs : List String) : Decidable (ReadableSegments segs) :=
  decidable_of_iff (∀ s ∈ segs, isIndex s = true → (Integer.ofText? s).isSome = true)
    (by simp only [ReadableSegments, Option.isSome_iff_exists])

instance (path : String) : Decidable (Readable path) :=
  inferInstanceAs (Decidable (ReadableSegments (segments path)))

theorem ReadableSegments.tail {s : String} {rest : List String}
    (h : ReadableSegments (s :: rest)) : ReadableSegments rest :=
  fun t ht => h t (List.mem_cons_of_mem _ ht)

theorem ReadableSegments.append {segs more : List String} (h : ReadableSegments segs)
    (h' : ReadableSegments more) : ReadableSegments (segs ++ more) := by
  intro s hs
  rcases List.mem_append.mp hs with hs | hs
  · exact h s hs
  · exact h' s hs

/-- What was found is what can be reached. -/
def Finds (found : Except Error (List Value)) (reached : Value → Prop) : Prop :=
  ∃ ws, found = .ok ws ∧ ∀ w, w ∈ ws ↔ reached w

theorem Finds.congr {found : Except Error (List Value)} {reached reached' : Value → Prop}
    (h : Finds found reached) (hr : ∀ w, reached w ↔ reached' w) : Finds found reached' := by
  obtain ⟨ws, hf, hw⟩ := h
  exact ⟨ws, hf, fun w => (hw w).trans (hr w)⟩

theorem Finds.nothing {reached : Value → Prop} (h : ∀ w, ¬ reached w) : Finds (.ok []) reached :=
  ⟨[], rfl, fun w => by simp [h w]⟩

theorem reaches_nil {v w : Value} : Reaches [] v w ↔ w = v := by
  constructor
  · rintro ⟨⟩
    rfl
  · rintro rfl
    exact .here w

theorem reaches_dict {s : String} {rest : List String} {ps : Entries} {w : Value} :
    Reaches (s :: rest) (dict ps) w ↔
      ∃ v, Entries.get? (str s) ps = some v ∧ Reaches rest v w := by
  constructor
  · rintro ⟨⟩
    exact ⟨_, ‹_›, ‹_›⟩
  · rintro ⟨v, hv, hw⟩
    exact .entry hv hw

theorem reaches_item {s : String} {rest : List String} {xs : List Value} {i : Int} {w : Value}
    (hs : isIndex s = true) (hi : Integer.ofText? s = some i) :
    Reaches (s :: rest) (list xs) w ↔ ∃ v, xs[i.toNat]? = some v ∧ Reaches rest v w := by
  constructor
  · intro h
    cases h with
    | item _ hj hv hw =>
      have he := Option.some.inj (hi.symm.trans hj)
      subst he
      exact ⟨_, hv, hw⟩
    | across hn _ _ => simp [hs] at hn
  · rintro ⟨v, hv, hw⟩
    exact .item hs hi hv hw

theorem reaches_across {s : String} {rest : List String} {xs : List Value} {w : Value}
    (hs : isIndex s = false) :
    Reaches (s :: rest) (list xs) w ↔
      ∃ ps, dict ps ∈ xs ∧ Reaches (s :: rest) (dict ps) w := by
  constructor
  · intro h
    cases h with
    | item hn _ _ _ => simp [hs] at hn
    | across _ hp hw => exact ⟨_, hp, hw⟩
  · rintro ⟨ps, hp, hw⟩
    exact .across hs hp hw

theorem lookup_finds_scalar {v : Value} (hd : ∀ ps, v ≠ dict ps) (hl : ∀ xs, v ≠ list xs)
    (segs : List String) : Finds (lookup segs v) (Reaches segs v) := by
  have he : lookup segs v = .ok (if segs.isEmpty then [v] else []) := by
    cases v with
    | dict ps => exact absurd rfl (hd ps)
    | list xs => exact absurd rfl (hl xs)
    | _ => rw [lookup] <;> simp
  rw [he]
  cases segs with
  | nil => exact ⟨[v], rfl, fun w => by simp [reaches_nil]⟩
  | cons s rest =>
    apply Finds.nothing
    rintro w (_ | _ | _ | _)
    · exact hd _ rfl
    · exact hl _ rfl
    · exact hl _ rfl

mutual

theorem lookup_finds (v : Value) :
    ∀ segs, ReadableSegments segs → Finds (lookup segs v) (Reaches segs v) := by
  intro segs h
  cases v with
  | dict ps =>
    cases segs with
    | nil => exact ⟨[dict ps], by simp [lookup], fun w => by simp [reaches_nil]⟩
    | cons s rest =>
      rw [lookup]
      exact (lookupEntry_finds ps s rest h.tail).congr fun w => reaches_dict.symm
  | list xs =>
    cases segs with
    | nil => exact ⟨[list xs], by simp [lookup], fun w => by simp [reaches_nil]⟩
    | cons s rest =>
      rw [lookup]
      cases hs : isIndex s with
      | true =>
        obtain ⟨i, hi⟩ := h s (by simp) hs
        simp only [hi, if_true]
        exact (lookupItem_finds xs i.toNat rest h.tail).congr fun w => (reaches_item hs hi).symm
      | false =>
        exact (lookupItems_finds xs s rest h).congr fun w => (reaches_across hs).symm
  | _ => exact lookup_finds_scalar (by simp) (by simp) segs
termination_by structural v

theorem lookupEntry_finds (ps : Entries) :
    ∀ s rest, ReadableSegments rest → Finds (lookupEntry s rest ps)
      fun w => ∃ v, Entries.get? (str s) ps = some v ∧ Reaches rest v w := by
  intro s rest h
  cases ps with
  | nil => exact .nothing (by simp [Entries.get?])
  | cons p ps =>
    rw [lookupEntry]
    by_cases hp : p.1 = str s
    · simp only [equal_str_right.mpr hp, if_true, Entries.get?_here hp]
      exact (lookupValue_finds p rest h).congr fun w => by simp
    · have he : ¬ equal p.1 (str s) = true := fun hh => hp (equal_str_right.mp hh)
      simp only [he, Entries.get?_past hp]
      exact lookupEntry_finds ps s rest h
termination_by structural ps

theorem lookupValue_finds (p : Value × Value) :
    ∀ rest, ReadableSegments rest → Finds (lookupValue rest p) (Reaches rest p.2) := by
  intro rest h
  cases p with
  | mk k v => exact lookup_finds v rest h
termination_by structural p

theorem lookupItem_finds (xs : List Value) :
    ∀ i rest, ReadableSegments rest → Finds (lookupItem i rest xs)
      fun w => ∃ v, xs[i]? = some v ∧ Reaches rest v w := by
  intro i rest h
  cases xs with
  | nil => exact .nothing (by simp)
  | cons x xs =>
    rw [lookupItem]
    cases i with
    | zero => exact (lookup_finds x rest h).congr fun w => by simp
    | succ i => exact (lookupItem_finds xs i rest h).congr fun w => by simp
termination_by structural xs

theorem lookupItems_finds (xs : List Value) :
    ∀ s rest, ReadableSegments (s :: rest) → Finds (lookupItems (s :: rest) xs)
      fun w => ∃ ps, dict ps ∈ xs ∧ Reaches (s :: rest) (dict ps) w := by
  intro s rest h
  cases xs with
  | nil => exact .nothing (by simp)
  | cons x xs =>
    obtain ⟨more, hmore, hm⟩ := lookupItems_finds xs s rest h
    rw [lookupItems]
    cases hx : x.isDict with
    | true =>
      obtain ⟨ws, hws, hw⟩ := lookup_finds x (s :: rest) h
      obtain ⟨ps, rfl⟩ := isDict_iff.mp hx
      refine ⟨ws ++ more, by simp [hws, hmore], fun w => ?_⟩
      rw [List.mem_append, hw, hm]
      simp [or_and_right, exists_or]
    | false =>
      refine ⟨more, by simp [hmore], fun w => ?_⟩
      have hne : ∀ ps, dict ps ≠ x := by
        rintro ps rfl
        simp [isDict] at hx
      rw [hm]
      simp [hne]
termination_by structural xs

end

/-- Reading a readable path of a value gives just what the path reaches. -/
theorem lookupPath_finds {path : String} (h : Readable path) (v : Value) :
    Finds (lookupPath v path) (Reaches (segments path) v) :=
  lookup_finds v _ h

/-- A path comes to an array with a segment of digits that is no number. -/
inductive Stumbles : List String → Value → Prop
  | here {s : String} {rest : List String} {xs : List Value} (hs : isIndex s = true)
      (hi : Integer.ofText? s = none) : Stumbles (s :: rest) (list xs)
  | entry {s : String} {rest : List String} {ps : Entries} {v : Value}
      (hv : Entries.get? (str s) ps = some v) (h : Stumbles rest v) : Stumbles (s :: rest) (dict ps)
  | item {s : String} {rest : List String} {xs : List Value} {i : Int} {v : Value}
      (hs : isIndex s = true) (hi : Integer.ofText? s = some i) (hv : xs[i.toNat]? = some v)
      (h : Stumbles rest v) : Stumbles (s :: rest) (list xs)
  | across {s : String} {rest : List String} {xs : List Value} {ps : Entries}
      (hs : isIndex s = false) (hp : dict ps ∈ xs) (h : Stumbles (s :: rest) (dict ps)) :
      Stumbles (s :: rest) (list xs)

/-- Reading fails just if something holds, and then with a value error. -/
def FailsIf {α : Type} (x : Except Error α) (p : Prop) : Prop :=
  ∀ e, x = .error e ↔ e = .value ∧ p

theorem FailsIf.congr {α : Type} {x : Except Error α} {p p' : Prop} (h : FailsIf x p)
    (hp : p ↔ p') : FailsIf x p' :=
  fun e => (h e).trans (and_congr_right' hp)

theorem FailsIf.never {α : Type} (a : α) {p : Prop} (hp : ¬ p) : FailsIf (.ok a) p :=
  fun e => by simp [hp]

theorem FailsIf.always {α : Type} {p : Prop} (hp : p) : FailsIf (.error .value : Except Error α) p :=
  fun e => by simp [hp, eq_comm]

theorem FailsIf.not_of_ok {α : Type} {x : Except Error α} {p : Prop} {a : α} (h : FailsIf x p)
    (hx : x = .ok a) : ¬ p := by
  intro hp
  have he := (h .value).mpr ⟨rfl, hp⟩
  rw [hx] at he
  cases he

mutual

theorem lookup_fails (v : Value) : ∀ segs, FailsIf (lookup segs v) (Stumbles segs v) := by
  intro segs
  cases segs with
  | nil =>
    rw [lookup_nil]
    exact .never _ nofun
  | cons s rest =>
    cases v with
    | dict ps =>
      rw [lookup]
      refine (lookupEntry_fails ps s rest).congr ⟨?_, ?_⟩
      · rintro ⟨v, hv, h⟩
        exact .entry hv h
      · rintro ⟨⟩
        exact ⟨_, ‹_›, ‹_›⟩
    | list xs =>
      rw [lookup]
      cases hs : isIndex s with
      | true =>
        cases hi : Integer.ofText? s with
        | none => exact .always (.here hs hi)
        | some i =>
          refine (lookupItem_fails xs i.toNat rest).congr ⟨?_, ?_⟩
          · rintro ⟨v, hv, h⟩
            exact .item hs hi hv h
          · rintro (⟨_, hn⟩ | _ | ⟨_, hj, hv, h⟩ | ⟨hn, _, _⟩)
            · simp [hi] at hn
            · obtain rfl := Option.some.inj (hi.symm.trans hj)
              exact ⟨_, hv, h⟩
            · simp [hs] at hn
      | false =>
        refine (lookupItems_fails xs s rest).congr ⟨?_, ?_⟩
        · rintro ⟨ps, hp, h⟩
          exact .across hs hp h
        · rintro (⟨hn, _⟩ | _ | ⟨hn, _, _, _⟩ | ⟨_, hp, h⟩)
          · simp [hs] at hn
          · simp [hs] at hn
          · exact ⟨_, hp, h⟩
    | _ =>
      rw [lookup]
      · exact .never _ nofun
      all_goals simp
termination_by structural v

theorem lookupEntry_fails (ps : Entries) : ∀ s rest, FailsIf (lookupEntry s rest ps)
    (∃ v, Entries.get? (str s) ps = some v ∧ Stumbles rest v) := by
  intro s rest
  cases ps with
  | nil => exact .never _ (by simp [Entries.get?])
  | cons p ps =>
    rw [lookupEntry]
    by_cases hp : p.1 = str s
    · simp only [equal_str_right.mpr hp, if_true, Entries.get?_here hp]
      exact (lookupValue_fails p rest).congr (by simp)
    · have he : ¬ equal p.1 (str s) = true := fun hh => hp (equal_str_right.mp hh)
      simp only [he, Entries.get?_past hp]
      exact lookupEntry_fails ps s rest
termination_by structural ps

theorem lookupValue_fails (p : Value × Value) :
    ∀ rest, FailsIf (lookupValue rest p) (Stumbles rest p.2) := by
  intro rest
  cases p with
  | mk k v => exact lookup_fails v rest
termination_by structural p

theorem lookupItem_fails (xs : List Value) : ∀ i rest, FailsIf (lookupItem i rest xs)
    (∃ v, xs[i]? = some v ∧ Stumbles rest v) := by
  intro i rest
  cases xs with
  | nil => exact .never _ (by simp)
  | cons x xs =>
    rw [lookupItem]
    cases i with
    | zero => exact (lookup_fails x rest).congr (by simp)
    | succ i => exact (lookupItem_fails xs i rest).congr (by simp)
termination_by structural xs

theorem lookupItems_fails (xs : List Value) : ∀ s rest, FailsIf (lookupItems (s :: rest) xs)
    (∃ ps, dict ps ∈ xs ∧ Stumbles (s :: rest) (dict ps)) := by
  intro s rest
  cases xs with
  | nil => exact .never _ (by simp)
  | cons x xs =>
    have hx := lookup_fails x (s :: rest)
    have hrest := lookupItems_fails xs s rest
    rw [lookupItems]
    cases hd : x.isDict with
    | true =>
      obtain ⟨ps, rfl⟩ := isDict_iff.mp hd
      have heither : (Stumbles (s :: rest) (dict ps) ∨
            ∃ qs, dict qs ∈ xs ∧ Stumbles (s :: rest) (dict qs)) ↔
          ∃ qs, dict qs ∈ dict ps :: xs ∧ Stumbles (s :: rest) (dict qs) := by
        simp [or_and_right, exists_or]
      refine FailsIf.congr ?_ heither
      cases hl : lookup (s :: rest) (dict ps) with
      | error e =>
        obtain ⟨rfl, h⟩ := (hx e).mp hl
        exact .always (.inl h)
      | ok found =>
        cases hm : lookupItems (s :: rest) xs with
        | error e =>
          obtain ⟨rfl, h⟩ := (hrest e).mp hm
          exact .always (.inr h)
        | ok more => exact .never _ (not_or.mpr ⟨hx.not_of_ok hl, hrest.not_of_ok hm⟩)
    | false =>
      have hne : ∀ ps, dict ps ≠ x := by
        rintro ps rfl
        simp [isDict] at hd
      exact hrest.congr (by simp [hne])
termination_by structural xs

end

end DocStore
