import DocStore.Proofs.Document.Places
import DocStore.Proofs.Document.Reach
import Mathlib.Data.List.Forall2

/-! Paths read in two parts. The whole path reads what its second part reads in all that its first
part has read; where no array is crossed, a path reads just what is found by following it. -/

namespace DocStore

open Value

namespace Value

/-- What a path reads in each of several values, in their order. -/
def lookupEach (segs : List String) (vs : List Value) : Except Error (List Value) :=
  (vs.mapM (lookup segs)).map List.flatten

variable {p q : List String} {v w : Value} {vs ws : List Value}

theorem lookupEach_nil (segs : List String) : lookupEach segs [] = .ok [] := rfl

theorem lookupEach_cons (segs : List String) (v : Value) (vs : List Value) :
    lookupEach segs (v :: vs) =
      (lookup segs v).bind fun found => (lookupEach segs vs).map (found ++ ·) := by
  rw [lookupEach, List.mapM_cons, lookupEach]
  cases lookup segs v with
  | error e => rfl
  | ok found =>
    change ((vs.mapM (lookup segs)).bind fun parts => .ok (found :: parts)).map List.flatten = _
    cases vs.mapM (lookup segs) with
    | error e => rfl
    | ok parts => rfl

theorem lookupEach_singleton (segs : List String) (v : Value) :
    lookupEach segs [v] = lookup segs v := by
  rw [lookupEach_cons, lookupEach_nil]
  cases lookup segs v with
  | error e => rfl
  | ok found => exact congrArg Except.ok (List.append_nil found)

theorem lookupEach_append (segs : List String) (vs ws : List Value) :
    lookupEach segs (vs ++ ws) =
      (lookupEach segs vs).bind fun found => (lookupEach segs ws).map (found ++ ·) := by
  induction vs with
  | nil =>
    rw [List.nil_append, lookupEach_nil]
    cases lookupEach segs ws <;> rfl
  | cons v vs ih =>
    rw [List.cons_append, lookupEach_cons, lookupEach_cons, ih]
    cases lookup segs v with
    | error e => rfl
    | ok found =>
      cases lookupEach segs vs with
      | error e => rfl
      | ok more =>
        cases lookupEach segs ws with
        | error e => rfl
        | ok rest => exact congrArg Except.ok (List.append_assoc found more rest).symm

/-- There is but one way in which reading fails. -/
theorem lookupEach_error {e : Error} (h : lookupEach q vs = .error e) : e = .value := by
  induction vs with
  | nil => cases h
  | cons v vs ih =>
    rw [lookupEach_cons] at h
    cases hv : lookup q v with
    | error e' =>
      rw [hv] at h
      cases h
      exact ((lookup_fails v q e).mp hv).1
    | ok found =>
      rw [hv] at h
      cases hvs : lookupEach q vs with
      | error e' =>
        rw [hvs] at h
        cases h
        exact ih hvs
      | ok more =>
        rw [hvs] at h
        cases h

theorem lookupItems_cons (segs : List String) (x : Value) (xs : List Value) :
    lookupItems segs (x :: xs) =
      if x.isDict then
        (lookup segs x).bind fun found => (lookupItems segs xs).map (found ++ ·)
      else lookupItems segs xs := by
  rw [lookupItems]
  cases x.isDict with
  | false => rfl
  | true =>
    cases lookup segs x with
    | error e => rfl
    | ok found => cases lookupItems segs xs <;> rfl

theorem lookupItems_error {segs : List String} {xs : List Value} {e : Error} (hs : segs ≠ [])
    (h : lookupItems segs xs = .error e) : e = .value := by
  obtain ⟨s, rest, rfl⟩ := List.exists_cons_of_ne_nil hs
  exact ((lookupItems_fails xs s rest e).mp h).1

mutual

theorem lookup_append (v : Value) :
    ∀ p q, lookup (p ++ q) v = (lookup p v).bind (lookupEach q) := by
  intro p q
  cases p with
  | nil =>
    rw [lookup_nil]
    exact (lookupEach_singleton q v).symm
  | cons s p =>
    rw [List.cons_append]
    cases v with
    | dict ps =>
      rw [lookup, lookup]
      exact lookupEntry_append ps s p q
    | list xs =>
      rw [lookup, lookup]
      cases hs : isIndex s with
      | true =>
        cases Integer.ofText? s with
        | none => rfl
        | some i => exact lookupItem_append xs i.toNat p q
      | false => exact lookupItems_append xs s p q
    | _ =>
      rw [lookup_bare (by simp) (by simp), lookup_bare (by simp) (by simp)]
      rfl
termination_by structural v

theorem lookupEntry_append (ps : Entries) :
    ∀ s p q, lookupEntry s (p ++ q) ps = (lookupEntry s p ps).bind (lookupEach q) := by
  intro s p q
  cases ps with
  | nil => rfl
  | cons e ps =>
    rw [lookupEntry, lookupEntry]
    split
    · exact lookupValue_append e p q
    · exact lookupEntry_append ps s p q
termination_by structural ps

theorem lookupValue_append (e : Value × Value) :
    ∀ p q, lookupValue (p ++ q) e = (lookupValue p e).bind (lookupEach q) := by
  intro p q
  cases e with
  | mk k v => exact lookup_append v p q
termination_by structural e

theorem lookupItem_append (xs : List Value) :
    ∀ i p q, lookupItem i (p ++ q) xs = (lookupItem i p xs).bind (lookupEach q) := by
  intro i p q
  cases xs with
  | nil => rfl
  | cons x xs =>
    rw [lookupItem, lookupItem]
    split
    · exact lookup_append x p q
    · exact lookupItem_append xs (i - 1) p q
termination_by structural xs

theorem lookupItems_append (xs : List Value) : ∀ s p q,
    lookupItems (s :: (p ++ q)) xs = (lookupItems (s :: p) xs).bind (lookupEach q) := by
  intro s p q
  cases xs with
  | nil => rfl
  | cons x xs =>
    have hx := lookup_append x (s :: p) q
    have hxs := lookupItems_append xs s p q
    rw [List.cons_append] at hx
    rw [lookupItems_cons, lookupItems_cons, hxs]
    cases x.isDict with
    | false => rfl
    | true =>
      rw [if_pos rfl, if_pos rfl, hx]
      cases lookup (s :: p) x with
      | error e => rfl
      | ok found =>
        cases hmore : lookupItems (s :: p) xs with
        | ok more => exact (lookupEach_append q found more).symm
        | error e =>
          -- the other items fail first on one side and last on the other, but in the same way
          obtain rfl := lookupItems_error (List.cons_ne_nil s p) hmore
          change ((lookupEach q found).bind fun _ => .error .value) = .error .value
          cases hfound : lookupEach q found with
          | ok part => rfl
          | error e =>
            obtain rfl := lookupEach_error hfound
            rfl
termination_by structural xs

end

theorem lookupEach_run (hq : ReadableSegments q) (vs : List Value) :
    ∃ parts, List.Forall₂ (fun v part => lookup q v = .ok part) vs parts ∧
      lookupEach q vs = .ok parts.flatten := by
  induction vs with
  | nil => exact ⟨[], .nil, rfl⟩
  | cons v vs ih =>
    obtain ⟨parts, hparts, hrun⟩ := ih
    obtain ⟨part, hpart, _⟩ := lookup_finds v q hq
    refine ⟨part :: parts, .cons hpart hparts, ?_⟩
    rw [lookupEach_cons, hpart, hrun]
    rfl

end Value

/-- No array stands on the way along a path; one may stand at its end. -/
def Direct (p : List String) (v : Value) : Prop :=
  ∀ r xs, r <+: p → getPath r v = some (list xs) → r = p

theorem Direct.entry {s : String} {p : List String} {ps : Entries} {v : Value}
    (h : Direct (s :: p) (dict ps)) (hv : Entries.get? (str s) ps = some v) : Direct p v := by
  intro r xs hr hget
  refine (List.cons_eq_cons.mp (h (s :: r) xs (List.cons_prefix_cons.mpr ⟨rfl, hr⟩) ?_)).2
  rw [getPath_dict, hv]
  exact hget

theorem lookup_direct {p : List String} {v : Value} (h : Direct p v) :
    lookup p v = .ok (getPath p v).toList := by
  induction p generalizing v with
  | nil => exact lookup_nil v
  | cons s p ih =>
    cases v with
    | dict ps =>
      rw [lookup, lookupEntry_eq, getPath_dict]
      cases hv : Entries.get? (str s) ps with
      | none => rfl
      | some w => exact ih (h.entry hv)
    | list xs => exact absurd (h [] xs List.nil_prefix rfl) (List.cons_ne_nil s p).symm
    | _ => exact lookup_bare (by simp) (by simp) s p

theorem direct_of_getPath {p : List String} {v w : Value} (h : getPath p v = some w) :
    Direct p v := by
  rintro r xs ⟨t, rfl⟩ hr
  rw [getPath_append, hr] at h
  cases t with
  | nil => exact (List.append_nil r).symm
  | cons s t => cases h

theorem lookup_of_getPath {p : List String} {v w : Value} (h : getPath p v = some w) :
    lookup p v = .ok [w] := by
  rw [lookup_direct (direct_of_getPath h), h]
  rfl

theorem lookup_past {p : List String} {v w : Value} (h : getPath p v = some w)
    (q : List String) : lookup (p ++ q) v = lookup q w := by
  rw [lookup_append, lookup_of_getPath h]
  exact lookupEach_singleton q w

/-- A path of two parts reads what the second part reads in each of the values that the first part
has read, one after the other, and fails where one of these readings does. With numbers that can be
read it does not fail. A path that crosses no array reads the one value that following it finds, and
nothing if it finds none. -/
theorem lookup_joined (p q : List String) (v : Value) :
    lookup (p ++ q) v = (lookup p v).bind (lookupEach q) ∧
      (ReadableSegments (p ++ q) → ∃ found parts, lookup p v = .ok found ∧
        List.Forall₂ (fun w part => lookup q w = .ok part) found parts ∧
        lookup (p ++ q) v = .ok parts.flatten) ∧
      (Direct p v → lookup p v = .ok (getPath p v).toList) := by
  refine ⟨lookup_append v p q, fun h => ?_, lookup_direct⟩
  obtain ⟨found, hfound, _⟩ := lookup_finds v p fun s hs => h s (List.mem_append_left q hs)
  obtain ⟨parts, hparts, hrun⟩ :=
    lookupEach_run (fun s hs => h s (List.mem_append_right p hs)) found
  refine ⟨found, parts, hfound, hparts, ?_⟩
  rw [lookup_append, hfound]
  exact hrun

/-- An array of two rows of numbers, with a number between them. -/
def tableOfRows : Value :=
  dict [(str "rows", list [dict [(str "n", list [int 1, int 2])], int 5,
    dict [(str "n", list [int 3, int 4])]])]

theorem lookup_joined_rows :
    ReadableSegments (["rows", "n"] ++ ["1"]) ∧ Direct ["rows"] tableOfRows ∧
      (∃ found parts, lookup ["rows", "n"] tableOfRows = .ok found ∧
        List.Forall₂ (fun w part => lookup ["1"] w = .ok part) found parts ∧
        lookup (["rows", "n"] ++ ["1"]) tableOfRows = .ok parts.flatten) ∧
      lookup ["rows", "n", "1"] tableOfRows = .ok [int 2, int 4] ∧
      lookup ["rows"] tableOfRows = .ok (getPath ["rows"] tableOfRows).toList := by
  have hreadable : ReadableSegments (["rows", "n"] ++ ["1"]) := by decide
  have hdirect : Direct ["rows"] tableOfRows := by
    intro r xs hr hget
    cases r with
    | nil => cases hget
    | cons s r =>
      obtain ⟨rfl, hrest⟩ := List.cons_prefix_cons.mp hr
      rw [List.prefix_nil.mp hrest]
  exact ⟨hreadable, hdirect, (lookup_joined ["rows", "n"] ["1"] tableOfRows).2.1 hreadable, rfl,
    (lookup_joined ["rows"] [] tableOfRows).2.2 hdirect⟩

end DocStore
