import DocStore.Filter.Compile
import DocStore.Proofs.Query.Match

/-! Query documents as conjunctions of their entries. Adding an entry to a query document gives
one that holds where both do, whichever way the entry was added. -/

namespace DocStore

open Value

def andThen (a b : Except Error Bool) : Except Error Bool :=
  match a with
  | .ok true => b
  | r => r

theorem andThen_assoc (a b c : Except Error Bool) :
    andThen (andThen a b) c = andThen a (andThen b c) := by
  cases a with
  | error e => rfl
  | ok x => cases x <;> rfl

theorem andThen_yes (a : Except Error Bool) : andThen a (.ok true) = a := by
  cases a with
  | error e => rfl
  | ok x => cases x <;> rfl

/-- A question that is answered where two others are, and then by their conjunction. -/
structure Joins (both a b : Except Error Bool) : Prop where
  holds_iff : both = .ok true ↔ a = .ok true ∧ b = .ok true
  answered : (∃ x, a = .ok x) → (∃ y, b = .ok y) → ∃ z, both = .ok z

theorem Joins.andThen (a b : Except Error Bool) : Joins (andThen a b) a b := by
  constructor
  · cases a with
    | error e => simp [DocStore.andThen]
    | ok x => cases x <;> simp [DocStore.andThen]
  · rintro ⟨x, rfl⟩ hb
    cases x with
    | true => exact hb
    | false => exact ⟨false, rfl⟩

section Lists

variable {d : Value}

theorem matchesEntries_cons (p : Value × Value) (ps : Entries) :
    matchesEntries d (p :: ps) = andThen (matchesEntry d p) (matchesEntries d ps) := by
  rw [matchesEntries]
  rfl

theorem matchesAll_cons (q : Value) (qs : List Value) :
    matchesAll d (q :: qs) = andThen (matchesQuery d q) (matchesAll d qs) := by
  rw [matchesAll]
  rfl

theorem holdsOperators_cons (found : List Value) (c : Entries) (p : Value × Value)
    (os : Entries) : holdsOperators found c (p :: os) =
      andThen (holdsOperator found c p.1.bare p.2) (holdsOperators found c os) := rfl

theorem matchesQuery_holds_iff {ps : Entries} :
    matchesQuery d (dict ps) = .ok true ↔ ∀ p ∈ ps, matchesEntry d p = .ok true := by
  rw [matchesQuery]
  induction ps with
  | nil => simp [matchesEntries]
  | cons p ps ih =>
    rw [matchesEntries_cons, (Joins.andThen _ _).holds_iff, ih, List.forall_mem_cons]

theorem matchesQuery_answered {ps : Entries} (h : ∀ p ∈ ps, ∃ b, matchesEntry d p = .ok b) :
    ∃ b, matchesQuery d (dict ps) = .ok b := by
  rw [matchesQuery]
  induction ps with
  | nil => exact ⟨true, by simp [matchesEntries]⟩
  | cons p ps ih =>
    have hrest := ih fun q hq => h q (List.mem_cons_of_mem _ hq)
    rw [matchesEntries_cons]
    exact (Joins.andThen _ _).answered (h p (by simp)) hrest

theorem matchesAll_append (qs more : List Value) :
    matchesAll d (qs ++ more) = andThen (matchesAll d qs) (matchesAll d more) := by
  induction qs with
  | nil => simp [matchesAll, andThen]
  | cons q qs ih => rw [List.cons_append, matchesAll_cons, ih, matchesAll_cons, andThen_assoc]

theorem matchesAll_single (q : Value) : matchesAll d [q] = matchesQuery d q := by
  rw [matchesAll_cons, matchesAll, andThen_yes]

theorem holdsOperators_append (found : List Value) (c ps qs : Entries) :
    holdsOperators found c (ps ++ qs) =
      andThen (holdsOperators found c ps) (holdsOperators found c qs) := by
  induction ps with
  | nil => rfl
  | cons p ps ih =>
    rw [List.cons_append, holdsOperators_cons, ih, holdsOperators_cons, andThen_assoc]

end Lists

/-- A condition that the compiler makes: operators, each under its own word, and no letters for
patterns. -/
structure Operators (os : Entries) : Prop where
  keyed : Entries.Keyed os
  nonempty : os ≠ []
  operator : ∀ p ∈ os, isOperatorKey p.1 = true
  letters : ∀ p ∈ os, p.1 ≠ str "$options"

/-- An entry as the compiler makes them. -/
inductive Clause : Value × Value → Prop
  | group {word : String} {qs : List Value} (hw : word = "$and" ∨ word = "$or") (hne : qs ≠ [])
      (hq : ∀ q ∈ qs, ∃ ps, q = dict ps) : Clause (str word, list qs)
  | condition {path : String} {os : Entries} (hp : FieldPath path) (ho : Operators os) :
    Clause (str path, dict os)

/-- A query document as the compiler makes them. -/
structure Shaped (ps : Entries) : Prop where
  keyed : Entries.Keyed ps
  clause : ∀ p ∈ ps, Clause p

theorem Shaped.nil : Shaped [] := ⟨.nil, by simp⟩

theorem Shaped.put {ps : Entries} (h : Shaped ps) {n : String} {v : Value}
    (hv : Clause (str n, v)) : Shaped (Entries.put (str n) v ps) := by
  refine ⟨h.keyed.put n v, fun p hp => ?_⟩
  rcases (h.keyed.mem_put n v).mp hp with rfl | ⟨hp, _⟩
  · exact hv
  · exact h.clause p hp

theorem Operators.isCondition {os : Entries} (h : Operators os) : isCondition (dict os) = true := by
  have hall : os.all (fun p => isOperatorKey p.1) = true := List.all_eq_true.mpr h.operator
  simp [DocStore.isCondition, h.nonempty, hall]

theorem Operators.no_letters {os : Entries} (h : Operators os) :
    Entries.get? (str "$options") os = none :=
  Entries.get?_eq_none_iff.mpr h.letters

theorem Operators.append {ps qs : Entries} (hp : Operators ps) (hq : Operators qs)
    (hd : ∀ q ∈ qs, ∀ p ∈ ps, p.1 ≠ q.1) : Operators (ps ++ qs) where
  keyed := hp.keyed.append hq.keyed hd
  nonempty := by simp [hp.nonempty]
  operator p h := by
    rcases List.mem_append.mp h with h | h
    · exact hp.operator p h
    · exact hq.operator p h
  letters p h := by
    rcases List.mem_append.mp h with h | h
    · exact hp.letters p h
    · exact hq.letters p h

theorem holdsOperator_alone {found : List Value} {c c' : Entries} {op : String} {x : Value}
    (hc : Entries.get? (str "$options") c = none) (hc' : Entries.get? (str "$options") c' = none)
    (hop : op ≠ "$options") : holdsOperator found c op x = holdsOperator found c' op x := by
  simp [holdsOperator, hc, hc', hop]

theorem holdsOperators_alone {found : List Value} {c c' os : Entries}
    (hc : Entries.get? (str "$options") c = none) (hc' : Entries.get? (str "$options") c' = none)
    (hk : Entries.Keyed os) (ho : ∀ p ∈ os, p.1 ≠ str "$options") :
    holdsOperators found c os = holdsOperators found c' os := by
  induction os with
  | nil => rfl
  | cons p os ih =>
    obtain ⟨k, x⟩ := p
    obtain ⟨n, hn⟩ := hk.text (k, x) (by simp)
    have hk' : k = str n := hn
    subst hk'
    have hop : n ≠ "$options" := fun he => ho (str n, x) (by simp) (by rw [he])
    have hrest := ih hk.tail fun q hq => ho q (by simp [hq])
    have hhead : holdsOperator found c n x = holdsOperator found c' n x :=
      holdsOperator_alone hc hc' hop
    rw [holdsOperators_cons, holdsOperators_cons, hrest]
    exact congrArg (fun a => andThen a _) hhead

/-- Entries that hold where two lists of entries do, and are answered where those are. -/
structure Conjoins (d : Value) (ms ts ps : Entries) : Prop where
  holds_iff : (∀ m ∈ ms, matchesEntry d m = .ok true) ↔
    (∀ t ∈ ts, matchesEntry d t = .ok true) ∧ ∀ p ∈ ps, matchesEntry d p = .ok true
  answered : (∀ t ∈ ts, ∃ b, matchesEntry d t = .ok b) → (∀ p ∈ ps, ∃ b, matchesEntry d p = .ok b) →
    ∀ m ∈ ms, ∃ b, matchesEntry d m = .ok b

section Conjoins

variable {d : Value} {ms ts ps : Entries}

theorem Conjoins.nil (d : Value) (ts : Entries) : Conjoins d ts ts [] :=
  ⟨by simp, fun h _ => h⟩

theorem Conjoins.cons {us : Entries} {p : Value × Value} (h : Conjoins d us ts [p])
    (h' : Conjoins d ms us ps) : Conjoins d ms ts (p :: ps) := by
  constructor
  · rw [h'.holds_iff, h.holds_iff, and_assoc, List.forall_mem_singleton, List.forall_mem_cons]
  · intro ht hp
    have hu := h.answered ht (by simpa using hp p (by simp))
    exact h'.answered hu fun q hq => hp q (by simp [hq])

theorem Conjoins.of_same {p q : Value × Value} (h : Conjoins d ms ts [p])
    (he : matchesEntry d p = matchesEntry d q) : Conjoins d ms ts [q] := by
  constructor
  · rw [h.holds_iff, List.forall_mem_singleton, List.forall_mem_singleton, he]
  · intro ht hq
    refine h.answered ht ?_
    rw [List.forall_mem_singleton] at hq ⊢
    rwa [he]

theorem Conjoins.put_absent {n : String} (v : Value) (hn : Entries.get? (str n) ts = none) :
    Conjoins d (Entries.put (str n) v ts) ts [(str n, v)] := by
  rw [Entries.put_of_absent v hn]
  constructor
  · exact List.forall_mem_append
  · intro ht hp
    exact List.forall_mem_append.mpr ⟨ht, hp⟩

theorem Conjoins.put_present {n : String} {old v : Value} {p : Value × Value}
    (hk : Entries.Keyed ts) (ho : Entries.get? (str n) ts = some old)
    (h : Joins (matchesEntry d (str n, v)) (matchesEntry d (str n, old)) (matchesEntry d p)) :
    Conjoins d (Entries.put (str n) v ts) ts [p] := by
  constructor
  · have hall := hk.forall_of_get? (P := fun t => matchesEntry d t = .ok true) ho
    rw [hk.forall_put, hall, h.holds_iff, List.forall_mem_singleton]
    constructor
    · rintro ⟨⟨hold, hp⟩, hrest⟩
      exact ⟨⟨hold, hrest⟩, hp⟩
    · rintro ⟨⟨hold, hrest⟩, hp⟩
      exact ⟨⟨hold, hp⟩, hrest⟩
  · intro ht hp
    rw [hk.forall_put]
    obtain ⟨hold, hrest⟩ := (hk.forall_of_get? ho).mp ht
    exact ⟨h.answered hold (hp p (by simp)), hrest⟩

end Conjoins

section Entry

variable {d : Value} {ts : Entries}

theorem matchesEntry_all {qs : List Value} (hq : qs ≠ []) :
    matchesEntry d (str "$and", list qs) = matchesAll d qs := by
  simp [matchesEntry, isGroupKey, hq]

theorem matchesEntry_moved (p : Value × Value) :
    matchesEntry d (str "$and", list [dict [p]]) = matchesEntry d p := by
  rw [matchesEntry_all (by simp), matchesAll_single, matchesQuery_single]

theorem matchesEntry_condition {path : String} {os : Entries} {found : List Value}
    (hp : FieldPath path) (ho : Operators os) (hf : lookupPath d path = .ok found) :
    matchesEntry d (str path, dict os) = holdsOperators found os os := by
  rw [matchesEntry_of_name hp.no_operator, matchesField_operators hf ho.isCondition]

theorem matchesEntry_unread {path : String} {e : Error} (hp : FieldPath path)
    (he : lookupPath d path = .error e) (condition : Value) :
    matchesEntry d (str path, condition) = .error e := by
  rw [matchesEntry_of_name hp.no_operator]
  simp [matchesField, he]

theorem joins_groups {qs more : List Value} (hq : qs ≠ []) (hm : more ≠ []) :
    Joins (matchesEntry d (str "$and", list (qs ++ more))) (matchesEntry d (str "$and", list qs))
      (matchesEntry d (str "$and", list more)) := by
  have hne : qs ++ more ≠ [] := by simp [hq]
  rw [matchesEntry_all hq, matchesEntry_all hm, matchesEntry_all hne, matchesAll_append]
  exact .andThen _ _

theorem joins_conditions {path : String} {ps qs : Entries} (hp : FieldPath path)
    (hps : Operators ps) (hqs : Operators qs) (hpq : Operators (ps ++ qs)) :
    Joins (matchesEntry d (str path, dict (ps ++ qs))) (matchesEntry d (str path, dict ps))
      (matchesEntry d (str path, dict qs)) := by
  cases hf : lookupPath d path with
  | error e =>
    simp only [matchesEntry_unread hp hf]
    exact ⟨by simp, fun h _ => h⟩
  | ok found =>
    have hleft : holdsOperators found (ps ++ qs) ps = holdsOperators found ps ps :=
      holdsOperators_alone hpq.no_letters hps.no_letters hps.keyed hps.letters
    have hright : holdsOperators found (ps ++ qs) qs = holdsOperators found qs qs :=
      holdsOperators_alone hpq.no_letters hqs.no_letters hqs.keyed hqs.letters
    rw [matchesEntry_condition hp hps hf, matchesEntry_condition hp hqs hf,
      matchesEntry_condition hp hpq hf, holdsOperators_append, hleft, hright]
    exact .andThen _ _

end Entry

end DocStore
