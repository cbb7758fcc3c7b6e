import DocStore.Proofs.Names

/-! What conditions on a path say of a document, and that looking for them gives the answer. -/

namespace DocStore

open Value

/-- A question is answered, and the answer is whether something holds. -/
def Answers (r : Except Error Bool) (p : Prop) : Prop := ∃ b, r = .ok b ∧ (b = true ↔ p)

theorem Answers.congr {r : Except Error Bool} {p p' : Prop} (h : Answers r p) (hp : p ↔ p') :
    Answers r p' := by
  obtain ⟨b, hr, hb⟩ := h
  exact ⟨b, hr, hb.trans hp⟩

theorem Answers.of_ok {b : Bool} {p : Prop} (h : b = true ↔ p) : Answers (.ok b) p := ⟨b, rfl, h⟩

/-- A document has something at a path. -/
def Present (d : Value) (path : String) : Prop := ∃ u, Reaches (segments path) d u

/-- A value stands at a path of a document, or in an array that stands there. -/
def Candidate (d : Value) (path : String) (w : Value) : Prop :=
  ∃ u, Reaches (segments path) d u ∧ (w = u ∨ ∃ xs, u = list xs ∧ w ∈ xs)

/-- Some value at a path is equal to another one, a boolean to booleans only; null is also equal to
nothing at all. -/
def EqualAt (d : Value) (path : String) (x : Value) : Prop :=
  (x = null ∧ ¬ Present d path) ∨ ∃ w, Candidate d path w ∧ strictEqual w x = true

/-- Some value at a path that is not null and of the kind of another one is related to it. -/
def RelatedAt (r : Relation) (d : Value) (path : String) (x : Value) : Prop :=
  ∃ w, Candidate d path w ∧ w ≠ null ∧ w.rank = x.rank ∧ related r w x = some true

/-- A pattern is found in some text at a path. -/
def FoundAt (p : Pattern) (d : Value) (path : String) : Prop :=
  ∃ t, Candidate d path (str t) ∧ p.found t = true

/-- A pattern over bytes comes upon a text at a path. -/
def BalksAt (p : Pattern) (d : Value) (path : String) : Prop :=
  p.overBytes = true ∧ ∃ t, Candidate d path (str t)

/-- A question cannot be asked, for a value of the wrong kind, if one thing holds; otherwise it is
answered, and the answer is whether another holds. -/
structure Replies (r : Except Error Bool) (fails p : Prop) : Prop where
  refused : fails → r = .error .kind
  answered : ¬ fails → Answers r p

theorem Replies.of_answers {r : Except Error Bool} {fails p : Prop} (h : Answers r p)
    (hf : ¬ fails) : Replies r fails p := ⟨fun hp => absurd hp hf, fun _ => h⟩

theorem mem_candidates {vs : List Value} {w : Value} :
    w ∈ candidates vs ↔ ∃ u ∈ vs, w = u ∨ ∃ xs, u = list xs ∧ w ∈ xs := by
  induction vs with
  | nil => simp [candidates]
  | cons v vs ih =>
    cases v with
    | list ys => simp [candidates, ih, or_assoc]
    | _ => simp [candidates, ih]

section Found

variable {d : Value} {path : String} {found : List Value}

def IsFound (d : Value) (path : String) (found : List Value) : Prop :=
  ∀ w, w ∈ found ↔ Reaches (segments path) d w

theorem IsFound.isEmpty_iff (h : IsFound d path found) :
    found.isEmpty = true ↔ ¬ Present d path := by
  rw [List.isEmpty_iff, List.eq_nil_iff_forall_not_mem, Present, not_exists]
  exact forall_congr' fun w => not_congr (h w)

theorem IsFound.mem_candidates (h : IsFound d path found) {w : Value} :
    w ∈ candidates found ↔ Candidate d path w := by
  rw [DocStore.mem_candidates, Candidate]
  exact exists_congr fun u => and_congr_left' (h u)

theorem IsFound.any_candidates (h : IsFound d path found) (p : Value → Bool) :
    (candidates found).any p = true ↔ ∃ w, Candidate d path w ∧ p w = true := by
  rw [List.any_eq_true]
  exact exists_congr fun w => and_congr_left' h.mem_candidates

theorem IsFound.equalsAny_iff (h : IsFound d path found) (x : Value) :
    equalsAny found x = true ↔ EqualAt d path x := by
  unfold equalsAny EqualAt
  cases hx : x.isNull with
  | true =>
    have hn : x = null := isNull_iff.mp hx
    subst hn
    simp only [if_true, Bool.or_eq_true, h.isEmpty_iff, h.any_candidates, strictEqual_null,
      true_and]
  | false =>
    have hn : x ≠ null := fun he => by simp [he, isNull] at hx
    simp [h.any_candidates, hn]

theorem IsFound.relatesAny_iff (h : IsFound d path found) (r : Relation) (x : Value) :
    relatesAny r found x = true ↔ RelatedAt r d path x := by
  unfold relatesAny RelatedAt
  rw [h.any_candidates]
  refine exists_congr fun w => and_congr_right' ?_
  have hn : w.isNull = false ↔ w ≠ null := by
    rw [Ne, ← isNull_iff, Bool.not_eq_true]
  have hr : (related r w x).getD false = true ↔ related r w x = some true := by
    cases related r w x <;> simp
  simp only [Bool.and_eq_true, Bool.not_eq_true', hn, beq_iff_eq, hr, and_assoc]

theorem IsFound.isStr_iff (h : IsFound d path found) :
    (candidates found).any isStr = true ↔ ∃ t, Candidate d path (str t) := by
  rw [h.any_candidates]
  constructor
  · rintro ⟨w, hw, hs⟩
    cases w with
    | str t => exact ⟨t, hw⟩
    | _ => simp [isStr] at hs
  · rintro ⟨t, ht⟩
    exact ⟨str t, ht, rfl⟩

theorem IsFound.foundByPattern_replies (h : IsFound d path found) (p : Pattern) :
    Replies (foundByPattern found p) (BalksAt p d path) (FoundAt p d path) := by
  have hb : (p.overBytes && (candidates found).any isStr) = true ↔ BalksAt p d path := by
    rw [Bool.and_eq_true, h.isStr_iff, BalksAt]
  constructor
  · intro hbalks
    rw [foundByPattern, if_pos (hb.mpr hbalks)]
  · intro hbalks
    rw [foundByPattern, if_neg fun hc => hbalks (hb.mp hc)]
    refine .of_ok ?_
    rw [h.any_candidates, FoundAt]
    constructor
    · rintro ⟨w, hw, hp⟩
      cases w with
      | str t => exact ⟨t, hw, hp⟩
      | _ => simp at hp
    · rintro ⟨t, ht, hp⟩
      exact ⟨str t, ht, hp⟩

end Found

theorem isGroupKey_of_name {name : String} (h : startsWithDollar name = false) :
    isGroupKey (str name) = false := by
  have hand : name ≠ "$and" := by
    rintro rfl
    simp [startsWithDollar] at h
  have hor : name ≠ "$or" := by
    rintro rfl
    simp [startsWithDollar] at h
  simp [isGroupKey, hand, hor]

theorem matchesEntry_of_name {name : String} (h : startsWithDollar name = false)
    (d condition : Value) :
    matchesEntry d (str name, condition) = matchesField d name condition := by
  have hg := isGroupKey_of_name h
  cases condition <;> simp [matchesEntry, hg, matchesPath, h]

theorem matchesField_operators {d : Value} {path : String} {found : List Value} {os : Entries}
    (hf : lookupPath d path = .ok found) (ho : isCondition (dict os) = true) :
    matchesField d path (dict os) = holdsOperators found os os := by
  simp [matchesField, hf, ho]

theorem holdsOperators_single (found : List Value) (condition : Entries) (word : String)
    (x : Value) : holdsOperators found condition [(str word, x)] =
      holdsOperator found condition word x := by
  simp only [holdsOperators, bare]
  split <;> simp_all

theorem matchesQuery_single (d k condition : Value) :
    matchesQuery d (dict [(k, condition)]) = matchesEntry d (k, condition) := by
  simp only [matchesQuery, matchesEntries]
  split <;> simp_all

/-- The query for what has a value equal to a given one at a path. -/
def equality (path : String) (v : Value) : Value := dict [(str path, dict [(str "$eq", v)])]

section Equality

variable {path : String} {v : Value} (h : startsWithDollar path = false)
include h

theorem matchesQuery_equality (d v : Value) :
    matchesQuery d (equality path v) =
      (lookupPath d path).map fun found => equalsAny found v := by
  rw [equality, matchesQuery_single, matchesEntry_of_name h]
  cases hf : lookupPath d path with
  | error e => rw [matchesField, hf, Except.map]
  | ok found =>
    rw [matchesField_operators hf rfl, holdsOperators_single]
    rfl

/-- A value that is no condition asks for what is equal to it. -/
theorem matchesQuery_plain (d : Value) (hv : isCondition v = false) :
    matchesQuery d (dict [(str path, v)]) = matchesQuery d (equality path v) := by
  rw [matchesQuery_equality h, matchesQuery_single, matchesEntry_of_name h, matchesField]
  cases lookupPath d path with
  | error e => rfl
  | ok found =>
    cases v with
    | dict ps => simp [hv, Except.map]
    | _ => rfl

end Equality

theorem matchesQuery_all {d : Value} {qs : List Value} (hq : qs ≠ []) :
    matchesQuery d (dict [(str "$and", list qs)]) = matchesAll d qs := by
  rw [matchesQuery_single]
  simp [matchesEntry, isGroupKey, hq]

theorem matchesQuery_some {d : Value} {qs : List Value} (hq : qs ≠ []) :
    matchesQuery d (dict [(str "$or", list qs)]) = matchesSome d qs := by
  rw [matchesQuery_single]
  simp [matchesEntry, isGroupKey, hq]

section Group

variable {d q : Value} {qs : List Value} {fails failsAny p ps : Prop}

theorem Replies.matchesAll_cons (h : Replies (matchesQuery d q) fails p)
    (h' : Replies (matchesAll d qs) failsAny ps) :
    Replies (matchesAll d (q :: qs)) (fails ∨ (p ∧ failsAny)) (p ∧ ps) := by
  rw [matchesAll]
  by_cases hf : fails
  · rw [h.refused hf]
    exact ⟨fun _ => rfl, fun hn => absurd (.inl hf) hn⟩
  obtain ⟨b, hb, hp⟩ := h.answered hf
  rw [hb]
  cases b with
  | true =>
    have hp : p := hp.mp rfl
    exact ⟨fun hg => h'.refused (hg.resolve_left hf).2,
      fun hn => (h'.answered fun hg => hn (.inr ⟨hp, hg⟩)).congr (by simp [hp])⟩
  | false =>
    have hp : ¬ p := fun hpos => by simpa using hp.mpr hpos
    exact .of_answers (.of_ok (by simp [hp])) (by simp [hf, hp])

theorem Replies.matchesSome_cons (h : Replies (matchesQuery d q) fails p)
    (h' : Replies (matchesSome d qs) failsAny ps) :
    Replies (matchesSome d (q :: qs)) (fails ∨ (¬ p ∧ failsAny)) (p ∨ ps) := by
  rw [matchesSome]
  by_cases hf : fails
  · rw [h.refused hf]
    exact ⟨fun _ => rfl, fun hn => absurd (.inl hf) hn⟩
  obtain ⟨b, hb, hp⟩ := h.answered hf
  rw [hb]
  cases b with
  | true =>
    have hp : p := hp.mp rfl
    exact .of_answers (.of_ok (by simp [hp])) (by simp [hf, hp])
  | false =>
    have hp : ¬ p := fun hpos => by simpa using hp.mpr hpos
    exact ⟨fun hg => h'.refused (hg.resolve_left hf).2,
      fun hn => (h'.answered fun hg => hn (.inr ⟨hp, hg⟩)).congr (by simp [hp])⟩

end Group

end DocStore
