import DocStore.Proofs.Query.Match
import DocStore.Proofs.Store.Picking

/-! Writing documents that stand under their own identifiers. Whoever looks for an identifier finds
the one document under it, whether the query asks for the value or for what is equal to it. -/

namespace DocStore

open Value

/-- The name of a field that is a path of just one segment. -/
structure SingleName (n : String) : Prop where
  named : fieldNameFault? n = none
  undotted : '.' ∉ n.toList

section Entry

variable {n word : String}

theorem lookupPath_undotted (h : '.' ∉ n.toList) (ps : Entries) :
    lookupPath (dict ps) n = .ok (Entries.get? (str n) ps).toList := by
  rw [lookupPath, segments_of_no_dot h, lookup, lookupEntry_eq]
  cases Entries.get? (str n) ps with
  | none => rfl
  | some v => exact lookup_nil v

theorem lookupPath_entry (hn : SingleName n) (ps : Entries) :
    lookupPath (dict ps) n = .ok (Entries.get? (str n) ps).toList :=
  lookupPath_undotted hn.undotted ps

/-- Of what is found at a path of one segment, only a list has items to be compared. -/
theorem equalsAny_toList {o : Option Value} (ho : ∀ xs, o.getD null ≠ list xs) (v : Value) :
    equalsAny o.toList v = strictEqual (o.getD null) v := by
  cases hv : v.isNull with
  | true =>
    obtain rfl := isNull_iff.mp hv
    rw [strictEqual_null]
    cases o with
    | none => rfl
    | some i =>
      cases i with
      | list xs => exact absurd rfl (ho xs)
      | _ => rfl
  | false =>
    cases o with
    | none =>
      rw [Option.getD_none, strictEqual_null_left, hv]
      simp [equalsAny, hv, candidates]
    | some i =>
      cases i with
      | list xs => exact absurd rfl (ho xs)
      | _ => simp [equalsAny, hv, candidates]

theorem isFound_entry (hn : SingleName n) (ps : Entries) :
    IsFound (dict ps) n (Entries.get? (str n) ps).toList := by
  intro w
  rw [segments_of_no_dot hn.undotted, reaches_dict, Option.mem_toList]
  simp [reaches_nil]

theorem equalAt_entry_iff (hn : SingleName n) (ps : Entries) (x : Value) :
    EqualAt (dict ps) n x ↔ equalsAny (Entries.get? (str n) ps).toList x = true :=
  ((isFound_entry hn ps).equalsAny_iff x).symm

theorem matchesEntry_entry (hn : SingleName n) (hword : startsWithDollar word = true)
    (ps : Entries) (x : Value) :
    matchesEntry (dict ps) (str n, dict [(str word, x)]) =
      holdsOperator (Entries.get? (str n) ps).toList [(str word, x)] word x := by
  have hcondition : isCondition (dict [(str word, x)]) = true := by
    simp [isCondition, isOperatorKey, hword]
  rw [matchesEntry_of_name (startsWithDollar_of_named hn.named),
    matchesField_operators (lookupPath_entry hn ps) hcondition, holdsOperators_single]

end Entry

def shelved (ps : List (Uuid × Entries)) : Entries := ps.map fun p => (uuid p.1, dict p.2)

/-- Every document has the identifier that it stands under. -/
def Filed (n : String) (ps : List (Uuid × Entries)) : Prop :=
  ∀ p ∈ ps, Entries.get? (str n) p.2 = some (uuid p.1)

theorem shelved_append (ps qs : List (Uuid × Entries)) :
    shelved (ps ++ qs) = shelved ps ++ shelved qs := List.map_append

section Finding

variable {n : String} {u : Uuid} {condition : Value} {ps before after : List (Uuid × Entries)}
  {d : Entries}

def AsksFor (u : Uuid) (condition : Value) : Prop :=
  condition = uuid u ∨ condition = dict [(str "$eq", uuid u)]

theorem equalsAny_uuid (v u : Uuid) : equalsAny [uuid v] (uuid u) = decide (v = u) := by
  have hequal : equalsAny [uuid v] (uuid u) = strictEqual (uuid v) (uuid u) :=
    equalsAny_toList (o := some (uuid v)) nofun (uuid u)
  rw [hequal, ← Bool.decide_coe (strictEqual _ _), decide_eq_decide, strictEqual_uuid,
    Value.uuid.injEq]

theorem matchesQuery_id (hn : SingleName n) (hc : AsksFor u condition) {v : Uuid}
    (hd : Entries.get? (str n) d = some (uuid v)) :
    matchesQuery (dict d) (dict [(str n, condition)]) = .ok (decide (v = u)) := by
  have hdollar := startsWithDollar_of_named hn.named
  have hequality : matchesQuery (dict d) (equality n (uuid u)) = .ok (decide (v = u)) := by
    rw [matchesQuery_equality hdollar, lookupPath_entry hn, hd, ← equalsAny_uuid]
    rfl
  rcases hc with rfl | rfl
  · rw [matchesQuery_plain hdollar _ rfl, hequality]
  · exact hequality

theorem findFirst_absent (hn : SingleName n) (hc : AsksFor u condition) (hf : Filed n ps)
    (hu : ∀ p ∈ ps, p.1 ≠ u) :
    Collection.findFirst (dict [(str n, condition)]) (shelved ps) = .ok none := by
  rw [Collection.findFirst_eq_none_iff, shelved, List.forall_mem_map]
  intro p hp
  rw [matchesQuery_id hn hc (hf p hp), decide_eq_false (hu p hp)]

theorem findFirst_present (hn : SingleName n) (hc : AsksFor u condition)
    (hf : Filed n (before ++ (u, d) :: after)) (hu : ∀ p ∈ before, p.1 ≠ u) :
    Collection.findFirst (dict [(str n, condition)]) (shelved (before ++ (u, d) :: after)) =
      .ok (some ⟨shelved before, uuid u, dict d, shelved after⟩) := by
  rw [Collection.findFirst_eq_some_iff]
  refine ⟨shelved_append _ _, ?_, ?_⟩
  · rw [shelved, List.forall_mem_map]
    intro p hp
    rw [matchesQuery_id hn hc (hf p (List.mem_append_left _ hp)), decide_eq_false (hu p hp)]
  · rw [matchesQuery_id hn hc (hf (u, d) (by simp)), decide_eq_true rfl]

end Finding

namespace Collection

variable {c : Collection} {n : String} {u : Uuid} {condition : Value} {d d' : Entries}
  {ps before after : List (Uuid × Entries)}

theorem contains_shelved (u : Uuid) (ps : List (Uuid × Entries)) :
    Entries.contains (uuid u) (shelved ps) = true ↔ ∃ p ∈ ps, p.1 = u := by
  induction ps with
  | nil => simp [Entries.contains, Entries.get?, shelved]
  | cons p ps ih =>
    change Entries.contains (uuid u) ((uuid p.1, dict p.2) :: shelved ps) = true ↔ _
    unfold Entries.contains at ih ⊢
    rw [Entries.get?]
    by_cases hp : p.1 = u
    · simp [hp, equal_uuid_right]
    · have hne : ¬ equal (uuid p.1) (uuid u) = true := by
        rw [equal_uuid_right]
        exact fun he => hp (Value.uuid.inj he)
      rw [if_neg hne, ih]
      simp [hp]

section Insert

theorem insert_of_entries (hd : Entries.contains (str c.idField) d = true) (m : Nat) :
    c.insert (dict d) m = (c.insertEntries d, m) := by
  have hident : identified c.idField (dict d) m = (.ok d, m) := by
    rw [identified, if_pos hd, run_pure]
  unfold insert
  rw [bind_of_ok hident]
  cases c.insertEntries d <;> rfl

section Key

variable {v : Value} (hd : Entries.get? (str c.idField) d = some v) (hv : v.hashable = true)
include hd hv

theorem insert_contained (h : Entries.contains v c.documents = true) (m : Nat) :
    c.insert (dict d) m = (.error (.duplicate c.idField v c.name.display), m) := by
  rw [insert_of_entries (by rw [Entries.contains, hd, Option.isSome_some])]
  simp [insertEntries, hd, hv, h]

theorem insert_absent (h : Entries.contains v c.documents = false) (m : Nat) :
    c.insert (dict d) m = (.ok (c.written (c.documents ++ [(v, dict d)])), m) := by
  rw [insert_of_entries (by rw [Entries.contains, hd, Option.isSome_some])]
  simp [insertEntries, hd, hv, h]

end Key

variable (hc : c.documents = shelved ps) (hd : Entries.get? (str c.idField) d = some (uuid u))
include hc hd

theorem insert_taken (hu : ∃ p ∈ ps, p.1 = u) (m : Nat) :
    c.insert (dict d) m = (.error (.duplicate c.idField (uuid u) c.name.display), m) :=
  insert_contained hd rfl (by rw [hc, contains_shelved]; exact hu) m

theorem insert_fresh (hu : ∀ p ∈ ps, p.1 ≠ u) (m : Nat) :
    c.insert (dict d) m = (.ok (c.written (shelved (ps ++ [(u, d)]))), m) := by
  have hnew : Entries.contains (uuid u) c.documents = false := by
    rw [hc, ← Bool.not_eq_true, contains_shelved]
    rintro ⟨p, hp, he⟩
    exact hu p hp he
  rw [insert_absent hd rfl hnew, hc, shelved_append]
  rfl

end Insert

section Change

variable (hn : SingleName c.idField) (ha : AsksFor u condition)
include hn ha

theorem target_absent (hc : c.documents = shelved ps) (hf : Filed c.idField ps)
    (hu : ∀ p ∈ ps, p.1 ≠ u) : c.target (dict [(str c.idField, condition)]) = .ok none := by
  rw [target, hc, findFirst_absent hn ha hf hu]
  rfl

theorem target_present (hc : c.documents = shelved (before ++ (u, d) :: after))
    (hf : Filed c.idField (before ++ (u, d) :: after)) (hu : ∀ p ∈ before, p.1 ≠ u) :
    c.target (dict [(str c.idField, condition)]) =
      .ok (some ⟨shelved before, uuid u, dict d, shelved after⟩) := by
  rw [target, hc, findFirst_present hn ha hf hu]
  rfl

theorem replaceFirst_absent (hc : c.documents = shelved ps) (hf : Filed c.idField ps)
    (hu : ∀ p ∈ ps, p.1 ≠ u) (document : Value) :
    c.replaceFirst (dict [(str c.idField, condition)]) document = .ok (none, c) := by
  rw [replaceFirst, target_absent hn ha hc hf hu]
  rfl

theorem replaceFirst_present (hc : c.documents = shelved (before ++ (u, d) :: after))
    (hf : Filed c.idField (before ++ (u, d) :: after)) (hu : ∀ p ∈ before, p.1 ≠ u)
    (hd : Entries.get? (str c.idField) d' = some (uuid u)) :
    c.replaceFirst (dict [(str c.idField, condition)]) (dict d') =
      .ok (some (dict d), c.written (shelved (before ++ (u, d') :: after))) := by
  have hnew : replacement c.idField (uuid u) (dict d') = .ok (dict d') := by
    have hself : equal (uuid u) (uuid u) = true := equal_uuid_right.mpr rfl
    simp [replacement, hd, hself]
  rw [replaceFirst, target_present hn ha hc hf hu]
  simp only [bind, Except.bind, hnew]
  simp [shelved]

theorem removeFirst_absent (hc : c.documents = shelved ps) (hf : Filed c.idField ps)
    (hu : ∀ p ∈ ps, p.1 ≠ u) :
    c.removeFirst (dict [(str c.idField, condition)]) = .ok (none, c) := by
  rw [removeFirst, target_absent hn ha hc hf hu]
  rfl

theorem removeFirst_present (hc : c.documents = shelved (before ++ (u, d) :: after))
    (hf : Filed c.idField (before ++ (u, d) :: after)) (hu : ∀ p ∈ before, p.1 ≠ u) :
    c.removeFirst (dict [(str c.idField, condition)]) =
      .ok (some (dict d), c.written (shelved (before ++ after))) := by
  rw [removeFirst, target_present hn ha hc hf hu]
  simp [bind, Except.bind, shelved]

end Change

end Collection

end DocStore
