import DocStore.Proofs.Store.History
import DocStore.Proofs.Store.Snapshot
import DocStore.Proofs.Store.Writing
import DocStore.Proofs.Value.Equivalence

/-! Refusing a document whose identifier is taken. Whether it is depends on the keys, which were
given when documents were inserted, while queries see the identifiers that documents have by now.
The two are equal, so an identifier is taken just where looking for it finds a document, unless a
boolean is taken for a number. -/

namespace DocStore

open Value

namespace Value

variable {a b k v : Value}

/-- Values that are equal, though just one of them is a boolean. -/
def Conflated (a b : Value) : Prop := equal a b = true ∧ a.isBool ≠ b.isBool

theorem equal_iff_strict : equal a b = true ↔ strictEqual a b = true ∨ Conflated a b := by
  rw [strictEqual, Conflated, Bool.and_eq_true, beq_iff_eq]
  tauto

theorem strictEqual_self (h : equal v v = true) : strictEqual v v = true := by
  rw [strictEqual, h, beq_self_eq_true, Bool.and_true]

/-- What stands under a key is no list, as lists cannot be keys. -/
theorem Under.ne_list (h : Under k v) (hk : k.hashable = true) (xs : List Value) :
    v ≠ list xs := by
  rintro rfl
  rcases h with rfl | he
  · cases hk
  · unfold equal at he
    cases k with
    | list ys => cases hk
    | _ => cases he

/-- A key and what stands under it are equal to the same values. -/
theorem Under.equal_iff (h : Under k v) (hk : k.Sound) (hv : v.Sound) (ha : a.Sound) :
    equal k a = true ↔ equal v a = true := by
  rcases h with rfl | he
  · rfl
  · exact ⟨fun hka => perOn_sound.trans v k a hv hk ha he hka,
      fun hva => perOn_sound.trans k v a hk hv ha (perOn_sound.symm v k hv hk he) hva⟩

end Value

namespace Collection

open Store

variable {c : Collection} {v : Value} {ps : Entries} {p : Value × Value}

/-- Identifiers are looked for where they are: the name of their field is a path of one segment and
no operator. Sets in keys and identifiers hold nothing twice. -/
structure Searchable (c : Collection) : Prop where
  undotted : '.' ∉ c.idField.toList
  named : startsWithDollar c.idField = false
  sound : ∀ p ∈ c.documents, p.1.Sound ∧ (identifier c.idField p.2).Sound

/-- A document is found by an identifier. -/
def Finds (c : Collection) (v : Value) : Prop :=
  ∃ p ∈ c.documents, matchesQuery p.2 (equality c.idField v) = .ok true

/-- The identifier of a document is mistaken for another one. -/
def Mistakes (c : Collection) (v : Value) : Prop :=
  ∃ p ∈ c.documents, Conflated (identifier c.idField p.2) v

section Looking

variable (h : c.Searchable)
include h

theorem matchesQuery_identifier (hlist : ∀ xs, identifier c.idField (dict ps) ≠ list xs)
    (v : Value) : matchesQuery (dict ps) (equality c.idField v) =
      .ok (strictEqual (identifier c.idField (dict ps)) v) := by
  rw [matchesQuery_equality h.named, lookupPath_undotted h.undotted, Except.map,
    equalsAny_toList hlist]
  rfl

variable (hs : ∀ p ∈ c.documents, Stands c.idField p) (hk : c.Keyed)
include hs hk

/-- Looking for an identifier compares it with those that documents have. -/
theorem matchesQuery_stands (hp : p ∈ c.documents) (v : Value) :
    matchesQuery p.2 (equality c.idField v) = .ok (strictEqual (identifier c.idField p.2) v) := by
  obtain ⟨ps, hps, hu⟩ := hs p hp
  rw [hps]
  exact matchesQuery_identifier h (hu.ne_list (hk p.1 (List.mem_map_of_mem hp))) v

/-- A key is taken where a document is found under it, or mistaken for one. -/
theorem contains_iff (hv : v.Sound) :
    Entries.contains v c.documents = true ↔ c.Finds v ∨ c.Mistakes v := by
  have hkey : ∀ p ∈ c.documents, equal p.1 v = true ↔
      matchesQuery p.2 (equality c.idField v) = .ok true ∨
        Conflated (identifier c.idField p.2) v := by
    intro p hp
    obtain ⟨ps, hps, hu⟩ := hs p hp
    obtain ⟨hkey, hheld⟩ := h.sound p hp
    have hunder : Under p.1 (identifier c.idField p.2) := by
      rw [hps]
      exact hu
    rw [hunder.equal_iff hkey hheld hv, equal_iff_strict, matchesQuery_stands h hs hk hp,
      Except.ok.injEq]
  rw [← Bool.not_eq_false, Entries.contains_eq_false_iff, Finds, Mistakes, ← exists_or]
  push Not
  refine exists_congr fun p => ?_
  rw [← and_or_left, Bool.ne_false_iff]
  exact and_congr_right (hkey p)

end Looking

end Collection

namespace Store

open Collection

variable {s : Store} {n : Nat} {ps : Entries} {v : Value}

/-- What inserting a document with an identifier comes to. -/
structure Refusing (s : Store) (n : Nat) (ps : Entries) (v : Value) : Prop where
  /-- It is refused, and nothing changes, just where the identifier is found or mistaken. -/
  refused : insert n (dict ps) s = (.error (.duplicate (s.collectionAt n).idField v
    (s.collectionAt n).name.display), s) ↔
      (s.collectionAt n).Finds v ∨ (s.collectionAt n).Mistakes v
  /-- Otherwise the document comes last, and nothing else is found by its identifier. -/
  stored : ¬ ((s.collectionAt n).Finds v ∨ (s.collectionAt n).Mistakes v) →
    insert n (dict ps) s = (.ok (), s.putCollection n ((s.collectionAt n).written
      ((s.collectionAt n).documents ++ [(v, dict ps)]))) ∧
    matchesQuery (dict ps) (equality (s.collectionAt n).idField v) = .ok true ∧
    ∀ p ∈ (s.collectionAt n).documents,
      matchesQuery p.2 (equality (s.collectionAt n).idField v) = .ok false

/-- Whatever was done since a store was empty, an insertion is refused just where looking for the
identifier finds a document or one is mistaken for it. The identifier is to be equal to itself,
which NaN and handles are not. -/
theorem refusing_reached (hs : s.Reached) (hc : (s.collectionAt n).Searchable)
    (hid : Entries.get? (str (s.collectionAt n).idField) ps = some v) (hhash : v.hashable = true)
    (hself : equal v v = true) (hv : v.Sound) : Refusing s n ps v := by
  have hstands := (hs.orderly.collections n).stands
  have hkeyed := (hs.made n).keyed
  have htaken := contains_iff hc hstands hkeyed hv
  refine ⟨⟨fun hrun => ?_, fun h => ?_⟩, fun h => ?_⟩
  · by_contra hnot
    rw [← htaken, Bool.not_eq_true] at hnot
    rw [insert_run (insert_absent hid hhash hnot _)] at hrun
    cases hrun
  · exact insert_error (insert_contained hid hhash (htaken.mpr h) _)
  · have hnot := h
    rw [← htaken, Bool.not_eq_true] at hnot
    refine ⟨insert_run (insert_absent hid hhash hnot _), ?_, fun p hp => ?_⟩
    · have hheld : identifier (s.collectionAt n).idField (dict ps) = v := by
        rw [identifier, hid, Option.getD_some]
      have hlist : ∀ xs, identifier (s.collectionAt n).idField (dict ps) ≠ list xs := by
        rw [hheld]
        exact Under.ne_list (.inl rfl) hhash
      rw [matchesQuery_identifier hc hlist, hheld, strictEqual_self hself]
    · rw [matchesQuery_stands hc hstands hkeyed hp, Except.ok.injEq, ← Bool.not_eq_true]
      intro he
      refine h (.inl ⟨p, hp, ?_⟩)
      rw [matchesQuery_stands hc hstands hkeyed hp, he]

/-- A store with one collection that has one document. -/
def withNote : Store :=
  (empty "_id" 0).after [.collection (str "notes"), .insert 0 (dict [(str "_id", int 1)])]

theorem withNote_documents :
    (withNote.collectionAt 0).documents = [(int 1, dict [(str "_id", int 1)])] := rfl

theorem withNote_searchable : (withNote.collectionAt 0).Searchable := by
  refine ⟨by simp [show (withNote.collectionAt 0).idField = "_id" from rfl], rfl, fun p hp => ?_⟩
  rw [withNote_documents, List.mem_singleton] at hp
  rw [hp]
  exact ⟨sound_of_single rfl, sound_of_single rfl⟩

theorem refusing_note :
    withNote.Reached ∧ (withNote.collectionAt 0).Searchable ∧
      Entries.get? (str (withNote.collectionAt 0).idField) [(str "_id", int 2)] = some (int 2) ∧
      (int 2).hashable = true ∧ equal (int 2) (int 2) = true ∧ (int 2).Sound ∧
      Refusing withNote 0 [(str "_id", int 2)] (int 2) := by
  have hs : withNote.Reached := ⟨_, _, _, rfl⟩
  have hid : Entries.get? (str (withNote.collectionAt 0).idField) [(str "_id", int 2)] =
      some (int 2) := rfl
  have hsound : (int 2).Sound := sound_of_single rfl
  have hself : equal (int 2) (int 2) = true := alike_int.mpr rfl
  exact ⟨hs, withNote_searchable, hid, rfl, hself, hsound,
    refusing_reached hs withNote_searchable hid rfl hself hsound⟩

/-- A document with the number one as its identifier keeps one with a boolean out, although the
boolean is not found. -/
theorem insert_mistaken :
    withNote.Reached ∧
      (withNote.collectionAt 0).documents = [(int 1, dict [(str "_id", int 1)])] ∧
      matchesQuery (dict [(str "_id", int 1)]) (equality "_id" (bool true)) = .ok false ∧
      insert 0 (dict [(str "_id", bool true)]) withNote =
        (.error (.duplicate "_id" (bool true) "notes"), withNote) :=
  ⟨⟨_, _, _, rfl⟩, rfl, rfl, rfl⟩

end Store

end DocStore
