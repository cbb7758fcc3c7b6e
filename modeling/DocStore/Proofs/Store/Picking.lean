import DocStore.Proofs.Store.Opening
import DocStore.Proofs.Value.Equal

/-! Finding a document and writing to it. The first document that matches is removed or replaced,
unless it stands under null, which is taken for there being none. -/

namespace DocStore

open Value

variable {query document : Value} {ps : Entries}

namespace Collection

variable {c : Collection} {f : Found}

/-- The first document that matches, between those that come before and after it. -/
structure Picks (query : Value) (ps : Entries) (f : Found) : Prop where
  split : ps = f.before ++ (f.key, f.document) :: f.after
  passed : ∀ p ∈ f.before, matchesQuery p.2 query = .ok false
  hit : matchesQuery f.document query = .ok true

theorem findFirst_eq_none_iff :
    findFirst query ps = .ok none ↔ ∀ p ∈ ps, matchesQuery p.2 query = .ok false := by
  induction ps with
  | nil => simp [findFirst]
  | cons p ps ih =>
    obtain ⟨k, d⟩ := p
    rw [findFirst, List.forall_mem_cons, ← ih]
    cases hm : matchesQuery d query with
    | error e => simp
    | ok b =>
      cases b with
      | true => simp
      | false =>
        rcases hf : findFirst query ps with e | found
        · simp [Except.map]
        · simp [Except.map]

theorem findFirst_eq_some_iff :
    findFirst query ps = .ok (some f) ↔ Picks query ps f := by
  induction ps generalizing f with
  | nil =>
    refine ⟨fun h => (by cases h), fun h => ?_⟩
    have hsplit := h.split
    simp at hsplit
  | cons p ps ih =>
    obtain ⟨k, d⟩ := p
    obtain ⟨before, key, found, after⟩ := f
    rw [findFirst]
    constructor
    · intro h
      split at h
      · cases h
      · next hm =>
        cases h
        exact ⟨rfl, by simp, hm⟩
      · next hm =>
        obtain ⟨g, hrest, hg⟩ := except_map_eq_ok.mp h
        cases g with
        | none => cases hg
        | some g =>
          cases hg
          obtain ⟨hsplit, hpassed, hhit⟩ := ih.mp hrest
          exact ⟨congrArg _ hsplit, List.forall_mem_cons.mpr ⟨hm, hpassed⟩, hhit⟩
    · rintro ⟨hsplit, hpassed, hhit⟩
      cases before with
      | nil =>
        cases hsplit
        simp only [hhit]
      | cons q before =>
        cases hsplit
        obtain ⟨hm, hbefore⟩ := List.forall_mem_cons.mp hpassed
        have hrest := ih.mpr (Picks.mk (f := ⟨before, key, found, after⟩) rfl hbefore hhit)
        simp only [hm, hrest]
        rfl

theorem picks_of_read (h : ∀ p ∈ ps, ∃ b, matchesQuery p.2 query = .ok b) :
    (∀ p ∈ ps, matchesQuery p.2 query = .ok false) ∨ ∃ f, Picks query ps f := by
  induction ps with
  | nil => exact .inl (by simp)
  | cons p ps ih =>
    obtain ⟨⟨b, hb⟩, hrest⟩ := List.forall_mem_cons.mp h
    cases b with
    | true => exact .inr ⟨⟨[], p.1, p.2, ps⟩, rfl, by simp, hb⟩
    | false =>
      refine (ih hrest).imp (fun hnone => List.forall_mem_cons.mpr ⟨hb, hnone⟩) ?_
      rintro ⟨f, hsplit, hpassed, hhit⟩
      exact ⟨⟨p :: f.before, f.key, f.document, f.after⟩, congrArg _ hsplit,
        List.forall_mem_cons.mpr ⟨hb, hpassed⟩, hhit⟩

/-- No document matches, or the first that does stands under null. -/
def Missed (query : Value) (ps : Entries) : Prop :=
  (∀ p ∈ ps, matchesQuery p.2 query = .ok false) ∨ ∃ f, Picks query ps f ∧ f.key = null

theorem target_of_picks (h : Picks query c.documents f) (hk : f.key ≠ null) :
    c.target query = .ok (some f) := by
  have hn : f.key.isNull = false := by
    rw [← Bool.not_eq_true, isNull_iff]
    exact hk
  rw [target, findFirst_eq_some_iff.mpr h]
  simp [Except.map, Option.filter, hn]

theorem target_of_missed (h : Missed query c.documents) : c.target query = .ok none := by
  rw [target]
  rcases h with hnone | ⟨f, hf, hk⟩
  · rw [findFirst_eq_none_iff.mpr hnone]
    rfl
  · rw [findFirst_eq_some_iff.mpr hf]
    simp [Except.map, Option.filter, hk, isNull]

/-- Queries with the same answers remove the same. -/
theorem removeFirst_congr {query' : Value} (h : ∀ d, matchesQuery d query = matchesQuery d query')
    (c : Collection) : c.removeFirst query = c.removeFirst query' := by
  have hfind : ∀ ps, findFirst query ps = findFirst query' ps := by
    intro ps
    induction ps with
    | nil => rfl
    | cons p ps ih => rw [findFirst, findFirst, h, ih]
  rw [removeFirst, removeFirst, target, target, hfind]

/-- What replacing the document that was found gives, and the collection that it leaves. A document
with an identifier has to have one that is equal to the key; one without gets the key, if that is
equal to itself. -/
inductive Replaced (c : Collection) (f : Found) (ps : Entries) :
    Except Error (Option Value) → Collection → Prop
  | given {id : Value} (hid : Entries.get? (str c.idField) ps = some id)
      (he : equal id f.key = true) :
      Replaced c f ps (.ok (some f.document))
        (c.written (f.before ++ (f.key, dict ps) :: f.after))
  | other {id : Value} (hid : Entries.get? (str c.idField) ps = some id)
      (he : equal id f.key = false) :
      Replaced c f ps (.error (.malformed (.replacedId c.idField f.key id))) c
  | filled (hid : Entries.get? (str c.idField) ps = none) (hk : f.key.isNan = false) :
      Replaced c f ps (.ok (some f.document)) (c.written
        (f.before ++ (f.key, dict (Entries.put (str c.idField) f.key ps)) :: f.after))
  | unequal (hid : Entries.get? (str c.idField) ps = none) (hk : f.key.isNan = true) :
      Replaced c f ps (.error (.malformed (.replacedId c.idField f.key f.key))) c

theorem replaceFirst_of_target (h : c.target query = .ok (some f)) (document : Value) :
    c.replaceFirst query document = (replacement c.idField f.key document).map fun new =>
      (some f.document, c.written (f.before ++ (f.key, new) :: f.after)) := by
  rw [replaceFirst, h]
  rfl

theorem removeFirst_of_target (h : c.target query = .ok (some f)) :
    c.removeFirst query = .ok (some f.document, c.written (f.before ++ f.after)) := by
  rw [removeFirst, h]
  rfl

end Collection

namespace Store

open Collection

variable {n : Nat} {s : Store}

/-- What removing the first match from a collection of a store comes to, and replacing it. -/
structure Picking (query : Value) (n : Nat) (s : Store) : Prop where
  /-- Nothing is removed just where no document is found, and then the store is as it was. -/
  spared : onCollection n (·.removeFirst query) s = (.ok none, s) ↔
    Missed query (s.collectionAt n).documents
  /-- The same goes for replacing. -/
  kept : ∀ ps, onCollection n (·.replaceFirst query (dict ps)) s = (.ok none, s) ↔
    Missed query (s.collectionAt n).documents
  /-- Otherwise the first match goes, and is given back, or the replacement stands in its place. -/
  found : ¬ Missed query (s.collectionAt n).documents →
    ∃ f, Picks query (s.collectionAt n).documents f ∧
      onCollection n (·.removeFirst query) s =
        (.ok (some f.document),
          s.putCollection n ((s.collectionAt n).written (f.before ++ f.after))) ∧
      ∀ ps, ∃ r c, Replaced (s.collectionAt n) f ps r c ∧
        onCollection n (·.replaceFirst query (dict ps)) s = (r, s.putCollection n c)

theorem onCollection_missed (h : Missed query (s.collectionAt n).documents) :
    onCollection n (·.removeFirst query) s = (.ok none, s) ∧
      ∀ document, onCollection n (·.replaceFirst query document) s = (.ok none, s) := by
  have htarget := target_of_missed h
  constructor
  · rw [onCollection, removeFirst, htarget]
    simp only [bind, Except.bind, putCollection_self]
  · intro document
    rw [onCollection, replaceFirst, htarget]
    simp only [bind, Except.bind, putCollection_self]

theorem onCollection_replaced {f : Found} (h : (s.collectionAt n).target query = .ok (some f))
    (ps : Entries) : ∃ r c, Replaced (s.collectionAt n) f ps r c ∧
      onCollection n (·.replaceFirst query (dict ps)) s = (r, s.putCollection n c) := by
  simp only [onCollection, replaceFirst_of_target h, replacement]
  cases hid : Entries.get? (str (s.collectionAt n).idField) ps with
  | some id =>
    cases he : equal id f.key with
    | true => exact ⟨_, _, .given hid he, by simp [he, Except.map]⟩
    | false => exact ⟨_, _, .other hid he, by simp [he, Except.map, putCollection_self]⟩
  | none =>
    cases hk : f.key.isNan with
    | true => exact ⟨_, _, .unequal hid hk, by simp [Except.map, putCollection_self]⟩
    | false => exact ⟨_, _, .filled hid hk, by simp [Except.map]⟩

/-- Where a query can be answered for every document, removing and replacing write to the first
document that matches, unless that stands under null. -/
theorem picking_of_read (n : Nat) (s : Store)
    (h : ∀ p ∈ (s.collectionAt n).documents, ∃ b, matchesQuery p.2 query = .ok b) :
    Picking query n s := by
  have hfound : ¬ Missed query (s.collectionAt n).documents →
      ∃ f, Picks query (s.collectionAt n).documents f ∧
        (s.collectionAt n).target query = .ok (some f) := by
    intro hm
    rcases picks_of_read h with hnone | ⟨f, hf⟩
    · exact absurd (.inl hnone) hm
    · exact ⟨f, hf, target_of_picks hf fun hk => hm (.inr ⟨f, hf, hk⟩)⟩
  refine ⟨⟨fun hrun => ?_, fun hm => (onCollection_missed hm).1⟩,
    fun ps => ⟨fun hrun => ?_, fun hm => (onCollection_missed hm).2 (dict ps)⟩, fun hm => ?_⟩
  · by_contra hm
    obtain ⟨f, _, ht⟩ := hfound hm
    rw [onCollection, removeFirst_of_target ht] at hrun
    cases hrun
  · by_contra hm
    obtain ⟨f, _, ht⟩ := hfound hm
    obtain ⟨r, c, hr, he⟩ := onCollection_replaced ht ps
    rw [he] at hrun
    obtain ⟨rfl, _⟩ := Prod.mk.inj hrun
    cases hr
  · obtain ⟨f, hf, ht⟩ := hfound hm
    refine ⟨f, hf, ?_, onCollection_replaced ht⟩
    rw [onCollection, removeFirst_of_target ht]

/-- A store with one collection, which is empty. -/
def withNotes : Store := (collection (str "notes") (Store.empty "_id" 0)).2

def notes : Entries :=
  [(int 1, dict [(str "_id", int 1), (str "a", int 1)]),
    (int 2, dict [(str "_id", int 2), (str "a", int 2)])]

theorem picking_notes :
    (∀ p ∈ ((withNotes.putCollection 0
        ((withNotes.collectionAt 0).written notes)).collectionAt 0).documents,
      ∃ b, matchesQuery p.2 (dict [(str "a", int 2)]) = .ok b) ∧
    Picking (dict [(str "a", int 2)]) 0
      (withNotes.putCollection 0 ((withNotes.collectionAt 0).written notes)) := by
  have hread : ∀ p ∈ notes, ∃ b, matchesQuery p.2 (dict [(str "a", int 2)]) = .ok b := by
    simp only [notes, List.forall_mem_cons]
    exact ⟨⟨false, rfl⟩, ⟨true, rfl⟩, by simp⟩
  exact ⟨hread, picking_of_read 0 _ hread⟩

/-- A document that was inserted under null matches, and is not removed. -/
theorem removeFirst_null : ∃ s,
    insert 0 (dict [(str "_id", null), (str "a", int 1)]) withNotes = (.ok (), s) ∧
      (s.collectionAt 0).documents = [(null, dict [(str "_id", null), (str "a", int 1)])] ∧
      matchesQuery (dict [(str "_id", null), (str "a", int 1)]) (dict [(str "a", int 1)]) =
        .ok true ∧
      onCollection 0 (·.removeFirst (dict [(str "a", int 1)])) s = (.ok none, s) :=
  ⟨_, rfl, rfl, rfl, rfl⟩

end Store

end DocStore
