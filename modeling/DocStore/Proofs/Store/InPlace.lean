import DocStore.Proofs.Query.Faithful
import DocStore.Store.InPlace

/-! Documents of a collection as objects and as values. If none of them has a dictionary at two
places, an update of the objects keeps pace with an update of the values. -/

namespace DocStore

open Value

namespace Collection

section Pass

variable {α β : Type} {R : α → β → Prop} {picks : α → Except Error Bool}
  {picks' : β → Except Error Bool} {work : Value → α → Except Error (Option α)}
  {work' : Value → β → Except Error (Option β)} {ps : List (Value × α)} {qs : List (Value × β)}

/-- Related documents under the same identifiers. -/
def Paired (R : α → β → Prop) : List (Value × α) → List (Value × β) → Prop :=
  List.Forall₂ fun p q => p.1 = q.1 ∧ R p.2 q.2

/-- Two passes that end in the same way, and with related documents. -/
structure Alike (R : α → β → Prop) (x : Pass α) (y : Pass β) : Prop where
  documents : Paired R x.documents y.documents
  counts : x.counts = y.counts
  result : x.result = y.result

/-- Work on related documents that fails, leaves them alone or changes them, each of it together. -/
inductive Together (R : α → β → Prop) : Except Error (Option α) → Except Error (Option β) → Prop
  | error (e : Error) : Together R (.error e) (.error e)
  | none : Together R (.ok none) (.ok none)
  | some {x : α} {y : β} (h : R x y) : Together R (.ok (some x)) (.ok (some y))

theorem Alike.before {x : Pass α} {y : Pass β} {p : Value × α} {q : Value × β} (h : Alike R x y)
    (hpq : p.1 = q.1 ∧ R p.2 q.2) (count : Counts) :
    Alike R (x.before p count) (y.before q count) := by
  refine ⟨.cons hpq h.documents, ?_, h.result⟩
  rw [Pass.before, Pass.before, h.counts]

theorem alike_passOver (hpicks : ∀ x y, R x y → picks x = picks' y)
    (hwork : ∀ k x y, R x y → Together R (work k x) (work' k y)) (every : Bool)
    (h : Paired R ps qs) :
    Alike R (passOver picks work every ps) (passOver picks' work' every qs) := by
  induction h with
  | nil => exact ⟨.nil, rfl, rfl⟩
  | @cons p q ps qs hpq hrest ih =>
    obtain ⟨k, x⟩ := p
    obtain ⟨_, y⟩ := q
    obtain ⟨rfl, hxy⟩ := hpq
    change R x y at hxy
    change Alike R _ (passOver picks' work' every ((k, y) :: qs))
    rw [passOver, passOver, hpicks x y hxy]
    cases picks' y with
    | error e => exact ⟨.cons ⟨rfl, hxy⟩ hrest, rfl, rfl⟩
    | ok b =>
      cases b with
      | false => exact ih.before ⟨rfl, hxy⟩ _
      | true =>
        have htogether := hwork k x y hxy
        generalize work k x = u at htogether ⊢
        generalize work' k y = w at htogether ⊢
        cases htogether with
        | error e => exact ⟨.cons ⟨rfl, hxy⟩ hrest, rfl, rfl⟩
        | none =>
          cases every with
          | true => exact ih.before ⟨rfl, hxy⟩ _
          | false => exact ⟨.cons ⟨rfl, hxy⟩ hrest, rfl, rfl⟩
        | some h =>
          cases every with
          | true => exact ih.before ⟨rfl, h⟩ _
          | false => exact ⟨.cons ⟨rfl, h⟩ hrest, rfl, rfl⟩

end Pass

end Collection

namespace Objects

variable {o u : Objects} {d : Value} {ups : Entries} {docs : List (Value × Objects)} {ps : Entries}

theorem together_updated (hu : u.Embodies (dict ups)) (h : o.Embodies d) (idField : String)
    (key : Value) : Collection.Together Embodies (updated idField key u o)
      (Collection.updated idField key d (dict ups)) := by
  have hequals := equals_applyUpdate hu h
  unfold updated Collection.updated
  dsimp only
  rw [hequals.result]
  cases hr : (DocStore.applyUpdate d (dict ups)).result with
  | error e => exact .error e
  | ok changed =>
    cases changed with
    | false => exact .none
    | true =>
      have hid := hequals.document.proper.valueAt hequals.document.tree [idField]
      obtain ⟨qs, hqs⟩ := hequals.document.entries
      have hdoc := hequals.document
      rw [hqs] at hid hdoc ⊢
      dsimp only
      rw [show ((o.applyUpdate u).document.getAt [idField]).bind
        (o.applyUpdate u).document.heap.tree = Entries.get? (str idField) qs from
          hid.trans (by rw [getPath_dict]; cases Entries.get? (str idField) qs <;> rfl)]
      split
      · exact .some hdoc
      · exact .error _

/-- Updating documents as objects and as values goes through the same documents, changes as many and
stops for the same reason, and again no document has an object at two places. -/
theorem alike_updateEach (hu : u.Embodies (dict ups)) (idField : String) (query : Value)
    (every : Bool) (h : Collection.Paired Embodies docs ps) :
    Collection.Alike Embodies (updateEach idField query u every docs)
      (Collection.updateEntries idField query (dict ups) every ps) :=
  Collection.alike_passOver (fun o d h => by rw [h.tree, Option.getD_some])
    (fun k _ _ h => together_updated hu h idField k) every h

end Objects

end DocStore
