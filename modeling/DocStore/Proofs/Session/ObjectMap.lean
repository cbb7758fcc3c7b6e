import DocStore.Proofs.Codec.Item
import DocStore.Proofs.Store.Writing

/-! Maps from identifiers to objects that keep the order of insertion, and what they answer. -/

namespace DocStore

open Value

variable {d : Decoder}

/-- Items in the order they were inserted, no two of them under the same identifier. -/
structure ObjectMap (d : Decoder) where
  items : List (Item d)
  distinct : (items.map Item.id).Nodup

inductive Request (d : Decoder)
  | insert (o : Item d)
  | replace (o : Item d)
  | delete (o : Item d)
  | deleteId (u : Uuid)
  | get (u : Uuid)
  | contains (u : Uuid)
  | size
  | objects

/-- What is asked for is done, or gives an object or none, a truth, a number or objects. -/
inductive Reply (α : Type)
  | done
  | object (x : Option α)
  | truth (b : Bool)
  | number (n : Nat)
  | objects (xs : List α)

/-- Why a map refuses a request: an identifier is there, or it is not there. -/
inductive Refused
  | duplicate (u : Uuid)
  | missing (u : Uuid)

def Request.written : Request d → List (Item d)
  | .insert o => [o]
  | .replace o => [o]
  | _ => []

namespace ObjectMap

def empty : ObjectMap d := ⟨[], .nil⟩

def Has (m : ObjectMap d) (u : Uuid) : Prop := u ∈ m.items.map Item.id

instance (m : ObjectMap d) (u : Uuid) : Decidable (m.Has u) :=
  inferInstanceAs (Decidable (u ∈ m.items.map Item.id))

def find? (m : ObjectMap d) (u : Uuid) : Option (Item d) := m.items.find? fun o => o.id = u

def insert (m : ObjectMap d) (o : Item d) (h : ¬ m.Has o.id) : ObjectMap d where
  items := m.items ++ [o]
  distinct := by
    rw [List.map_append, List.map_singleton, List.nodup_append]
    refine ⟨m.distinct, by simp, fun u hu w hw he => h ?_⟩
    rw [List.mem_singleton.mp hw] at he
    rw [Has, ← he]
    exact hu

/-- An item in the place of another one with its identifier changes no identifiers. -/
theorem ids_replaced (items : List (Item d)) (o : Item d) :
    (items.map fun p => if p.id = o.id then o else p).map Item.id = items.map Item.id := by
  rw [List.map_map]
  refine List.map_congr_left fun p _ => ?_
  by_cases hp : p.id = o.id
  · simp [hp]
  · simp [hp]

def replace (m : ObjectMap d) (o : Item d) : ObjectMap d where
  items := m.items.map fun p => if p.id = o.id then o else p
  distinct := by
    rw [ids_replaced]
    exact m.distinct

def remove (m : ObjectMap d) (u : Uuid) : ObjectMap d where
  items := m.items.filter fun o => o.id ≠ u
  distinct := (List.filter_sublist.map Item.id).nodup m.distinct

def answerInsert (m : ObjectMap d) (o : Item d) :
    Except Refused (Reply (Item d)) × ObjectMap d :=
  if h : m.Has o.id then (.error (.duplicate o.id), m) else (.ok .done, m.insert o h)

def answerReplace (m : ObjectMap d) (o : Item d) :
    Except Refused (Reply (Item d)) × ObjectMap d :=
  if m.Has o.id then (.ok .done, m.replace o) else (.error (.missing o.id), m)

def answerDelete (m : ObjectMap d) (u : Uuid) :
    Except Refused (Reply (Item d)) × ObjectMap d :=
  if m.Has u then (.ok .done, m.remove u) else (.error (.missing u), m)

def answer (m : ObjectMap d) : Request d → Except Refused (Reply (Item d)) × ObjectMap d
  | .insert o => m.answerInsert o
  | .replace o => m.answerReplace o
  | .delete o => m.answerDelete o.id
  | .deleteId u => m.answerDelete u
  | .get u => (.ok (.object (m.find? u)), m)
  | .contains u => (.ok (.truth (decide (m.Has u))), m)
  | .size => (.ok (.number m.items.length), m)
  | .objects => (.ok (.objects m.items), m)

/-- The answers to requests that are made one after the other, and the map after them. -/
def answers : List (Request d) → ObjectMap d →
    List (Except Refused (Reply (Item d))) × ObjectMap d
  | [], m => ([], m)
  | q :: qs, m =>
    let (r, m) := m.answer q
    let (rs, m) := answers qs m
    (r :: rs, m)

def filed (m : ObjectMap d) : List (Uuid × Entries) := m.items.map Item.filed

variable {m : ObjectMap d} {o x : Item d} {u : Uuid}

theorem answerDelete_of_error {e : Refused} (h : (m.answerDelete u).1 = .error e) :
    (m.answerDelete u).2 = m := by
  unfold answerDelete at h ⊢
  by_cases hm : m.Has u
  · rw [if_pos hm] at h
    cases h
  · rw [if_neg hm]

/-- A request that is refused changes nothing. -/
theorem answer_of_error {q : Request d} {e : Refused} (h : (m.answer q).1 = .error e) :
    (m.answer q).2 = m := by
  cases q with
  | insert o =>
    simp only [answer, answerInsert] at h ⊢
    by_cases hm : m.Has o.id
    · rw [dif_pos hm]
    · rw [dif_neg hm] at h
      cases h
  | replace o =>
    simp only [answer, answerReplace] at h ⊢
    by_cases hm : m.Has o.id
    · rw [if_pos hm] at h
      cases h
    · rw [if_neg hm]
  | delete o => exact answerDelete_of_error h
  | deleteId u => exact answerDelete_of_error h
  | _ => rfl

theorem mem_replace {p : Item d} (h : p ∈ (m.replace o).items) : p = o ∨ p ∈ m.items := by
  obtain ⟨q, hq, he⟩ := List.mem_map.mp h
  by_cases hid : q.id = o.id
  · rw [if_pos hid] at he
    exact .inl he.symm
  · rw [if_neg hid] at he
    rw [← he]
    exact .inr hq

theorem mem_answer {p : Item d} {q : Request d} (h : p ∈ (m.answer q).2.items) :
    p ∈ m.items ∨ p ∈ q.written := by
  have hdelete (u : Uuid) (h : p ∈ (m.answerDelete u).2.items) : p ∈ m.items := by
    unfold answerDelete at h
    split at h
    · exact List.mem_of_mem_filter h
    · exact h
  cases q with
  | insert o =>
    simp only [answer, answerInsert] at h
    split at h
    · exact .inl h
    · exact (List.mem_append.mp h).imp_right id
  | replace o =>
    simp only [answer, answerReplace] at h
    split at h
    · rcases mem_replace h with rfl | h
      · exact .inr List.mem_cons_self
      · exact .inl h
    · exact .inl h
  | delete o => exact .inl (hdelete o.id h)
  | deleteId u => exact .inl (hdelete u h)
  | _ => exact .inl h

/-- All items come of the requests. -/
theorem mem_answers {p : Item d} {qs : List (Request d)} (h : p ∈ (answers qs m).2.items) :
    p ∈ m.items ∨ ∃ q ∈ qs, p ∈ q.written := by
  induction qs generalizing m with
  | nil => exact .inl h
  | cons q qs ih =>
    rcases ih h with h | ⟨q', hq', hp⟩
    · exact (mem_answer h).imp_right fun hp => ⟨q, List.mem_cons_self, hp⟩
    · exact .inr ⟨q', List.mem_cons_of_mem q hq', hp⟩

theorem has_iff : m.Has u ↔ ∃ o ∈ m.items, o.id = u := by
  simp [Has]

theorem has_filed : m.Has u ↔ ∃ p ∈ m.filed, p.1 = u := by
  simp [Has, filed, Item.filed]

theorem not_has_filed : ¬ m.Has u ↔ ∀ p ∈ m.filed, p.1 ≠ u := by
  rw [has_filed]
  exact ⟨fun h p hp he => h ⟨p, hp, he⟩, fun h ⟨p, hp, he⟩ => h p hp he⟩

/-- An identifier that is there divides the items into those before and those after its own. -/
theorem split_of_has (h : m.Has u) : ∃ before x after, m.items = before ++ x :: after ∧
    x.id = u ∧ (∀ p ∈ before, p.id ≠ u) ∧ ∀ p ∈ after, p.id ≠ u := by
  obtain ⟨x, hx, hid⟩ := has_iff.mp h
  obtain ⟨before, after, hitems⟩ := List.append_of_mem hx
  have hd := m.distinct
  rw [hitems, List.map_append, List.map_cons, List.nodup_append, List.nodup_cons] at hd
  obtain ⟨_, ⟨hafter, _⟩, hbefore⟩ := hd
  refine ⟨before, x, after, hitems, hid, fun p hp he => ?_, fun p hp he => hafter ?_⟩
  · exact hbefore p.id (List.mem_map_of_mem hp) x.id (by simp) (he.trans hid.symm)
  · rw [hid, ← he]
    exact List.mem_map_of_mem hp

section Split

variable {before after : List (Item d)} (hm : m.items = before ++ x :: after)
  (hb : ∀ p ∈ before, p.id ≠ x.id) (ha : ∀ p ∈ after, p.id ≠ x.id)
include hm hb

theorem find?_split : m.find? x.id = some x := by
  rw [find?, hm, List.find?_append]
  have hnone : before.find? (fun o => o.id = x.id) = none := by
    rw [List.find?_eq_none]
    intro p hp
    simpa using hb p hp
  simp [hnone]

include ha

theorem replace_split (ho : o.id = x.id) : (m.replace o).items = before ++ o :: after := by
  have hkeep : ∀ ps : List (Item d), (∀ p ∈ ps, p.id ≠ x.id) →
      ps.map (fun p => if p.id = x.id then o else p) = ps := by
    intro ps hps
    have hsame : ∀ p ∈ ps, (if p.id = x.id then o else p) = id p := fun p hp => if_neg (hps p hp)
    rw [List.map_congr_left hsame, List.map_id]
  simp [replace, hm, hkeep before hb, hkeep after ha, ho]

theorem remove_split : (m.remove x.id).items = before ++ after := by
  have hkeep : ∀ ps : List (Item d), (∀ p ∈ ps, p.id ≠ x.id) →
      ps.filter (fun o => o.id ≠ x.id) = ps := by
    intro ps hps
    rw [List.filter_eq_self]
    intro p hp
    simpa using hps p hp
  simp only [remove, hm, List.filter_append, List.filter_cons, hkeep before hb, hkeep after ha]
  simp

end Split

theorem find?_of_not_has (h : ¬ m.Has u) : m.find? u = none := by
  rw [find?, List.find?_eq_none]
  intro o ho he
  exact h (has_iff.mpr ⟨o, ho, by simpa using he⟩)

theorem has_insert (h : ¬ m.Has o.id) : (m.insert o h).Has u ↔ m.Has u ∨ u = o.id := by
  simp [Has, insert]

theorem has_replace : (m.replace o).Has u ↔ m.Has u := by
  rw [Has, Has, replace, ids_replaced]

theorem find?_of_mem {p : Item d} (h : p ∈ m.items) : m.find? p.id = some p := by
  obtain ⟨before, after, hitems⟩ := List.append_of_mem h
  have hdistinct := m.distinct
  rw [hitems, List.map_append, List.map_cons, List.nodup_append] at hdistinct
  exact find?_split hitems fun q hq =>
    hdistinct.2.2 q.id (List.mem_map_of_mem hq) p.id List.mem_cons_self

/-- Puts an item under its identifier, in the place of the one that is there. -/
def put (m : ObjectMap d) (o : Item d) : ObjectMap d :=
  if h : m.Has o.id then m.replace o else m.insert o h

theorem mem_put (m : ObjectMap d) (o : Item d) : o ∈ (m.put o).items := by
  unfold put
  by_cases h : m.Has o.id
  · obtain ⟨p, hp, hid⟩ := has_iff.mp h
    rw [dif_pos h]
    exact List.mem_map.mpr ⟨p, hp, if_pos hid⟩
  · rw [dif_neg h]
    exact List.mem_append_right _ List.mem_cons_self

/-- All other items stay. -/
theorem mem_put_other {p : Item d} (hp : p.id ≠ o.id) :
    p ∈ (m.put o).items ↔ p ∈ m.items := by
  unfold put
  by_cases h : m.Has o.id
  · rw [dif_pos h]
    constructor
    · intro hmem
      rcases mem_replace hmem with rfl | hmem
      · exact absurd rfl hp
      · exact hmem
    · exact fun hmem => List.mem_map.mpr ⟨p, hmem, if_neg hp⟩
  · rw [dif_neg h]
    simp only [insert, List.mem_append, List.mem_singleton]
    refine ⟨fun hmem => hmem.resolve_right ?_, .inl⟩
    rintro rfl
    exact hp rfl

theorem mem_shelved {k v : Value} :
    (k, v) ∈ shelved m.filed ↔ ∃ p ∈ m.items, uuid p.id = k ∧ dict p.entries = v := by
  simp [shelved, filed, Item.filed]

theorem shelved_put_other {k v : Value} (hk : k ≠ uuid o.id) :
    (k, v) ∈ shelved (m.put o).filed ↔ (k, v) ∈ shelved m.filed := by
  simp only [mem_shelved]
  constructor
  · rintro ⟨p, hp, rfl, hv⟩
    exact ⟨p, (mem_put_other fun he => hk (congrArg uuid he)).mp hp, rfl, hv⟩
  · rintro ⟨p, hp, rfl, hv⟩
    exact ⟨p, (mem_put_other fun he => hk (congrArg uuid he)).mpr hp, rfl, hv⟩

end ObjectMap

end DocStore
