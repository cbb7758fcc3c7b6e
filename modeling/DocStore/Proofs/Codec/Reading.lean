import DocStore.Codec.Decode
import DocStore.Proofs.Codec.Growth

/-! Reading documents depends on a registry only through the classes that hold names. What is read
under one registry is read the same way under any that holds as much. -/

namespace DocStore

open Value

/-- Work that does what another does wherever that succeeds. -/
def Extends {α : Type} (x y : Fresh α) : Prop :=
  ∀ m a m', x m = (.ok a, m') → y m = (.ok a, m')

namespace Extends

variable {α β : Type}

theorem refl (x : Fresh α) : Extends x x := fun _ _ _ h => h

theorem bind {x y : Fresh α} {f g : α → Fresh β} (h : Extends x y)
    (hf : ∀ a, Extends (f a) (g a)) : Extends (x >>= f) (y >>= g) := by
  intro m b m' hb
  obtain ⟨a, u, ha, hb⟩ := bind_eq_ok_iff.mp hb
  exact bind_eq_ok_iff.mpr ⟨a, u, h _ _ _ ha, hf a _ _ _ hb⟩

theorem map {x y : Fresh α} (f : α → β) (h : Extends x y) : Extends (f <$> x) (f <$> y) := by
  rw [map_eq_bind, map_eq_bind]
  exact h.bind fun a => .refl _

end Extends

/-- All names that a registry knows stand for the same classes in another one. -/
def Registry.Holds (r t : Registry) : Prop :=
  ∀ n c, r.classNamed? n = some c → t.classNamed? n = some c

theorem Registry.Grown.holds {cat : Catalog} {r t : Registry} (h : Grown cat r t) : r.Holds t :=
  fun _ _ hc => h.held hc

namespace Codec

variable {cat : Catalog} {s : Schema} {r t : Registry}

theorem resolve_onward {name : Value} {c : String} (hg : r.Holds t) (h : r.resolve name = .ok c) :
    t.resolve name = .ok c := by
  unfold Registry.resolve at h ⊢
  cases hn : name.hashable with
  | false => simp [hn] at h
  | true =>
    cases name with
    | str n =>
      cases hc : r.classNamed? n with
      | none => simp [hc, hn] at h
      | some d =>
        simp only [hc, hn] at h
        simpa [hn, hg _ _ hc] using h
    | _ => simp [hn] at h

section Fetch

variable {name : Value} {partly : Bool} {fetch fetch' : String → Hint → Fresh (Option Value)}

theorem given_extends {c : ClassSpec} (hf : ∀ key h, Extends (fetch key h) (fetch' key h))
    (fs : List FieldSpec) :
    Extends (given s c name partly fetch fs) (given s c name partly fetch' fs) := by
  induction fs with
  | nil => exact .refl _
  | cons f fs ih =>
    rw [given, given]
    split
    · exact ih
    · refine (hf _ _).bind fun v => ?_
      cases v with
      | some v => exact ih.bind fun _ => .refl _
      | none =>
        dsimp only
        split
        · split
          · exact ih.bind fun _ => .refl _
          · exact .refl _
        · exact ih

/-- An object is made of a document just where its name stands for a class whose hints can be asked
for, its fields are read, and the class takes them. -/
theorem build_eq_ok_iff {m m' : Nat} {v : Value} :
    build cat s r name partly fetch m = (.ok v, m') ↔
      name.isNull = false ∧ ∃ entity c entries k, r.resolve name = .ok entity ∧
        cat.class? entity = some c ∧ c.uncaught? = none ∧
        given s c name partly fetch c.fields m = (.ok entries, k) ∧
        c.construct entries k = (.ok (.ok v), m') := by
  unfold build
  constructor
  · intro h
    split at h
    · cases h
    · next hnull =>
      cases hr : r.resolve name with
      | error e =>
        rw [hr] at h
        cases h
      | ok entity =>
        rw [hr] at h
        dsimp only at h
        cases hc : cat.class? entity with
        | none =>
          simp only [hc] at h
          cases h
        | some c =>
          cases hu : c.uncaught? with
          | some exception =>
            simp only [hc, hu] at h
            cases h
          | none =>
            simp only [hc, hu] at h
            obtain ⟨entries, k, hgiven, h⟩ := bind_eq_ok_iff.mp h
            obtain ⟨made, k', hmade, h⟩ := bind_eq_ok_iff.mp h
            cases made with
            | error why => cases h
            | ok w =>
              cases h
              exact ⟨by simpa using hnull, entity, c, entries, k, rfl, hc, hu, hgiven, hmade⟩
  · rintro ⟨hnull, entity, c, entries, k, hr, hc, hu, hgiven, hmade⟩
    rw [if_neg (by simp [hnull]), hr]
    simp only [hc, hu]
    rw [bind_of_ok hgiven, bind_of_ok hmade]
    rfl

theorem build_extends (hg : r.Holds t) (hf : ∀ key h, Extends (fetch key h) (fetch' key h)) :
    Extends (build cat s r name partly fetch) (build cat s t name partly fetch') := by
  intro m v m' h
  obtain ⟨hnull, entity, c, entries, k, hr, hc, hu, hgiven, hmade⟩ := build_eq_ok_iff.mp h
  exact build_eq_ok_iff.mpr ⟨hnull, entity, c, entries, k, resolve_onward hg hr, hc, hu,
    given_extends hf c.fields _ _ _ hgiven, hmade⟩

end Fetch

mutual

theorem decode_extends (hg : r.Holds t) (v : Value) :
    ∀ h, Extends (decode cat s r v h) (decode cat s t v h) := by
  intro h
  cases v with
  | dict ps =>
    rw [decode, decode]
    split
    · exact build_extends hg fun key h => decodeField_extends hg ps key h
    · exact (decodeEntries_extends hg ps).bind fun _ => .refl _
  | list xs =>
    rw [decode, decode]
    exact (decodeItems_extends hg xs h.item).bind fun _ => .refl _
  | _ => rw [decode, decode] <;> first | exact .refl _ | simp
termination_by structural v

theorem decodeItems_extends (hg : r.Holds t) (xs : List Value) :
    ∀ h, Extends (decodeItems cat s r h xs) (decodeItems cat s t h xs) := by
  intro h
  cases xs with
  | nil => exact .refl _
  | cons x xs =>
    rw [decodeItems, decodeItems]
    exact (decode_extends hg x h).bind fun _ =>
      (decodeItems_extends hg xs h).bind fun _ => .refl _
termination_by structural xs

theorem decodeEntries_extends (hg : r.Holds t) (ps : Entries) :
    Extends (decodeEntries cat s r ps) (decodeEntries cat s t ps) := by
  cases ps with
  | nil => exact .refl _
  | cons p ps =>
    rw [decodeEntries, decodeEntries]
    exact (decodeEntry_extends hg p .any).bind fun _ =>
      (decodeEntries_extends hg ps).bind fun _ => .refl _
termination_by structural ps

theorem decodeEntry_extends (hg : r.Holds t) (p : Value × Value) :
    ∀ h, Extends (decodeEntry cat s r h p) (decodeEntry cat s t h p) := by
  intro h
  cases p with
  | mk k v =>
    rw [decodeEntry, decodeEntry]
    exact decode_extends hg v h
termination_by structural p

theorem decodeField_extends (hg : r.Holds t) (ps : Entries) :
    ∀ key h, Extends (decodeField cat s r key h ps) (decodeField cat s t key h ps) := by
  intro key h
  cases ps with
  | nil => exact .refl _
  | cons p ps =>
    rw [decodeField, decodeField]
    split
    · exact (decodeEntry_extends hg p h).map some
    · exact decodeField_extends hg ps key h
termination_by structural ps

end

/-- An object that a document is read as is the same one under a larger registry. -/
theorem fromDocument_extends (hg : r.Holds t) (partly : Bool) (document : Value) :
    Extends (fromDocument cat s r partly document) (fromDocument cat s t partly document) := by
  cases document with
  | dict ps => exact build_extends hg fun key h => decodeField_extends hg ps key h
  | _ => exact .refl _

end Codec

end DocStore
