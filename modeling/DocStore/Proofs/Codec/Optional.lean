import DocStore.Catalog.Models
import DocStore.Proofs.Codec.Passing

/-! Reading under optional hints. What is hinted inside an option reaches only the items of an
array, so that the option changes what is read unless nothing is read otherwise under its content
than without any hint. -/

namespace DocStore

/-- Whether values are read under a hint as they are without one. -/
def Hint.inert : Hint → Bool
  | any => true
  | cls (.enumeration _) => false
  | cls (.kind .uuid) => false
  | cls _ => true
  | list h => h.inert
  | dict h _ => h.inert
  | optional h => h.inert
  | tuple _ => false
  | set _ _ => false

namespace Codec

open Value

variable {cat : Catalog} {s : Schema} {r : Registry}

theorem collect_inert {h : Hint} (hh : h.inert = true) (xs : List Value) :
    collect cat h xs = .ok (list xs) := by
  cases h <;> first | rfl | cases hh

theorem scalar_inert {h : Hint} (hh : h.inert = true) (v : Value) : scalar cat h v = .ok v := by
  cases h with
  | cls c =>
    cases c with
    | kind k => cases k <;> first | rfl | cases hh
    | entity _ => rfl
    | enumeration _ => cases hh
  | tuple _ => cases hh
  | set _ _ => cases hh
  | _ => rfl

theorem decodeItems_congr {h k : Hint} (hx : ∀ x, decode cat s r x h = decode cat s r x k)
    (xs : List Value) : decodeItems cat s r h xs = decodeItems cat s r k xs := by
  induction xs with
  | nil => rfl
  | cons x xs ih => rw [decodeItems, decodeItems, hx x, ih]

theorem decode_str (h : Hint) (t : String) (m : Nat) :
    decode cat s r (str t) h m = (scalar cat h (str t), m) := by
  rw [decode]
  · cases scalar cat h (str t) <;> rfl
  all_goals simp

/-- Hints that read the items of an array alike, and collect them alike, and treat scalars alike. -/
theorem decode_congr {h k : Hint} (hitem : ∀ x, decode cat s r x h.item = decode cat s r x k.item)
    (hcollect : ∀ xs, collect cat h xs = collect cat k xs)
    (hscalar : ∀ v, scalar cat h v = scalar cat k v) (v : Value) :
    decode cat s r v h = decode cat s r v k := by
  cases v with
  | dict ps => rw [decode, decode]
  | list xs =>
    rw [decode, decode, decodeItems_congr hitem]
    simp only [hcollect]
  | _ =>
    rw [decode, decode, hscalar]
    all_goals simp

/-- Inside an option a hint stands where a hint for items does. -/
theorem decode_optional (h : Hint) (v : Value) :
    decode cat s r v (.optional h) = decode cat s r v (.list h) :=
  decode_congr (h := .optional h) (k := .list h) (fun _ => rfl) (fun _ => rfl) (fun _ => rfl) v

theorem decode_inert : ∀ {h : Hint}, h.inert = true → ∀ v,
    decode cat s r v h = decode cat s r v .any
  | .any, _, _ => rfl
  | .cls c, hh, v =>
    decode_congr (k := .any) (h := .cls c) (fun _ => rfl) (collect_inert hh) (scalar_inert hh) v
  | .list h, hh, v => decode_congr (decode_inert (h := h) hh) (collect_inert hh) (scalar_inert hh) v
  | .dict h _, hh, v =>
    decode_congr (decode_inert (h := h) hh) (collect_inert hh) (scalar_inert hh) v
  | .optional h, hh, v =>
    decode_congr (decode_inert (h := h) hh) (collect_inert hh) (scalar_inert hh) v

theorem decode_single {h : Hint} (hh : ∀ xs, collect cat h xs = .ok (list xs)) (x : Value) :
    decode cat s r (list [x]) h = (fun y => list [y]) <$> decode cat s r x h.item := by
  simp [decode, decodeItems, hh]

/-- What an option changes about an item, an option around the hint of the array changes too. -/
theorem decode_single_ne {h : Hint} {x : Value} (hcollect : ∀ xs, collect cat h xs = .ok (list xs))
    (hscalar : ∀ v, scalar cat h v = .ok v)
    (hx : decode cat s r x (.optional h.item) ≠ decode cat s r x h.item) :
    decode cat s r (list [x]) (.optional h) ≠ decode cat s r (list [x]) h := by
  intro he
  rw [decode_single (fun _ => rfl), decode_single hcollect] at he
  have hitem : decode cat s r x h = decode cat s r x h.item :=
    map_injective (fun _ _ hy => List.head_eq_of_cons_eq (list.inj hy)) he
  have houter : decode cat s r x (.optional h.item) = decode cat s r x h := by
    refine decode_congr (h := .optional h.item) (k := h) (fun _ => rfl) (fun xs => ?_)
      (fun v => ?_) x
    · rw [hcollect]
      rfl
    · rw [hscalar]
      rfl
  exact hx (houter.trans hitem)

/-- A text that is no member is not read under an enumeration as it is. -/
theorem scalar_enumeration_ne (e : String) (t : String) :
    scalar cat (.cls (.enumeration e)) (str t) ≠ .ok (str t) := by
  cases hless : cat.isMemberless e with
  | true => simp [scalar, isNull, classOf, hless]
  | false =>
    cases hm : (cat.enumeration? e).bind fun e => e.ofValue? (str t) with
    | none => simp [scalar, isNull, classOf, hless, hm]
    | some m =>
      obtain ⟨e', _, he⟩ := Option.bind_eq_some_iff.mp hm
      obtain ⟨_, _, rfl⟩ := Option.map_eq_some_iff.mp he
      simp [scalar, isNull, classOf, hless, hm]

/-- Under a hint that is not inert, an option changes what is read. -/
theorem exists_decode_optional_ne : ∀ {h : Hint}, h.inert = false →
    ∃ v, v ≠ null ∧ decode cat s r v (.optional h) ≠ decode cat s r v h
  | .cls (.enumeration e), _ => by
    refine ⟨str "", by simp, fun he => ?_⟩
    have hm := congrFun he 0
    rw [decode_str, decode_str, Prod.mk.injEq] at hm
    exact scalar_enumeration_ne e "" hm.1.symm
  | .cls (.kind .uuid), _ => ⟨str "", by simp, fun he => by cases congrFun he 0⟩
  | .tuple _, _ => ⟨list [], by simp, fun he => by cases congrFun he 0⟩
  | .set _ _, _ => ⟨list [], by simp, fun he => by cases congrFun he 0⟩
  | .list h, hh =>
    have ⟨x, _, hx⟩ := exists_decode_optional_ne (h := h) hh
    ⟨list [x], by simp, decode_single_ne (fun _ => rfl) (fun _ => rfl) hx⟩
  | .dict h _, hh =>
    have ⟨x, _, hx⟩ := exists_decode_optional_ne (h := h) hh
    ⟨list [x], by simp, decode_single_ne (fun _ => rfl) (fun _ => rfl) hx⟩
  | .optional h, hh =>
    have ⟨x, _, hx⟩ := exists_decode_optional_ne (h := h) hh
    ⟨list [x], by simp, decode_single_ne (fun _ => rfl) (fun _ => rfl) hx⟩

theorem inert_of_agree {h : Hint}
    (hv : ∀ v, v ≠ null → decode cat s r v (.optional h) = decode cat s r v h) :
    h.inert = true := by
  cases hh : h.inert with
  | true => rfl
  | false =>
    obtain ⟨v, hnull, hne⟩ := exists_decode_optional_ne hh
    exact absurd (hv v hnull) hne

/-- An optional hint is read as a hint for arrays. It agrees with the hint inside it, on all values
but null, exactly where no value is read under that hint otherwise than without a hint; and which
hints these are can be computed. -/
theorem optional_transparent_iff (cat : Catalog) (s : Schema) (r : Registry) (h : Hint) :
    (∀ v, decode cat s r v (.optional h) = decode cat s r v (.list h)) ∧
      ((∀ v, v ≠ null → decode cat s r v (.optional h) = decode cat s r v h) ↔
        ∀ v, decode cat s r v h = decode cat s r v .any) ∧
      ((∀ v, decode cat s r v h = decode cat s r v .any) ↔ h.inert = true) := by
  have agree (hv : ∀ v, decode cat s r v h = decode cat s r v .any) (v : Value) :
      decode cat s r v (.optional h) = decode cat s r v h := calc
    decode cat s r v (.optional h) = decode cat s r v .any :=
      decode_congr (h := .optional h) (k := .any) hv (fun _ => rfl) (fun _ => rfl) v
    _ = decode cat s r v h := (hv v).symm
  exact ⟨decode_optional h, ⟨fun hv => decode_inert (inert_of_agree hv), fun hv v _ => agree hv v⟩,
    fun hv => inert_of_agree fun v _ => agree hv v, decode_inert⟩

/-- A member of an enumeration is read from its value, but not where a field may be without one. -/
theorem optional_enumeration_unread :
    ¬ ∀ (h : Hint) (v : Value), v ≠ null →
      decode Models.catalog .standard .empty v (.optional h) =
        decode Models.catalog .standard .empty v h := by
  intro hall
  have hm := congrFun (hall Models.levelHint (str "junior") (by simp)) 0
  have hread : decode Models.catalog .standard .empty (str "junior") Models.levelHint 0 =
      (.ok Models.junior, 0) := by
    rw [decode_str]
    rfl
  rw [hread, decode_str] at hm
  cases hm

end Codec

end DocStore
