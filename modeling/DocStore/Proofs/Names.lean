import DocStore.Names
import DocStore.Proofs.Document.Reach
import DocStore.Query.Match

/-! Names of fields as paths: they are no operators, and a name inside another one is read after
it. -/

namespace DocStore

theorem splitDots_ne_nil (cs : List Char) : splitDots cs ≠ [] := by
  cases cs with
  | nil => simp [splitDots]
  | cons c cs =>
    rw [splitDots]
    split
    · simp
    · split <;> simp

theorem splitDots_append_dot (cs ds : List Char) :
    splitDots (cs ++ '.' :: ds) = splitDots cs ++ splitDots ds := by
  induction cs with
  | nil => simp [splitDots]
  | cons c cs ih =>
    simp only [List.cons_append, splitDots, ih]
    by_cases hc : c = '.'
    · simp [hc]
    · obtain ⟨part, parts, hp⟩ := List.exists_cons_of_ne_nil (splitDots_ne_nil cs)
      simp [hc, hp]

theorem splitDots_of_no_dot {cs : List Char} (h : '.' ∉ cs) : splitDots cs = [cs] := by
  induction cs with
  | nil => rfl
  | cons c cs ih =>
    have hc : ¬ c = '.' := fun he => h (by simp [he])
    have hcs : '.' ∉ cs := fun hm => h (List.mem_cons_of_mem _ hm)
    simp [splitDots, hc, ih hcs]

theorem segments_ne_nil (path : String) : segments path ≠ [] := by
  rw [segments, ne_eq, List.map_eq_nil_iff]
  exact splitDots_ne_nil path.toList

theorem segments_append_dot (p q : String) :
    segments (p ++ "." ++ q) = segments p ++ segments q := by
  have hl : (p ++ "." ++ q).toList = p.toList ++ '.' :: q.toList := by simp
  rw [segments, hl, splitDots_append_dot, List.map_append]
  rfl

theorem segments_of_no_dot {n : String} (h : '.' ∉ n.toList) : segments n = [n] := by
  simp [segments, splitDots_of_no_dot h]

theorem ne_empty_of_named {n : String} (h : fieldNameFault? n = none) : n.toList ≠ [] := by
  intro he
  simp [fieldNameFault?, he] at h

theorem startsWithDollar_of_named {n : String} (h : fieldNameFault? n = none) :
    startsWithDollar n = false := by
  simp only [fieldNameFault?] at h
  split at h
  · simp at h
  split at h
  · simp at h
  split at h
  · simp at h
  unfold startsWithDollar
  cases hn : n.toList with
  | nil => rfl
  | cons c cs =>
    rw [hn, splitDots] at h
    by_cases hc : c = '.'
    · simp [hc]
    · simp only [hc, if_false] at h
      split at h
      · simp only [segmentFault?] at h
        split at h
        · simp at h
        · simpa using ‹_›
      · simp only [segmentFault?] at h
        split at h
        · simp at h
        · simpa using ‹_›

theorem startsWithDollar_append {p : String} (hp : p.toList ≠ []) (q : String) :
    startsWithDollar (p ++ q) = startsWithDollar p := by
  obtain ⟨c, cs, hc⟩ := List.exists_cons_of_ne_nil hp
  simp [startsWithDollar, hc]

/-- Paths that may stand before a name: none, or one that leads into embedded documents. -/
inductive Scope : String → Prop
  | top : Scope ""
  | inside {path n : String} (h : Scope path) (hn : fieldNameFault? n = none) :
    Scope (path ++ n ++ ".")

/-- The path of a field: its name, after the names of the fields that it is embedded in. -/
def FieldPath (path : String) : Prop :=
  ∃ scope n, Scope scope ∧ fieldNameFault? n = none ∧ path = scope ++ n

theorem FieldPath.of_name {n : String} (h : fieldNameFault? n = none) : FieldPath n :=
  ⟨"", n, .top, h, by simp⟩

theorem FieldPath.no_operator {path : String} (h : FieldPath path) :
    startsWithDollar path = false := by
  obtain ⟨scope, n, hs, hn, rfl⟩ := h
  induction hs generalizing n with
  | top => simpa using startsWithDollar_of_named hn
  | @inside outer m _ hm ih =>
    have hne : (outer ++ m).toList ≠ [] := by simp [ne_empty_of_named hm]
    rw [String.append_assoc, startsWithDollar_append hne]
    exact ih m hm

/-- Names whose numbers can be read stay so under a path. -/
def ReadableUnder (path : String) : Prop := ∀ n, Readable n → Readable (path ++ n)

theorem ReadableUnder.top : ReadableUnder "" := fun n h => by simpa using h

theorem ReadableUnder.inside {path n : String} (h : ReadableUnder path) (hn : Readable n) :
    ReadableUnder (path ++ n ++ ".") := by
  intro m hm
  unfold Readable
  rw [segments_append_dot]
  exact (h n hn).append hm

end DocStore
