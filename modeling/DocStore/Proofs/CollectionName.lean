import DocStore.Names
import DocStore.Regex.Pattern
import Mathlib.Data.Char
import Mathlib.Data.List.TakeWhile

/-! Names of collections. They are the texts of a small alphabet, except that a line break at the
end passes too: the pattern that decides may end before it. -/

namespace DocStore

open Regex

namespace Regex

/-- One or more characters that pass a test, from the start of a text to its end. -/
def Expr.wholly (t : CharTest) : Expr :=
  .seq (.anchor .textStart) (.seq (.iter 1 none .greedy (.one t)) (.anchor .finalEnd))

variable {t : CharTest} {text : Array Char} {k : Follow}

theorem isSome_one_iff {s : Spot} :
    ((Expr.one t).run text k s).isSome = true ↔
      ∃ c, text[s.pos]? = some c ∧ t.accepts c = true ∧
        (k { s with pos := s.pos + 1 }).isSome = true := by
  rw [Expr.run]
  cases hc : text[s.pos]? with
  | none => simp
  | some c =>
    by_cases ht : t.accepts c = true
    · simp [ht]
    · simp [ht]

/-- All characters from one position to another pass a test. -/
def Passing (t : CharTest) (text : Array Char) (pos stop : Nat) : Prop :=
  pos ≤ stop ∧ ∀ i, pos ≤ i → i < stop → ∃ c, text[i]? = some c ∧ t.accepts c = true

theorem passing_self (pos : Nat) : Passing t text pos pos := ⟨le_rfl, fun i hi hlt => by omega⟩

theorem passing_iff {pos stop : Nat} :
    Passing t text pos stop ↔ pos = stop ∨
      (∃ c, text[pos]? = some c ∧ t.accepts c = true) ∧ Passing t text (pos + 1) stop := by
  constructor
  · rintro ⟨hle, hrun⟩
    by_cases he : pos = stop
    · exact .inl he
    · have hlt : pos < stop := by omega
      exact .inr ⟨hrun pos le_rfl hlt, hlt, fun i hi => hrun i (by omega)⟩
  · rintro (rfl | ⟨hhere, hle, hrun⟩)
    · exact passing_self pos
    · refine ⟨by omega, fun i hi hlt => ?_⟩
      by_cases he : i = pos
      · rw [he]
        exact hhere
      · exact hrun i (by omega) hlt

/-- Once a test was passed, repeating it tries every place up to which the characters pass, until
what follows is content with one. The bound on the rounds is never reached, since each of them
takes a character. -/
theorem isSome_rounds_iff (hk : ∀ s : Spot, (k s).isSome = (k ⟨s.pos, []⟩).isSome) (fuel : Nat) :
    ∀ {count last} {s : Spot}, 1 ≤ count → last ≠ some s.pos → text.size < s.pos + fuel →
      ((rounds ((Expr.one t).run text) 1 none k fuel count last s).isSome = true ↔
        ∃ stop, Passing t text s.pos stop ∧ (k ⟨stop, []⟩).isSome = true) := by
  induction fuel with
  | zero =>
    intro count last s _ _ hsize
    have hpast : text[s.pos]? = none := Array.getElem?_eq_none (by omega)
    rw [rounds, hk s]
    constructor
    · intro h
      exact ⟨s.pos, passing_self _, h⟩
    · rintro ⟨stop, hrun, h⟩
      rcases passing_iff.mp hrun with rfl | ⟨⟨c, hc, _⟩, _⟩
      · exact h
      · rw [hpast] at hc
        cases hc
  | succ fuel ih =>
    intro count last s hcount hlast hsize
    have hnext := @ih (count + 1) (some s.pos) { s with pos := s.pos + 1 } (by omega)
      (by simp) (by simp only; omega)
    have hsplit : (rounds ((Expr.one t).run text) 1 none k (fuel + 1) count last s).isSome = true ↔
        ((Expr.one t).run text
          (rounds ((Expr.one t).run text) 1 none k fuel (count + 1) (some s.pos)) s).isSome = true ∨
        (k s).isSome = true := by
      rw [rounds, if_neg (by omega), if_pos (by simp [hlast])]
      split
      · next r hr => simp [hr]
      · next hr => simp [hr]
    rw [hsplit, isSome_one_iff, hk s]
    constructor
    · rintro (⟨c, hc, ht, hrest⟩ | h)
      · obtain ⟨stop, hrun, h⟩ := hnext.mp hrest
        exact ⟨stop, passing_iff.mpr (.inr ⟨⟨c, hc, ht⟩, hrun⟩), h⟩
      · exact ⟨s.pos, passing_self _, h⟩
    · rintro ⟨stop, hrun, h⟩
      rcases passing_iff.mp hrun with rfl | ⟨⟨c, hc, ht⟩, hrun⟩
      · exact .inr h
      · exact .inl ⟨c, hc, ht, hnext.mpr ⟨stop, hrun, h⟩⟩

theorem isSome_anchor_iff {a : Anchor} {s : Spot} :
    ((Expr.anchor a).run text k s).isSome = true ↔
      a.holds text s.pos = true ∧ (k s).isSome = true := by
  rw [Expr.run]
  by_cases ha : a.holds text s.pos = true
  · simp [ha]
  · simp [ha]

/-- Where a test of whole texts is met: the characters before some place pass, and a text may end at
that place. -/
theorem found_wholly_iff : (Expr.wholly t).found text = true ↔
    ∃ stop, 0 < stop ∧ Passing t text 0 stop ∧ Anchor.finalEnd.holds text stop = true := by
  have hk : ∀ s : Spot, ((Expr.anchor .finalEnd).run text some s).isSome =
      ((Expr.anchor .finalEnd).run text some ⟨s.pos, []⟩).isSome := by
    intro s
    rw [Bool.eq_iff_iff, isSome_anchor_iff, isSome_anchor_iff]
    simp
  have hzero : ((Expr.wholly t).run text some ⟨0, []⟩).isSome = true ↔
      ∃ stop, 0 < stop ∧ Passing t text 0 stop ∧ Anchor.finalEnd.holds text stop = true := by
    rw [Expr.wholly, Expr.run, isSome_anchor_iff, Expr.run, Expr.run, rounds, if_pos (by omega),
      isSome_one_iff]
    constructor
    · rintro ⟨_, c, hc, ht, hrest⟩
      obtain ⟨stop, hrun, hend⟩ :=
        (isSome_rounds_iff hk _ le_rfl (by simp) (by simp only; omega)).mp hrest
      refine ⟨stop, hrun.1, passing_iff.mpr (.inr ⟨⟨c, hc, ht⟩, hrun⟩), ?_⟩
      exact (isSome_anchor_iff.mp hend).1
    · rintro ⟨stop, hpos, hrun, hend⟩
      rcases passing_iff.mp hrun with rfl | ⟨⟨c, hc, ht⟩, hrun⟩
      · omega
      · refine ⟨rfl, c, hc, ht, ?_⟩
        refine (isSome_rounds_iff hk _ le_rfl (by simp) (by simp only; omega)).mpr ⟨stop, hrun, ?_⟩
        exact isSome_anchor_iff.mpr ⟨hend, rfl⟩
  rw [Expr.found, List.any_eq_true, ← hzero]
  constructor
  · rintro ⟨i, _, hi⟩
    -- the start of the text is at one place only
    have hstart : i = 0 := by
      rw [Expr.wholly, Expr.run, isSome_anchor_iff] at hi
      simpa [Anchor.holds] using hi.1
    rwa [hstart] at hi
  · intro h
    exact ⟨0, by simp, h⟩

end Regex

/-- Letters and digits of seven bits, the underscore, the hyphen and the dot. -/
def CollectionLetter (c : Char) : Prop :=
  ('a' ≤ c ∧ c ≤ 'z') ∨ ('A' ≤ c ∧ c ≤ 'Z') ∨ ('0' ≤ c ∧ c ≤ '9') ∨ c = '_' ∨ c = '-' ∨ c = '.'

theorem isCollectionChar_iff {c : Char} : isCollectionChar c = true ↔ CollectionLetter c := by
  have hranges : isCollectionChar c =
      (decide ('A'.val ≤ c.val ∧ c.val ≤ 'Z'.val) ||
        decide ('a'.val ≤ c.val) && decide (c.val ≤ 'z'.val) ||
        decide ('0'.val ≤ c.val) && decide (c.val ≤ '9'.val) ||
        c == '_' || c == '-' || c == '.') := rfl
  rw [hranges]
  simp [CollectionLetter, Char.le_def, or_assoc, or_comm, or_left_comm]

/-- Letters of the alphabet, at least one of them, and perhaps a line break after them. -/
def Lettered (cs : List Char) : Prop :=
  ∃ body, body ≠ [] ∧ (∀ c ∈ body, CollectionLetter c) ∧ (cs = body ∨ cs = body ++ ['\n'])

theorem not_collectionLetter_break : ¬ CollectionLetter '\n' := by
  rw [← isCollectionChar_iff]
  decide

theorem isCollectionText_iff {cs : List Char} : isCollectionText cs = true ↔ Lettered cs := by
  have hall {body rest : List Char} (hbody : ∀ c ∈ body, CollectionLetter c) :
      (body ++ rest).dropWhile isCollectionChar = rest.dropWhile isCollectionChar :=
    List.dropWhile_append_of_pos fun c hc => isCollectionChar_iff.mpr (hbody c hc)
  constructor
  · intro h
    have hsplit := List.takeWhile_append_dropWhile (p := isCollectionChar) (l := cs)
    have hbody : ∀ c ∈ cs.takeWhile isCollectionChar, CollectionLetter c := fun c hc =>
      isCollectionChar_iff.mp (List.mem_takeWhile_imp hc)
    unfold isCollectionText at h
    split at h
    · next hrest =>
      rw [hrest, List.append_nil] at hsplit
      rw [hsplit] at hbody
      exact ⟨cs, by simpa using h, hbody, .inl rfl⟩
    · next hrest =>
      rw [hrest] at hsplit
      refine ⟨cs.takeWhile isCollectionChar, ?_, hbody, .inr hsplit.symm⟩
      intro hnil
      rw [hnil] at hsplit
      simp [← hsplit] at h
    · cases h
  · rintro ⟨body, hne, hbody, hcs | rfl⟩
    · have hrest : body.dropWhile isCollectionChar = [] := by simpa using @hall body [] hbody
      rw [hcs, isCollectionText, hrest]
      simpa using hne
    · have hbreak : isCollectionChar '\n' = false := by decide
      have hrest : (body ++ ['\n']).dropWhile isCollectionChar = ['\n'] := by
        rw [hall hbody]
        simp [hbreak]
      have hpos : 0 < body.length := List.length_pos_iff.mpr hne
      rw [isCollectionText, hrest]
      simpa using hpos

/-- The pattern that names of collections are held against. -/
def collectionPattern : Pattern := ⟨.text "^[a-zA-Z0-9_\\-\\.]+$", Options.none⟩

/-- The characters in the brackets of the pattern. -/
def collectionTest : CharTest :=
  .set false .exact false [.range 97 122, .range 65 90, .range 48 57, .range 95 95, .range 45 45,
    .range 46 46]

theorem collectionTest_iff {c : Char} : collectionTest.accepts c = true ↔ CollectionLetter c := by
  have hone (d : Char) : d.toNat ≤ c.toNat ∧ c.toNat ≤ d.toNat ↔ c = d := by
    rw [← le_antisymm_iff, Char.toNat_inj, eq_comm]
  simp only [collectionTest, CharTest.accepts, SetItem.accepts, Fold.variants, List.any_cons,
    List.any_nil, Bool.or_false, bne_iff_ne, ne_eq, Bool.not_eq_false, Bool.or_eq_true,
    Bool.and_eq_true, decide_eq_true_eq, CollectionLetter]
  exact or_congr Iff.rfl (or_congr Iff.rfl (or_congr Iff.rfl (or_congr (hone '_')
    (or_congr (hone '-') (hone '.')))))

theorem lettered_iff {cs : List Char} : Lettered cs ↔ ∃ stop, 0 < stop ∧
    Passing collectionTest cs.toArray 0 stop ∧ Anchor.finalEnd.holds cs.toArray stop = true := by
  constructor
  · rintro ⟨body, hne, hbody, hcs⟩
    have hget : ∀ i, i < body.length → cs[i]? = body[i]? := by
      intro i hi
      rcases hcs with rfl | rfl
      · rfl
      · exact List.getElem?_append_left hi
    refine ⟨body.length, List.length_pos_iff.mpr hne, ⟨Nat.zero_le _, fun i _ hi => ?_⟩, ?_⟩
    · refine ⟨body[i], ?_, collectionTest_iff.mpr (hbody _ (List.getElem_mem hi))⟩
      rw [List.getElem?_toArray, hget i hi, List.getElem?_eq_getElem hi]
    · rcases hcs with rfl | rfl
      · simp [Anchor.holds]
      · simp [Anchor.holds]
  · rintro ⟨stop, hpos, ⟨_, hrun⟩, hend⟩
    have hbody : ∀ c ∈ cs.take stop, CollectionLetter c := by
      intro c hc
      obtain ⟨i, hi, rfl⟩ := List.mem_iff_getElem.mp hc
      rw [List.length_take] at hi
      obtain ⟨c, hget, ht⟩ := hrun i (Nat.zero_le i) (by omega)
      rw [List.getElem?_toArray, List.getElem?_eq_getElem (by omega)] at hget
      rw [List.getElem_take, Option.some.inj hget]
      exact collectionTest_iff.mp ht
    have hends : stop = cs.length ∨ stop + 1 = cs.length ∧ cs[stop]? = some '\n' := by
      simpa [Anchor.holds] using hend
    have hne : cs.take stop ≠ [] := by
      rw [← List.length_pos_iff, List.length_take]
      omega
    refine ⟨cs.take stop, hne, hbody, ?_⟩
    rcases hends with hstop | ⟨hstop, hget⟩
    · exact .inl (List.take_of_length_le hstop.ge).symm
    · right
      rw [List.getElem?_eq_getElem (by omega)] at hget
      have hlast : cs.drop stop = ['\n'] := by
        rw [List.drop_eq_getElem_cons (by omega), Option.some.inj hget, hstop, List.drop_length]
      rw [← hlast, List.take_append_drop]

theorem found_collectionPattern_iff (s : String) :
    collectionPattern.found s = true ↔ Lettered s.toList := by
  have hparse : parse collectionPattern.options collectionPattern.source =
      .ok (.wholly collectionTest, Options.none) := rfl
  rw [lettered_iff, Pattern.found, hparse]
  exact found_wholly_iff

/-- The name of a collection is held against the pattern once it is known to be neither empty nor
too long. -/
theorem collectionName_eq (s : String) : collectionName (.str s) =
    if s.toList.isEmpty then .error (.invalid .collectionNameEmpty)
    else if maxCollectionName < s.toList.length then
      .error (.invalid (.collectionNameLength s.toList.length))
    else if collectionPattern.found s then .ok s
    else .error (.invalid (.collectionNameChars s)) := by
  have hfound : collectionPattern.found s = isCollectionText s.toList := by
    rw [Bool.eq_iff_iff, found_collectionPattern_iff, isCollectionText_iff]
  rw [hfound]
  rfl

/-- The documented names of collections. -/
structure CollectionName (s : String) : Prop where
  long : 1 ≤ s.length
  short : s.length ≤ maxCollectionName
  letters : ∀ c ∈ s.toList, CollectionLetter c

/-- A name of a collection with a line break after it. -/
def BrokenName (s : String) : Prop :=
  ∃ n, CollectionName n ∧ n.length < maxCollectionName ∧ s = n ++ "\n"

theorem passes_iff {s : String} :
    0 < s.toList.length ∧ s.toList.length ≤ maxCollectionName ∧ Lettered s.toList ↔
      CollectionName s ∨ BrokenName s := by
  constructor
  · rintro ⟨hpos, hlen, body, hne, hbody, hs | hs⟩
    · exact .inl ⟨hpos, hlen, hs ▸ hbody⟩
    · have hlong : body.length + 1 ≤ maxCollectionName := by simpa [hs] using hlen
      refine .inr ⟨String.ofList body, ⟨?_, ?_, by simpa using hbody⟩, ?_, ?_⟩
      · rw [String.length_ofList]
        exact List.length_pos_iff.mpr hne
      · rw [String.length_ofList]
        omega
      · rw [String.length_ofList]
        omega
      · rw [← String.toList_inj, hs]
        simp
  · rintro (h | ⟨n, h, hlt, rfl⟩)
    · have hne : s.toList ≠ [] := List.length_pos_iff.mp h.long
      exact ⟨h.long, h.short, s.toList, hne, h.letters, .inl rfl⟩
    · have hne : n.toList ≠ [] := List.length_pos_iff.mp h.long
      have hlen : n.toList.length + 1 ≤ maxCollectionName := hlt
      refine ⟨by simp, ?_, n.toList, hne, h.letters, .inr (by simp)⟩
      simpa using hlen

/-- A text is let through as the name of a collection if it is one, or is one with a line break
after it; any other text is refused as invalid. -/
theorem collectionName_language (s : String) :
    (collectionName (.str s) = .ok s ↔ CollectionName s ∨ BrokenName s) ∧
      ((∃ cause, collectionName (.str s) = .error (.invalid cause)) ↔
        ¬ (CollectionName s ∨ BrokenName s)) := by
  rw [← passes_iff, ← found_collectionPattern_iff, collectionName_eq]
  by_cases hempty : s.toList.isEmpty = true
  · have hnil : s.toList = [] := List.isEmpty_iff.mp hempty
    simp [hnil]
  · have hpos : 0 < s.toList.length := by
      rw [List.length_pos_iff]
      simpa using hempty
    rw [if_neg hempty]
    by_cases hlong : maxCollectionName < s.toList.length
    · have hshort : ¬ s.toList.length ≤ maxCollectionName := by omega
      simp [hlong, hshort]
    · rw [if_neg hlong]
      have hshort : s.toList.length ≤ maxCollectionName := by omega
      by_cases hfound : collectionPattern.found s = true
      · simp [hfound, hpos, hshort]
      · simp [hfound]

/-- The line break at the end is none of the documented letters. -/
theorem collectionName_break :
    collectionName (.str "people\n") = .ok "people\n" ∧ ¬ CollectionName "people\n" := by
  refine ⟨rfl, fun h => ?_⟩
  exact not_collectionLetter_break (h.letters '\n' (by decide))

end DocStore
