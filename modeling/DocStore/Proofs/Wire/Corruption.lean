import DocStore.Proofs.Run
import DocStore.Wire.Snapshot
import Mathlib.Data.List.Infix

/-! Bytes that were not written here. The reader refuses them in its own words, or passes on what
the meaning of an extension refuses; of the meanings only that of patterns has other words. -/

namespace DocStore

open Value

namespace Wire

variable {α β : Type} {meaning : Int → List UInt8 → Except Error Value} {size levels n : Nat}
  {bs rest data : List UInt8} {e : Error}

/-- What a step over some bytes comes to: the bytes after it are the last of them, and an error is
the reader's own or that of an extension among them. -/
def Contained (meaning : Int → List UInt8 → Except Error Value) (bs : List UInt8) :
    Step α → Prop
  | .ok (_, rest) => rest <:+ bs
  | .error e => (∃ reason, e = unreadable reason) ∨ ∃ code data, (code :: data) <:+: bs ∧
      meaning (BigEndian.signed 1 code.toNat) data = .error e

theorem Contained.refused (bs : List UInt8) (reason : String) :
    Contained meaning bs (.error (unreadable reason) : Step α) := .inl ⟨reason, rfl⟩

theorem Contained.of_suffix {r : Step α} (hs : rest <:+ bs) (h : Contained meaning rest r) :
    Contained meaning bs r := by
  match r, h with
  | .ok _, h => exact List.IsSuffix.trans h hs
  | .error _, .inl h => exact .inl h
  | .error _, .inr ⟨code, data, hin, he⟩ => exact .inr ⟨code, data, hin.trans hs.isInfix, he⟩

theorem Contained.map {r : Step α} (f : α → β) (h : Contained meaning bs r) :
    Contained meaning bs (r.map fun x => (f x.1, x.2)) := by
  match r, h with
  | .ok _, h => exact h
  | .error _, h => exact h

theorem split_eq_some (h : split n bs = some (data, rest)) : bs = data ++ rest := by
  induction n generalizing bs data with
  | zero =>
    cases h
    rfl
  | succ n ih =>
    cases bs with
    | nil => cases h
    | cons b bs =>
      obtain ⟨⟨front, back⟩, hsplit, hr⟩ := Option.map_eq_some_iff.mp h
      cases hr
      rw [ih hsplit, List.cons_append]

theorem suffix_of_split (h : split n bs = some (data, rest)) : rest <:+ bs :=
  ⟨data, (split_eq_some h).symm⟩

theorem suffix_of_word {width : Nat} {use : Nat → Head} {h : Head}
    (hw : word width use bs = some (h, rest)) : rest <:+ bs := by
  obtain ⟨⟨front, back⟩, hsplit, hr⟩ := Option.map_eq_some_iff.mp hw
  cases hr
  exact suffix_of_split hsplit

theorem suffix_of_wideHead {b : Nat} {h : Head} (hw : wideHead b bs = some (h, rest)) :
    rest <:+ bs := by
  unfold wideHead at hw
  split at hw
  all_goals first
    | exact suffix_of_word hw
    | (cases hw; exact List.suffix_refl bs)
    | cases hw

theorem suffix_of_headOf {b : Nat} {h : Head} (hh : headOf b bs = some (h, rest)) :
    rest <:+ bs := by
  unfold headOf at hh
  split_ifs at hh
  all_goals first
    | exact suffix_of_wideHead hh
    | (cases hh; exact List.suffix_refl bs)

theorem contained_readText (n : Nat) (bs : List UInt8) :
    Contained meaning bs (readText n bs) := by
  unfold readText
  split
  · exact .refused bs _
  · next data rest hsplit =>
    split
    · exact suffix_of_split hsplit
    · exact .refused bs _

theorem contained_readBytes (n : Nat) (bs : List UInt8) :
    Contained meaning bs (readBytes n bs) := by
  unfold readBytes
  split
  · exact .refused bs _
  · next data rest hsplit => exact suffix_of_split hsplit

theorem contained_readExt (n : Nat) (bs : List UInt8) :
    Contained meaning bs (readExt meaning n bs) := by
  unfold readExt
  split
  · next code data rest hsplit =>
    cases hm : meaning (BigEndian.signed 1 code.toNat) data with
    | ok v => exact suffix_of_split hsplit
    | error e =>
      have hin : (code :: data) <:+: bs := by
        rw [split_eq_some hsplit]
        exact (List.prefix_append _ _).isInfix
      exact .inr ⟨code, data, hin, hm⟩
  · exact .refused bs _

section Containers

variable {read : List UInt8 → Step Value} (hread : ∀ bs, Contained meaning bs (read bs))
include hread

theorem contained_readItems (n : Nat) (bs : List UInt8) :
    Contained meaning bs (readItems read n bs) := by
  induction n generalizing bs with
  | zero => exact List.suffix_refl bs
  | succ n ih =>
    have hfirst := hread bs
    rw [readItems]
    split
    · next he => rwa [he] at hfirst
    · next x rest hx =>
      rw [hx] at hfirst
      exact ((ih rest).map (x :: ·)).of_suffix hfirst

theorem contained_readEntries (n : Nat) (ps : Entries) (bs : List UInt8) :
    Contained meaning bs (readEntries read n ps bs) := by
  induction n generalizing ps bs with
  | zero => exact List.suffix_refl bs
  | succ n ih =>
    have hkey := hread bs
    rw [readEntries]
    split
    · next he => rwa [he] at hkey
    · next k rest hk =>
      rw [hk] at hkey
      have hvalue := (hread rest).of_suffix hkey
      split
      · next he => rwa [he] at hvalue
      · next v rest' hv =>
        rw [hv] at hvalue
        split
        · exact (ih _ rest').of_suffix hvalue
        · exact .refused bs _

end Containers

/-- One value: its head leads to bytes further on, and containers have one level less left. -/
theorem contained_read (meaning : Int → List UInt8 → Except Error Value) (size levels : Nat)
    (bs : List UInt8) : Contained meaning bs (read meaning size levels bs) := by
  induction levels using Nat.strong_induction_on generalizing bs with
  | _ levels ih =>
    cases bs with
    | nil =>
      rw [read]
      exact .refused [] _
    | cons b bs =>
      rw [read]
      split
      · exact .refused _ _
      all_goals
        rename_i hhead
        have hrest := (suffix_of_headOf hhead).trans (List.suffix_cons b bs)
      · exact hrest
      · exact (contained_readText _ _).of_suffix hrest
      · exact (contained_readBytes _ _).of_suffix hrest
      · exact (contained_readExt _ _).of_suffix hrest
      · split
        · exact .refused _ _
        · split
          · exact .refused _ _
          · exact ((contained_readItems (ih _ (Nat.lt_succ_self _)) _ _).map _).of_suffix hrest
      · split
        · exact .refused _ _
        · split
          · exact .refused _ _
          · exact ((contained_readEntries (ih _ (Nat.lt_succ_self _)) _ _ _).map _).of_suffix hrest

/-- What reading all bytes fails with is the reader's, or that of an extension among them. -/
theorem readAll_error (h : readAll meaning bs = .error e) : (∃ reason, e = unreadable reason) ∨
    ∃ code data, (code :: data) <:+: bs ∧
      meaning (BigEndian.signed 1 code.toNat) data = .error e := by
  have hread := contained_read meaning bs.length maxLevels bs
  unfold readAll at h
  split at h
  · next he =>
    cases h
    rwa [he] at hread
  · cases h
  · cases h
    exact .inl ⟨_, rfl⟩

/-! Meanings -/

theorem orUnreadable_error {v : Option Value} (h : orUnreadable v = .error e) :
    ∃ reason, e = unreadable reason := by
  cases v with
  | some v => cases h
  | none =>
    cases h
    exact ⟨_, rfl⟩

theorem plainExt_error {code : Int} (h : plainExt code data = .error e) :
    ∃ reason, e = unreadable reason := by
  unfold plainExt at h
  split_ifs at h
  · exact orUnreadable_error h
  · cases h
    exact ⟨_, rfl⟩

/-- Bytes that stand for no pattern: what they hold is not a sequence, or it is a pair of options
that are no number and a source, or of options and a source that is neither text nor bytes, or one
that cannot be read or asks for too many rounds. -/
inductive Patternless (data : List UInt8) : Prop
  | single {v : Value} (h : readAll plainExt data = .ok v) (hv : v.iterate? = none)
  | options {v o s : Value} (h : readAll plainExt data = .ok v) (hv : v.iterate? = some [o, s])
      (ho : optionsNumber? o = none)
  | source {v o s : Value} (h : readAll plainExt data = .ok v) (hv : v.iterate? = some [o, s])
      (hs : s.source? = none)
  | text {v o s : Value} {n : Int} {source : Regex.Source} {fault : Regex.Fault}
      (h : readAll plainExt data = .ok v) (hv : v.iterate? = some [o, s])
      (ho : optionsNumber? o = some n) (hs : s.source? = some source)
      (ht : Pattern.compile (Pattern.optionsOfBits (n % 512).toNat) source = .error fault)
      (hf : fault ≠ .options)

theorem patternFrom_error {v o s : Value} (h : readAll plainExt data = .ok v)
    (hv : v.iterate? = some [o, s]) (he : patternFrom o s = .error e) :
    (∃ reason, e = unreadable reason) ∨ Patternless data := by
  unfold patternFrom at he
  split at he
  · next ho => exact .inr (.options h hv ho)
  · next n ho =>
    split at he
    · next hs => exact .inr (.source h hv hs)
    · next source hs =>
      split at he
      · cases he
      · next ht => exact .inr (.text h hv ho hs ht (by simp))
      · next ht => exact .inr (.text h hv ho hs ht (by simp))
      · cases he
        exact .inl ⟨_, rfl⟩

theorem readPattern_error (h : readPattern data = .error e) :
    (∃ reason, e = unreadable reason) ∨ Patternless data := by
  unfold readPattern at h
  split at h
  · next he =>
    cases h
    rcases readAll_error he with hr | ⟨_, _, _, hp⟩
    · exact .inl hr
    · exact .inl (plainExt_error hp)
  · next v hv =>
    split at h
    · next hi => exact .inr (.single hv hi)
    · next o s hi => exact patternFrom_error hv hi h
    · cases h
      exact .inl ⟨_, rfl⟩

/-- Of all extensions only patterns fail in other words than the reader's. -/
theorem meaning_error {code : Int} (h : Wire.meaning code data = .error e) :
    (∃ reason, e = unreadable reason) ∨ code = patternCode ∧ Patternless data ∧
      readPattern data = .error e := by
  unfold Wire.meaning at h
  split_ifs at h with _ _ _ hcode
  · exact .inl (orUnreadable_error h)
  · exact .inl (orUnreadable_error h)
  · exact .inl (orUnreadable_error h)
  · rcases readPattern_error h with hr | hp
    · exact .inl hr
    · exact .inr ⟨hcode, hp, h⟩
  · exact .inl (plainExt_error h)

theorem code_eq_four {code : UInt8} (h : BigEndian.signed 1 code.toNat = patternCode) :
    code = 4 := by
  have hlt : code.toNat < 256 := code.toNat_lt
  have hpow : Nat.pow 256 1 = 256 := rfl
  have hcode : code.toNat = 4 := by
    simp only [BigEndian.signed, patternCode, hpow] at h
    split at h
    · omega
    · omega
  exact UInt8.toNat_inj.mp hcode

/-- An error says that there is something that cannot be packed or unpacked. -/
def Reported (r : Except Error α) : Prop := ∀ e, r = .error e → ∃ cause, e = .unserializable cause

theorem reported_content (snapshot : Value) : Reported (Snapshot.content snapshot) := by
  intro e he
  unfold Snapshot.content at he
  split at he
  · split at he
    · cases he
      exact ⟨_, rfl⟩
    · dsimp only at he
      split_ifs at he
      cases he
      exact ⟨_, rfl⟩
  · cases he
    exact ⟨_, rfl⟩

/-- Whatever bytes there are, reading them gives a value or reports why they cannot be read, also
where they should be a snapshot; but for bytes in which an extension stands for a pattern and holds
none, which fail as making the pattern does. -/
theorem corruption_reported (bs : List UInt8) :
    Reported (unpack bs) ∧ Reported (Snapshot.unpack bs) ∨
      ∃ data e, (4 :: data) <:+: bs ∧ Patternless data ∧ readPattern data = .error e ∧
        unpack bs = .error e ∧ Snapshot.unpack bs = .error e := by
  cases hu : unpack bs with
  | ok v =>
    refine .inl ⟨fun e he => ?_, ?_⟩
    · cases he
    · rw [Snapshot.unpack, hu]
      exact reported_content v
  | error e =>
    have hsnapshot : Snapshot.unpack bs = .error e := by
      rw [Snapshot.unpack, hu]
      rfl
    have hreport : ∀ reason, e = unreadable reason →
        Reported (.error e : Except Error Value) ∧ Reported (Snapshot.unpack bs) := by
      rintro reason rfl
      rw [hsnapshot]
      have h : Reported (.error (unreadable reason) : Except Error Value) := fun _ he => by
        cases he
        exact ⟨_, rfl⟩
      exact ⟨h, h⟩
    rcases readAll_error hu with ⟨reason, he⟩ | ⟨code, data, hin, hm⟩
    · exact .inl (hreport reason he)
    · rcases meaning_error hm with ⟨reason, he⟩ | ⟨hcode, hp, he⟩
      · exact .inl (hreport reason he)
      · obtain rfl := code_eq_four hcode
        exact .inr ⟨data, e, hin, hp, he, rfl, hsnapshot⟩

/-- A pattern whose text opens a group and does not close it. -/
def openGroup : List UInt8 := [0xc7, 0x04, 0x04, 0x92, 0x20, 0xa1, 0x28]

theorem openGroup_unreported : unpack openGroup = .error .pattern ∧
    ¬ (Reported (unpack openGroup) ∧ Reported (Snapshot.unpack openGroup)) := by
  have hunpack : unpack openGroup = .error .pattern := rfl
  refine ⟨hunpack, fun ⟨h, _⟩ => ?_⟩
  obtain ⟨cause, hcause⟩ := h _ hunpack
  cases hcause

end Wire

end DocStore
