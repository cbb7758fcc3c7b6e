import DocStore.Proofs.Number.BigEndian
import DocStore.Wire.Decode

/-! Heads of values: what a head was written for is what it announces, whatever follows. -/

namespace DocStore

namespace Wire

theorem split_append (bs rest : List UInt8) : split bs.length (bs ++ rest) = some (bs, rest) := by
  induction bs with
  | nil => rfl
  | cons b bs ih =>
    rw [List.length_cons, List.cons_append, split, ih]
    rfl

theorem word_bytes {width n : Nat} (h : n < 256 ^ width) (use : Nat → Head) (rest : List UInt8) :
    word width use (BigEndian.bytes width n ++ rest) = some (use n, rest) := by
  have hsplit := split_append (BigEndian.bytes width n) rest
  rw [BigEndian.length_bytes] at hsplit
  rw [word, hsplit, Option.map_some, BigEndian.value_bytes h]

/-- The bytes are a head, and read as one they announce something. -/
def Announces (bs : List UInt8) (h : Head) : Prop :=
  ∃ b tail, bs = b :: tail ∧ ∀ rest, headOf b.toNat (tail ++ rest) = some (h, rest)

theorem Announces.single {b : UInt8} {h : Head}
    (hb : ∀ rest, headOf b.toNat rest = some (h, rest)) : Announces [b] h := ⟨b, [], rfl, hb⟩

theorem Announces.pos {bs : List UInt8} {h : Head} (ha : Announces bs h) : 0 < bs.length := by
  obtain ⟨b, tail, rfl, _⟩ := ha
  exact Nat.succ_pos _

/-- The first bytes of these widths are heads that words of the widths follow. -/
def Leads (widths : Widths) (use : Nat → Head) : Prop :=
  ∀ w ∈ widths, ∀ bs, headOf w.2.toNat bs = word w.1 use bs

theorem Announces.of_width {widths : Widths} {use : Nat → Head} (hw : Leads widths use)
    {w : Nat × UInt8} (hmem : w ∈ widths) {n : Nat} (hn : n < 256 ^ w.1) :
    Announces (w.2 :: BigEndian.bytes w.1 n) (use n) :=
  ⟨w.2, BigEndian.bytes w.1 n, rfl, fun rest => by rw [hw w hmem, word_bytes hn]⟩

theorem Announces.of_inWidth {widths : Widths} {use : Nat → Head} (hw : Leads widths use) {n : Nat}
    {bs : List UInt8} (h : inWidth widths n = some bs) : Announces bs (use n) := by
  obtain ⟨w, hfind, rfl⟩ := Option.map_eq_some_iff.mp h
  have hn : n < 256 ^ w.1 := by simpa using List.find?_some hfind
  exact .of_width hw (List.mem_of_find?_eq_some hfind) hn

/-- The heads that lengths are written in reach up to four bytes. -/
theorem inWidth_of_lt {widths : Widths} {b : UInt8} (hb : (4, b) ∈ widths) {n : Nat}
    (hn : n < 2 ^ 32) : ∃ bs, inWidth widths n = some bs := by
  cases hfind : widths.find? fun w => n < Nat.pow 256 w.1 with
  | some w => exact ⟨_, by rw [inWidth, hfind, Option.map_some]⟩
  | none =>
    have hlt : n < Nat.pow 256 4 := hn
    exact absurd (decide_eq_true hlt) (List.find?_eq_none.mp hfind _ hb)

theorem naturalWidths_lead : Leads naturalWidths fun n => integer n := by
  simp only [Leads, naturalWidths, List.forall_mem_cons]
  exact ⟨fun _ => rfl, fun _ => rfl, fun _ => rfl, fun _ => rfl, by simp⟩

theorem textWidths_lead : Leads textWidths .text := by
  simp only [Leads, textWidths, List.forall_mem_cons]
  exact ⟨fun _ => rfl, fun _ => rfl, fun _ => rfl, by simp⟩

theorem bytesWidths_lead : Leads bytesWidths .bytes := by
  simp only [Leads, bytesWidths, List.forall_mem_cons]
  exact ⟨fun _ => rfl, fun _ => rfl, fun _ => rfl, by simp⟩

theorem arrayWidths_lead : Leads arrayWidths .array := by
  simp only [Leads, arrayWidths, List.forall_mem_cons]
  exact ⟨fun _ => rfl, fun _ => rfl, by simp⟩

theorem mapWidths_lead : Leads mapWidths .map := by
  simp only [Leads, mapWidths, List.forall_mem_cons]
  exact ⟨fun _ => rfl, fun _ => rfl, by simp⟩

theorem extWidths_lead : Leads extWidths .ext := by
  simp only [Leads, extWidths, List.forall_mem_cons]
  exact ⟨fun _ => rfl, fun _ => rfl, fun _ => rfl, by simp⟩

/-- The words after these heads are signed. -/
theorem negativeWidths_lead : ∀ w ∈ negativeWidths, ∀ bs,
    headOf w.2.toNat bs = word w.1 (fun n => integer (BigEndian.signed w.1 n)) bs := by
  simp only [negativeWidths, List.forall_mem_cons]
  exact ⟨fun _ => rfl, fun _ => rfl, fun _ => rfl, fun _ => rfl, by simp⟩

theorem inWidth_pos {widths : Widths} {n : Nat} {bs : List UInt8} (h : inWidth widths n = some bs) :
    0 < bs.length := by
  obtain ⟨w, _, rfl⟩ := Option.map_eq_some_iff.mp h
  exact Nat.succ_pos _

theorem head_pos {base limit n : Nat} {widths : Widths} {bs : List UInt8}
    (h : head base limit widths n = some bs) : 0 < bs.length := by
  unfold head at h
  split at h
  · obtain rfl := Option.some.inj h
    exact Nat.succ_pos _
  · exact inWidth_pos h

theorem toNat_ofNat {n : Nat} (h : n < 256) : (UInt8.ofNat n).toNat = n := by
  rw [UInt8.toNat_ofNat']
  exact Nat.mod_eq_of_lt h

/-- Lengths below the limit are in the first byte, others in a width of their own. -/
theorem Announces.of_head {base limit n : Nat} {widths : Widths} {use : Nat → Head}
    {bs : List UInt8} (hw : Leads widths use) (hbase : base + limit ≤ 256)
    (hsmall : ∀ n < limit, ∀ rest, headOf (base + n) rest = some (use n, rest))
    (h : head base limit widths n = some bs) : Announces bs (use n) := by
  unfold head at h
  split at h
  · next hn =>
    obtain rfl := Option.some.inj h
    refine .single fun rest => ?_
    rw [toNat_ofNat (by omega), hsmall n hn]
  · exact .of_inWidth hw h

theorem head_of_lt {base limit n : Nat} {widths : Widths} {b : UInt8} (hb : (4, b) ∈ widths)
    (hn : n < 2 ^ 32) : ∃ bs, head base limit widths n = some bs := by
  unfold head
  split
  · exact ⟨_, rfl⟩
  · exact inWidth_of_lt hb hn

theorem headOf_small {n : Nat} (h : n < 128) (rest : List UInt8) :
    headOf n rest = some (integer n, rest) := if_pos h

theorem headOf_map {n : Nat} (h : n < 16) (rest : List UInt8) :
    headOf (0x80 + n) rest = some (.map n, rest) := by
  rw [headOf, if_neg (by omega), if_pos (by omega), Nat.add_sub_cancel_left]

theorem headOf_array {n : Nat} (h : n < 16) (rest : List UInt8) :
    headOf (0x90 + n) rest = some (.array n, rest) := by
  rw [headOf, if_neg (by omega), if_neg (by omega), if_pos (by omega), Nat.add_sub_cancel_left]

theorem headOf_text {n : Nat} (h : n < 32) (rest : List UInt8) :
    headOf (0xa0 + n) rest = some (.text n, rest) := by
  rw [headOf, if_neg (by omega), if_neg (by omega), if_neg (by omega), if_pos (by omega),
    Nat.add_sub_cancel_left]

theorem headOf_negative {b : Nat} (h : 0xe0 ≤ b) (rest : List UInt8) :
    headOf b rest = some (integer ((b : Int) - 256), rest) := by
  rw [headOf, if_neg (by omega), if_neg (by omega), if_neg (by omega), if_neg (by omega), if_pos h]

theorem Announces.of_packInt {n : Int} {bs : List UInt8} (h : packInt n = some bs) :
    Announces bs (integer n) := by
  unfold packInt at h
  split at h
  · next hn =>
    have hint : ((n.toNat : Nat) : Int) = n := by omega
    have hh : Announces bs (integer n.toNat) := .of_head naturalWidths_lead (by omega)
      (fun k hk rest => by rw [Nat.zero_add]; exact headOf_small hk rest) h
    rwa [hint] at hh
  · next hn =>
    unfold packNegative at h
    split at h
    · next hsmall =>
      obtain rfl := Option.some.inj h
      refine .single fun rest => ?_
      rw [toNat_ofNat (by omega), headOf_negative (by omega)]
      have hint : (((256 + n).toNat : Nat) : Int) - 256 = n := by omega
      rw [hint]
    · obtain ⟨w, hfind, rfl⟩ := Option.map_eq_some_iff.mp h
      have hwide : -(256 ^ w.1 : Int) ≤ 2 * n := by
        simpa using List.find?_some hfind
      have hpos : ((256 : Nat) ^ w.1 : Nat) = (256 : Int) ^ w.1 := by simp
      have hfits : (256 ^ w.1 + n).toNat < 256 ^ w.1 := by omega
      refine ⟨w.2, _, rfl, fun rest => ?_⟩
      rw [negativeWidths_lead w (List.mem_of_find?_eq_some hfind)]
      have hcast : ((Nat.pow 256 w.1 : Nat) : Int) = (256 : Int) ^ w.1 := hpos
      rw [hcast, word_bytes hfits, BigEndian.signed_of_neg (by omega) hwide]

theorem packInt_of_range {n : Int} (hlo : -(2 ^ 63) ≤ n) (hhi : n < 2 ^ 64) :
    ∃ bs, packInt n = some bs := by
  unfold packInt
  split
  · unfold head
    split
    · exact ⟨_, rfl⟩
    · cases hfind : naturalWidths.find? fun w => n.toNat < Nat.pow 256 w.1 with
      | some w => exact ⟨_, by rw [inWidth, hfind, Option.map_some]⟩
      | none =>
        have hlt : n.toNat < Nat.pow 256 8 := by
          have hpow : Nat.pow 256 8 = 2 ^ 64 := by decide
          omega
        exact absurd (decide_eq_true hlt)
          (List.find?_eq_none.mp hfind (8, 0xcf) (by simp [naturalWidths]))
  · unfold packNegative
    split
    · exact ⟨_, rfl⟩
    · cases hfind : negativeWidths.find? fun w => -(Nat.pow 256 w.1 : Int) ≤ 2 * n with
      | some w => exact ⟨_, by rw [Option.map_some]⟩
      | none =>
        have hle : -(Nat.pow 256 8 : Int) ≤ 2 * n := by
          have hpow : (Nat.pow 256 8 : Int) = 2 ^ 64 := by decide
          omega
        exact absurd (decide_eq_true hle)
          (List.find?_eq_none.mp hfind (8, 0xd3) (by simp [negativeWidths]))

theorem packInt_of_outside {n : Int} (h : n < -(2 ^ 63) ∨ 2 ^ 64 ≤ n) : packInt n = none := by
  by_cases hn : 0 ≤ n
  · have hpow : ∀ w ∈ naturalWidths, Nat.pow 256 w.1 ≤ 2 ^ 64 := by decide
    have hnone : naturalWidths.find? (fun w => n.toNat < Nat.pow 256 w.1) = none := by
      refine List.find?_eq_none.mpr fun w hw => ?_
      have hwide := hpow w hw
      simp only [decide_eq_true_eq]
      omega
    rw [packInt, if_pos hn, head, if_neg (by omega), inWidth, hnone, Option.map_none]
  · have hpow : ∀ w ∈ negativeWidths, (Nat.pow 256 w.1 : Int) ≤ 2 ^ 64 := by decide
    have hnone : negativeWidths.find? (fun w => -(Nat.pow 256 w.1 : Int) ≤ 2 * n) = none := by
      refine List.find?_eq_none.mpr fun w hw => ?_
      have hwide := hpow w hw
      simp only [decide_eq_true_eq]
      omega
    rw [packInt, if_neg hn, packNegative, if_neg (by omega), hnone, Option.map_none]

theorem Announces.of_float (x : Binary64) :
    Announces (0xcb :: BigEndian.bytes 8 x.bits.toNat) (.value (.float x)) := by
  have hlead : ∀ bs, headOf (0xcb : UInt8).toNat bs =
      word 8 (fun n => .value (.float ⟨UInt64.ofNat n⟩)) bs := fun _ => rfl
  have hpow : (256 : Nat) ^ 8 = 2 ^ 64 := by decide
  have hlt : x.bits.toNat < 256 ^ 8 := by
    rw [hpow]
    exact x.bits.toNat_lt
  refine ⟨0xcb, _, rfl, fun rest => ?_⟩
  rw [hlead, word_bytes hlt, UInt64.ofNat_toNat]

end Wire

end DocStore
