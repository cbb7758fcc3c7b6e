import DocStore.Proofs.Calendar.Iso
import DocStore.Proofs.Regex.Again
import DocStore.Proofs.Wire.Head

/-! Values without parts: what was written for one is read back, except that points in time lose
offsets of less than a second. -/

namespace DocStore

namespace Wire

variable {meaning : Int → List UInt8 → Except Error Value} {size levels : Nat} {v : Value}
  {bs : List UInt8}

theorem read_of_value (h : Announces bs (.value v)) (rest : List UInt8) :
    read meaning size levels (bs ++ rest) = .ok (v, rest) := by
  obtain ⟨b, tail, rfl, hb⟩ := h
  rw [List.cons_append]
  unfold read
  rw [hb]

theorem read_of_text {n : Nat} (h : Announces bs (.text n)) (rest : List UInt8) :
    read meaning size levels (bs ++ rest) = readText n rest := by
  obtain ⟨b, tail, rfl, hb⟩ := h
  rw [List.cons_append]
  unfold read
  rw [hb]

theorem read_of_bytes {n : Nat} (h : Announces bs (.bytes n)) (rest : List UInt8) :
    read meaning size levels (bs ++ rest) = readBytes n rest := by
  obtain ⟨b, tail, rfl, hb⟩ := h
  rw [List.cons_append]
  unfold read
  rw [hb]

theorem read_of_ext {n : Nat} (h : Announces bs (.ext n)) (rest : List UInt8) :
    read meaning size levels (bs ++ rest) = readExt meaning n rest := by
  obtain ⟨b, tail, rfl, hb⟩ := h
  rw [List.cons_append]
  unfold read
  rw [hb]

theorem read_int {n : Int} (h : packInt n = some bs) (rest : List UInt8) :
    read meaning size levels (bs ++ rest) = .ok (.int n, rest) := read_of_value (.of_packInt h) rest

theorem textOf?_utf8 (s : String) : textOf? (utf8 s) = some s := by
  have hbytes : (⟨(utf8 s).toArray⟩ : ByteArray) = s.toUTF8 := by simp [utf8]
  rw [textOf?, hbytes, String.fromUTF8?, String.toUTF8_eq_toByteArray, dif_pos s.isValidUTF8]
  rfl

theorem read_text {s : String} (h : packText s = some bs) (rest : List UInt8) :
    read meaning size levels (bs ++ rest) = .ok (.str s, rest) := by
  obtain ⟨start, hstart, rfl⟩ := Option.map_eq_some_iff.mp h
  have ha : Announces start (.text (utf8 s).length) :=
    .of_head textWidths_lead (by omega) (fun n hn rest => headOf_text hn rest) hstart
  rw [List.append_assoc, read_of_text ha, readText, split_append]
  simp only [textOf?_utf8]

theorem read_bytes {data : List UInt8} (h : packBytes data = some bs) (rest : List UInt8) :
    read meaning size levels (bs ++ rest) = .ok (.bytes data, rest) := by
  obtain ⟨start, hstart, rfl⟩ := Option.map_eq_some_iff.mp h
  rw [List.append_assoc, read_of_bytes (.of_inWidth bytesWidths_lead hstart), readBytes,
    split_append]

theorem Announces.of_fixedExt {n : Nat} {b : UInt8} (h : fixedExt.lookup n = some b) :
    Announces [b] (.ext n) := by
  have hall : ∀ p ∈ fixedExt, Announces [p.2] (.ext p.1) := by
    simp only [fixedExt, List.forall_mem_cons]
    exact ⟨.single fun _ => rfl, .single fun _ => rfl, .single fun _ => rfl, .single fun _ => rfl,
      .single fun _ => rfl, by simp⟩
  obtain ⟨before, after, hsplit, _⟩ := List.lookup_eq_some_iff.mp h
  exact hall (n, b) (by simp [hsplit])

theorem read_ext {code : Int} {data : List UInt8} (h : packExt code data = some bs)
    (hcode : -128 ≤ code ∧ code < 128) (rest : List UInt8) :
    read meaning size levels (bs ++ rest) = (meaning code data).map fun v => (v, rest) := by
  obtain ⟨start, hstart, rfl⟩ := Option.map_eq_some_iff.mp h
  have ha : Announces start (.ext data.length) := by
    split at hstart
    · next b hb =>
      obtain rfl := Option.some.inj hstart
      exact .of_fixedExt hb
    · exact .of_inWidth extWidths_lead hstart
  have hsigned : BigEndian.signed 1 (UInt8.ofNat (code % 256).toNat).toNat = code := by
    rw [toNat_ofNat (by omega), BigEndian.signed]
    have hpow : Nat.pow 256 1 = 256 := rfl
    rw [hpow]
    split <;> omega
  have hsplit := split_append (UInt8.ofNat (code % 256).toNat :: data) rest
  rw [List.length_cons] at hsplit
  rw [List.append_assoc, read_of_ext ha, readExt, hsplit]
  simp only [hsigned]

theorem ofBytes?_bytes (u : Uuid) : Uuid.ofBytes? u.bytes = some u := by
  have hlt : u.toNat < 256 ^ 16 := u.val.isLt
  have hu : Uuid.ofNat u.toNat = u := by
    cases u with
    | mk val => simp [Uuid.ofNat, Uuid.toNat]
  rw [Uuid.ofBytes?, Uuid.bytes, if_pos (BigEndian.length_bytes 16 u.toNat),
    BigEndian.value_bytes hlt, hu]

theorem meaning_uuid (u : Uuid) : Wire.meaning uuidCode u.bytes = .ok (.uuid u) := by
  rw [Wire.meaning, if_pos rfl, ofBytes?_bytes]
  rfl

theorem meaning_datetime (t : DateTime) :
    Wire.meaning datetimeCode (utf8 t.iso) = .ok (.datetime t.kept) := by
  rw [Wire.meaning, if_neg (by decide), if_pos rfl, textOf?_utf8, Option.bind_some,
    DateTime.ofIso?_iso]
  rfl

theorem meaning_date (d : Date) : Wire.meaning dateCode (utf8 d.iso) = .ok (.date d) := by
  rw [Wire.meaning, if_neg (by decide), if_neg (by decide), if_pos rfl, textOf?_utf8,
    Option.bind_some, Date.ofIso?_iso]
  rfl

theorem optionsOfBits_optionBits (p : Pattern) :
    Pattern.optionsOfBits (p.optionBits % 512) = p.options := by
  have hall : ∀ i m s x a l t g : Bool, ∀ source ∈ [Regex.Source.text "", .bytes []],
      Pattern.optionsOfBits (Pattern.optionBits ⟨source, ⟨i, m, s, x, a, l, t, g⟩⟩ % 512) =
        ⟨i, m, s, x, a, l, t, g⟩ := by
    decide
  obtain ⟨source, i, m, s, x, a, l, t, g⟩ := p
  cases source with
  | text => exact hall i m s x a l t g (.text "") (by simp)
  | bytes => exact hall i m s x a l t g (.bytes []) (by simp)

theorem patternFrom_compiled {p : Pattern} (h : p.Compiled) :
    patternFrom (.int p.optionBits) (.ofSource p.source) = .ok (.pattern p) := by
  obtain ⟨o, source, hcompile⟩ := h
  have hagain := Pattern.compile_again hcompile
  have hbits : ((p.optionBits : Int) % 512).toNat = p.optionBits % 512 := by omega
  have hsource : (Value.ofSource p.source).source? = some p.source := by cases p.source <;> rfl
  simp only [patternFrom, optionsNumber?, hsource, hbits, optionsOfBits_optionBits, hagain]

theorem read_source {source : Regex.Source} (h : packSource source = some bs) (rest : List UInt8) :
    read meaning size levels (bs ++ rest) = .ok (.ofSource source, rest) := by
  cases source with
  | text s => exact read_text h rest
  | bytes data => exact read_bytes h rest

theorem headOf_pair (rest : List UInt8) :
    headOf (0x92 : UInt8).toNat rest = some (.array 2, rest) :=
  headOf_array (n := 2) (by decide) rest

theorem read_pair {a b : List UInt8} {n : Int} {source : Regex.Source} (ha : packInt n = some a)
    (hb : packSource source = some b) (hsize : 2 ≤ size) :
    read meaning size (levels + 1) (0x92 :: (a ++ b)) =
      .ok (.list [.int n, .ofSource source], []) := by
  have hsecond : read meaning size levels (b ++ []) = .ok (.ofSource source, []) :=
    read_source hb []
  rw [List.append_nil] at hsecond
  unfold read
  rw [headOf_pair]
  simp only [if_neg (Nat.not_lt.mpr hsize), readItems, read_int ha, hsecond]
  rfl

theorem meaning_pattern {p : Pattern} (hp : p.Compiled) {a b : List UInt8}
    (ha : packInt p.optionBits = some a) (hb : packSource p.source = some b) :
    Wire.meaning patternCode (0x92 :: (a ++ b)) = .ok (.pattern p) := by
  have hlength : 2 ≤ (0x92 :: (a ++ b)).length := by
    have hpos := (Announces.of_packInt ha).pos
    simp only [List.length_cons, List.length_append]
    omega
  have hread : readAll plainExt (0x92 :: (a ++ b)) =
      .ok (.list [.int p.optionBits, .ofSource p.source]) := by
    rw [readAll, maxLevels, read_pair ha hb hlength]
  rw [Wire.meaning, if_neg (by decide), if_neg (by decide), if_neg (by decide), if_pos rfl,
    readPattern, hread]
  exact patternFrom_compiled hp

/-- Codes of extensions whose bytes mean nothing here. -/
theorem meaning_ext {code : Int} (h : code = 0 ∨ 4 < code) (data : List UInt8) :
    Wire.meaning code data = .ok (.ext code data) := by
  rw [Wire.meaning, if_neg (by rw [uuidCode]; omega), if_neg (by rw [datetimeCode]; omega),
    if_neg (by rw [dateCode]; omega), if_neg (by rw [patternCode]; omega), plainExt,
    if_neg (by rw [timestampCode]; omega), if_pos (by omega)]

theorem timestampOf?_four {n : Nat} (h : n < 4294967296) :
    timestampOf? (BigEndian.bytes 4 n) = some (.timestamp n 0) := by
  have hvalue : BigEndian.value (BigEndian.bytes 4 n) = n := BigEndian.value_bytes (by omega)
  simp [timestampOf?, BigEndian.length_bytes, hvalue]

theorem timestampOf?_eight {n : Nat} (h : n < 18446744073709551616)
    (hn : n / 17179869184 < 1000000000) : timestampOf? (BigEndian.bytes 8 n) =
      some (.timestamp (n % 17179869184 : Nat) (n / 17179869184)) := by
  have hvalue : BigEndian.value (BigEndian.bytes 8 n) = n := BigEndian.value_bytes (by omega)
  have hpow : Nat.pow 2 34 = 17179869184 := by decide
  simp only [timestampOf?, BigEndian.length_bytes, hvalue, hpow, hn, if_true]

theorem timestampOf?_twelve {nanos word : Nat} (hn : nanos < 1000000000)
    (hw : word < 18446744073709551616) :
    timestampOf? (BigEndian.bytes 4 nanos ++ BigEndian.bytes 8 word) =
      some (.timestamp (BigEndian.signed 8 word) nanos) := by
  have hlength : (BigEndian.bytes 4 nanos ++ BigEndian.bytes 8 word).length = 12 := by
    rw [List.length_append, BigEndian.length_bytes, BigEndian.length_bytes]
  have hnanos : BigEndian.value (BigEndian.bytes 4 nanos) = nanos :=
    BigEndian.value_bytes (by omega)
  have hword : BigEndian.value (BigEndian.bytes 8 word) = word := BigEndian.value_bytes (by omega)
  simp only [timestampOf?, hlength, List.take_left' (BigEndian.length_bytes 4 nanos),
    List.drop_left' (BigEndian.length_bytes 4 nanos), hnanos, hword, hn, if_true]

theorem packTimestamp_data {seconds : Int} {nanos : Nat} (hn : nanos < 1000000000)
    (hlo : -(2 ^ 63) ≤ seconds) (hhi : seconds < 2 ^ 63) :
    ∃ data, packTimestamp seconds nanos = packExt timestampCode data ∧ data.length ≤ 12 ∧
      timestampOf? data = some (.timestamp seconds nanos) := by
  have hpow32 : Nat.pow 2 32 = 4294967296 := by decide
  have hpow34 : Nat.pow 2 34 = 17179869184 := by decide
  have hpow64 : (Nat.pow 2 64 : Int) = 18446744073709551616 := by decide
  have hpow34' : (Nat.pow 2 34 : Int) = 17179869184 := by decide
  unfold packTimestamp
  split
  · next hsmall =>
    rw [hpow34'] at hsmall
    dsimp only
    rw [hpow32, hpow34]
    split
    · next hword =>
      have hzero : nanos = 0 := by omega
      have hseconds : ((nanos * 17179869184 + seconds.toNat : Nat) : Int) = seconds := by omega
      refine ⟨_, rfl, by rw [BigEndian.length_bytes]; omega, ?_⟩
      rw [timestampOf?_four hword, hseconds, hzero]
    · have hseconds : (((nanos * 17179869184 + seconds.toNat) % 17179869184 : Nat) : Int) =
          seconds := by omega
      have hnanos : (nanos * 17179869184 + seconds.toNat) / 17179869184 = nanos := by omega
      refine ⟨_, rfl, by rw [BigEndian.length_bytes]; omega, ?_⟩
      rw [timestampOf?_eight (by omega) (by omega), hseconds, hnanos]
  · rw [hpow64]
    have hseconds : BigEndian.signed 8 (seconds % 18446744073709551616).toNat = seconds := by
      have hpow : Nat.pow 256 8 = 18446744073709551616 := by decide
      have hpow' : (Nat.pow 256 8 : Int) = 18446744073709551616 := by decide
      rw [BigEndian.signed, hpow', hpow]
      split <;> omega
    refine ⟨_, rfl, ?_, ?_⟩
    · exact Nat.le_of_eq
        (by rw [List.length_append, BigEndian.length_bytes, BigEndian.length_bytes])
    · rw [timestampOf?_twelve hn (by omega), hseconds]

theorem meaning_timestamp {data : List UInt8} {seconds : Int} {nanos : Nat}
    (h : timestampOf? data = some (.timestamp seconds nanos)) :
    Wire.meaning timestampCode data = .ok (.timestamp seconds nanos) := by
  rw [Wire.meaning, if_neg (by decide), if_neg (by decide), if_neg (by decide), if_neg (by decide),
    plainExt, if_pos rfl, h]
  rfl

end Wire

end DocStore
