import DocStore.Proofs.Wire.RoundTrip

/-! Values that fit: whatever is small enough is written, and comes back as it was. -/

namespace DocStore

namespace Wire

theorem length_utf8_le (cs : List Char) : (utf8 (String.ofList cs)).length ≤ 4 * cs.length := by
  have hsize : (utf8 (String.ofList cs)).length = cs.utf8Encode.size := by
    rw [utf8, String.toUTF8_eq_toByteArray, String.toByteArray_ofList, Array.length_toList]
    rfl
  rw [hsize]
  clear hsize
  induction cs with
  | nil => exact Nat.zero_le _
  | cons c cs ih =>
    have hone : [c].utf8Encode.size = c.utf8Size := by
      rw [List.utf8Encode_singleton, List.size_toByteArray, String.length_utf8EncodeChar]
    have hc := c.utf8Size_le_four
    rw [List.utf8Encode_cons, ByteArray.size_append, hone, List.length_cons]
    omega

theorem short {n : String} (h : n.length < 2 ^ 30) : (utf8 n).length < 2 ^ 32 := by
  have hbytes := length_utf8_le n.toList
  rw [String.ofList_toList, String.length_toList] at hbytes
  omega

/-! Lengths of heads -/

section Heads

variable {widths : Widths} {base limit width n : Nat} {bs : List UInt8}

theorem length_inWidth_le (hw : ∀ w ∈ widths, w.1 ≤ width) (h : inWidth widths n = some bs) :
    bs.length ≤ width + 1 := by
  obtain ⟨w, hfind, rfl⟩ := Option.map_eq_some_iff.mp h
  have hwide := hw w (List.mem_of_find?_eq_some hfind)
  rw [List.length_cons, BigEndian.length_bytes]
  omega

theorem length_head_le (hw : ∀ w ∈ widths, w.1 ≤ width) (h : head base limit widths n = some bs) :
    bs.length ≤ width + 1 := by
  unfold head at h
  split at h
  · obtain rfl := Option.some.inj h
    simp
  · exact length_inWidth_le hw h

end Heads

/-! Scalars -/

theorem packText_of_short {s : String} (h : (utf8 s).length < 2 ^ 32) :
    ∃ bs, packText s = some bs ∧ bs.length ≤ 5 + (utf8 s).length := by
  have hwide : (4, 0xdb) ∈ textWidths := by simp [textWidths]
  have hhead : ∃ start, head 0xa0 32 textWidths (utf8 s).length = some start := head_of_lt hwide h
  obtain ⟨start, hstart⟩ := hhead
  have hlength : start.length ≤ 5 := length_head_le (by simp [textWidths]) hstart
  refine ⟨start ++ utf8 s, by rw [packText, hstart, Option.map_some], ?_⟩
  rw [List.length_append]
  omega

theorem packExt_of_short (code : Int) {data : List UInt8} (h : data.length < 2 ^ 32) :
    ∃ bs, packExt code data = some bs := by
  unfold packExt
  cases fixedExt.lookup data.length with
  | some b => exact ⟨_, rfl⟩
  | none =>
    have hwide : (4, 0xc9) ∈ extWidths := by simp [extWidths]
    obtain ⟨start, hstart⟩ := inWidth_of_lt hwide h
    exact ⟨_, by rw [hstart, Option.map_some]⟩

theorem packBytes_of_short {data : List UInt8} (h : data.length < 2 ^ 32) :
    ∃ bs, packBytes data = some bs ∧ bs.length ≤ 5 + data.length := by
  have hwide : (4, 0xc6) ∈ bytesWidths := by simp [bytesWidths]
  obtain ⟨start, hstart⟩ := inWidth_of_lt hwide h
  have hlength : start.length ≤ 5 := length_inWidth_le (by simp [bytesWidths]) hstart
  refine ⟨start ++ data, by rw [packBytes, hstart, Option.map_some], ?_⟩
  rw [List.length_append]
  omega

/-- The bytes of what a pattern is written in. -/
def sourceBytes : Regex.Source → List UInt8
  | .text s => utf8 s
  | .bytes bs => bs

theorem packSource_of_short (source : Regex.Source) (h : (sourceBytes source).length < 2 ^ 32) :
    ∃ bs, packSource source = some bs ∧ bs.length ≤ 5 + (sourceBytes source).length := by
  cases source with
  | text s => exact packText_of_short h
  | bytes data => exact packBytes_of_short h

/-- How many bytes the options of a pattern take. -/
def optionsLength (o : Regex.Options) : Nat := if o.ascii then 3 else if o.debug then 2 else 1

theorem packInt_optionBits (p : Pattern) : ∃ bs, packInt p.optionBits = some bs ∧
    bs.length = optionsLength p.options := by
  have hall : ∀ i m s x a l t g : Bool, ∀ source ∈ [Regex.Source.text "", .bytes []],
      (packInt (Pattern.optionBits ⟨source, ⟨i, m, s, x, a, l, t, g⟩⟩)).map List.length =
        some (optionsLength ⟨i, m, s, x, a, l, t, g⟩) := by
    decide
  obtain ⟨source, i, m, s, x, a, l, t, g⟩ := p
  cases source with
  | text => exact Option.map_eq_some_iff.mp (hall i m s x a l t g (.text "") (by simp))
  | bytes => exact Option.map_eq_some_iff.mp (hall i m s x a l t g (.bytes []) (by simp))

/-- Before the text of a pattern go its options and at most six more bytes. -/
theorem packPattern_of_short {p : Pattern}
    (h : (sourceBytes p.source).length + (optionsLength p.options + 6) < 2 ^ 32) :
    ∃ bs, packPattern p = some bs := by
  obtain ⟨start, hstart, hshort⟩ := packInt_optionBits p
  obtain ⟨body, hbody, hlength⟩ := packSource_of_short p.source (by omega)
  have hdata : (0x92 :: (start ++ body)).length < 2 ^ 32 := by
    rw [List.length_cons, List.length_append]
    omega
  obtain ⟨bs, hbs⟩ := packExt_of_short patternCode hdata
  exact ⟨bs, by rw [packPattern, hstart, hbody]; exact hbs⟩

/-- Values without parts of the kinds that are written and read, within the limits of their
forms. -/
inductive Plain : Value → Prop
  | null : Plain .null
  | bool (b : Bool) : Plain (.bool b)
  | int {n : Int} (hlo : -(2 ^ 63) ≤ n) (hhi : n < 2 ^ 64) : Plain (.int n)
  | float (x : Binary64) : Plain (.float x)
  | str {s : String} (hs : (utf8 s).length < 2 ^ 32) : Plain (.str s)
  | bytes {bs : List UInt8} (hbs : bs.length < 2 ^ 32) : Plain (.bytes bs)
  | uuid (u : Uuid) : Plain (.uuid u)
  | datetime {t : DateTime} (ht : t.Lasting) : Plain (.datetime t)
  | date (d : Date) : Plain (.date d)
  | pattern {p : Pattern} (hp : p.Compiled)
      (hs : (sourceBytes p.source).length + (optionsLength p.options + 6) < 2 ^ 32) :
      Plain (.pattern p)

/-- Values without parts of the common kinds, within the ranges that there are. -/
inductive Common : Value → Prop
  | null : Common .null
  | bool (b : Bool) : Common (.bool b)
  | int {n : Int} (hlo : -(2 ^ 63) ≤ n) (hhi : n < 2 ^ 64) : Common (.int n)
  | float (x : Binary64) : Common (.float x)
  | str {s : String} (hs : (utf8 s).length < 2 ^ 32) : Common (.str s)
  | bytes {bs : List UInt8} (hbs : bs.length < 2 ^ 32) : Common (.bytes bs)
  | uuid (u : Uuid) : Common (.uuid u)
  | datetime {t : DateTime} (ht : t.kept = t) : Common (.datetime t)
  | date (d : Date) : Common (.date d)
  | pattern {p : Pattern} (hp : p.Compiled) (hs : (sourceBytes p.source).length < 2 ^ 32 - 19) :
      Common (.pattern p)

variable {v : Value}

theorem Plain.legible (h : Plain v) : Legible v := by
  cases h with
  | null => exact .null
  | bool b => exact .bool b
  | int _ _ => exact .int _
  | float x => exact .float x
  | str _ => exact .str _
  | bytes _ => exact .bytes _
  | uuid u => exact .uuid u
  | datetime _ => exact .datetime _
  | date d => exact .date d
  | pattern hp _ => exact .pattern hp

theorem Plain.received_eq (h : Plain v) : v.received = v := by
  cases h with
  | datetime ht => rw [Value.received, DateTime.kept_eq_iff.mpr ht]
  | _ => rfl

theorem Plain.packScalar (h : Plain v) : ∃ bs, packScalar v = some bs := by
  cases h with
  | null => exact ⟨_, rfl⟩
  | bool b => exact ⟨_, rfl⟩
  | int hlo hhi => exact packInt_of_range hlo hhi
  | float x => exact ⟨_, rfl⟩
  | str hs =>
    obtain ⟨bs, hbs, _⟩ := packText_of_short hs
    exact ⟨bs, hbs⟩
  | bytes hbs =>
    obtain ⟨bs, hbs, _⟩ := packBytes_of_short hbs
    exact ⟨bs, hbs⟩
  | uuid u =>
    have hlength : u.bytes.length = 16 := BigEndian.length_bytes 16 u.toNat
    simp only [Wire.packScalar]
    exact packExt_of_short uuidCode (by omega)
  | @datetime t _ =>
    have hiso := length_utf8_le (Iso.writeDateTime 'T' t)
    have hlength := Iso.length_writeDateTime_le t
    simp only [Wire.packScalar]
    exact packExt_of_short datetimeCode (by rw [DateTime.iso]; omega)
  | date d =>
    have hiso := length_utf8_le (Iso.writeDate d)
    have hlength := Iso.length_writeDate d
    simp only [Wire.packScalar]
    exact packExt_of_short dateCode (by rw [Date.iso]; omega)
  | pattern _ hs => exact packPattern_of_short hs

theorem Plain.not_container (h : Plain v) : isContainer v = false := by
  cases h <;> rfl

theorem Common.plain (h : Common v) : Plain v := by
  cases h with
  | null => exact .null
  | bool b => exact .bool b
  | int hlo hhi => exact .int hlo hhi
  | float x => exact .float x
  | str hs => exact .str hs
  | bytes hbs => exact .bytes hbs
  | uuid u => exact .uuid u
  | datetime ht => exact .datetime (DateTime.kept_eq_iff.mp ht)
  | date d => exact .date d
  | @pattern p hp hs =>
    have hoptions : optionsLength p.options ≤ 3 := by
      unfold optionsLength
      split
      · omega
      · split <;> omega
    exact .pattern hp (by omega)

theorem Common.received_eq (h : Common v) : v.received = v := h.plain.received_eq

/-! Containers -/

/-- What travels within so many levels: plain values, and lists, tuples and dictionaries of what
travels, the last under distinct texts and bytes. -/
inductive Sendable : Nat → Value → Prop
  | plain {k : Nat} {v : Value} (hv : Plain v) : Sendable (k + 1) v
  | list {k : Nat} {xs : List Value} (hlength : xs.length < 2 ^ 32)
      (hxs : ∀ x ∈ xs, Sendable k x) : Sendable (k + 1) (.list xs)
  | tuple {k : Nat} {xs : List Value} (hlength : xs.length < 2 ^ 32)
      (hxs : ∀ x ∈ xs, Sendable k x) : Sendable (k + 1) (.tuple xs)
  | dict {k : Nat} {ps : Entries} (hlength : ps.length < 2 ^ 32)
      (hkeys : ∀ p ∈ ps, isKey p.1 = true ∧ Plain p.1)
      (hdistinct : ps.Pairwise fun p q => p.1 ≠ q.1) (hvalues : ∀ p ∈ ps, Sendable k p.2) :
      Sendable (k + 1) (.dict ps)

variable {levels : Nat}

theorem Sendable.legible (h : Sendable levels v) : Legible v := by
  induction h with
  | plain hv => exact hv.legible
  | list _ _ ih => exact .list ih
  | tuple _ _ ih => exact .tuple ih
  | dict _ hkeys hdistinct _ ih => exact .dict (fun p hp => (hkeys p hp).1) hdistinct ih

theorem Sendable.pos (h : Sendable levels v) : 0 < levels := by
  cases h <;> exact Nat.succ_pos _

theorem packItems_of_each {xs : List Value} (h : ∀ x ∈ xs, ∃ bs, packAt levels x = .ok bs) :
    ∃ bs, packItems levels xs = .ok bs := by
  induction xs with
  | nil => exact ⟨[], rfl⟩
  | cons x xs ih =>
    obtain ⟨first, hfirst⟩ := h x (by simp)
    obtain ⟨second, hsecond⟩ := ih fun y hy => h y (by simp [hy])
    exact ⟨first ++ second, by rw [packItems, hfirst, hsecond]; rfl⟩

theorem packEntries_of_each {ps : Entries}
    (h : ∀ p ∈ ps, (∃ bs, packAt levels p.1 = .ok bs) ∧ ∃ bs, packAt levels p.2 = .ok bs) :
    ∃ bs, packEntries levels ps = .ok bs := by
  induction ps with
  | nil => exact ⟨[], rfl⟩
  | cons p ps ih =>
    obtain ⟨⟨key, hkey⟩, value, hvalue⟩ := h p (by simp)
    obtain ⟨rest, hrest⟩ := ih fun q hq => h q (by simp [hq])
    exact ⟨(key ++ value) ++ rest, by rw [packEntries, packEntry, hkey, hvalue, hrest]; rfl⟩

theorem packAt_plain (hv : Plain v) (h : 0 < levels) : ∃ bs, packAt levels v = .ok bs := by
  obtain ⟨bs, hbs⟩ := hv.packScalar
  exact ⟨bs ++ [], by rw [packAt_eq hv.not_container, if_neg (by omega), hbs]; rfl⟩

theorem packAt_list_of_each {xs : List Value} (hlength : xs.length < 2 ^ 32)
    (h : ∀ x ∈ xs, ∃ bs, packAt levels x = .ok bs) :
    ∃ bs, packAt (levels + 1) (.list xs) = .ok bs := by
  have hwide : (4, 0xdd) ∈ arrayWidths := by simp [arrayWidths]
  have hhead : ∃ start, head 0x90 16 arrayWidths xs.length = some start := head_of_lt hwide hlength
  obtain ⟨start, hstart⟩ := hhead
  obtain ⟨body, hbody⟩ := packItems_of_each h
  refine ⟨start ++ body, ?_⟩
  rw [packAt, if_neg (Nat.succ_ne_zero levels), hstart, Nat.add_sub_cancel, hbody]
  rfl

theorem packAt_dict_of_each {ps : Entries} (hlength : ps.length < 2 ^ 32)
    (h : ∀ p ∈ ps, (∃ bs, packAt levels p.1 = .ok bs) ∧ ∃ bs, packAt levels p.2 = .ok bs) :
    ∃ bs, packAt (levels + 1) (.dict ps) = .ok bs := by
  have hwide : (4, 0xdf) ∈ mapWidths := by simp [mapWidths]
  have hhead : ∃ start, head 0x80 16 mapWidths ps.length = some start := head_of_lt hwide hlength
  obtain ⟨start, hstart⟩ := hhead
  obtain ⟨body, hbody⟩ := packEntries_of_each h
  refine ⟨start ++ body, ?_⟩
  rw [packAt, if_neg (Nat.succ_ne_zero levels), hstart, Nat.add_sub_cancel, hbody]
  rfl

/-- What travels is written. -/
theorem Sendable.packAt (h : Sendable levels v) : ∃ bs, packAt levels v = .ok bs := by
  induction h with
  | plain hv => exact packAt_plain hv (Nat.succ_pos _)
  | list hlength _ ih => exact packAt_list_of_each hlength ih
  | tuple hlength _ ih =>
    obtain ⟨bs, hbs⟩ := packAt_list_of_each hlength ih
    exact ⟨bs, packAt_tuple.mpr hbs⟩
  | dict hlength hkeys _ hvalues ih =>
    exact packAt_dict_of_each hlength fun p hp =>
      ⟨packAt_plain (hkeys p hp).2 (hvalues p hp).pos, ih p hp⟩

/-- Common values, and lists and dictionaries under texts of storable ones, within so many
levels. -/
inductive Storable : Nat → Value → Prop
  | common {k : Nat} {v : Value} (hv : Common v) : Storable (k + 1) v
  | list {k : Nat} {xs : List Value} (hlength : xs.length < 2 ^ 32)
      (hxs : ∀ x ∈ xs, Storable k x) : Storable (k + 1) (.list xs)
  | dict {k : Nat} {ps : Entries} (hlength : ps.length < 2 ^ 32) (hkeyed : ps.Keyed)
      (hkeys : ∀ p ∈ ps, Common p.1) (hvalues : ∀ p ∈ ps, Storable k p.2) :
      Storable (k + 1) (.dict ps)

theorem isKey_of_keyed {ps : Entries} (h : ps.Keyed) : ∀ p ∈ ps, isKey p.1 = true := by
  intro p hp
  obtain ⟨n, hn⟩ := h.text p hp
  rw [hn]
  rfl

theorem Storable.sendable (h : Storable levels v) : Sendable levels v := by
  induction h with
  | common hv => exact .plain hv.plain
  | list hlength _ ih => exact .list hlength ih
  | dict hlength hkeyed hkeys _ ih =>
    exact .dict hlength (fun p hp => ⟨isKey_of_keyed hkeyed p hp, (hkeys p hp).plain⟩)
      hkeyed.distinct ih

theorem Storable.legible (h : Storable levels v) : Legible v := h.sendable.legible

theorem Storable.received_eq (h : Storable levels v) : v.received = v := by
  induction h with
  | common hv => exact hv.received_eq
  | @list _ xs _ _ ih =>
    rw [Value.received, Value.receivedList_eq, List.map_congr_left ih, List.map_id']
  | @dict _ ps _ _ _ _ ih =>
    have hmap : ps.map (fun p => (p.1, p.2.received)) = ps.map id :=
      List.map_congr_left fun p hp => by rw [ih p hp]; rfl
    rw [Value.received, Value.receivedEntries_eq, hmap, List.map_id]

theorem Storable.packAt (h : Storable levels v) : ∃ bs, packAt levels v = .ok bs :=
  h.sendable.packAt

end Wire

end DocStore
