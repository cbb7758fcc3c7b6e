import DocStore.Proofs.Document.Entries
import DocStore.Proofs.Run
import DocStore.Proofs.Wire.Scalar

/-! Values within values: what was written is read back, tuples as lists. -/

namespace DocStore

open Value

mutual

/-- What is read back of a value. -/
def Value.received : Value → Value
  | list xs => list (receivedList xs)
  | tuple xs => list (receivedList xs)
  | dict ps => dict (receivedEntries ps)
  | datetime t => datetime t.kept
  | v => v
termination_by structural x => x

def Value.receivedList : List Value → List Value
  | [] => []
  | x :: xs => received x :: receivedList xs
termination_by structural x => x

def Value.receivedEntries : Entries → Entries
  | [] => []
  | p :: ps => receivedEntry p :: receivedEntries ps
termination_by structural x => x

def Value.receivedEntry : Value × Value → Value × Value
  | (k, v) => (k, received v)
termination_by structural x => x

end

theorem Value.receivedList_eq (xs : List Value) : receivedList xs = xs.map received := by
  induction xs with
  | nil => rfl
  | cons x xs ih => rw [receivedList, ih, List.map_cons]

theorem Value.receivedEntries_eq (ps : Entries) :
    receivedEntries ps = ps.map fun p => (p.1, received p.2) := by
  induction ps with
  | nil => rfl
  | cons p ps ih =>
    rw [receivedEntries, ih, List.map_cons, receivedEntry]

namespace Wire

/-- What can be read back: patterns that were compiled, extensions whose code has no meaning here,
timestamps within their range, and dictionaries under distinct texts and bytes. -/
inductive Legible : Value → Prop
  | null : Legible null
  | bool (b : Bool) : Legible (.bool b)
  | int (n : Int) : Legible (.int n)
  | float (x : Binary64) : Legible (.float x)
  | str (s : String) : Legible (.str s)
  | bytes (bs : List UInt8) : Legible (.bytes bs)
  | uuid (u : Uuid) : Legible (.uuid u)
  | datetime (t : DateTime) : Legible (.datetime t)
  | date (d : Date) : Legible (.date d)
  | pattern {p : Pattern} (hp : p.Compiled) : Legible (.pattern p)
  | ext {code : Int} (hcode : code = 0 ∨ 4 < code ∧ code < 128) (data : List UInt8) :
      Legible (.ext code data)
  | timestamp {seconds : Int} {nanos : Nat} (hn : nanos < 1000000000)
      (hlo : -(2 ^ 63) ≤ seconds) (hhi : seconds < 2 ^ 63) : Legible (.timestamp seconds nanos)
  | list {xs : List Value} (hxs : ∀ x ∈ xs, Legible x) : Legible (.list xs)
  | tuple {xs : List Value} (hxs : ∀ x ∈ xs, Legible x) : Legible (.tuple xs)
  | dict {ps : Entries} (hkeys : ∀ p ∈ ps, isKey p.1 = true)
      (hdistinct : ps.Pairwise fun p q => p.1 ≠ q.1) (hvalues : ∀ p ∈ ps, Legible p.2) :
      Legible (.dict ps)

variable {size k : Nat} {v : Value} {bs : List UInt8}

/-- What was written for a value is read back, whatever follows it. -/
def Reads (size k : Nat) (v : Value) (bs : List UInt8) : Prop :=
  ∀ rest, read meaning size k (bs ++ rest) = .ok (received v, rest)

theorem reads_ext {code : Int} {data : List UInt8} (h : packExt code data = some bs)
    (hcode : -128 ≤ code ∧ code < 128) (hv : meaning code data = .ok (received v)) :
    Reads size k v bs := by
  intro rest
  rw [read_ext h hcode, hv]
  rfl

theorem reads_scalar (hv : Legible v) (h : packScalar v = some bs) : Reads size k v bs := by
  cases hv with
  | null =>
    obtain rfl := Option.some.inj h
    exact read_of_value (.single fun _ => rfl)
  | bool b =>
    obtain rfl := Option.some.inj h
    cases b
    · exact read_of_value (.single fun _ => rfl)
    · exact read_of_value (.single fun _ => rfl)
  | int n => exact read_int h
  | float x =>
    simp only [packScalar, Option.some.injEq] at h
    subst h
    intro rest
    rw [read_of_value (.of_float x)]
    rfl
  | str s => exact read_text h
  | bytes data => exact read_bytes h
  | uuid u =>
    simp only [packScalar] at h
    exact reads_ext h (by decide) (meaning_uuid u)
  | datetime t =>
    simp only [packScalar] at h
    exact reads_ext h (by decide) (meaning_datetime t)
  | date d =>
    simp only [packScalar] at h
    exact reads_ext h (by decide) (meaning_date d)
  | @pattern p hp =>
    simp only [packScalar, packPattern] at h
    split at h
    · next ha hb => exact reads_ext h (by decide) (meaning_pattern hp ha hb)
    · cases h
  | @ext code hcode data =>
    simp only [packScalar] at h
    exact reads_ext h (by omega) (meaning_ext (by omega) data)
  | @timestamp seconds nanos hn hlo hhi =>
    obtain ⟨data, hdata, _, htime⟩ := packTimestamp_data hn hlo hhi
    simp only [packScalar, hdata] at h
    exact reads_ext h (by decide) (meaning_timestamp htime)
  | list hxs => cases h
  | tuple hxs => cases h
  | dict hkeys hdistinct hvalues => cases h

theorem packExt_pos {code : Int} {data : List UInt8} (h : packExt code data = some bs) :
    0 < bs.length := by
  obtain ⟨start, _, rfl⟩ := Option.map_eq_some_iff.mp h
  rw [List.length_append, List.length_cons]
  omega

theorem withHead_eq_ok {start : Option (List UInt8)} {body : Except Error (List UInt8)}
    (h : withHead v start body = .ok bs) :
    ∃ head tail, start = some head ∧ body = .ok tail ∧ bs = head ++ tail := by
  unfold withHead at h
  cases start with
  | none => cases h
  | some head =>
    obtain ⟨tail, htail, rfl⟩ := except_map_eq_ok.mp h
    exact ⟨head, tail, rfl, htail, rfl⟩

theorem followedBy_eq_ok {a b : Except Error (List UInt8)} (h : followedBy a b = .ok bs) :
    ∃ first second, a = .ok first ∧ b = .ok second ∧ bs = first ++ second := by
  unfold followedBy at h
  cases a with
  | error e => cases h
  | ok first =>
    obtain ⟨second, hsecond, rfl⟩ := except_map_eq_ok.mp h
    exact ⟨first, second, rfl, hsecond, rfl⟩

theorem packScalar_pos (h : packScalar v = some bs) : 0 < bs.length := by
  cases v with
  | null =>
    obtain rfl := Option.some.inj h
    exact Nat.succ_pos _
  | bool b =>
    obtain rfl := Option.some.inj h
    exact Nat.succ_pos _
  | int n => exact (Announces.of_packInt h).pos
  | float x =>
    simp only [packScalar, Option.some.injEq] at h
    subst h
    exact Nat.succ_pos _
  | str s =>
    obtain ⟨start, hstart, rfl⟩ := Option.map_eq_some_iff.mp h
    have hpos := head_pos hstart
    rw [List.length_append]
    omega
  | bytes data =>
    obtain ⟨start, hstart, rfl⟩ := Option.map_eq_some_iff.mp h
    have hpos := inWidth_pos hstart
    rw [List.length_append]
    omega
  | uuid u =>
    simp only [packScalar] at h
    exact packExt_pos h
  | datetime t =>
    simp only [packScalar] at h
    exact packExt_pos h
  | date d =>
    simp only [packScalar] at h
    exact packExt_pos h
  | pattern p =>
    simp only [packScalar, packPattern] at h
    split at h
    · exact packExt_pos h
    · cases h
  | ext code data =>
    simp only [packScalar] at h
    exact packExt_pos h
  | timestamp seconds nanos =>
    simp only [packScalar, packTimestamp] at h
    split at h
    · exact packExt_pos h
    · exact packExt_pos h
  | _ => cases h

/-- Packing a container: its head, then its parts one level further in. -/
theorem packAt_list {levels : Nat} {xs : List Value} (h : packAt levels (.list xs) = .ok bs) :
    ∃ head tail, 0 < levels ∧ Wire.head 0x90 16 arrayWidths xs.length = some head ∧
      packItems (levels - 1) xs = .ok tail ∧ bs = head ++ tail := by
  rw [packAt] at h
  split at h
  · cases h
  · obtain ⟨head, tail, hhead, htail, rfl⟩ := withHead_eq_ok h
    exact ⟨head, tail, by omega, hhead, htail, rfl⟩

/-- A tuple is packed as the list of its items. -/
theorem packAt_tuple {levels : Nat} {xs : List Value} :
    packAt levels (.tuple xs) = .ok bs ↔ packAt levels (.list xs) = .ok bs := by
  rw [packAt, packAt]
  split
  · rfl
  · cases head 0x90 16 arrayWidths xs.length with
    | none => simp [withHead]
    | some start => rfl

theorem packAt_dict {levels : Nat} {ps : Entries} (h : packAt levels (.dict ps) = .ok bs) :
    ∃ head tail, 0 < levels ∧ Wire.head 0x80 16 mapWidths ps.length = some head ∧
      packEntries (levels - 1) ps = .ok tail ∧ bs = head ++ tail := by
  rw [packAt] at h
  split at h
  · cases h
  · obtain ⟨head, tail, hhead, htail, rfl⟩ := withHead_eq_ok h
    exact ⟨head, tail, by omega, hhead, htail, rfl⟩

def isContainer : Value → Bool
  | .list _ => true
  | .tuple _ => true
  | .dict _ => true
  | _ => false

theorem packAt_eq {levels : Nat} (hv : isContainer v = false) : packAt levels v =
    if levels = 0 then .error (.unserializable (.pack .depth))
    else withHead v (packScalar v) (.ok []) := by
  cases v with
  | list _ => cases hv
  | tuple _ => cases hv
  | dict _ => cases hv
  | _ => rw [packAt] <;> simp

theorem packAt_scalar {levels : Nat} (hv : isContainer v = false)
    (h : packAt levels v = .ok bs) : 0 < levels ∧ packScalar v = some bs := by
  rw [packAt_eq hv] at h
  split at h
  · cases h
  · obtain ⟨head, tail, hhead, htail, rfl⟩ := withHead_eq_ok h
    cases htail
    rw [List.append_nil]
    exact ⟨by omega, hhead⟩

theorem packAt_pos {levels : Nat} (h : packAt levels v = .ok bs) : 0 < bs.length := by
  cases hc : isContainer v with
  | false => exact packScalar_pos (packAt_scalar hc h).2
  | true =>
    have hhead : ∃ head tail : List UInt8, 0 < head.length ∧ bs = head ++ tail := by
      cases v with
      | list xs =>
        obtain ⟨head, tail, _, hhead, _, rfl⟩ := packAt_list h
        exact ⟨head, tail, head_pos hhead, rfl⟩
      | tuple xs =>
        obtain ⟨head, tail, _, hhead, _, rfl⟩ := packAt_list (packAt_tuple.mp h)
        exact ⟨head, tail, head_pos hhead, rfl⟩
      | dict ps =>
        obtain ⟨head, tail, _, hhead, _, rfl⟩ := packAt_dict h
        exact ⟨head, tail, head_pos hhead, rfl⟩
      | _ => cases hc
    obtain ⟨head, tail, hpos, rfl⟩ := hhead
    rw [List.length_append]
    omega

theorem length_le_packItems {levels : Nat} {xs : List Value} (h : packItems levels xs = .ok bs) :
    xs.length ≤ bs.length := by
  induction xs generalizing bs with
  | nil => exact Nat.zero_le _
  | cons x xs ih =>
    rw [packItems] at h
    obtain ⟨first, second, hfirst, hsecond, rfl⟩ := followedBy_eq_ok h
    have hpos := packAt_pos hfirst
    have hrest := ih hsecond
    rw [List.length_cons, List.length_append]
    omega

theorem length_le_packEntries {levels : Nat} {ps : Entries}
    (h : packEntries levels ps = .ok bs) : 2 * ps.length ≤ bs.length := by
  induction ps generalizing bs with
  | nil => exact Nat.zero_le _
  | cons p ps ih =>
    rw [packEntries, packEntry] at h
    obtain ⟨first, second, hfirst, hsecond, rfl⟩ := followedBy_eq_ok h
    obtain ⟨key, value, hkey, hvalue, rfl⟩ := followedBy_eq_ok hfirst
    have hkeyPos := packAt_pos hkey
    have hvaluePos := packAt_pos hvalue
    have hrest := ih hsecond
    rw [List.length_cons, List.length_append, List.length_append]
    omega

/-- All that is written for a value at any level is read back. -/
def ReadsBack (v : Value) : Prop :=
  ∀ {size levels k : Nat} {bs : List UInt8}, packAt levels v = .ok bs → levels ≤ k →
    bs.length ≤ size → Reads size k v bs

theorem readItems_packed {levels : Nat} {xs : List Value} (hxs : ∀ x ∈ xs, ReadsBack x)
    (h : packItems levels xs = .ok bs) (hk : levels ≤ k) (hsize : bs.length ≤ size)
    (rest : List UInt8) : readItems (read meaning size k) xs.length (bs ++ rest) =
      .ok (receivedList xs, rest) := by
  induction xs generalizing bs with
  | nil =>
    cases h
    rfl
  | cons x xs ih =>
    rw [packItems] at h
    obtain ⟨first, second, hfirst, hsecond, rfl⟩ := followedBy_eq_ok h
    rw [List.length_append] at hsize
    have hfit : first.length ≤ size := by omega
    have hx := hxs x (by simp) hfirst hk hfit (second ++ rest)
    have hrest := ih (fun y hy => hxs y (by simp [hy])) hsecond (by omega)
    rw [List.length_cons, List.append_assoc, readItems, hx]
    simp only [hrest]
    rfl

theorem equal_key {a key : Value} (hkey : isKey key = true) :
    equal a key = true ↔ a = key := by
  cases key with
  | str s => exact equal_str_right
  | bytes data =>
    unfold equal
    cases a <;> simp [eqv, numberEqual, number?, isNull]
  | _ => cases hkey

theorem put_new {key w : Value} {done : Entries} (hkey : isKey key = true)
    (hnew : ∀ p ∈ done, p.1 ≠ key) : Entries.put key w done = done ++ [(key, w)] := by
  refine Entries.put_of_absent w ?_
  induction done with
  | nil => rfl
  | cons p done ih =>
    have hp : ¬ equal p.1 key = true := fun he => hnew p (by simp) ((equal_key hkey).mp he)
    rw [Entries.get?, if_neg hp]
    exact ih fun q hq => hnew q (by simp [hq])

theorem readsBack_key {key : Value} (hkey : isKey key = true) {levels : Nat}
    (h : packAt levels key = .ok bs) (rest : List UInt8) :
    read meaning size k (bs ++ rest) = .ok (key, rest) := by
  cases key with
  | str s => exact read_text (packAt_scalar rfl h).2 rest
  | bytes data => exact read_bytes (packAt_scalar rfl h).2 rest
  | _ => cases hkey

theorem readEntries_packed {levels : Nat} {ps done : Entries} (hkeys : ∀ p ∈ ps, isKey p.1 = true)
    (hdistinct : ps.Pairwise fun p q => p.1 ≠ q.1) (hnew : ∀ p ∈ ps, ∀ q ∈ done, q.1 ≠ p.1)
    (hvalues : ∀ p ∈ ps, ReadsBack p.2) (h : packEntries levels ps = .ok bs) (hk : levels ≤ k)
    (hsize : bs.length ≤ size) (rest : List UInt8) :
    readEntries (read meaning size k) ps.length done (bs ++ rest) =
      .ok (done ++ receivedEntries ps, rest) := by
  induction ps generalizing bs done with
  | nil =>
    cases h
    rw [receivedEntries, List.append_nil]
    rfl
  | cons p ps ih =>
    obtain ⟨key, v⟩ := p
    rw [packEntries, packEntry] at h
    obtain ⟨first, second, hfirst, hsecond, rfl⟩ := followedBy_eq_ok h
    obtain ⟨keyBytes, valueBytes, hkeyBytes, hvalueBytes, rfl⟩ := followedBy_eq_ok hfirst
    rw [List.length_append, List.length_append] at hsize
    have hkey : isKey key = true := hkeys (key, v) (by simp)
    obtain ⟨hhead, htail⟩ := List.pairwise_cons.mp hdistinct
    have hfit : valueBytes.length ≤ size := by omega
    have hk₁ : read meaning size k (keyBytes ++ (valueBytes ++ (second ++ rest))) =
        .ok (key, valueBytes ++ (second ++ rest)) := readsBack_key hkey hkeyBytes _
    have hv := hvalues (key, v) (by simp) hvalueBytes hk hfit (second ++ rest)
    have hnew' : ∀ p ∈ ps, ∀ q ∈ done ++ [(key, received v)], q.1 ≠ p.1 := by
      intro p hp q hq
      rcases List.mem_append.mp hq with hq | hq
      · exact hnew p (by simp [hp]) q hq
      · rw [List.mem_singleton.mp hq]
        exact hhead p hp
    have hrest := ih (fun q hq => hkeys q (by simp [hq])) htail hnew'
      (fun q hq => hvalues q (by simp [hq])) hsecond (by omega)
    rw [List.length_cons, List.append_assoc, List.append_assoc, readEntries, hk₁]
    simp only [hv, hkey, if_true]
    rw [put_new hkey (hnew (key, v) (by simp)), hrest, List.append_assoc]
    rfl

theorem readsBack_list {xs : List Value} (hxs : ∀ x ∈ xs, ReadsBack x) : ReadsBack (.list xs) := by
  intro size levels k bs h hk hsize rest
  obtain ⟨head, tail, hpos, hhead, htail, rfl⟩ := packAt_list h
  have ha : Announces head (.array xs.length) :=
    .of_head arrayWidths_lead (by omega) (fun n hn rest => headOf_array hn rest) hhead
  rw [List.length_append] at hsize
  have hitems : ∀ k', levels - 1 ≤ k' → readItems (read meaning size k') xs.length (tail ++ rest) =
      .ok (receivedList xs, rest) := fun k' hk' =>
    readItems_packed hxs htail hk' (by omega) rest
  have hlength := length_le_packItems htail
  obtain ⟨b, more, rfl, hb⟩ := ha
  cases k with
  | zero => omega
  | succ k =>
    rw [List.append_assoc, List.cons_append]
    unfold read
    rw [hb]
    simp only [if_neg (by omega : ¬ size < xs.length), hitems k (by omega)]
    rfl

theorem readsBack_dict {ps : Entries} (hkeys : ∀ p ∈ ps, isKey p.1 = true)
    (hdistinct : ps.Pairwise fun p q => p.1 ≠ q.1) (hvalues : ∀ p ∈ ps, ReadsBack p.2) :
    ReadsBack (.dict ps) := by
  intro size levels k bs h hk hsize rest
  obtain ⟨head, tail, hpos, hhead, htail, rfl⟩ := packAt_dict h
  have ha : Announces head (.map ps.length) :=
    .of_head mapWidths_lead (by omega) (fun n hn rest => headOf_map hn rest) hhead
  rw [List.length_append] at hsize
  have hentries : ∀ k', levels - 1 ≤ k' →
      readEntries (read meaning size k') ps.length [] (tail ++ rest) =
        .ok (receivedEntries ps, rest) := fun k' hk' =>
    readEntries_packed hkeys hdistinct (by simp) hvalues htail hk' (by omega) rest
  have hlength := length_le_packEntries htail
  obtain ⟨b, more, rfl, hb⟩ := ha
  cases k with
  | zero => omega
  | succ k =>
    rw [List.append_assoc, List.cons_append]
    unfold read
    rw [hb]
    simp only [if_neg (by omega : ¬ size / 2 < ps.length), hentries k (by omega)]
    rfl

/-- Writing and reading a value, whatever it holds and whatever follows it. -/
theorem readsBack (hv : Legible v) : ReadsBack v := by
  have hscalar : ∀ {w : Value}, Legible w → isContainer w = false → ReadsBack w := by
    intro w hw hc size levels k bs h _ _
    exact reads_scalar hw (packAt_scalar hc h).2
  induction hv with
  | list _ ih => exact readsBack_list ih
  | tuple _ ih =>
    intro size levels k bs h hk hsize
    exact readsBack_list ih (packAt_tuple.mp h) hk hsize
  | dict hkeys hdistinct _ ih => exact readsBack_dict hkeys hdistinct ih
  | null => exact hscalar .null rfl
  | bool b => exact hscalar (.bool b) rfl
  | int n => exact hscalar (.int n) rfl
  | float x => exact hscalar (.float x) rfl
  | str s => exact hscalar (.str s) rfl
  | bytes data => exact hscalar (.bytes data) rfl
  | uuid u => exact hscalar (.uuid u) rfl
  | datetime t => exact hscalar (.datetime t) rfl
  | date d => exact hscalar (.date d) rfl
  | pattern hp => exact hscalar (.pattern hp) rfl
  | ext hcode data => exact hscalar (.ext hcode data) rfl
  | timestamp hn hlo hhi => exact hscalar (.timestamp hn hlo hhi) rfl

/-- What was packed is unpacked again, tuples as lists. -/
theorem unpack_pack (hv : Legible v) (h : pack v = .ok bs) : unpack bs = .ok (received v) := by
  have hread : read meaning bs.length maxLevels (bs ++ []) = .ok (received v, []) :=
    readsBack hv h (by decide) (Nat.le_refl _) []
  rw [List.append_nil] at hread
  rw [unpack, readAll, hread]

end Wire

end DocStore
