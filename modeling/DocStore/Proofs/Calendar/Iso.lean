import DocStore.Calendar.Iso
import Mathlib.Algebra.Group.Nat.Defs

/-! Days and points in time come back from their text. Of an offset of less than a second nothing
comes back. -/

namespace DocStore

namespace Iso

/-- The last digits of a number, as many as asked for. -/
def digits : Nat → Nat → List Char
  | 0, _ => []
  | width + 1, n => digits width (n / 10) ++ [(n % 10).digitChar]

theorem digits_zero (width : Nat) : digits width 0 = List.replicate width '0' := by
  induction width with
  | zero => rfl
  | succ width ih => rw [digits, ih, List.replicate_succ']; rfl

theorem length_digits (width n : Nat) : (digits width n).length = width := by
  induction width generalizing n with
  | zero => rfl
  | succ width ih => rw [digits, List.length_append, ih]; rfl

theorem pad_eq {width n : Nat} (hw : 0 < width) (h : n < 10 ^ width) :
    pad width n = digits width n := by
  induction width generalizing n with
  | zero => omega
  | succ width ih =>
    rw [digits]
    by_cases hn : n < 10
    · have hzero : n / 10 = 0 := Nat.div_eq_of_lt hn
      rw [pad, Nat.toDigits_of_lt_base hn, hzero, digits_zero, Nat.mod_eq_of_lt hn]
      rfl
    · have hq : n / 10 < 10 ^ width := by
        rw [Nat.pow_succ] at h
        omega
      have hwidth : 0 < width := by
        rcases Nat.eq_zero_or_pos width with rfl | hpos
        · simp at h
          omega
        · exact hpos
      rw [pad, Nat.toDigits_of_base_le (by omega) (by omega), ← ih hwidth hq, pad,
        List.length_append]
      simp

theorem digit?_digitChar {d : Nat} (h : d < 10) : digit? d.digitChar = some d := by
  have hall : ∀ d : Fin 10, digit? d.val.digitChar = some d.val := by decide
  exact hall ⟨d, h⟩

theorem mem_digits {width n : Nat} {c : Char} (h : c ∈ digits width n) :
    ∃ d < 10, c = d.digitChar := by
  induction width generalizing n with
  | zero => simp [digits] at h
  | succ width ih =>
    rw [digits, List.mem_append, List.mem_singleton] at h
    rcases h with h | h
    · exact ih h
    · exact ⟨n % 10, by omega, h⟩

theorem digitChar_ne {d : Nat} (h : d < 10) {c : Char} (hc : digit? c = none) :
    d.digitChar ≠ c := by
  intro he
  rw [← he, digit?_digitChar h] at hc
  cases hc

theorem readDigits_add (a b acc : Nat) (cs : List Char) :
    readDigits (a + b) acc cs = (readDigits a acc cs).bind fun r => readDigits b r.1 r.2 := by
  induction a generalizing acc cs with
  | zero => simp [readDigits]
  | succ a ih =>
    rw [Nat.succ_add]
    cases cs with
    | nil => simp [readDigits]
    | cons c cs =>
      rw [readDigits, readDigits]
      cases digit? c with
      | none => rfl
      | some d => exact ih _ _

theorem readDigits_digits {width n : Nat} (h : n < 10 ^ width) (cs : List Char) :
    readDigits width 0 (digits width n ++ cs) = some (n, cs) := by
  induction width generalizing n cs with
  | zero =>
    have hn : n = 0 := by simpa using h
    rw [hn]
    rfl
  | succ width ih =>
    have hq : n / 10 < 10 ^ width := by
      rw [Nat.pow_succ] at h
      omega
    rw [digits, List.append_assoc, readDigits_add, ih hq]
    have hd : digit? (n % 10).digitChar = some (n % 10) := digit?_digitChar (by omega)
    simp only [Option.bind_some, List.cons_append, List.nil_append, readDigits, hd]
    have hn : 10 * (n / 10) + n % 10 = n := by omega
    rw [hn]

theorem readDigits_pad {width n : Nat} (hw : 0 < width) (h : n < 10 ^ width) (cs : List Char) :
    readDigits width 0 (pad width n ++ cs) = some (n, cs) := by
  rw [pad_eq hw h, readDigits_digits h]

theorem length_pad {width n : Nat} (hw : 0 < width) (h : n < 10 ^ width) :
    (pad width n).length = width := by
  rw [pad_eq hw h, length_digits]

theorem mem_pad {width n : Nat} (hw : 0 < width) (h : n < 10 ^ width) {c : Char}
    (hc : c ∈ pad width n) : ∃ d < 10, c = d.digitChar := by
  rw [pad_eq hw h] at hc
  exact mem_digits hc

theorem daysInMonth_le (y m : Nat) : daysInMonth y m ≤ 31 := by
  unfold daysInMonth
  split
  · split <;> omega
  · split <;> omega

theorem head?_pad_ne {width n : Nat} (hw : 0 < width) (h : n < 10 ^ width) {c : Char}
    (hc : digit? c = none) (cs : List Char) : ((pad width n ++ cs).head? == some c) = false := by
  cases hp : pad width n with
  | nil =>
    have hl := length_pad hw h
    rw [hp] at hl
    exact absurd hl (by simp; omega)
  | cons a as =>
    obtain ⟨d, hd, ha⟩ := mem_pad hw h (c := a) (by simp [hp])
    have hne : a ≠ c := ha ▸ digitChar_ne hd hc
    simp [hne]

theorem readDateIn_writeDate (length : Nat) (d : Date) (cs : List Char) :
    readDateIn length (writeDate d ++ cs) = some d := by
  have hy := d.year_mem
  have hm := d.month_mem
  have hd := d.day_mem
  have hlast := daysInMonth_le d.year d.month
  have hweek : ((pad 2 d.month ++ '-' :: (pad 2 d.day ++ cs)).head? == some 'W') = false :=
    head?_pad_ne (by omega) (by omega) (by decide) _
  have htext : writeDate d ++ cs =
      pad 4 d.year ++ ('-' :: (pad 2 d.month ++ ('-' :: (pad 2 d.day ++ cs)))) := by
    simp [writeDate]
  rw [htext, readDateIn, readDigits_pad (by omega) (by omega)]
  simp only [Option.bind_eq_bind, Option.bind_some, List.head?_cons, beq_self_eq_true, if_true,
    List.drop_succ_cons, List.drop_zero, hweek, Bool.false_eq_true, if_false]
  rw [readDigits_pad (by omega) (by omega)]
  simp only [Option.bind_some, skipDash, if_true]
  rw [readDigits_pad (by omega) (by omega)]
  simp only [Option.bind_some, Date.ofFields?]
  rw [dif_pos hy, dif_pos hm, dif_pos hd]

theorem length_writeDate (d : Date) : (writeDate d).length = 10 := by
  have hy := d.year_mem
  have hm := d.month_mem
  have hd := d.day_mem
  have hlast := daysInMonth_le d.year d.month
  simp only [writeDate, List.length_append, List.length_cons]
  rw [length_pad (by omega) (by omega), length_pad (by omega) (by omega),
    length_pad (by omega) (by omega)]

theorem sizes_of_ascii {cs : List Char} (h : ∀ c ∈ cs, c.utf8Size = 1) (k : Nat) :
    cs.foldl (fun n c => n + c.utf8Size) k = k + cs.length := by
  induction cs generalizing k with
  | nil => rfl
  | cons c cs ih =>
    rw [List.foldl_cons, ih fun d hd => h d (by simp [hd]), h c (by simp), List.length_cons]
    omega

theorem utf8Size_digitChar {d : Nat} (h : d < 10) : d.digitChar.utf8Size = 1 := by
  have hall : ∀ d : Fin 10, d.val.digitChar.utf8Size = 1 := by decide
  exact hall ⟨d, h⟩

theorem utf8Size_writeDate (d : Date) : ∀ c ∈ writeDate d, c.utf8Size = 1 := by
  have hy := d.year_mem
  have hm := d.month_mem
  have hd := d.day_mem
  have hlast := daysInMonth_le d.year d.month
  have hpad : ∀ {width n : Nat} {c : Char}, 0 < width → n < 10 ^ width → c ∈ pad width n →
      c.utf8Size = 1 := by
    intro width n c hw hn hc
    obtain ⟨k, hk, rfl⟩ := mem_pad hw hn hc
    exact utf8Size_digitChar hk
  intro c hc
  simp only [writeDate, List.mem_append, List.mem_cons] at hc
  rcases hc with (hc | rfl | hc) | rfl | hc
  · exact hpad (by omega) (by omega) hc
  · rfl
  · exact hpad (by omega) (by omega) hc
  · rfl
  · exact hpad (by omega) (by omega) hc

theorem readDate_writeDate (d : Date) : readDate (writeDate d) = some d := by
  have hread := readDateIn_writeDate 10 d []
  rw [List.append_nil] at hread
  rw [readDate, sizes_of_ascii (utf8Size_writeDate d), length_writeDate]
  exact hread

/-- A time of day is written without the signs that an offset begins with. -/
theorem not_isZoneStart_pad {width n : Nat} (hw : 0 < width) (h : n < 10 ^ width) {c : Char}
    (hc : c ∈ pad width n) : isZoneStart c = false := by
  obtain ⟨d, hd, rfl⟩ := mem_pad hw h hc
  have hall : ∀ d : Fin 10, isZoneStart d.val.digitChar = false := by decide
  exact hall ⟨d, hd⟩

/-- Hours and minutes, then the seconds and the microseconds if they are written. -/
def clock (hour minute : Nat) (rest : List Char) : List Char :=
  pad 2 hour ++ ':' :: (pad 2 minute ++ rest)

def seconds (second micro : Nat) : List Char :=
  ':' :: (pad 2 second ++ if micro = 0 then [] else '.' :: pad 6 micro)

theorem pad_ne_nil {width n : Nat} (hw : 0 < width) (h : n < 10 ^ width) (cs : List Char) :
    pad width n ++ cs ≠ [] := by
  intro he
  have hl := congrArg List.length he
  rw [List.length_append, length_pad hw h, List.length_nil] at hl
  omega

theorem readParts_colon {n : Nat} (hn : n < 100) (followed : Bool) {colons : Bool} {left : Nat}
    (hc : left = 2 ∨ colons = true) (parts : List Nat) {r : List Char} (hr : r ≠ []) :
    readParts followed colons (left + 1) parts (pad 2 n ++ ':' :: r) =
      readParts followed true left (parts ++ [n]) r := by
  rw [readParts, readDigits_pad (by omega) (by omega)]
  rcases hc with rfl | rfl
  · simp [hr]
  · simp [hr]

theorem readParts_end {n : Nat} (hn : n < 100) (followed colons : Bool) (left : Nat)
    (parts : List Nat) : readParts followed colons (left + 1) parts (pad 2 n) =
      some ⟨(parts ++ [n])[0]?.getD 0, (parts ++ [n])[1]?.getD 0, (parts ++ [n])[2]?.getD 0, 0,
        followed⟩ := by
  have hread : readDigits 2 0 (pad 2 n ++ []) = some (n, []) :=
    readDigits_pad (by omega) (by omega) []
  rw [List.append_nil] at hread
  rw [readParts, hread]

theorem readFraction_pad {micro : Nat} (h : micro < 1000000) (followed : Bool)
    (hour minute second : Nat) :
    readFraction followed hour minute second (pad 6 micro) =
      some ⟨hour, minute, second, micro, followed⟩ := by
  have hread : readDigits 6 0 (pad 6 micro ++ []) = some (micro, []) :=
    readDigits_pad (by omega) (by omega) []
  rw [List.append_nil] at hread
  rw [readFraction, length_pad (by omega) (by omega), Nat.min_self, hread]
  simp

theorem readParts_fraction {n micro : Nat} (hn : n < 100) (hu : micro < 1000000)
    (followed : Bool) (hour minute : Nat) :
    readParts followed true 1 [hour, minute] (pad 2 n ++ '.' :: pad 6 micro) =
      some ⟨hour, minute, n, micro, followed⟩ := by
  have hnil : pad 6 micro ≠ [] := by
    have h : pad 6 micro ++ [] ≠ [] := pad_ne_nil (by omega) (by omega) []
    rwa [List.append_nil] at h
  rw [readParts, readDigits_pad (by omega) (by omega)]
  simp [hnil, readFraction_pad hu]

theorem readClock_short {hour minute : Nat} (hh : hour < 100) (hm : minute < 100)
    (followed : Bool) :
    readClock followed (clock hour minute []) = some ⟨hour, minute, 0, 0, followed⟩ := by
  rw [readClock, clock,
    readParts_colon hh followed (.inl rfl) [] (pad_ne_nil (by omega) (by omega) _),
    List.append_nil, readParts_end hm]
  rfl

theorem readClock_seconds {hour minute second micro : Nat} (hh : hour < 100) (hm : minute < 100)
    (hs : second < 100) (hu : micro < 1000000) (followed : Bool) :
    readClock followed (clock hour minute (seconds second micro)) =
      some ⟨hour, minute, second, micro, followed⟩ := by
  rw [readClock, clock,
    readParts_colon hh followed (.inl rfl) [] (pad_ne_nil (by omega) (by omega) _),
    seconds, readParts_colon hm followed (.inr rfl) _ (pad_ne_nil (by omega) (by omega) _)]
  by_cases hz : micro = 0
  · rw [if_pos hz, List.append_nil, readParts_end hs, hz]
    rfl
  · rw [if_neg hz]
    exact readParts_fraction hs hu followed hour minute

/-- The parts of an offset, all of them natural. -/
theorem writeOffset_eq (o : Offset) :
    writeOffset o = (if o.micros < 0 then '-' else '+') ::
      clock (o.micros.natAbs / 1000000 / 3600) (o.micros.natAbs / 1000000 / 60 % 60)
        (if o.micros.natAbs % 60000000 = 0 then []
          else seconds (o.micros.natAbs / 1000000 % 60) (o.micros.natAbs % 1000000)) := by
  generalize hn : o.micros.natAbs = n
  unfold writeOffset clock seconds
  simp only [hn]
  by_cases hmicro : n % 1000000 = 0
  · by_cases hsecond : n / 1000000 % 60 = 0
    · have hall : n % 60000000 = 0 := by omega
      simp [hmicro, hsecond, hall]
    · have hall : ¬ n % 60000000 = 0 := by omega
      simp [hmicro, hsecond, hall]
  · have hall : ¬ n % 60000000 = 0 := by omega
    simp [hmicro, hall]

theorem readClock_offset (o : Offset) :
    readClock false (writeOffset o).tail =
      some ⟨o.micros.natAbs / 1000000 / 3600, o.micros.natAbs / 1000000 / 60 % 60,
        o.micros.natAbs / 1000000 % 60, o.micros.natAbs % 1000000, false⟩ := by
  have hw := o.within
  rw [writeOffset_eq, List.tail_cons]
  split
  · next hall =>
    have hsecond : o.micros.natAbs / 1000000 % 60 = 0 := by omega
    have hmicro : o.micros.natAbs % 1000000 = 0 := by omega
    rw [readClock_short (by omega) (by omega), hsecond, hmicro]
  · exact readClock_seconds (by omega) (by omega) (by omega) (by omega) false

end Iso

/-- What is read back of an offset. -/
def Offset.kept (o : Offset) : Offset :=
  if o.micros.natAbs < 1000000 then ⟨0, by decide⟩ else o

/-- What is read back of a point in time. -/
def DateTime.kept (t : DateTime) : DateTime := { t with offset := t.offset.map Offset.kept }

/-- A point in time whose offset, if it has one, is zero or a second or more either way. -/
def DateTime.Lasting (t : DateTime) : Prop :=
  ∀ o, t.offset = some o → o.micros = 0 ∨ 1000000 ≤ o.micros.natAbs

theorem Offset.kept_eq_iff {o : Offset} :
    o.kept = o ↔ o.micros = 0 ∨ 1000000 ≤ o.micros.natAbs := by
  unfold kept
  by_cases hsmall : o.micros.natAbs < 1000000
  · have hzero : (⟨0, by decide⟩ : Offset) = o ↔ o.micros = 0 := by
      cases o
      simp [eq_comm]
    rw [if_pos hsmall, hzero]
    omega
  · rw [if_neg hsmall]
    exact iff_of_true rfl (.inr (by omega))

theorem DateTime.kept_eq_iff {t : DateTime} : t.kept = t ↔ t.Lasting := by
  obtain ⟨d, hour, minute, second, micro, offset⟩ := t
  cases offset with
  | none => simp [kept, Lasting]
  | some o => simp [kept, Lasting, ← Offset.kept_eq_iff]

namespace Iso

theorem ofMicros?_of_parts (o : Offset) {sign : Char}
    (hsign : sign = if o.micros < 0 then '-' else '+') :
    Offset.ofMicros? (if o.micros.natAbs / 1000000 = 0 then 0
      else if sign = '-' then
        -(((o.micros.natAbs / 1000000 : Nat) : Int) * 1000000 + (o.micros.natAbs % 1000000 : Nat))
      else ((o.micros.natAbs / 1000000 : Nat) : Int) * 1000000 + (o.micros.natAbs % 1000000 : Nat)) =
      some o.kept := by
  have hw := o.within
  have hparts : ((o.micros.natAbs / 1000000 : Nat) : Int) * 1000000 +
      (o.micros.natAbs % 1000000 : Nat) = o.micros.natAbs := by omega
  rw [hparts, Offset.kept]
  by_cases hsmall : o.micros.natAbs < 1000000
  · rw [if_pos (by omega), if_pos hsmall]
    rfl
  · have hmicros : (if sign = '-' then -(o.micros.natAbs : Int) else o.micros.natAbs) = o.micros := by
      rw [hsign]
      by_cases hneg : o.micros < 0
      · rw [if_pos hneg, if_pos rfl]
        omega
      · rw [if_neg hneg, if_neg (by decide)]
        omega
    rw [if_neg (by omega), if_neg hsmall, hmicros, Offset.ofMicros?, dif_pos hw]

/-- The text of a time of day, without the offset. -/
def day (t : DateTime) : List Char := clock t.hour t.minute (seconds t.second t.micro)

theorem writeTime_eq (t : DateTime) :
    writeTime t = day t ++ (t.offset.map writeOffset).getD [] := by
  unfold writeTime day clock seconds
  cases t.offset <;> simp

theorem not_isZoneStart_day (t : DateTime) : ∀ c ∈ day t, isZoneStart c = false := by
  have hh := t.hour_lt
  have hm := t.minute_lt
  have hs := t.second_lt
  have hu := t.micro_lt
  intro c hc
  simp only [day, clock, seconds, List.mem_append, List.mem_cons] at hc
  rcases hc with hc | rfl | hc | rfl | hc | hc
  · exact not_isZoneStart_pad (by omega) (by omega) hc
  · rfl
  · exact not_isZoneStart_pad (by omega) (by omega) hc
  · rfl
  · exact not_isZoneStart_pad (by omega) (by omega) hc
  · split at hc
    · cases hc
    · rcases List.mem_cons.mp hc with rfl | hc
      · rfl
      · exact not_isZoneStart_pad (by omega) (by omega) hc

theorem readTime_writeTime (t : DateTime) :
    readTime (writeTime t) = some (⟨t.hour, t.minute, t.second, t.micro, t.offset.isSome⟩,
      t.offset.map Offset.kept) := by
  have hday : ∀ followed, readClock followed (day t) =
      some ⟨t.hour, t.minute, t.second, t.micro, followed⟩ := fun followed => by
    have hh := t.hour_lt
    have hm := t.minute_lt
    have hs := t.second_lt
    exact readClock_seconds (by omega) (by omega) (by omega) t.micro_lt followed
  have hplain : ∀ c ∈ day t, (!isZoneStart c) = true := fun c hc => by
    rw [not_isZoneStart_day t c hc]
    rfl
  rw [writeTime_eq, readTime]
  cases ho : t.offset with
  | none =>
    simp only [Option.map_none, Option.getD_none]
    rw [List.takeWhile_append_of_pos hplain, List.dropWhile_append_of_pos hplain]
    simp only [List.takeWhile_nil, List.dropWhile_nil, List.append_nil, hday]
    rfl
  | some o =>
    obtain ⟨sign, zone, hwrite⟩ : ∃ sign zone, writeOffset o = sign :: zone :=
      ⟨_, _, writeOffset_eq o⟩
    have hsign : sign = if o.micros < 0 then '-' else '+' :=
      (List.cons.inj (hwrite.symm.trans (writeOffset_eq o))).1
    have hstart : isZoneStart sign = true := by
      rw [hsign]
      split <;> rfl
    have hzulu : sign ≠ 'Z' := by
      rw [hsign]
      split <;> decide
    have hzone := readClock_offset o
    rw [hwrite, List.tail_cons] at hzone
    simp only [Option.map_some, Option.getD_some, hwrite]
    rw [List.takeWhile_append_of_pos hplain, List.dropWhile_append_of_pos hplain]
    simp only [List.takeWhile_cons, List.dropWhile_cons, hstart, Bool.not_true, Bool.false_eq_true,
      if_false, List.append_nil, hday, hzone, hzulu, Option.bind_eq_bind, Option.bind_some]
    have hseconds : o.micros.natAbs / 1000000 / 3600 * 3600 +
        o.micros.natAbs / 1000000 / 60 % 60 * 60 + o.micros.natAbs / 1000000 % 60 =
        o.micros.natAbs / 1000000 := by omega
    rw [hseconds, ofMicros?_of_parts o hsign]
    rfl

theorem dateLength_writeDateTime (t : DateTime) : dateLength (writeDateTime 'T' t) = 10 := by
  have hy := t.date.year_mem
  have hm := t.date.month_mem
  have htext : writeDateTime 'T' t = pad 4 t.date.year ++
      '-' :: (pad 2 t.date.month ++ '-' :: (pad 2 t.date.day ++ 'T' :: writeTime t)) := by
    simp [writeDateTime, writeDate]
  have hlength : (writeDateTime 'T' t).length ≠ 7 := by
    rw [writeDateTime, List.length_append, length_writeDate, List.length_cons]
    omega
  have hyear : (pad 4 t.date.year).length = 4 := length_pad (by omega) (by omega)
  have hdash : (writeDateTime 'T' t)[4]? = some '-' := by
    rw [htext, List.getElem?_append_right (by omega), hyear]
    rfl
  have hmonth : (writeDateTime 'T' t)[5]? ≠ some 'W' := by
    have hhead : ((pad 2 t.date.month ++ '-' :: (pad 2 t.date.day ++ 'T' :: writeTime t)).head? ==
        some 'W') = false := head?_pad_ne (by omega) (by omega) (by decide) _
    rw [htext, List.getElem?_append_right (by omega), hyear]
    simpa [List.head?_eq_getElem?] using hhead
  rw [dateLength, if_neg hlength, if_pos hdash, if_neg hmonth]

theorem readDateTime_writeDateTime (t : DateTime) :
    readDateTime (writeDateTime 'T' t) = some t.kept := by
  have hlength : (writeDate t.date).length = 10 := length_writeDate t.date
  have hlong : (writeDateTime 'T' t).length = 11 + (writeTime t).length := by
    rw [writeDateTime, List.length_append, hlength, List.length_cons]
    omega
  rw [readDateTime, dateLength_writeDateTime, if_neg (by omega)]
  have hread := readDateIn_writeDate 10 t.date ('T' :: writeTime t)
  have hdrop : (writeDateTime 'T' t).drop 10 = 'T' :: writeTime t := by
    rw [writeDateTime, ← hlength, List.drop_left]
  rw [hdrop, writeDateTime, hread]
  simp only [Option.bind_eq_bind, Option.bind_some, readTime_writeTime, DateTime.ofFields?]
  rw [dif_pos t.hour_lt, dif_pos t.minute_lt, dif_pos t.second_lt, dif_pos t.micro_lt]
  rfl

theorem length_clock {hour minute : Nat} (hh : hour < 100) (hm : minute < 100) (rest : List Char) :
    (clock hour minute rest).length = 5 + rest.length := by
  have hhour : (pad 2 hour).length = 2 := length_pad (by omega) (by omega)
  have hminute : (pad 2 minute).length = 2 := length_pad (by omega) (by omega)
  simp only [clock, List.length_append, List.length_cons, hhour, hminute]
  omega

theorem length_seconds_le {second micro : Nat} (hs : second < 100) (hu : micro < 1000000) :
    (seconds second micro).length ≤ 10 := by
  have hsecond : (pad 2 second).length = 2 := length_pad (by omega) (by omega)
  have hmicro : (pad 6 micro).length = 6 := length_pad (by omega) (by omega)
  unfold seconds
  split <;> simp [hsecond, hmicro]

theorem length_writeOffset_le (o : Offset) : (writeOffset o).length ≤ 16 := by
  have hw := o.within
  rw [writeOffset_eq, List.length_cons, length_clock (by omega) (by omega)]
  split
  · simp
  · have hseconds : (seconds (o.micros.natAbs / 1000000 % 60)
        (o.micros.natAbs % 1000000)).length ≤ 10 := length_seconds_le (by omega) (by omega)
    omega

theorem length_writeDateTime_le (t : DateTime) : (writeDateTime 'T' t).length ≤ 42 := by
  have hdate := length_writeDate t.date
  have hh := t.hour_lt
  have hm := t.minute_lt
  have hs := t.second_lt
  have hu := t.micro_lt
  have hseconds : (seconds t.second t.micro).length ≤ 10 := length_seconds_le (by omega) (by omega)
  have hday : (day t).length ≤ 15 := by
    rw [day, length_clock (by omega) (by omega)]
    omega
  have hoffset : ((t.offset.map writeOffset).getD []).length ≤ 16 := by
    cases t.offset with
    | none => exact Nat.zero_le _
    | some o => exact length_writeOffset_le o
  rw [writeDateTime, writeTime_eq, List.length_append, List.length_cons, List.length_append, hdate]
  omega

end Iso

theorem Date.ofIso?_iso (d : Date) : Date.ofIso? d.iso = some d := by
  rw [Date.ofIso?, Date.iso, String.toList_ofList, Iso.readDate_writeDate]

theorem DateTime.ofIso?_iso (t : DateTime) : DateTime.ofIso? t.iso = some t.kept := by
  rw [DateTime.ofIso?, DateTime.iso, String.toList_ofList, Iso.readDateTime_writeDateTime]

end DocStore
