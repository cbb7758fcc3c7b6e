import DocStore.Proofs.Wire.Limits

/-! Nothing is lost on the way: what travels comes back with its tuples as lists, and what has no
form of its own is refused, however deep it stands. -/

namespace DocStore

open Value

mutual

/-- A value with lists in place of its tuples. -/
def Value.listed : Value → Value
  | list xs => list (listedItems xs)
  | tuple xs => list (listedItems xs)
  | dict ps => dict (listedEntries ps)
  | v => v
termination_by structural x => x

def Value.listedItems : List Value → List Value
  | [] => []
  | x :: xs => listed x :: listedItems xs
termination_by structural x => x

def Value.listedEntries : Entries → Entries
  | [] => []
  | p :: ps => listedEntry p :: listedEntries ps
termination_by structural x => x

def Value.listedEntry : Value × Value → Value × Value
  | (k, v) => (k, listed v)
termination_by structural x => x

end

theorem Value.listedItems_eq (xs : List Value) : listedItems xs = xs.map listed := by
  induction xs with
  | nil => rfl
  | cons x xs ih => rw [listedItems, ih, List.map_cons]

theorem Value.listedEntries_eq (ps : Entries) :
    listedEntries ps = ps.map fun p => (p.1, listed p.2) := by
  induction ps with
  | nil => rfl
  | cons p ps ih => rw [listedEntries, ih, List.map_cons, listedEntry]

/-- A value stands in another, as a part of it at any depth. -/
inductive Value.Inside (w : Value) : Value → Prop
  | here : Inside w w
  | list {xs : List Value} {x : Value} (hx : x ∈ xs) (h : Inside w x) : Inside w (list xs)
  | tuple {xs : List Value} {x : Value} (hx : x ∈ xs) (h : Inside w x) : Inside w (tuple xs)
  | key {ps : Entries} {p : Value × Value} (hp : p ∈ ps) (h : Inside w p.1) :
      Inside w (dict ps)
  | value {ps : Entries} {p : Value × Value} (hp : p ∈ ps) (h : Inside w p.2) :
      Inside w (dict ps)

namespace Wire

variable {levels : Nat} {v w : Value} {bs : List UInt8}

theorem Plain.listed_eq (h : Plain v) : v.listed = v := by
  cases h <;> rfl

theorem Sendable.received_eq (h : Sendable levels v) : v.received = v.listed := by
  induction h with
  | plain hv => rw [hv.received_eq, hv.listed_eq]
  | @list _ xs _ _ ih =>
    rw [Value.received, Value.listed, receivedList_eq, listedItems_eq, List.map_congr_left ih]
  | @tuple _ xs _ _ ih =>
    rw [Value.received, Value.listed, receivedList_eq, listedItems_eq, List.map_congr_left ih]
  | @dict _ ps _ _ _ _ ih =>
    have hmap : ps.map (fun p => (p.1, p.2.received)) = ps.map fun p => (p.1, p.2.listed) :=
      List.map_congr_left fun p hp => by rw [ih p hp]
    rw [Value.received, Value.listed, receivedEntries_eq, listedEntries_eq, hmap]

/-! What is refused -/

/-- Values that have no form: sets, members of enumerations, records and other objects, and numbers
that are too large for any width. -/
inductive Unpackable : Value → Prop
  | set (frozen : Bool) (xs : List Value) : Unpackable (.set frozen xs)
  | member (owner name : String) (value : Value) : Unpackable (.member owner name value)
  | record (cls : String) (fields : Entries) : Unpackable (.record cls fields)
  | cls (c : ClassRef) : Unpackable (.cls c)
  | generic (name args : String) : Unpackable (.generic name args)
  | handle : Unpackable .handle
  | int {n : Int} (h : n < -(2 ^ 63) ∨ 2 ^ 64 ≤ n) : Unpackable (.int n)

theorem Unpackable.not_packed (h : Unpackable w) : packAt levels w ≠ .ok bs := by
  intro hw
  have hnone : packScalar w = none := by
    cases h with
    | int h => exact packInt_of_outside h
    | _ => rfl
  have hc : isContainer w = false := by
    cases h <;> rfl
  have hsome := (packAt_scalar hc hw).2
  rw [hnone] at hsome
  cases hsome

/-- Writing that fails only in the ways that packing can. -/
def Packing (x : Except Error (List UInt8)) : Prop :=
  ∀ e, x = .error e → ∃ f, e = .unserializable (.pack f)

theorem packing_ok (bs : List UInt8) : Packing (.ok bs) := by
  intro e h
  cases h

theorem packing_error (f : PackFault) : Packing (.error (.unserializable (.pack f))) := by
  intro e h
  cases h
  exact ⟨f, rfl⟩

theorem Packing.withHead {x : Except Error (List UInt8)} (h : Packing x) (v : Value)
    (start : Option (List UInt8)) : Packing (withHead v start x) := by
  cases start with
  | none => exact packing_error _
  | some head =>
    cases x with
    | ok bs => exact packing_ok _
    | error e => exact h

theorem Packing.followedBy {x y : Except Error (List UInt8)} (hx : Packing x) (hy : Packing y) :
    Packing (followedBy x y) := by
  cases x with
  | error e => exact hx
  | ok bs =>
    cases y with
    | ok cs => exact packing_ok _
    | error e => exact hy

mutual

theorem packing_packAt (levels : Nat) (v : Value) : Packing (packAt levels v) := by
  by_cases hlevels : levels = 0
  · subst hlevels
    cases v <;> exact packing_error .depth
  · cases v with
    | list xs =>
      rw [packAt, if_neg hlevels]
      exact (packing_packItems (levels - 1) xs).withHead _ _
    | tuple xs =>
      rw [packAt, if_neg hlevels]
      exact (packing_packItems (levels - 1) xs).withHead _ _
    | dict ps =>
      rw [packAt, if_neg hlevels]
      exact (packing_packEntries (levels - 1) ps).withHead _ _
    | _ =>
      rw [packAt_eq rfl, if_neg hlevels]
      exact (packing_ok []).withHead _ _

theorem packing_packItems (levels : Nat) (xs : List Value) : Packing (packItems levels xs) := by
  cases xs with
  | nil => exact packing_ok []
  | cons x xs =>
    rw [packItems]
    exact (packing_packAt levels x).followedBy (packing_packItems levels xs)

theorem packing_packEntries (levels : Nat) (ps : Entries) : Packing (packEntries levels ps) := by
  cases ps with
  | nil => exact packing_ok []
  | cons p ps =>
    rw [packEntries]
    exact (packing_packEntry levels p).followedBy (packing_packEntries levels ps)

theorem packing_packEntry (levels : Nat) (p : Value × Value) : Packing (packEntry levels p) := by
  cases p with
  | mk k v =>
    rw [packEntry]
    exact (packing_packAt levels k).followedBy (packing_packAt levels v)

end

theorem packAt_item {xs : List Value} {x : Value} (hx : x ∈ xs)
    (h : packItems levels xs = .ok bs) : ∃ cs, packAt levels x = .ok cs := by
  induction xs generalizing bs with
  | nil => cases hx
  | cons y xs ih =>
    rw [packItems] at h
    obtain ⟨first, second, hfirst, hsecond, _⟩ := followedBy_eq_ok h
    rcases List.mem_cons.mp hx with rfl | hx
    · exact ⟨first, hfirst⟩
    · exact ih hx hsecond

theorem packAt_entry {ps : Entries} {p : Value × Value} (hp : p ∈ ps)
    (h : packEntries levels ps = .ok bs) :
    (∃ cs, packAt levels p.1 = .ok cs) ∧ ∃ cs, packAt levels p.2 = .ok cs := by
  induction ps generalizing bs with
  | nil => cases hp
  | cons q ps ih =>
    rw [packEntries] at h
    obtain ⟨first, second, hfirst, hsecond, _⟩ := followedBy_eq_ok h
    rcases List.mem_cons.mp hp with rfl | hp
    · rw [packEntry] at hfirst
      obtain ⟨key, value, hkey, hvalue, _⟩ := followedBy_eq_ok hfirst
      exact ⟨⟨key, hkey⟩, value, hvalue⟩
    · exact ih hp hsecond

/-- Where a value is written, so is all that stands in it. -/
theorem packAt_inside (h : w.Inside v) (hv : packAt levels v = .ok bs) :
    ∃ k cs, packAt k w = .ok cs := by
  induction h generalizing levels bs with
  | here => exact ⟨levels, bs, hv⟩
  | list hx _ ih =>
    obtain ⟨_, _, _, _, hitems, _⟩ := packAt_list hv
    obtain ⟨cs, hcs⟩ := packAt_item hx hitems
    exact ih hcs
  | tuple hx _ ih =>
    obtain ⟨_, _, _, _, hitems, _⟩ := packAt_list (packAt_tuple.mp hv)
    obtain ⟨cs, hcs⟩ := packAt_item hx hitems
    exact ih hcs
  | key hp _ ih =>
    obtain ⟨_, _, _, _, hentries, _⟩ := packAt_dict hv
    obtain ⟨⟨cs, hcs⟩, _⟩ := packAt_entry hp hentries
    exact ih hcs
  | value hp _ ih =>
    obtain ⟨_, _, _, _, hentries, _⟩ := packAt_dict hv
    obtain ⟨_, cs, hcs⟩ := packAt_entry hp hentries
    exact ih hcs

theorem pack_of_unpackable (h : w.Inside v) (hw : Unpackable w) :
    ∃ f, pack v = .error (.unserializable (.pack f)) := by
  cases hv : pack v with
  | ok bs =>
    obtain ⟨k, cs, hcs⟩ := packAt_inside h hv
    exact absurd hcs hw.not_packed
  | error e =>
    obtain ⟨f, rfl⟩ := packing_packAt maxDepth v e hv
    exact ⟨f, rfl⟩

/-- What travels comes back as it was but for its tuples; what holds a value without a form, at any
depth, is refused. -/
theorem lossless (v : Value) :
    (Sendable maxDepth v → ∃ bs, pack v = .ok bs ∧ unpack bs = .ok v.listed) ∧
      ∀ w : Value, w.Inside v → Unpackable w →
        ∃ f, pack v = .error (.unserializable (.pack f)) := by
  refine ⟨fun h => ?_, fun w hin hw => pack_of_unpackable hin hw⟩
  obtain ⟨bs, hbs⟩ := h.packAt
  have hread := unpack_pack h.legible hbs
  rw [h.received_eq] at hread
  exact ⟨bs, hbs, hread⟩

def newYear (offset : Offset) : DateTime :=
  { DateTime.midnight (Date.startOfYear 2024 (by decide)) with offset := some offset }

/-- A document with a tuple, a key of bytes and times an hour to the west. -/
def parcel : Value :=
  dict [(str "at", datetime (newYear ⟨-3600000000, by decide⟩)),
    (bytes [0], tuple [int (2 ^ 64 - 1), bool true, null, uuid default]),
    (str "like", pattern ⟨.text "^a", { Regex.Options.none with ignoreCase := true }⟩)]

def crate : Value := list [parcel, tuple [set false [int 1]]]

theorem compiled_parcel :
    Pattern.Compiled ⟨.text "^a", { Regex.Options.none with ignoreCase := true }⟩ :=
  ⟨{ Regex.Options.none with ignoreCase := true }, .text "^a", rfl⟩

theorem sendable_parcel : Sendable maxDepth parcel := by
  have htuple : Sendable 511 (tuple [int (2 ^ 64 - 1), bool true, null, uuid default]) := by
    refine .tuple (by simp) ?_
    simp only [List.forall_mem_cons]
    exact ⟨.plain (.int (by decide) (by decide)), .plain (.bool true), .plain .null,
      .plain (.uuid default), by simp⟩
  have hlasting : (newYear ⟨-3600000000, by decide⟩).Lasting := by
    simp [DateTime.Lasting, newYear]
  refine .dict (by simp) ?_ (by simp) ?_
  · simp only [List.forall_mem_cons]
    exact ⟨⟨rfl, .str (short (by decide))⟩, ⟨rfl, .bytes (by simp)⟩,
      ⟨rfl, .str (short (by decide))⟩, by simp⟩
  · simp only [List.forall_mem_cons]
    exact ⟨.plain (.datetime hlasting), htuple,
      .plain (.pattern compiled_parcel (by decide)), by simp⟩

theorem inside_crate : (set false [int 1]).Inside crate :=
  .list (x := tuple [set false [int 1]]) (by simp) (.tuple (by simp) .here)

theorem lossless_parcel : Sendable maxDepth parcel ∧
    (∃ bs, pack parcel = .ok bs ∧ unpack bs = .ok parcel.listed) ∧
    (set false [int 1]).Inside crate ∧ ∃ f, pack crate = .error (.unserializable (.pack f)) :=
  ⟨sendable_parcel, (lossless parcel).1 sendable_parcel, inside_crate,
    (lossless crate).2 (set false [int 1]) inside_crate (.set false [int 1])⟩

/-- An offset of less than a second comes back as zero, which is another point in time. -/
theorem offset_lost : ∃ bs w, pack (datetime (newYear ⟨5, by decide⟩)) = .ok bs ∧
    unpack bs = .ok w ∧ equal w (datetime (newYear ⟨5, by decide⟩)).listed = false := by
  have hpack : ∃ bs, pack (datetime (newYear ⟨5, by decide⟩)) = .ok bs := ⟨_, rfl⟩
  obtain ⟨bs, hbs⟩ := hpack
  exact ⟨bs, _, hbs, unpack_pack (.datetime _) hbs, by decide⟩

end Wire

end DocStore
