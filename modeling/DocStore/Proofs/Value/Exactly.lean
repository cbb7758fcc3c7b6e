import DocStore.Value.Equal

/-! Equality that tells the classes of values apart at every depth. Plain equality asks for less: it
takes a boolean for a number, one kind of number for another, a tuple for an extension value, and a
set for one that cannot change. These are all its confusions. -/

namespace DocStore

namespace Value

mutual

/-- Whether values are equal and of the same classes at every depth. -/
def exactly : Value → Value → Bool
  | list xs, b => match b with | list ys => exactlyEach xs ys | _ => false
  | tuple xs, b => match b with | tuple ys => exactlyEach xs ys | _ => false
  | dict ps, b =>
    match b with
    | dict qs => ps.length == qs.length && exactlyWithin ps qs
    | _ => false
  | set frozen xs, b =>
    match b with
    | set frozen' ys => frozen == frozen' && xs.length == ys.length && exactlyAmong xs ys
    | _ => false
  | record c fs, b => match b with | record d gs => c == d && exactlyFields fs gs | _ => false
  | a, b => a.classOf == b.classOf && equal a b
termination_by structural x => x

def exactlyEach : List Value → List Value → Bool
  | [], [] => true
  | x :: xs, y :: ys => exactly x y && exactlyEach xs ys
  | _, _ => false
termination_by structural x => x

/-- Every entry is in the other dictionary. -/
def exactlyWithin : Entries → Entries → Bool
  | [], _ => true
  | p :: ps, qs => qs.any (exactlyEntry p) && exactlyWithin ps qs
termination_by structural x => x

def exactlyEntry : Value × Value → Value × Value → Bool
  | (k, v), q => exactly k q.1 && exactly v q.2
termination_by structural x => x

def exactlyAmong : List Value → List Value → Bool
  | [], _ => true
  | x :: xs, ys => ys.any (exactly x) && exactlyAmong xs ys
termination_by structural x => x

def exactlyFields : Entries → Entries → Bool
  | [], [] => true
  | p :: ps, q :: qs => exactlyEntry p q && exactlyFields ps qs
  | _, _ => false
termination_by structural x => x

end

/-- Values of different classes that are equal stand at the same place in both. -/
inductive Confused : Value → Value → Prop
  | number {a b : Value} (hc : a.classOf ≠ b.classOf) (h : numberEqual false a b = true) :
      Confused a b
  | packed {xs : List Value} {code : Int} {data : List UInt8}
      (h : equal (tuple xs) (ext code data) = true) : Confused (tuple xs) (ext code data)
  | unpacked {xs : List Value} {code : Int} {data : List UInt8}
      (h : equal (ext code data) (tuple xs) = true) : Confused (ext code data) (tuple xs)
  | frozen {f g : Bool} {xs ys : List Value} (hf : f ≠ g)
      (h : equal (set f xs) (set g ys) = true) : Confused (set f xs) (set g ys)
  | item {xs ys : List Value} {p : Value × Value} (hp : p ∈ xs.zip ys) (h : Confused p.1 p.2) :
      Confused (list xs) (list ys)
  | component {xs ys : List Value} {p : Value × Value} (hp : p ∈ xs.zip ys)
      (h : Confused p.1 p.2) : Confused (tuple xs) (tuple ys)
  | key {ps qs : Entries} {p q : Value × Value} (hp : p ∈ ps) (hq : q ∈ qs)
      (h : Confused p.1 q.1) : Confused (dict ps) (dict qs)
  | entry {ps qs : Entries} {p q : Value × Value} (hp : p ∈ ps) (hq : q ∈ qs)
      (hk : equal p.1 q.1 = true) (h : Confused p.2 q.2) : Confused (dict ps) (dict qs)
  | element {f g : Bool} {xs ys : List Value} {x y : Value} (hx : x ∈ xs) (hy : y ∈ ys)
      (h : Confused x y) : Confused (set f xs) (set g ys)
  | label {c : String} {fs gs : Entries} {p : (Value × Value) × (Value × Value)}
      (hp : p ∈ fs.zip gs) (h : Confused p.1.1 p.2.1) : Confused (record c fs) (record c gs)
  | field {c : String} {fs gs : Entries} {p : (Value × Value) × (Value × Value)}
      (hp : p ∈ fs.zip gs) (h : Confused p.1.2 p.2.2) : Confused (record c fs) (record c gs)

section Whole

variable {a b : Value} (hx : exactly a b = (a.classOf == b.classOf && equal a b))
include hx

theorem exactly_of_class (hc : a.classOf = b.classOf) (h : equal a b = true) :
    exactly a b = true := by
  rw [hx, h, hc, beq_self_eq_true, Bool.and_self]

/-- Numbers that are equal are confused unless they are of one class. -/
theorem exactly_of_number (he : equal a b = numberEqual false a b) (h : equal a b = true) :
    exactly a b = true ∨ Confused a b := by
  by_cases hc : a.classOf = b.classOf
  · exact .inl (exactly_of_class hx hc h)
  · exact .inr (.number hc (he ▸ h))

end Whole

mutual

theorem exactly_or_confused (a : Value) :
    ∀ b, equal a b = true → exactly a b = true ∨ Confused a b := by
  intro b h
  cases a with
  | bool x => exact exactly_of_number rfl rfl h
  | int x => exact exactly_of_number rfl rfl h
  | float x => exact exactly_of_number rfl rfl h
  | list xs =>
    cases b with
    | list ys =>
      rcases exactlyEach_or_confused xs ys h with hi | ⟨p, hp, hc⟩
      · exact .inl hi
      · exact .inr (.item hp hc)
    | _ => cases h
  | tuple xs =>
    cases b with
    | tuple ys =>
      rcases exactlyEach_or_confused xs ys h with hi | ⟨p, hp, hc⟩
      · exact .inl hi
      · exact .inr (.component hp hc)
    | ext code data => exact .inr (.packed h)
    | _ => cases h
  | dict ps =>
    cases b with
    | dict qs =>
      obtain ⟨hl, hw⟩ := Bool.and_eq_true_iff.mp h
      rcases exactlyWithin_or_confused ps qs hw with hi | ⟨p, hp, q, hq, hc | ⟨hk, hc⟩⟩
      · exact .inl (Bool.and_eq_true_iff.mpr ⟨hl, hi⟩)
      · exact .inr (.key hp hq hc)
      · exact .inr (.entry hp hq hk hc)
    | _ => cases h
  | set f xs =>
    cases b with
    | set g ys =>
      obtain ⟨hl, hw⟩ := Bool.and_eq_true_iff.mp h
      by_cases hf : f = g
      · rcases exactlyAmong_or_confused xs ys hw with hi | ⟨x, hx, y, hy, hc⟩
        · left
          rw [exactly, hf, beq_self_eq_true, Bool.true_and]
          exact Bool.and_eq_true_iff.mpr ⟨hl, hi⟩
        · exact .inr (.element hx hy hc)
      · exact .inr (.frozen hf h)
    | _ => cases h
  | record c fs =>
    cases b with
    | record d gs =>
      obtain ⟨hcd, hw⟩ := Bool.and_eq_true_iff.mp h
      rcases exactlyFields_or_confused fs gs hw with hi | ⟨p, hp, hc | hc⟩
      · exact .inl (Bool.and_eq_true_iff.mpr ⟨hcd, hi⟩)
      · obtain rfl := beq_iff_eq.mp hcd
        exact .inr (.label hp hc)
      · obtain rfl := beq_iff_eq.mp hcd
        exact .inr (.field hp hc)
    | _ => cases h
  | ext code data =>
    cases b with
    | ext code' data' => exact .inl h
    | tuple ys => exact .inr (.unpacked h)
    | _ => cases h
  | member owner name v =>
    cases b with
    | member owner' name' v' =>
      obtain ⟨ho, _⟩ := Bool.and_eq_true_iff.mp h
      exact .inl (exactly_of_class rfl (congrArg ClassRef.enumeration (beq_iff_eq.mp ho)) h)
    | _ => cases h
  | cls c =>
    cases b with
    | cls d =>
      have hcd : cls c = cls d := congrArg cls (beq_iff_eq.mp h)
      exact .inl (exactly_of_class rfl (congrArg classOf hcd) h)
    | _ => cases h
  | _ =>
    -- what is neither a number nor made of parts is equal to values of its own class only
    cases b with
    | _ => first | exact .inl h | cases h
termination_by structural a

theorem exactlyEach_or_confused (xs : List Value) : ∀ ys, eqvList false xs ys = true →
    exactlyEach xs ys = true ∨ ∃ p ∈ xs.zip ys, Confused p.1 p.2 := by
  intro ys h
  cases xs with
  | nil =>
    cases ys with
    | nil => exact .inl rfl
    | cons y ys => cases h
  | cons x xs =>
    cases ys with
    | nil => cases h
    | cons y ys =>
      obtain ⟨hx, hxs⟩ := Bool.and_eq_true_iff.mp h
      rcases exactly_or_confused x y hx with hx | hx
      · rcases exactlyEach_or_confused xs ys hxs with hi | ⟨p, hp, hc⟩
        · exact .inl (Bool.and_eq_true_iff.mpr ⟨hx, hi⟩)
        · exact .inr ⟨p, List.mem_cons_of_mem _ hp, hc⟩
      · exact .inr ⟨(x, y), List.mem_cons_self, hx⟩
termination_by structural xs

theorem exactlyWithin_or_confused (ps : Entries) : ∀ qs, withinDict false ps qs = true →
    exactlyWithin ps qs = true ∨
      ∃ p ∈ ps, ∃ q ∈ qs, Confused p.1 q.1 ∨ equal p.1 q.1 = true ∧ Confused p.2 q.2 := by
  intro qs h
  cases ps with
  | nil => exact .inl rfl
  | cons p ps =>
    obtain ⟨hp, hps⟩ := Bool.and_eq_true_iff.mp h
    rcases exactlyEntry_or_confused p qs hp with hp | ⟨q, hq, hc⟩
    · rcases exactlyWithin_or_confused ps qs hps with hi | ⟨r, hr, q, hq, hc⟩
      · exact .inl (Bool.and_eq_true_iff.mpr ⟨hp, hi⟩)
      · exact .inr ⟨r, List.mem_cons_of_mem _ hr, q, hq, hc⟩
    · exact .inr ⟨p, List.mem_cons_self, q, hq, hc⟩
termination_by structural ps

theorem exactlyEntry_or_confused (p : Value × Value) : ∀ qs, hasEntry false p qs = true →
    qs.any (exactlyEntry p) = true ∨
      ∃ q ∈ qs, Confused p.1 q.1 ∨ equal p.1 q.1 = true ∧ Confused p.2 q.2 := by
  intro qs h
  cases p with
  | mk k v =>
    rw [hasEntry] at h
    split at h
    · next q hfound =>
      have hq : q ∈ qs := List.mem_of_find?_eq_some hfound
      have hk := List.find?_some hfound
      rcases exactly_or_confused k q.1 hk with hkey | hkey
      · rcases exactly_or_confused v q.2 h with hv | hv
        · exact .inl (List.any_eq_true.mpr ⟨q, hq, Bool.and_eq_true_iff.mpr ⟨hkey, hv⟩⟩)
        · exact .inr ⟨q, hq, .inr ⟨hk, hv⟩⟩
      · exact .inr ⟨q, hq, .inl hkey⟩
    · cases h
termination_by structural p

theorem exactlyAmong_or_confused (xs : List Value) : ∀ ys, withinSet false xs ys = true →
    exactlyAmong xs ys = true ∨ ∃ x ∈ xs, ∃ y ∈ ys, Confused x y := by
  intro ys h
  cases xs with
  | nil => exact .inl rfl
  | cons x xs =>
    obtain ⟨hany, hxs⟩ := Bool.and_eq_true_iff.mp h
    obtain ⟨y, hy, hxy⟩ := List.any_eq_true.mp hany
    rcases exactly_or_confused x y hxy with hx | hx
    · rcases exactlyAmong_or_confused xs ys hxs with hi | ⟨x', hx', hc⟩
      · have hone : ys.any (exactly x) = true := List.any_eq_true.mpr ⟨y, hy, hx⟩
        exact .inl (Bool.and_eq_true_iff.mpr ⟨hone, hi⟩)
      · exact .inr ⟨x', List.mem_cons_of_mem _ hx', hc⟩
    · exact .inr ⟨x, List.mem_cons_self, y, hy, hx⟩
termination_by structural xs

theorem exactlyFields_or_confused (fs : Entries) : ∀ gs, eqvEntries false fs gs = true →
    exactlyFields fs gs = true ∨
      ∃ p ∈ fs.zip gs, Confused p.1.1 p.2.1 ∨ Confused p.1.2 p.2.2 := by
  intro gs h
  cases fs with
  | nil =>
    cases gs with
    | nil => exact .inl rfl
    | cons g gs => cases h
  | cons f fs =>
    cases gs with
    | nil => cases h
    | cons g gs =>
      obtain ⟨hf, hfs⟩ := Bool.and_eq_true_iff.mp h
      rcases exactlyField_or_confused f g hf with hf | hf
      · rcases exactlyFields_or_confused fs gs hfs with hi | ⟨p, hp, hc⟩
        · exact .inl (Bool.and_eq_true_iff.mpr ⟨hf, hi⟩)
        · exact .inr ⟨p, List.mem_cons_of_mem _ hp, hc⟩
      · exact .inr ⟨(f, g), List.mem_cons_self, hf⟩
termination_by structural fs

theorem exactlyField_or_confused (f : Value × Value) : ∀ g, eqvEntry false f g = true →
    exactlyEntry f g = true ∨ Confused f.1 g.1 ∨ Confused f.2 g.2 := by
  intro g h
  cases f with
  | mk k v =>
    obtain ⟨hk, hv⟩ := Bool.and_eq_true_iff.mp h
    rcases exactly_or_confused k g.1 hk with hk | hk
    · rcases exactly_or_confused v g.2 hv with hv | hv
      · exact .inl (Bool.and_eq_true_iff.mpr ⟨hk, hv⟩)
      · exact .inr (.inr hv)
    · exact .inr (.inl hk)
termination_by structural f

end

end Value

end DocStore
