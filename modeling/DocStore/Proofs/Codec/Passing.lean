import DocStore.Codec.Decode
import DocStore.Proofs.Codec.Conforming
import DocStore.Proofs.Document.Entries

/-! What the writer makes of lists, entries and fields, one after the other, and what the reader
makes of that. -/

namespace DocStore

namespace Codec

open Value

variable {cat : Catalog} {s : Schema} {r : Registry}

/-- What is written for a value. -/
def written (cat : Catalog) (s : Schema) (r : Registry) (v : Value) : Value :=
  match (toValue cat s v r).1 with
  | .ok w => w
  | .error _ => null

/-- Writing a value gives no class a name, and what is written is read under the hint as the value,
with no need for new identifiers. -/
structure Returns (cat : Catalog) (s : Schema) (r : Registry) (h : Hint) (v : Value) : Prop where
  wrote : toValue cat s v r = (.ok (written cat s r v), r)
  read : ∀ m, decode cat s r (written cat s r v) h m = (.ok v, m)

theorem Returns.of_run {h : Hint} {v w : Value} (hw : toValue cat s v r = (.ok w, r))
    (hread : ∀ m, decode cat s r w h m = (.ok v, m)) : Returns cat s r h v := by
  have hwritten : written cat s r v = w := by rw [written, hw]
  exact ⟨by rw [hwritten, hw], by rwa [hwritten]⟩

theorem toValue_scalar {v : Value} (hv : v.isScalar = true) : toValue cat s v = pure v := by
  cases v <;> first | rfl | cases hv

theorem decode_of_scalar {v w : Value} {h : Hint} (hlist : ∀ xs, v ≠ list xs)
    (hdict : ∀ ps, v ≠ dict ps) (hw : scalar cat h v = .ok w) (m : Nat) :
    decode cat s r v h m = (.ok w, m) := by
  cases v with
  | list xs => exact absurd rfl (hlist xs)
  | dict ps => exact absurd rfl (hdict ps)
  | _ =>
    rw [decode, hw]
    · rfl
    all_goals simp

section Lists

variable {xs : List Value} {ps : Entries} {f : Value → Value}

theorem toValues_run (h : ∀ x ∈ xs, toValue cat s x r = (.ok (f x), r)) :
    toValues cat s xs r = (.ok (xs.map f), r) := by
  induction xs with
  | nil => rfl
  | cons x xs ih =>
    have hrest := ih fun y hy => h y (by simp [hy])
    rw [toValues, bind_of_ok (h x (by simp)), bind_of_ok hrest]
    rfl

theorem decodeItems_run {h : Hint} (hx : ∀ x ∈ xs, ∀ m, decode cat s r (f x) h m = (.ok x, m))
    (m : Nat) : decodeItems cat s r h (xs.map f) m = (.ok xs, m) := by
  induction xs with
  | nil => rfl
  | cons x xs ih =>
    have hrest := ih fun y hy => hx y (by simp [hy])
    rw [List.map_cons, decodeItems, bind_of_ok (hx x (by simp) m), bind_of_ok hrest]
    rfl

theorem toEntries_run (h : ∀ p ∈ ps, toValue cat s p.2 r = (.ok p.2, r)) :
    toEntries cat s ps r = (.ok ps, r) := by
  induction ps with
  | nil => rfl
  | cons p ps ih =>
    have hrest := ih fun q hq => h q (by simp [hq])
    have hp : toEntry cat s p r = (.ok p, r) := by
      rw [toEntry, bind_of_ok (h p (by simp))]
      rfl
    rw [toEntries, bind_of_ok hp, bind_of_ok hrest]
    rfl

theorem decodeEntry_eq (h : Hint) (p : Value × Value) :
    decodeEntry cat s r h p = decode cat s r p.2 h := by
  cases p
  rw [decodeEntry]

theorem decodeEntries_run (h : ∀ p ∈ ps, ∀ m, decode cat s r p.2 .any m = (.ok p.2, m)) (m : Nat) :
    decodeEntries cat s r ps m = (.ok ps, m) := by
  induction ps with
  | nil => rfl
  | cons p ps ih =>
    have hrest := ih fun q hq => h q (by simp [hq])
    rw [decodeEntries, decodeEntry_eq, bind_of_ok (h p (by simp) m), bind_of_ok hrest]
    rfl

theorem decode_list {h : Hint} {v : Value}
    (hx : ∀ x ∈ xs, ∀ m, decode cat s r (f x) h.item m = (.ok x, m))
    (hv : collect cat h xs = .ok v) (m : Nat) :
    decode cat s r (list (xs.map f)) h m = (.ok v, m) := by
  rw [decode, bind_of_ok (decodeItems_run hx m), hv]
  rfl

theorem distinct_run {kept : List Value} (hkeys : ∀ x ∈ xs, x.hashableIn cat.isFrozen = true)
    (hkept : ∀ x ∈ xs, ∀ k ∈ kept, same x k = false)
    (hdistinct : xs.Pairwise fun x y => same y x = false) :
    distinct cat kept xs = .ok (kept.reverse ++ xs) := by
  induction xs generalizing kept with
  | nil => simp [distinct]
  | cons x xs ih =>
    obtain ⟨hx, hrest⟩ := List.pairwise_cons.mp hdistinct
    have hnew : kept.any (same x) = false := by
      rw [List.any_eq_false]
      exact fun k hk => by simp [hkept x (by simp) k hk]
    have hkept' : ∀ y ∈ xs, ∀ k ∈ x :: kept, same y k = false := by
      intro y hy k hk
      rcases List.mem_cons.mp hk with rfl | hk
      · exact hx y hy
      · exact hkept y (by simp [hy]) k hk
    rw [distinct, hkeys x (by simp), hnew]
    simp only [Bool.not_true, Bool.false_eq_true, if_false]
    rw [ih (fun y hy => hkeys y (by simp [hy])) hkept' hrest]
    simp

end Lists

section Data

variable {v : Value}

theorem toValue_plain (hv : Plain s.classField v) : toValue cat s v r = (.ok v, r) := by
  induction hv with
  | null => rfl
  | scalar hv =>
    rw [toValue_scalar hv]
    rfl
  | list _ ih =>
    rw [toValue, bind_of_ok (toValues_run (f := id) ih), List.map_id]
    rfl
  | dict _ _ ih =>
    rw [toValue, bind_of_ok (toEntries_run ih)]
    rfl

theorem classless {ps : Entries} (hkeys : ∀ p ∈ ps, ∃ n, p.1 = str n ∧ n ≠ s.classField) :
    Entries.get? (str s.classField) ps = none := by
  refine Entries.get?_eq_none_iff.mpr fun p hp he => ?_
  obtain ⟨n, hn, hne⟩ := hkeys p hp
  exact hne (str.inj (hn.symm.trans he))

theorem decode_classless {ps : Entries} {h : Hint}
    (hkeys : ∀ p ∈ ps, ∃ n, p.1 = str n ∧ n ≠ s.classField)
    (hps : ∀ p ∈ ps, ∀ m, decode cat s r p.2 .any m = (.ok p.2, m)) (m : Nat) :
    decode cat s r (dict ps) h m = (.ok (dict ps), m) := by
  rw [decode, classless hkeys]
  dsimp only
  rw [bind_of_ok (decodeEntries_run hps m)]
  rfl

theorem decode_plain (hv : Plain s.classField v) (m : Nat) :
    decode cat s r v .any m = (.ok v, m) := by
  induction hv generalizing m with
  | null => rfl
  | scalar hv => exact decode_of_scalar (by rintro _ rfl; cases hv) (by rintro _ rfl; cases hv) rfl m
  | @list xs _ ih =>
    have h := decode_list (h := .any) (f := id) (v := list xs) ih rfl m
    rwa [List.map_id] at h
  | dict hkeys _ ih => exact decode_classless hkeys ih m

theorem decode_dict {ps : Entries} {h : Hint} (hps : Plain s.classField (dict ps)) (m : Nat) :
    decode cat s r (dict ps) h m = (.ok (dict ps), m) := by
  cases hps with
  | scalar hv => cases hv
  | dict hkeys hvalues => exact decode_classless hkeys (fun p hp => decode_plain (hvalues p hp)) m

end Data

section Records

variable {c : ClassSpec} {n : String} {fs : Entries}

/-- What a record holds under a name. -/
def fieldOf (fs : Entries) (n : String) : Value := (Entries.get? (str n) fs).getD null

/-- The fields that a class's records have in front, in documents. -/
def front (s : Schema) (c : ClassSpec) (n : String) (fs : Entries) : Entries :=
  if c.identifiable then
    [(str s.idField, fieldOf fs "id"), (str s.classField, str n),
      (str s.revisionField, int c.revision)]
  else [(str s.classField, str n)]

def body (cat : Catalog) (s : Schema) (r : Registry) (c : ClassSpec) (fs : Entries) : Entries :=
  (c.fields.filter fun f => !c.identity f).map fun f =>
    (str f.name, written cat s r (fieldOf fs f.name))

theorem header_run (hs : c.identifiable = true → s.Apart) (hc : cat.class? c.name = some c)
    (hn : r.nameOf? c.name = some n) : header cat s c.name fs r = (.ok (front s c n fs), r) := by
  have hname : Naming.className cat c.name r = (.ok n, r) :=
    className_run_iff.mpr (Registry.className_eq_ok_iff.mpr (.inl ⟨hn, rfl⟩))
  unfold header
  rw [hc, bind_of_ok hname]
  cases hi : c.identifiable with
  | false => simp [front, hi, Entries.put, run_pure]
  | true =>
    have h := hs hi
    have hclass : str s.idField ≠ str s.classField := fun he => h.id_class (str.inj he)
    have hid : str s.idField ≠ str s.revisionField := fun he => h.id_revision (str.inj he)
    have hrevision : str s.classField ≠ str s.revisionField := fun he => h.class_revision (str.inj he)
    simp only [front, hi, Option.any_some, if_true, Option.map_some, Option.getD_some, fieldOf]
    rw [Entries.put_past (by exact hclass), Entries.put_past (by exact hid), Entries.put,
      Entries.put_past (by exact hrevision), Entries.put]
    rfl

theorem isIdentity_name (hc : cat.class? c.name = some c) (f : FieldSpec) :
    isIdentity cat c.name (str f.name) = c.identity f := by
  rw [isIdentity, hc, ClassSpec.identity, Option.any_some, equal_str]
  rfl

theorem toFields_run (hc : cat.class? c.name = some c) {g : String → Value} {specs : List FieldSpec}
    (h : ∀ f ∈ specs, toValue cat s (g f.name) r = (.ok (written cat s r (g f.name)), r)) :
    toFields cat s c.name (specs.map fun f => (str f.name, g f.name)) r =
      (.ok ((specs.filter fun f => !c.identity f).map fun f =>
        (str f.name, written cat s r (g f.name))), r) := by
  induction specs with
  | nil => rfl
  | cons f specs ih =>
    have hrest := ih fun f' hf => h f' (by simp [hf])
    rw [List.map_cons, toFields, isIdentity_name hc]
    by_cases hf : c.identity f = true
    · rw [if_pos hf, hrest, List.filter_cons_of_neg (by simp [hf])]
    · have hentry : toEntry cat s (str f.name, g f.name) r =
          (.ok (str f.name, written cat s r (g f.name)), r) := by
        rw [toEntry, bind_of_ok (h f (by simp))]
        rfl
      rw [if_neg hf, bind_of_ok hentry, bind_of_ok hrest, List.filter_cons_of_pos (by simp [hf])]
      rfl

theorem keyed_fields (hsound : c.Sound s)
    (hkeys : fs.map Prod.fst = c.fields.map fun f => str f.name) : Entries.Keyed fs := by
  constructor
  · intro p hp
    have hm : p.1 ∈ c.fields.map fun f => str f.name := hkeys ▸ List.mem_map_of_mem hp
    obtain ⟨f, _, hf⟩ := List.mem_map.mp hm
    exact ⟨f.name, hf.symm⟩
  · have hnames : ((c.fields.map FieldSpec.name).map str).Nodup :=
      List.pairwise_map.mpr (hsound.names.imp fun hne he => hne (str.inj he))
    rw [List.map_map] at hnames
    exact List.pairwise_map.mp (hkeys ▸ hnames)

/-- The fields of a record are those of its class, each with what the record holds under its
name. -/
theorem fields_eq (hkeyed : Entries.Keyed fs)
    (hkeys : fs.map Prod.fst = c.fields.map fun f => str f.name) :
    fs = c.fields.map fun f => (str f.name, fieldOf fs f.name) := by
  have hself : fs.map (fun p => (p.1, (Entries.get? p.1 fs).getD null)) = fs := by
    refine (List.map_congr_left fun p hp => ?_).trans (List.map_id fs)
    obtain ⟨k, v⟩ := p
    obtain ⟨m, rfl⟩ : ∃ m, k = str m := hkeyed.text _ hp
    rw [hkeyed.get?_of_mem hp]
    rfl
  calc fs = (fs.map Prod.fst).map fun k => (k, (Entries.get? k fs).getD null) := by
        rw [List.map_map]
        exact hself.symm
    _ = c.fields.map fun f => (str f.name, fieldOf fs f.name) := by
        rw [hkeys, List.map_map]
        rfl

theorem decodeField_eq (key : String) (h : Hint) (ps : Entries) :
    decodeField cat s r key h ps =
      match Entries.get? (str key) ps with
      | some w => some <$> decode cat s r w h
      | none => pure none := by
  induction ps with
  | nil => rfl
  | cons p ps ih =>
    rw [decodeField, decodeEntry_eq]
    by_cases hp : p.1 = str key
    · rw [Entries.get?_here hp, if_pos (equal_str_right.mpr hp)]
    · rw [Entries.get?_past hp, if_neg fun he => hp (equal_str_right.mp he), ih]

theorem decodeField_run {key : String} {h : Hint} {ps : Entries} {v w : Value}
    (hw : Entries.get? (str key) ps = some w) (hv : ∀ m, decode cat s r w h m = (.ok v, m))
    (m : Nat) : decodeField cat s r key h ps m = (.ok (some v), m) := by
  rw [decodeField_eq, hw]
  dsimp only
  rw [map_eq_bind, bind_of_ok (hv m)]
  rfl

theorem given_run {name : Value} {partly : Bool} {fetch : String → Hint → Fresh (Option Value)}
    {g : String → Value} {specs : List FieldSpec} (hgiven : ∀ f ∈ specs, f.given = true)
    (hfetch : ∀ f ∈ specs, ∀ m, fetch (if c.identity f then s.idField else f.name) (c.hintOf f) m =
      (.ok (some (g f.name)), m)) (m : Nat) :
    given s c name partly fetch specs m = (.ok (specs.map fun f => (f.name, g f.name)), m) := by
  induction specs with
  | nil => rfl
  | cons f specs ih =>
    have hrest := ih (fun f' hf => hgiven f' (by simp [hf])) fun f' hf => hfetch f' (by simp [hf])
    have hf := hfetch f (by simp) m
    unfold ClassSpec.identity at hf
    rw [given, hgiven f (by simp)]
    simp only [Bool.not_true, Bool.false_eq_true, if_false]
    rw [bind_of_ok hf]
    dsimp only
    rw [bind_of_ok hrest]
    rfl

end Records

end Codec

end DocStore
