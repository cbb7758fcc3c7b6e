import DocStore.Proofs.Codec.Faults
import DocStore.Proofs.Codec.Identity
import Mathlib.Data.List.Nodup
import Mathlib.Order.Nat
import Mathlib.Order.RelClasses

/-! Values that are read whatever identifiers were handed out, and take no new ones. So are all the
values that they are read from. -/

namespace DocStore

open Value

/-- A name stands for a class of the catalog. -/
structure Registry.Stands (cat : Catalog) (r : Registry) (n : String) (c : ClassSpec) : Prop where
  held : r.classNamed? n = some c.name
  known : cat.class? c.name = some c

/-- A class without checks of its own, whose fields have names of their own. -/
structure ClassSpec.Unchecked (c : ClassSpec) : Prop where
  names : (c.fields.map FieldSpec.name).Nodup
  unchanged : ∀ fs, c.finish fs = .ok fs

/-- All classes that have names are without checks. -/
def Registry.Unchecked (cat : Catalog) (r : Registry) : Prop :=
  ∀ n c, r.Stands cat n c → c.Unchecked

theorem Registry.Stands.unique {cat : Catalog} {r : Registry} {n : String} {c c' : ClassSpec}
    (h : r.Stands cat n c) (h' : r.Stands cat n c') : c = c' := by
  have hn : c.name = c'.name := Option.some.inj (h.held.symm.trans h'.held)
  exact Option.some.inj (h.known.symm.trans (hn ▸ h'.known))

/-! Identifiers are handed out and never taken back. -/

theorem ClassSpec.within_fill (entries : List (String × Value)) (fs : List FieldSpec) :
    Within (· ≤ ·) (fill entries fs) := by
  induction fs with
  | nil => exact within_pure _
  | cons f fs ih =>
    have hrest (v : Value) : Within (· ≤ ·)
        (Except.map ((str f.name, v) :: ·) <$> fill entries fs :
          Fresh (Except Refusal Entries)) := by
      rw [map_eq_bind]
      exact within_bind ih fun _ => within_pure _
    rw [fill]
    cases entries.lookup f.name with
    | some v => exact hrest v
    | none =>
      cases f.default with
      | value v => exact hrest v
      | freshId => exact fun m => Nat.le_of_lt (hrest _ (m + 1))
      | required => exact within_pure _

namespace Codec

variable {cat : Catalog} {s : Schema} {r t : Registry} {c : ClassSpec} {name : Value}
  {partly : Bool} {fetch : String → Hint → Fresh (Option Value)}

theorem within_given (hf : ∀ key h, Within (· ≤ ·) (fetch key h)) (fs : List FieldSpec) :
    Within (· ≤ ·) (given s c name partly fetch fs) := by
  induction fs with
  | nil => exact within_pure _
  | cons f fs ih =>
    rw [given]
    refine within_ite ih (within_bind (hf _ _) fun a => ?_)
    cases a with
    | some v => exact within_bind ih fun _ => within_pure _
    | none =>
      dsimp only
      split
      · exact within_ite (within_bind ih fun _ => within_pure _) (within_throw _)
      · exact ih

theorem within_construct (entries : List (String × Value)) :
    Within (· ≤ ·) (c.construct entries) := by
  have hfill := ClassSpec.within_fill entries c.fields
  refine within_ite (within_bind hfill fun filled => ?_) (within_pure _)
  cases filled with
  | error _ => exact within_pure _
  | ok _ => exact within_pure _

theorem within_build (hf : ∀ key h, Within (· ≤ ·) (fetch key h)) :
    Within (· ≤ ·) (build cat s r name partly fetch) := by
  refine within_ite (within_throw _) ?_
  split
  · exact within_throw _
  · split
    · exact within_throw _
    · split
      · exact within_throw _
      · refine within_bind (within_given hf _) fun entries => ?_
        refine within_bind (within_construct entries) fun made => ?_
        cases made with
        | ok _ => exact within_pure _
        | error _ => exact within_throw _

mutual

theorem within_decode (v : Value) : ∀ h, Within (· ≤ ·) (decode cat s r v h) := by
  intro h
  cases v with
  | dict ps =>
    rw [decode]
    split
    · exact within_build fun key h => within_decodeField ps key h
    · exact within_bind (within_decodeEntries ps) fun _ => within_pure _
  | list xs =>
    rw [decode]
    refine within_bind (within_decodeItems xs h.item) fun ys => ?_
    split
    · exact within_pure _
    · exact within_throw _
  | _ =>
    rw [decode]
    · split
      · exact within_pure _
      · exact within_throw _
    all_goals simp
termination_by structural v

theorem within_decodeItems (xs : List Value) :
    ∀ h, Within (· ≤ ·) (decodeItems cat s r h xs) := by
  intro h
  cases xs with
  | nil => exact within_pure _
  | cons x xs =>
    rw [decodeItems]
    exact within_bind (within_decode x h) fun _ =>
      within_bind (within_decodeItems xs h) fun _ => within_pure _
termination_by structural xs

theorem within_decodeEntries (ps : Entries) : Within (· ≤ ·) (decodeEntries cat s r ps) := by
  cases ps with
  | nil => exact within_pure _
  | cons p ps =>
    rw [decodeEntries]
    exact within_bind (within_decodeEntry p .any) fun _ =>
      within_bind (within_decodeEntries ps) fun _ => within_pure _
termination_by structural ps

theorem within_decodeEntry (p : Value × Value) :
    ∀ h, Within (· ≤ ·) (decodeEntry cat s r h p) := by
  intro h
  cases p with
  | mk k v =>
    rw [decodeEntry]
    exact within_decode v h
termination_by structural p

theorem within_decodeField (ps : Entries) :
    ∀ key h, Within (· ≤ ·) (decodeField cat s r key h ps) := by
  intro key h
  cases ps with
  | nil => exact within_pure _
  | cons p ps =>
    rw [decodeField]
    refine within_ite ?_ (within_decodeField ps key h)
    rw [map_eq_bind]
    exact within_bind (within_decodeEntry p h) fun _ => within_pure _
termination_by structural ps

end

section Still

variable {α β : Type} {h : Hint} {w u v : Value} {ps : Entries} {n : String} {f : FieldSpec}
  {fs : List FieldSpec} {entries : List (String × Value)} {m m' : Nat}

theorem within_le {x : Fresh α} {a : Except Error α} (hx : Within (· ≤ ·) x) (h : x m = (a, m')) :
    m ≤ m' := by
  have hle := hx m
  rwa [h] at hle

/-- Work that takes no identifiers is made of work that takes none. -/
theorem still_bind {x : Fresh α} {g : α → Fresh β} {b : β} (hx : Within (· ≤ ·) x)
    (hg : ∀ a, Within (· ≤ ·) (g a)) (h : (x >>= g) m = (.ok b, m)) :
    ∃ a, x m = (.ok a, m) ∧ g a m = (.ok b, m) := by
  obtain ⟨a, k, ha, hb⟩ := bind_eq_ok_iff.mp h
  obtain rfl := Nat.le_antisymm (within_le hx ha) (within_le (hg a) hb)
  exact ⟨a, ha, hb⟩

theorem given_still (hfetch : ∀ key h, Within (· ≤ ·) (fetch key h))
    (h : given s c name partly fetch fs m = (.ok entries, m)) (hf : f ∈ fs)
    (hgiven : f.given = true) :
    ∃ a, fetch (c.keyOf s f) (c.hintOf f) m = (.ok a, m) ∧
      (a = none → f.default = .required → partly = true) := by
  induction fs generalizing entries with
  | nil => cases hf
  | cons g fs ih =>
    rcases given_cons h with ⟨hpassed, hrest⟩ | ⟨_, a, k, rest, hfirst, hrest, hentries⟩
    · rcases List.mem_cons.mp hf with rfl | hf
      · rw [hpassed] at hgiven
        cases hgiven
      · exact ih hrest hf
    · obtain rfl := Nat.le_antisymm (within_le (hfetch _ _) hfirst)
        (within_le (within_given hfetch fs) hrest)
      rcases List.mem_cons.mp hf with rfl | hf
      · refine ⟨a, hfirst, fun hnone hd => ?_⟩
        rcases hentries with ⟨w, rfl, _⟩ | ⟨_, _, hpartly, _⟩ | ⟨_, hd', _⟩
        · cases hnone
        · exact hpartly
        · exact absurd hd hd'
      · exact ih hrest hf

/-- What is given has names of fields that are given, and those of all that must be. -/
theorem given_names (h : given s c name partly fetch fs m = (.ok entries, m')) :
    (∀ g ∈ entries, ∃ f ∈ fs, f.given = true ∧ f.name = g.1) ∧
      ∀ f ∈ fs, f.given = true → f.default = .required → ∃ g ∈ entries, g.1 = f.name := by
  induction fs generalizing entries m with
  | nil =>
    cases h
    exact ⟨by simp, by simp⟩
  | cons f fs ih =>
    rcases given_cons h with ⟨hpassed, hrest⟩ | ⟨hgiven, a, k, rest, _, hrest, hentries⟩
    · obtain ⟨hof, hall⟩ := ih hrest
      refine ⟨fun g hg => ?_, fun f' hf' hgiven hd => ?_⟩
      · obtain ⟨f', hf', hh⟩ := hof g hg
        exact ⟨f', List.mem_cons_of_mem f hf', hh⟩
      · rcases List.mem_cons.mp hf' with rfl | hf'
        · rw [hpassed] at hgiven
          cases hgiven
        · exact hall f' hf' hgiven hd
    · obtain ⟨hof, hall⟩ := ih hrest
      have hmade (w : Value) (he : entries = (f.name, w) :: rest) :
          (∀ g ∈ entries, ∃ f' ∈ f :: fs, f'.given = true ∧ f'.name = g.1) ∧
            ∀ f' ∈ f :: fs, f'.given = true → f'.default = .required →
              ∃ g ∈ entries, g.1 = f'.name := by
        subst he
        simp only [List.forall_mem_cons, List.exists_mem_cons_iff]
        exact ⟨⟨.inl ⟨hgiven, trivial⟩, fun g hg => .inr (hof g hg)⟩, fun _ _ => .inl trivial,
          fun f' hf' hgiven hd => .inr (hall f' hf' hgiven hd)⟩
      rcases hentries with ⟨w, _, he⟩ | ⟨_, _, _, he⟩ | ⟨_, hd, rfl⟩
      · exact hmade w he
      · exact hmade null he
      · simp only [List.forall_mem_cons, List.exists_mem_cons_iff]
        exact ⟨fun g hg => .inr (hof g hg), fun _ hd' => absurd hd' hd, hall⟩

/-- A value is read under a hint whatever identifiers were handed out, and takes no new one. -/
def Legible (cat : Catalog) (s : Schema) (r : Registry) (h : Hint) (w : Value) : Prop :=
  ∀ m, ∃ v, decode cat s r w h m = (.ok v, m)

theorem Legible.onward (hl : Legible cat s r h w) (hr : r.Holds t) : Legible cat s t h w := by
  intro m
  obtain ⟨v, hv⟩ := hl m
  exact ⟨v, decode_extends hr w h _ _ _ hv⟩

theorem decode_named (hn : Entries.get? (str s.classField) ps = some name) (h : Hint) :
    decode cat s r (dict ps) h = fromDocument cat s r false (dict ps) := by
  rw [decode, fromDocument, hn]
  rfl

/-- What a class is made of when a document of it is read. -/
theorem Legible.made (hl : Legible cat s r h (dict ps))
    (hn : Entries.get? (str s.classField) ps = some name) (m : Nat) :
    ∃ n c entries v, name = str n ∧ r.Stands cat n c ∧ c.uncaught? = none ∧
      given s c name false (fun key h => decodeField cat s r key h ps) c.fields m =
        (.ok entries, m) ∧ c.construct entries m = (.ok (.ok v), m) := by
  obtain ⟨v, hv⟩ := hl m
  rw [decode_named hn] at hv
  obtain ⟨name', entity, c, entries, k, hn', hresolve, hc, hu, hgiven, hmade⟩ :=
    fromDocument_cases hv
  obtain rfl : name = name' := Option.some.inj (hn.symm.trans hn')
  obtain ⟨n, rfl, hheld⟩ := resolve_eq_ok hresolve
  have hname : c.name = entity := by simpa using List.find?_some hc
  have hup := within_le (within_given (fun key h => within_decodeField ps key h) c.fields) hgiven
  obtain rfl := Nat.le_antisymm hup (within_le (within_construct entries) hmade)
  exact ⟨n, c, entries, v, rfl, ⟨hname ▸ hheld, hname ▸ hc⟩, hu, hgiven, hmade⟩

theorem Legible.stands (hl : Legible cat s r h (dict ps))
    (hn : Entries.get? (str s.classField) ps = some name) :
    ∃ n c, name = str n ∧ r.Stands cat n c := by
  obtain ⟨n, c, _, _, hname, hs, _⟩ := hl.made hn 0
  exact ⟨n, c, hname, hs⟩

/-- The hints of its class can be asked for. -/
theorem Legible.hinted (hl : Legible cat s r h (dict ps))
    (hn : Entries.get? (str s.classField) ps = some (str n)) (hs : r.Stands cat n c) :
    c.uncaught? = none := by
  obtain ⟨n', c', _, _, hname, hs', hu, _⟩ := hl.made hn 0
  obtain rfl := Value.str.inj hname
  obtain rfl := hs.unique hs'
  exact hu

/-- Its fields are read each under its hint, and what must be given is there. -/
theorem Legible.fetched (hl : Legible cat s r h (dict ps))
    (hn : Entries.get? (str s.classField) ps = some (str n)) (hs : r.Stands cat n c)
    (hf : f ∈ c.fields) (hgiven : f.given = true) (m : Nat) :
    ∃ a, decodeField cat s r (c.keyOf s f) (c.hintOf f) ps m = (.ok a, m) ∧
      (a = none → f.default ≠ .required) := by
  obtain ⟨n', c', entries, v, hname, hs', _, hrun, _⟩ := hl.made hn m
  obtain rfl := Value.str.inj hname
  obtain rfl := hs.unique hs'
  obtain ⟨a, ha, hlack⟩ := given_still (fun key h => within_decodeField ps key h) hrun hf hgiven
  exact ⟨a, ha, fun hnone hd => Bool.false_ne_true (hlack hnone hd)⟩

theorem Legible.field (hl : Legible cat s r h (dict ps))
    (hn : Entries.get? (str s.classField) ps = some (str n)) (hs : r.Stands cat n c)
    (hf : f ∈ c.fields) (hgiven : f.given = true)
    (hu : Entries.get? (str (c.keyOf s f)) ps = some u) : Legible cat s r (c.hintOf f) u := by
  intro m
  obtain ⟨a, ha, _⟩ := hl.fetched hn hs hf hgiven m
  rw [decodeField_eq, hu] at ha
  dsimp only at ha
  rw [map_eq_bind] at ha
  obtain ⟨v, hv, _⟩ := still_bind (within_decode u _) (fun _ => within_pure _) ha
  exact ⟨v, hv⟩

theorem Legible.present (hl : Legible cat s r h (dict ps))
    (hn : Entries.get? (str s.classField) ps = some (str n)) (hs : r.Stands cat n c)
    (hf : f ∈ c.fields) (hgiven : f.given = true) (hd : f.default = .required) :
    Entries.get? (str (c.keyOf s f)) ps ≠ none := by
  intro hnone
  obtain ⟨a, ha, hlack⟩ := hl.fetched hn hs hf hgiven 0
  rw [decodeField_eq, hnone] at ha
  cases ha
  exact hlack rfl hd

/-- What must be given is given, if the fields of the class have names of their own. -/
theorem Legible.given (hl : Legible cat s r h (dict ps))
    (hn : Entries.get? (str s.classField) ps = some (str n)) (hs : r.Stands cat n c)
    (hnames : (c.fields.map FieldSpec.name).Nodup) (hf : f ∈ c.fields)
    (hd : f.default = .required) : f.given = true := by
  obtain ⟨n', c', entries, v, hname, hs', _, hrun, hmade⟩ := hl.made hn 0
  obtain rfl := Value.str.inj hname
  obtain rfl := hs.unique hs'
  have hneeded : entries.any (fun g => g.1 == f.name) = true := by
    unfold ClassSpec.construct at hmade
    dsimp only at hmade
    split at hmade
    · next hok =>
      have hall := List.all_eq_true.mp (Bool.and_eq_true_iff.mp hok).2 f hf
      rwa [hd] at hall
    · cases hmade
  obtain ⟨g, hg, hgn⟩ := List.any_eq_true.mp hneeded
  obtain ⟨f', hf', hgiven, hname'⟩ := (given_names hrun).1 g hg
  have hsame : f' = f := List.inj_on_of_nodup_map hnames hf' hf (hname'.trans (by simpa using hgn))
  rwa [← hsame]

theorem decodeEntries_still {qs : Entries} (h : decodeEntries cat s r ps m = (.ok qs, m)) :
    ∀ p ∈ ps, ∃ v, decode cat s r p.2 .any m = (.ok v, m) := by
  induction ps generalizing qs with
  | nil => simp
  | cons p ps ih =>
    rw [decodeEntries] at h
    obtain ⟨v, hv, h⟩ := still_bind (within_decodeEntry p .any)
      (fun _ => within_bind (within_decodeEntries ps) fun _ => within_pure _) h
    obtain ⟨rest, hrest, _⟩ := still_bind (within_decodeEntries ps) (fun _ => within_pure _) h
    rw [decodeEntry_eq] at hv
    exact List.forall_mem_cons.mpr ⟨⟨v, hv⟩, ih hrest⟩

theorem Legible.entry (hl : Legible cat s r h (dict ps))
    (hn : Entries.get? (str s.classField) ps = none) {p : Value × Value} (hp : p ∈ ps) :
    Legible cat s r .any p.2 := by
  intro m
  obtain ⟨v, hv⟩ := hl m
  rw [decode, hn] at hv
  obtain ⟨qs, hqs, _⟩ := still_bind (within_decodeEntries ps) (fun _ => within_pure _) hv
  exact decodeEntries_still hqs p hp

/-- Whatever stands at a path of a value can be read by itself. -/
def LegibleThroughout (cat : Catalog) (s : Schema) (r : Registry) (v : Value) : Prop :=
  ∀ q u, getPath q v = some u → Legible cat s r .any u

theorem LegibleThroughout.entry {u : Value} (h : LegibleThroughout cat s r (dict ps))
    (hu : Entries.get? (str n) ps = some u) : LegibleThroughout cat s r u := by
  intro q x hx
  refine h (n :: q) x ?_
  rw [getPath_dict, hu]
  exact hx

end Still

end Codec

end DocStore
