import DocStore.Proofs.Codec.Legible

/-! Objects read from parts of documents: what is there is read, at every level, and what was left
out is filled in. -/

namespace DocStore

open Value

namespace ClassSpec

variable {c : ClassSpec} {entries : List (String × Value)} {fs : List FieldSpec} {es : Entries}
  {v : Value} {m m' : Nat}

theorem fill_fields (h : fill entries fs m = (.ok (.ok es), m')) :
    es.map Prod.fst = (fs.map fun f => str f.name) ∧ ∀ p ∈ fs.zip es,
      (∀ v, entries.lookup p.1.name = some v → p.2.2 = v) ∧
      (entries.lookup p.1.name = none → p.1.Fills p.2.2) := by
  induction fs generalizing es m with
  | nil =>
    cases h
    exact ⟨rfl, by simp⟩
  | cons f fs ih =>
    obtain ⟨w, rest, k, rfl, hrest, hgiven, hfills⟩ := fill_cons h
    obtain ⟨hkeys, hfields⟩ := ih hrest
    refine ⟨by simp [hkeys], ?_⟩
    rw [List.zip_cons_cons]
    exact List.forall_mem_cons.mpr ⟨⟨hgiven, hfills⟩, hfields⟩

theorem construct_fill (hc : c.Unchecked) (h : c.construct entries m = (.ok (.ok v), m')) :
    ∃ fs, v = .record c.name fs ∧ fill entries c.fields m = (.ok (.ok fs), m') := by
  unfold construct at h
  dsimp only at h
  split at h
  · obtain ⟨filled, k, hfill, h⟩ := bind_eq_ok_iff.mp h
    cases filled with
    | error why => cases h
    | ok fs =>
      simp only [hc.unchanged] at h
      cases h
      exact ⟨fs, rfl, hfill⟩
  · cases h

end ClassSpec

namespace Codec

variable {cat : Catalog} {s : Schema} {r : Registry} {c : ClassSpec} {name : Value} {partly : Bool}
  {fetch : String → Hint → Fresh (Option Value)} {f : FieldSpec} {fs : List FieldSpec}
  {entries : List (String × Value)} {m m' : Nat}

/-- What a field is given as, once it was fetched: what was found, or null in a part of a document
if it must be given, or not at all. -/
theorem given_lookup (hnames : (fs.map FieldSpec.name).Nodup)
    (h : given s c name partly fetch fs m = (.ok entries, m')) (hf : f ∈ fs) :
    f.given = false ∧ entries.lookup f.name = none ∨
      f.given = true ∧ ∃ a k k', fetch (c.keyOf s f) (c.hintOf f) k = (.ok a, k') ∧
        (a = none → entries.lookup f.name = none ∨
          f.default = .required ∧ partly = true ∧ entries.lookup f.name = some null) ∧
        ∀ x, a = some x → entries.lookup f.name = some x := by
  induction fs generalizing entries m with
  | nil => cases hf
  | cons g fs ih =>
    obtain ⟨hfirst, hnames⟩ := List.nodup_cons.mp hnames
    -- what is given of later fields has other names
    have habsent {rest : List (String × Value)} {k : Nat}
        (hrest : given s c name partly fetch fs k = (.ok rest, m')) :
        rest.lookup g.name = none := by
      refine List.lookup_eq_none_iff.mpr fun e he => ?_
      obtain ⟨f', hf', _, hn⟩ := (given_names hrest).1 e he
      exact bne_iff_ne.mpr fun hh => hfirst (hh ▸ hn ▸ List.mem_map_of_mem hf')
    have hpast (hmem : f ∈ fs) (w : Value) (rest : List (String × Value)) :
        ((g.name, w) :: rest).lookup f.name = rest.lookup f.name := by
      rw [List.lookup_cons, beq_eq_false_iff_ne.mpr]
      exact fun hh => hfirst (hh ▸ List.mem_map_of_mem hmem)
    rcases given_cons h with ⟨hpassed, hrest⟩ | ⟨hgiven, a, k, rest, hrun, hrest, hentries⟩
    · rcases List.mem_cons.mp hf with rfl | hf
      · exact .inl ⟨hpassed, habsent hrest⟩
      · exact ih hnames hrest hf
    · rcases List.mem_cons.mp hf with rfl | hf
      · refine .inr ⟨hgiven, a, m, k, hrun, ?_⟩
        rcases hentries with ⟨w, rfl, rfl⟩ | ⟨rfl, hd, hpartly, rfl⟩ | ⟨rfl, _, rfl⟩
        · exact ⟨by simp, fun x hx => by simp [Option.some.inj hx]⟩
        · exact ⟨fun _ => .inr ⟨hd, hpartly, by simp⟩, by simp⟩
        · exact ⟨fun _ => .inl (habsent hrest), by simp⟩
      · have hlookup : entries.lookup f.name = rest.lookup f.name := by
          rcases hentries with ⟨w, _, rfl⟩ | ⟨_, _, _, rfl⟩ | ⟨_, _, rfl⟩
          · exact hpast hf w rest
          · exact hpast hf null rest
          · rfl
        rw [hlookup]
        exact ih hnames hrest hf

/-- What stands for a field that was left out: what its class puts there, or null, where it must be
given and only a part of a document is read. -/
inductive Supplied (partly : Bool) (f : FieldSpec) : Value → Prop
  | filled {v : Value} (h : f.Fills v) : Supplied partly f v
  | null (hp : partly = true) (hd : f.default = .required) : Supplied partly f .null

/-- What a value is read as. A dictionary that names a class is an object of it, whose fields are
read from what is there for them; another one has its values read. -/
inductive ReadFrom (cat : Catalog) (s : Schema) (r : Registry) : Bool → Hint → Value → Value → Prop
  | object {partly : Bool} {h : Hint} {qs fs : Entries} {n : String} {c : ClassSpec}
      (hn : Entries.get? (str s.classField) qs = some (str n)) (hs : r.Stands cat n c)
      (hkeys : fs.map Prod.fst = c.fields.map fun f => str f.name)
      (hkept : ∀ p ∈ c.fields.zip fs, p.1.given = true →
        ∀ u, Entries.get? (str (c.keyOf s p.1)) qs = some u →
          ReadFrom cat s r false (c.hintOf p.1) u p.2.2)
      (hleft : ∀ p ∈ c.fields.zip fs,
        p.1.given = false ∨ Entries.get? (str (c.keyOf s p.1)) qs = none →
          Supplied partly p.1 p.2.2) : ReadFrom cat s r partly h (dict qs) (.record c.name fs)
  | dictionary {partly : Bool} {h : Hint} {qs ys : Entries}
      (hn : Entries.get? (str s.classField) qs = none) (hkeys : ys.map Prod.fst = qs.map Prod.fst)
      (hvalues : ∀ p ∈ qs.zip ys, ReadFrom cat s r false .any p.1.2 p.2.2) :
      ReadFrom cat s r partly h (dict qs) (dict ys)
  | value {partly : Bool} {h : Hint} {w x : Value} {m m' : Nat} (hd : ∀ ps, w ≠ .dict ps)
      (hx : decode cat s r w h m = (.ok x, m')) : ReadFrom cat s r partly h w x

/-- What is fetched from entries is nothing, where nothing is, or what is read there. -/
def Fetches (cat : Catalog) (s : Schema) (r : Registry) (qs : Entries) : Prop :=
  ∀ key h m a m', decodeField cat s r key h qs m = (.ok a, m') →
    (a = none ∧ Entries.get? (str key) qs = none) ∨
      ∃ u x, a = some x ∧ Entries.get? (str key) qs = some u ∧ ReadFrom cat s r false h u x

theorem fromDocument_readFrom (hr : r.Unchecked cat) {qs : Entries} (hq : Fetches cat s r qs)
    {x : Value} (h : Hint) (hx : fromDocument cat s r partly (dict qs) m = (.ok x, m')) :
    ReadFrom cat s r partly h (dict qs) x := by
  obtain ⟨name, entity, c, entries, k, hn, hresolve, hc, _, hgiven, hmade⟩ :=
    fromDocument_cases hx
  obtain ⟨n, rfl, hheld⟩ := resolve_eq_ok hresolve
  have hname : c.name = entity := by simpa using List.find?_some hc
  have hs : r.Stands cat n c := ⟨hname ▸ hheld, hname ▸ hc⟩
  have hu := hr n c hs
  obtain ⟨fs, rfl, hfill⟩ := ClassSpec.construct_fill hu hmade
  obtain ⟨hkeys, hfields⟩ := ClassSpec.fill_fields hfill
  refine .object hn hs hkeys (fun p hp hg u hget => ?_) fun p hp hleft => ?_
  · obtain ⟨hvalue, _⟩ := hfields p hp
    rcases given_lookup hu.names hgiven (List.of_mem_zip hp).1 with
      ⟨hg', _⟩ | ⟨_, a, k, k', hrun, _, hsome⟩
    · rw [hg] at hg'
      cases hg'
    · rcases hq _ _ _ _ _ hrun with ⟨_, hnone⟩ | ⟨u', x, rfl, hget', hread⟩
      · rw [hget] at hnone
        cases hnone
      · obtain rfl := Option.some.inj (hget.symm.trans hget')
        rw [hvalue x (hsome x rfl)]
        exact hread
  · obtain ⟨hvalue, hfills⟩ := hfields p hp
    rcases given_lookup hu.names hgiven (List.of_mem_zip hp).1 with
      ⟨_, hlookup⟩ | ⟨hg, a, k, k', hrun, hnone, _⟩
    · exact .filled (hfills hlookup)
    · have hget := hleft.resolve_left (by simp [hg])
      rcases hq _ _ _ _ _ hrun with ⟨ha, _⟩ | ⟨u, x, _, hget', _⟩
      · rcases hnone ha with hlookup | ⟨hd, hpartly, hlookup⟩
        · exact .filled (hfills hlookup)
        · rw [hvalue null hlookup]
          exact .null hpartly hd
      · rw [hget] at hget'
        cases hget'

mutual

theorem decode_readFrom (hr : r.Unchecked cat) (w : Value) : ∀ h m x m',
    decode cat s r w h m = (.ok x, m') → ReadFrom cat s r false h w x := by
  intro h m x m' hx
  cases w with
  | dict qs =>
    cases hn : Entries.get? (str s.classField) qs with
    | some name =>
      rw [decode_named hn] at hx
      exact fromDocument_readFrom hr (decodeField_readFrom hr qs) h hx
    | none =>
      rw [decode, hn] at hx
      obtain ⟨ys, k, hys, hx⟩ := bind_eq_ok_iff.mp hx
      cases hx
      obtain ⟨hkeys, hvalues⟩ := decodeEntries_readFrom hr qs _ _ _ hys
      exact .dictionary hn hkeys hvalues
  | _ => exact .value (by simp) hx
termination_by structural w

theorem decodeEntries_readFrom (hr : r.Unchecked cat) (qs : Entries) : ∀ m ys m',
    decodeEntries cat s r qs m = (.ok ys, m') → ys.map Prod.fst = qs.map Prod.fst ∧
      ∀ p ∈ qs.zip ys, ReadFrom cat s r false .any p.1.2 p.2.2 := by
  intro m ys m' hys
  cases qs with
  | nil =>
    cases hys
    exact ⟨rfl, by simp⟩
  | cons q qs =>
    rw [decodeEntries] at hys
    obtain ⟨x, k, hx, hys⟩ := bind_eq_ok_iff.mp hys
    obtain ⟨rest, k', hrest, hys⟩ := bind_eq_ok_iff.mp hys
    cases hys
    obtain ⟨hkeys, hvalues⟩ := decodeEntries_readFrom hr qs _ _ _ hrest
    refine ⟨by simp [hkeys], ?_⟩
    rw [List.zip_cons_cons]
    exact List.forall_mem_cons.mpr ⟨decodeEntry_readFrom hr q _ _ _ _ hx, hvalues⟩
termination_by structural qs

theorem decodeEntry_readFrom (hr : r.Unchecked cat) (q : Value × Value) : ∀ h m x m',
    decodeEntry cat s r h q m = (.ok x, m') → ReadFrom cat s r false h q.2 x := by
  intro h m x m' hx
  cases q with
  | mk k w =>
    rw [decodeEntry] at hx
    exact decode_readFrom hr w h m x m' hx
termination_by structural q

theorem decodeField_readFrom (hr : r.Unchecked cat) (qs : Entries) : Fetches cat s r qs := by
  intro key h m a m' ha
  cases qs with
  | nil =>
    cases ha
    exact .inl ⟨rfl, rfl⟩
  | cons q qs =>
    rw [decodeField] at ha
    by_cases hq : q.1 = str key
    · rw [if_pos (equal_str_right.mpr hq), map_eq_bind] at ha
      obtain ⟨x, k, hx, ha⟩ := bind_eq_ok_iff.mp ha
      cases ha
      exact .inr ⟨q.2, x, rfl, Entries.get?_here hq qs, decodeEntry_readFrom hr q _ _ _ _ hx⟩
    · rw [if_neg fun he => hq (equal_str_right.mp he)] at ha
      rw [Entries.get?_past hq]
      exact decodeField_readFrom hr qs key h m a m' ha
termination_by structural qs

end

end Codec

end DocStore
