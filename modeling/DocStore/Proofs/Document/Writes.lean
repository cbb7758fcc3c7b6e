import DocStore.Proofs.Document.InPlace

/-! A write seen from a place. A dictionary that stands at one place of a document is still there
after a write at a path that neither leads to the place nor through it, and is changed by it only
where it is the dictionary that the path goes through. -/

namespace DocStore

open Value

/-- A place on the way of a path, at its end or below it. -/
def On (q : List String) (z : Place) : Prop := z <+: keySteps q ∨ keySteps q <+: z

theorem On.of_append {q : List String} {y t : Place} (h : On q (y ++ t)) : On q y := by
  rcases h with h | h
  · exact .inl ((List.prefix_append y t).trans h)
  · exact List.prefix_or_prefix_of_prefix (List.prefix_append y t) h

theorem Aloof.off {path q : List String} {z : Place} (h : Aloof path q) (hz : On q z) :
    ¬ keySteps path <+: z := by
  intro hp
  rcases hz with hz | hz
  · exact h.past (isPrefix_of_keySteps (hp.trans hz))
  · rcases List.prefix_or_prefix_of_prefix hp hz with hpq | hqp
    · exact h.past (isPrefix_of_keySteps hpq)
    · exact h.short (isPrefix_of_keySteps hqp)

namespace Heap

variable {h h' h'' : Heap} {r b c : Nat} {path w rest q : List String} {s : String} {z : Place}
  {x : Node}

/-- A write at a path. Of the cells that there were it changes one dictionary, at one key, and if
the path goes on from there, nothing stood there that it could have gone on through. -/
structure Writes (h h' : Heap) (r : Nat) (path w : List String) (s : String) (rest : List String)
    (b : Nat) : Prop where
  path_eq : path = w ++ s :: rest
  leads : h.edges.leads (keySteps w) (.ref r) = some (.ref b)
  vacant : rest ≠ [] → h.get? b s = none ∨ h.get? b s = some (.leaf null)
  isDict : h.IsDict b
  remains : h'.IsDict b
  others : ∀ a, a < h.length → a ≠ b → h'[a]? = h[a]?
  entries : ∀ st, st ≠ .key s → h'.edges b st = h.edges b st

theorem writes_erase (hh : h.Proper) (hw : h.getPath w (.ref r) = some (.ref b))
    (hn : h.get? b s = some x) :
    Writes h (h.change b (Entries.erase (str s))) r (w ++ [s]) w s [] b := by
  obtain ⟨fs, hf⟩ := isDict_of_get? hn
  refine ⟨rfl, (getPath_eq _ _ _).symm.trans hw, fun hne => absurd rfl hne, ⟨fs, hf⟩,
    (isDict_change _).mpr ⟨fs, hf⟩, fun a _ ha => getElem?_change_past _ ha, fun st hst => ?_⟩
  rw [edges_erase hh hf, Edges.set_past (by simp [hst])]

theorem Sets.writes (hset : Sets h x path r w s rest b) :
    Writes h (putNested x s rest b h) r path w s rest b := by
  obtain ⟨hpath, hw, ⟨fs, hf⟩, hvacant⟩ := hset
  obtain ⟨cs, hcs⟩ := nest_append x rest h
  have hb := lt_of_fields? hf
  have hf' : (nest x rest h).2.fields? b = some fs := by rw [hcs, fields?_append_old cs hb, hf]
  refine ⟨hpath, (getPath_eq _ _ _).symm.trans hw, hvacant, ⟨fs, hf⟩,
    (isDict_change _).mpr ⟨fs, hf'⟩, fun a ha hab => ?_, fun st hst => ?_⟩
  · rw [putNested, getElem?_change_past _ hab, hcs, getElem?_append_old cs ha]
  · rw [putNested, edges_put hf', Edges.set_past (by simp [hst]), hcs, edges_append_old cs hb]

/-- Cells that were added before a write are not seen from the others. -/
theorem Writes.of_append (cs : Heap) (hh : h.Proper) (hr : h.Within (.ref r))
    (hw : Writes (h ++ cs) h' r path w s rest b) : Writes h h' r path w s rest b := by
  obtain ⟨hpath, hlead, hvacant, hd, hd', hothers, hentries⟩ := hw
  rw [hh.leads_append hr] at hlead
  have hb : b < h.length := hh.leads_within hr hlead
  refine ⟨hpath, hlead, fun hne => ?_, (isDict_append_old cs hb).mp hd, hd', fun a ha hab => ?_,
    fun st hst => ?_⟩
  · rw [← edges_key, ← edges_append_old cs hb, edges_key]
    exact hvacant hne
  · rw [hothers a (by rw [List.length_append]; omega) hab, getElem?_append_old cs ha]
  · rw [hentries st hst, edges_append_old cs hb]

/-- A dictionary at one place of a document, as are those on the way to it. -/
structure Firm (h : Heap) (r : Nat) (z : Place) (c : Nat) : Prop where
  isDict : h.IsDict c
  leads : h.edges.leads z (.ref r) = some (.ref c)
  solo : h.Solo (fun y => ¬ y <+: z) (.ref r)

/-- If a dictionary stands at one place, so do those on the way to it. -/
theorem firm_of_alone (hd : h.IsDict c) (hz : h.edges.leads z (.ref r) = some (.ref c))
    (halone : ∀ y, h.edges.leads y (.ref r) = some (.ref c) → y = z) : h.Firm r z c := by
  refine ⟨hd, hz, fun y y' a _ hy hy' hyz => ?_⟩
  obtain ⟨t, rfl⟩ := not_not.mp hyz
  have hother : h.edges.leads (y' ++ t) (.ref r) = some (.ref c) := by
    rwa [Edges.leads_append_of hy', ← Edges.leads_append_of hy]
  exact (List.append_cancel_right (halone _ hother)).symm

/-- What is left of a dictionary on the way of a path, or below its end. -/
structure Stays (h h' : Heap) (q : List String) (r : Nat) (z : Place) (c : Nat) : Prop where
  isDict : h'.IsDict c
  leads : h'.edges.leads z (.ref r) = some (.ref c)
  cell : keySteps q <+: z → h'[c]? = h[c]?
  entry : ∀ s a, z ++ [.key s] <+: keySteps q → h.edges c (.key s) = some (.ref a) →
    h'.edges c (.key s) = some (.ref a)

theorem Stays.trans (hs : Stays h h' q r z c) (hs' : Stays h' h'' q r z c) :
    Stays h h'' q r z c :=
  ⟨hs'.isDict, hs'.leads, fun hq => (hs'.cell hq).trans (hs.cell hq),
    fun s a hq he => hs'.entry s a hq (hs.entry s a hq he)⟩

section Firm

variable (hw : Writes h h' r path w s rest b) (hf : h.Firm r z c)
include hw hf

/-- The dictionary is written at its one place. -/
theorem Writes.place_eq (hcb : c = b) : z = keySteps w :=
  hf.solo hf.isDict hf.leads (hcb ▸ hw.leads) (not_not.mpr List.prefix_rfl)

theorem Writes.leads_firm (hh : h.Proper) (hr : h.Within (.ref r)) (hz : ¬ keySteps path <+: z) :
    h'.edges.leads z (.ref r) = some (.ref c) := by
  refine (Edges.leads_congr fun u st t a hzu hu => ?_).trans hf.leads
  by_cases hab : a = b
  · subst hab
    by_cases hst : st = .key s
    · -- the changed entry is not on the way: it ends the path, or leads to no container
      exfalso
      subst hst
      have huw : u = keySteps w := by
        refine hf.solo hw.isDict hu hw.leads (not_not.mpr ?_)
        rw [hzu]
        exact List.prefix_append u _
      by_cases hrest : rest = []
      · refine hz ?_
        rw [hw.path_eq, hrest, keySteps_append, hzu, huw]
        exact ⟨t, by simp [keySteps]⟩
      · have hlead := hf.leads
        rw [hzu, Edges.leads_append_of hu, Edges.leads_ref, edges_key] at hlead
        rcases hw.vacant hrest with hv | hv
        · rw [hv] at hlead
          cases hlead
        · rw [hv] at hlead
          cases t <;> cases hlead
    · exact hw.entries st hst
  · exact edges_congr (hw.others a (hh.leads_within hr hu) hab)

theorem Writes.stays (hh : h.Proper) (hr : h.Within (.ref r)) (hq : Aloof path q) (hz : On q z) :
    Stays h h' q r z c := by
  have hc : c < h.length := hh.leads_within hr hf.leads
  refine ⟨?_, hw.leads_firm hf hh hr (hq.off hz), fun hqz => ?_, fun t a hzq he => ?_⟩
  · by_cases hcb : c = b
    · rw [hcb]
      exact hw.remains
    · obtain ⟨fs, hfs⟩ := hf.isDict
      exact ⟨fs, by rw [fields?, hw.others c hc hcb]; exact hfs⟩
  · refine hw.others c hc fun hcb => hq.short ?_
    rw [hw.place_eq hf hcb] at hqz
    rw [hw.path_eq]
    exact (isPrefix_of_keySteps hqz).trans (List.prefix_append w _)
  · by_cases hcb : c = b
    · have hzw := hw.place_eq hf hcb
      subst hcb
      by_cases hts : t = s
      · exfalso
        subst hts
        by_cases hrest : rest = []
        · refine hq.past (isPrefix_of_keySteps ?_)
          rw [hw.path_eq, hrest, keySteps_append, ← hzw]
          exact hzq
        · rw [edges_key] at he
          rcases hw.vacant hrest with hv | hv <;> rw [hv] at he <;> cases he
      · rw [hw.entries (.key t) (by simpa using hts), he]
    · rw [edges_congr (hw.others c hc hcb), he]

end Firm

end Heap

end DocStore
