import DocStore.Proofs.Document.Trees

/-! Setting and removing in place. Of all the paths of a document those see a difference that lead
through the place, as long as the dictionary that is changed stands nowhere else. -/

namespace DocStore

open Value

theorem keySteps_append (p q : List String) : keySteps (p ++ q) = keySteps p ++ keySteps q :=
  List.map_append

theorem keySteps_injective {p q : List String} (h : keySteps p = keySteps q) : p = q :=
  List.map_injective_iff.mpr (fun _ _ h => Step.key.inj h) h

theorem isPrefix_of_keySteps {p q : List String} (h : keySteps p <+: keySteps q) : p <+: q := by
  obtain ⟨z, hz⟩ := h
  obtain ⟨u, w, rfl, hu, -⟩ := List.map_eq_append_iff.mp hz.symm
  rw [← keySteps_injective hu]
  exact List.prefix_append u w

/-- A step under a text that is met on a dotted path is one of its segments. -/
theorem keySteps_split {q : List String} {p t : Place} {s : String}
    (h : keySteps q = p ++ .key s :: t) :
    ∃ u v, q = u ++ s :: v ∧ p = keySteps u ∧ t = keySteps v := by
  obtain ⟨u, v', rfl, rfl, hv⟩ := List.map_eq_append_iff.mp h
  obtain ⟨s', v, rfl, hs, rfl⟩ := List.map_eq_cons_iff.mp hv
  cases hs
  exact ⟨u, v, rfl, rfl, rfl⟩

namespace Heap

variable {h h' : Heap} {A : Place → Prop} {a b r k : Nat} {s : String} {n m x : Node}
  {next : Option Node} {w q path old rest : List String} {p : Place}
  {fs : List (Value × Node)} {v : Value} {ps : Entries}

theorem IsDict.within (hr : h.IsDict r) : h.Within (.ref r) := by
  obtain ⟨fs, hf⟩ := hr
  exact lt_of_fields? hf

/-- A path meets the dictionary that is changed on one way only. -/
structure Clear (h : Heap) (r b : Nat) (w q : List String) : Prop where
  above : ∀ u t, q = u ++ t → h.edges.leads (keySteps u) (.ref r) = some (.ref b) → u = w
  below : ∀ z, h.edges.leads (keySteps q ++ z) (.ref r) = some (.ref b) → q <+: w

/-- Of two paths, one does not go into exempt places: the one that is changed before its end, or the
other one at and below its end. -/
def Apart (A : Place → Prop) (path q : List String) : Prop :=
  (∀ w t, path = w ++ t → t ≠ [] → ¬ A (keySteps w)) ∨ ∀ y, ¬ A (keySteps q ++ y)

theorem Apart.free (hq : Apart A (w ++ s :: rest) q) :
    ¬ A (keySteps w) ∨ ∀ y, ¬ A (keySteps q ++ y) :=
  hq.imp (fun h => h w (s :: rest) rfl (by simp)) id

theorem Solo.clear (hs : h.Solo A (.ref r)) (hA : ∀ p q, A p → A (p ++ q))
    (hw : h.edges.leads (keySteps w) (.ref r) = some (.ref b)) (hb : h.IsDict b)
    (hq : ¬ A (keySteps w) ∨ ∀ y, ¬ A (keySteps q ++ y)) : h.Clear r b w q := by
  -- the dictionary stands at the changed path, and at no exempt place if it is met by the other one
  have honly {z : Place} (hz : h.edges.leads z (.ref r) = some (.ref b))
      (hzA : (∀ y, ¬ A (keySteps q ++ y)) → ¬ A z) : z = keySteps w := by
    rcases hq with hwA | hqA
    · exact (hs hb hw hz hwA).symm
    · exact hs hb hz hw (hzA hqA)
  refine ⟨fun u t hqu hu => ?_, fun z hz => ?_⟩
  · refine keySteps_injective (honly hu fun hqA hAu => hqA [] ?_)
    rw [List.append_nil, hqu, keySteps_append]
    exact hA _ _ hAu
  · obtain ⟨u, v, rfl, hu, -⟩ := List.map_eq_append_iff.mp (honly hz fun hqA => hqA z).symm
    rw [keySteps_injective (p := u) (q := q) hu]
    exact List.prefix_append q v

section Clear

variable (hc : h.Clear r b w q) (hq : Aloof (w ++ s :: rest) q)
include hc hq

/-- What stands at a path aloof of the changed one is not met over the changed entry. -/
theorem Clear.leads_set
    (hvacant : rest ≠ [] → h.get? b s = none ∨ h.get? b s = some (.leaf null))
    (hm : h.edges.leads (keySteps q) (.ref r) = some m) :
    (h.edges.set b (.key s) next).leads (keySteps q) (.ref r) = some m := by
  refine Edges.leads_set_past hm fun p t hp hlead => ?_
  obtain ⟨u, v, rfl, rfl, rfl⟩ := keySteps_split hp
  obtain rfl := hc.above u (s :: v) rfl hlead
  -- what stood there before the change had nothing below it
  have hsv : h.edges.leads (keySteps (s :: v)) (.ref b) = some m := by
    rwa [keySteps_append, Edges.leads_append_of hlead] at hm
  by_cases hrest : rest = []
  · subst hrest
    exact hq.past ⟨v, by simp⟩
  · change (h.edges b (.key s)).bind _ = _ at hsv
    rw [edges_key] at hsv
    rcases hvacant hrest with hs | hs
    · rw [hs] at hsv
      cases hsv
    · rw [hs, Option.bind_some] at hsv
      cases v with
      | nil => exact hq.short ⟨rest, by simp⟩
      | cons t v => cases hsv

theorem Clear.past (hm : h.edges.leads (keySteps q) (.ref r) = some m) (p : Place) :
    h.edges.leads p m ≠ some (.ref b) := by
  intro hp
  refine hq.short ((hc.below p ((Edges.leads_append_of hm p).trans hp)).trans ?_)
  exact List.prefix_append w _

end Clear

/-- What a change at a path keeps of a document: it is in order, its dictionaries are at one place
each, and paths aloof of the changed one lead to the same. -/
structure Kept (A : Place → Prop) (r : Nat) (path : List String) (h h' : Heap) : Prop where
  proper : h'.Proper
  isDict : h'.IsDict r
  solo : h'.Solo A (.ref r)
  frame : ∀ q, Aloof path q → Apart A path q →
    h'.getPath q (.ref r) = h.getPath q (.ref r) ∧
      ∀ m, h.getPath q (.ref r) = some m → ∀ k, h'.read k m = h.read k m

theorem Kept.append (cs : Heap) (hh : h.Proper) (hr : h.IsDict r)
    (hk : Kept A r path (h ++ cs) h') : Kept A r path h h' := by
  refine ⟨hk.proper, hk.isDict, hk.solo, fun q hq hqA => ?_⟩
  have hpath : getPath (h ++ cs) q (.ref r) = h.getPath q (.ref r) := by
    rw [getPath_eq, getPath_eq, hh.leads_append hr.within]
  obtain ⟨hget, hread⟩ := hk.frame q hq hqA
  refine ⟨hget.trans hpath, fun m hm k => ?_⟩
  rw [hread m (hpath.trans hm) k]
  rw [getPath_eq] at hm
  exact hh.read_append (hh.leads_within hr.within hm) cs k

/-- The heap with the new dictionaries that setting a path needs, before they are put into the
document. -/
structure Prepared (h : Heap) (A : Place → Prop) (r : Nat) (x : Node) (w : List String) (s : String)
    (rest : List String) (b : Nat) (fs : List (Value × Node)) : Prop where
  grown : ∃ cs, (nest x rest h).2 = h ++ cs
  proper : (nest x rest h).2.Proper
  within : (nest x rest h).2.Within (nest x rest h).1
  fields : (nest x rest h).2.fields? b = some fs
  leads : (nest x rest h).2.edges.leads (keySteps w) (.ref r) = some (.ref b)
  solo : (nest x rest h).2.Solo A (.ref r)
  brings : (nest x rest h).2.Brings A (.ref r) (keySteps w ++ keySteps [s]) (nest x rest h).1
  along : ∀ q m, (nest x rest h).2.edges.leads (keySteps q) (nest x rest h).1 = some m →
    rest <+: q ∨ q <+: rest

section Change

variable (hh : h.Proper) (hr : h.IsDict r) (hs : h.Solo A (.ref r))
  (hA : ∀ p q, A p → A (p ++ q))
include hh hr hs hA

theorem kept_erase (hw : h.getPath w (.ref r) = some (.ref b)) (hn : h.get? b s = some n) :
    Kept A r (w ++ [s]) h (h.change b (Entries.erase (str s))) := by
  obtain ⟨fs, hf⟩ := isDict_of_get? hn
  have hedges := edges_erase hh hf s
  rw [getPath_eq] at hw
  refine ⟨hh.erase b s, (isDict_change _).mpr hr, ?_, fun q hq hqA => ?_⟩
  · intro y z c hc hy hz
    rw [hedges] at hy hz
    exact hs.set_none ((isDict_change _).mp hc) hy hz
  · have hclear := hs.clear hA hw ⟨fs, hf⟩ hqA.free
    simp only [getPath_eq, hedges]
    refine ⟨?_, fun m hm k => hh.read_change _ (hclear.past hq hm) k⟩
    refine Option.ext fun m => ⟨Edges.leads_of_set_none, ?_⟩
    exact hclear.leads_set hq fun hne => absurd rfl hne

omit hA in
theorem Sets.prepared (hx : h.Within x) (hset : Sets h x path r w s rest b)
    (hb : h.Brings A (.ref r) (keySteps path) x) :
    ∃ fs, h.fields? b = some fs ∧ Prepared h A r x w s rest b fs := by
  obtain ⟨rfl, hw, ⟨fs, hf⟩, -⟩ := hset
  rw [getPath_eq] at hw
  have hpath : h.Brings A (.ref r) (keySteps (w ++ [s]) ++ keySteps rest) x := by
    rwa [← keySteps_append, List.append_assoc]
  obtain ⟨cs, hcs⟩ := nest_append x rest h
  obtain ⟨hproper, hwithin, hbrings, halong⟩ := nests_nest hh hr.within hx hpath
  rw [keySteps_append] at hbrings
  refine ⟨fs, hf, ⟨cs, hcs⟩, hproper, hwithin, ?_, ?_, ?_, hbrings, halong⟩
  · rw [hcs, fields?_append_old cs (lt_of_fields? hf), hf]
  · rw [hcs, hh.leads_append hr.within, hw]
  · exact hcs ▸ hs.append hh hr.within cs

theorem kept_put (hx : h.Within x) (hset : Sets h x path r w s rest b)
    (hb : h.Brings A (.ref r) (keySteps path) x) :
    Kept A r path h (putNested x s rest b h) := by
  obtain ⟨fs, hf, hp⟩ := hset.prepared hh hr hs hx hb
  obtain ⟨rfl, -, -, hvacant⟩ := hset
  have hvacant' : rest ≠ [] → (nest x rest h).2.get? b s = none ∨
      (nest x rest h).2.get? b s = some (.leaf null) := by
    rw [get?_of_fields? hp.fields, ← get?_of_fields? hf]
    exact hvacant
  have hedges := edges_put hp.fields s (nest x rest h).1
  have hsolo' : (putNested x s rest b h).Solo A (.ref r) := by
    intro y z c hc hy hz
    rw [putNested, hedges] at hy hz
    exact hp.solo.set hA ⟨fs, hp.fields⟩ hp.leads hp.brings ((isDict_change _).mp hc) hy hz
  obtain ⟨cs, hcs⟩ := hp.grown
  suffices hk : Kept A r (w ++ s :: rest) (nest x rest h).2 (putNested x s rest b h) by
    rw [hcs] at hk
    exact hk.append cs hh hr
  have hdict : (nest x rest h).2.IsDict r := by
    rw [hcs, isDict_append_old cs hr.within]
    exact hr
  refine ⟨hp.proper.put hp.within b s, (isDict_change _).mpr hdict, hsolo', fun q hq hqA => ?_⟩
  have hclear := hp.solo.clear hA hp.leads ⟨fs, hp.fields⟩ hqA.free
  rw [putNested, getPath_eq, getPath_eq, hedges]
  refine ⟨Option.ext fun m => ⟨fun hm => ?_, hclear.leads_set hq hvacant'⟩,
    fun m hm k => hp.proper.read_change _ (hclear.past hq hm) k⟩
  rcases Edges.leads_set hm with hm | ⟨⟨p, t, hp', hlead⟩, p'', t', x', he, hp'', hlead', ht'⟩
  · exact hm
  · -- below the new entry there is the path that was set, and what was put at its end
    cases he
    obtain ⟨u, v, rfl, rfl, rfl⟩ := keySteps_split hp'
    obtain rfl := hclear.above u (s :: v) rfl hlead
    have hnp : ¬ A (keySteps u) := by
      rcases hqA.free with hwA | hqA
      · exact hwA
      · intro hAu
        refine hqA [] ?_
        rw [List.append_nil, keySteps_append]
        exact hA _ _ hAu
    have hback := hp.solo.back ⟨fs, hp.fields⟩ hp.leads hp.brings hnp hlead'
    obtain ⟨u', v', hq', rfl, rfl⟩ := keySteps_split hp''
    obtain rfl := keySteps_injective hback
    obtain rfl := (List.cons.inj (List.append_cancel_left hq')).2
    have hunder {a c : List String} (hac : a <+: c) : u' ++ s :: a <+: u' ++ s :: c :=
      (List.prefix_append_right_inj _).mpr (List.cons_prefix_cons.mpr ⟨rfl, hac⟩)
    rcases hp.along v m ht' with hpre | hpre
    · exact absurd (hunder hpre) hq.past
    · exact absurd (hunder hpre) hq.short

omit hA in
/-- What was put at a path stands there, and stands for what it stood for. -/
theorem putNested_at (hx : h.Within x) (hset : Sets h x path r w s rest b)
    (hb : h.Brings A (.ref r) (keySteps path) x) (hwA : ¬ A (keySteps w)) :
    (putNested x s rest b h).getPath path (.ref r) = some x ∧
      ∀ k, (putNested x s rest b h).read k x = h.read k x := by
  obtain ⟨fs, -, hp⟩ := hset.prepared hh hr hs hx hb
  obtain rfl := hset.path_eq
  obtain ⟨-, -, hrest⟩ := leads_nest hh hx rest
  have hpast (p : Place) : (nest x rest h).2.edges.leads p (nest x rest h).1 ≠ some (.ref b) :=
    fun hlead => hwA (hp.brings.apart ⟨fs, hp.fields⟩ hp.leads hlead).1
  constructor
  · rw [getPath_eq, putNested, edges_put hp.fields, keySteps_append,
      Edges.leads_append_of (m := .ref b)]
    · change ((Edges.set _ b (.key s) _) b (.key s)).bind _ = _
      rw [Edges.set_here, Option.bind_some]
      exact Edges.leads_set_past hrest fun p _ _ => hpast p
    · refine Edges.leads_set_past hp.leads fun p t hpt hlead => ?_
      have hself := hp.solo ⟨fs, hp.fields⟩ hp.leads hlead hwA
      rw [hpt] at hself
      simp at hself
  · obtain ⟨cs, hcs⟩ := hp.grown
    intro k
    rw [putNested, hp.proper.read_change _ (fun p hlead => ?_) k, hcs, hh.read_append hx cs k]
    exact hpast _ ((Edges.leads_append_of hrest p).trans hlead)

omit hr hA in
/-- What was taken away from one path brings along to another one what it had for itself. -/
theorem brings_popped (hw : h.getPath w (.ref r) = some (.ref b)) (hn : h.get? b s = some n)
    (hp : ∀ q, A (keySteps (w ++ [s]) ++ q) → A (p ++ q)) :
    (h.change b (Entries.erase (str s))).Brings A (.ref r) p n := by
  obtain ⟨fs, hf⟩ := isDict_of_get? hn
  have hedges := edges_erase hh hf s
  rw [getPath_eq] at hw
  have hold : h.edges.leads (keySteps (w ++ [s])) (.ref r) = some n := by
    rw [keySteps_append]
    exact (Edges.leads_snoc hw (.key s)).trans ((edges_key h b s).trans hn)
  have hd {c} : (h.change b (Entries.erase (str s))).IsDict c → h.IsDict c := (isDict_change _).mp
  rw [Brings, hedges]
  refine ⟨fun y z c hc hy hz hny => ?_, fun y z c hc hy hz => ?_⟩
  · exact (hs.below hold) (hd hc) (Edges.leads_of_set_none hy) (Edges.leads_of_set_none hz)
      fun hAy => hny (hp y hAy)
  · -- the place from which it was taken is one no more
    have hgone : keySteps (w ++ [s]) ++ z ≠ y := by
      rintro rfl
      rw [keySteps_append, List.append_assoc, Edges.leads_append] at hy
      obtain ⟨m, hm, hy⟩ := Option.bind_eq_some_iff.mp hy
      rw [Edges.leads_of_set_none hm] at hw
      cases hw
      change ((h.edges.set b (.key s) none) b (.key s)).bind _ = _ at hy
      rw [Edges.set_here] at hy
      cases hy
    have hy' := Edges.leads_of_set_none hy
    have hz' : h.edges.leads (keySteps (w ++ [s]) ++ z) (.ref r) = some (.ref c) :=
      (Edges.leads_append_of hold z).trans (Edges.leads_of_set_none hz)
    constructor
    · by_contra hny
      exact hgone (hs (hd hc) hy' hz' hny).symm
    · refine hp z ?_
      by_contra hnz
      exact hgone (hs (hd hc) hz' hy' hnz)

end Change

/-! What the document stands for -/

theorem reads_nest (hh : h.Proper) (hx : h.Within x) (hv : h.Reads x v) (rest : List String) :
    (nest x rest h).2.Reads (nest x rest h).1 (Entries.nested v rest) := by
  induction rest with
  | nil => exact hv
  | cons s rest ih =>
    obtain ⟨hproper, hwithin, -⟩ := leads_nest hh hx rest
    obtain ⟨k, hk⟩ := ih
    refine (reads_dict fields?_holding).mpr ⟨_, rfl, .cons ⟨rfl, k, ?_⟩ .nil⟩
    exact (hproper.read_append hwithin _ k).trans hk

/-- A dictionary that stands for something is not below its own entries. -/
theorem Reads.past (hv : h.Reads (.ref b) v) (hh : h.Proper) (hf : h.fields? b = some fs)
    {f : Value × Node} (hm : f ∈ fs) (p : Place) : h.edges.leads p f.2 ≠ some (.ref b) := by
  intro hp
  obtain ⟨st, he, -⟩ := hh.edge_of_mem hf hm
  have hself := hv.acyclic (p := st :: p) (by rw [Edges.leads_ref, he]; exact hp)
  cases hself

theorem Proper.reads_past (hh : h.Proper) (hv : h.Reads n v)
    (hb : ∀ p, h.edges.leads p n ≠ some (.ref b))
    (f : List (Value × Node) → List (Value × Node)) : (h.change b f).Reads n v := by
  obtain ⟨k, hk⟩ := hv
  exact ⟨k, (hh.read_change f hb k).trans hk⟩

/-- What stands at a path to an object is read from the object. -/
theorem Reads.getPath_dict (hv : h.Reads (.ref r) v) (hw : h.getPath w (.ref r) = some (.ref b))
    (hb : h.IsDict b) :
    ∃ qs, Value.getPath w v = some (dict qs) ∧ h.Reads (.ref b) (dict qs) := by
  rcases hv.getPath w with ⟨hnone, _⟩ | ⟨m, d, hm, hd, hmd⟩
  · rw [hw] at hnone
    cases hnone
  · rw [hw] at hm
    cases hm
    obtain ⟨qs, rfl⟩ := hmd.dict_of_isDict hb
    exact ⟨qs, hd, hmd⟩

section Reads

variable (hh : h.Proper) (hs : h.Solo A (.ref r)) (hwA : ¬ A (keySteps w))
  (hv : h.Reads (.ref r) (dict ps))
include hh hs hwA hv

/-- Taking an entry from a dictionary that stands at one place takes it from the tree. -/
theorem reads_erase (hw : h.getPath w (.ref r) = some (.ref b)) (hn : h.get? b s = some n) :
    ∃ v qs, Entries.popPath (w ++ [s]) ps = some (v, qs) ∧
      (h.change b (Entries.erase (str s))).Reads (.ref r) (dict qs) ∧
      (h.change b (Entries.erase (str s))).Reads n v := by
  obtain ⟨fs, hf⟩ := isDict_of_get? hn
  obtain ⟨qs, hd, hqs⟩ := hv.getPath_dict hw ⟨fs, hf⟩
  rcases hqs.get? s with ⟨hnone, _⟩ | ⟨m, x, hm, hsx, hmx⟩
  · rw [hn] at hnone
    cases hnone
  · rw [hn] at hm
    cases hm
    have hmem := Entries.mem_of_get? ((get?_of_fields? hf s).symm.trans hn)
    refine ⟨x, _, Entries.popPath_alterAt hd hsx, ?_, hh.reads_past hmx (hqs.past hh hf hmem) _⟩
    have hw' := hw
    rw [getPath_eq] at hw'
    refine hh.reads_change hw (fun z hz => (hs ⟨fs, hf⟩ hw' hz hwA).symm) ?_ ⟨fs, hf⟩ hv
    intro qs hqs
    obtain ⟨_, he, hrows⟩ := (reads_dict hf).mp hqs
    cases he
    refine (reads_dict ((fields?_change hf _).trans (if_pos rfl))).mpr ⟨_, rfl, ?_⟩
    exact forall₂_erase (fun _ _ hfp => hfp.1) hrows (hh.distinct b fs hf)
      fun f hm p _ hfp => ⟨hfp.1, hh.reads_past hfp.2 (hqs.past hh hf hm) _⟩

/-- Putting an entry into a dictionary that stands at one place puts it into the tree. -/
theorem reads_put (hr : h.IsDict r) (hx : h.Within x) (hset : Sets h x path r w s rest b)
    (hb : h.Brings A (.ref r) (keySteps path) x) {y : Value} (hy : h.Reads x y) :
    ∃ qs, Entries.setPath y path ps = .ok qs ∧
      (putNested x s rest b h).Reads (.ref r) (dict qs) := by
  obtain ⟨fs, hf, hp⟩ := hset.prepared hh hr hs hx hb
  obtain ⟨rfl, hw, -, hvacant⟩ := hset
  -- the tree is set at the same place
  obtain ⟨qs, hd, hqs⟩ := hv.getPath_dict hw ⟨fs, hf⟩
  have hvacant' : rest ≠ [] →
      Entries.get? (str s) qs = none ∨ Entries.get? (str s) qs = some null := by
    intro hne
    rcases hqs.get? s with ⟨_, hnone⟩ | ⟨m, z, hm, hz, hmz⟩
    · exact .inl hnone
    · rcases hvacant hne with hs | hs
      · rw [hm] at hs
        cases hs
      · rw [hm] at hs
        cases hs
        obtain ⟨-, rfl⟩ := reads_leaf.mp hmz
        exact .inr hz
  refine ⟨_, Entries.setPath_alterAt hd hvacant', ?_⟩
  have hv' : (nest x rest h).2.Reads (.ref r) (dict ps) := by
    obtain ⟨cs, hcs⟩ := hp.grown
    obtain ⟨k, hk⟩ := hv
    exact ⟨k, by rw [hcs, hh.read_append hr.within cs k, hk]⟩
  refine hp.proper.reads_change ((getPath_eq _ _ _).trans hp.leads)
    (fun z hz => (hp.solo ⟨fs, hp.fields⟩ hp.leads hz hwA).symm) ?_ ⟨fs, hp.fields⟩ hv'
  intro qs hqs
  obtain ⟨_, he, hrows⟩ := (reads_dict hp.fields).mp hqs
  cases he
  refine (reads_dict ((fields?_change hp.fields _).trans (if_pos rfl))).mpr ⟨_, rfl, ?_⟩
  refine forall₂_put (fun _ _ hfp => hfp.1) hrows (hp.proper.distinct b fs hp.fields)
    (fun f hm p _ hfp =>
      ⟨hfp.1, hp.proper.reads_past hfp.2 (hqs.past hp.proper hp.fields hm) _⟩) ⟨rfl, ?_⟩
  exact hp.proper.reads_past (reads_nest hh hx hy rest)
    (fun z hz => hwA (hp.brings.apart ⟨fs, hp.fields⟩ hp.leads hz).1) _

end Reads

/-- Where a path cannot be set in the objects, it cannot be set in the tree, for the same reason. -/
theorem setPath_eq_error (hh : h.Proper) (hv : h.Reads (.ref r) (dict ps)) {e : Error} (y : Value)
    (he : h.setPath x path r = .error e) : Entries.setPath y path ps = .error e := by
  induction path generalizing r ps with
  | nil => cases he
  | cons s rest ih =>
    cases rest with
    | nil => cases he
    | cons t rest =>
      rw [setPath] at he
      · rcases hv.get? s with ⟨hm, _⟩ | ⟨m, z, hm, hz, hmz⟩
        · rw [hm] at he
          cases he
        · rw [hm] at he
          cases m with
          | leaf u =>
            obtain ⟨hu, rfl⟩ := reads_leaf.mp hmz
            cases z with
            | null => cases he
            | dict ps => cases hu
            | _ =>
              cases he
              rw [Entries.setPath, hz]
              simp
          | ref c =>
            dsimp only at he
            by_cases hd : h.IsDict c
            · obtain ⟨fs, hf⟩ := hd
              obtain ⟨cs, rfl⟩ := hmz.dict_of_isDict ⟨fs, hf⟩
              rw [hf] at he
              rw [Entries.setPath, hz]
              · change (Entries.setPath y (t :: rest) cs).map _ = _
                rw [ih hmz he]
                rfl
              · simp
            · have hf : h.fields? c = none := by
                rw [Option.eq_none_iff_forall_ne_some]
                exact fun fs hf => hd ⟨fs, hf⟩
              rw [hf, hh.tree_eq_some_iff.mpr hmz] at he
              cases he
              rw [Entries.setPath, hz]
              · obtain ⟨frame, vs, rfl⟩ := hmz.frame_of_not_isDict hd
                cases frame <;> rfl
              · simp
      · simp

end Heap

end DocStore
