import DocStore.Proofs.Query.Faithful
import DocStore.Proofs.Query.Projected
import DocStore.Proofs.Query.Upholding

/-! Projections of documents as objects. A path that is kept is copied, and what has several places
in a copy has the same ones in the document, so that setting it again at one of them changes nothing
at the others. A path that is left out is taken from the document, as an update takes it. -/

namespace DocStore

open Value

namespace Heap

variable {h : Heap} {b : Nat} {s : String} {n m x : Node} {v w : Value}
  {fs : List (Value × Node)}

/-- An entry that is replaced by a node for the same value. -/
theorem Proper.reads_replace (hh : h.Proper) (hb : h.get? b s = some n) (hn : h.Reads n v)
    (hx : h.Reads x v) (hpast : ∀ p, h.edges.leads p x ≠ some (.ref b)) (hm : h.Reads m w) :
    (h.change b (Entries.put (str s) x)).Reads m w := by
  obtain ⟨fs, hf⟩ := isDict_of_get? hb
  have hx' := hh.reads_past hx hpast (Entries.put (str s) x)
  obtain ⟨k, hk⟩ := hm
  induction k generalizing m w with
  | zero =>
    cases m with
    | ref a => cases hk
    | leaf u => exact ⟨0, hk⟩
  | succ k ih =>
    cases m with
    | leaf u => exact ⟨k + 1, hk⟩
    | ref a =>
      obtain ⟨_, _, ⟨gs, hg⟩ | ⟨frame, ns, hc⟩⟩ := read_ref_cases hk
      · obtain ⟨ps, rfl, hps⟩ := (read_dict_iff hg).mp hk
        have hrows : List.Forall₂ (fun f p => f.1 = p.1 ∧
            (h.change b (Entries.put (str s) x)).Reads f.2 p.2) gs ps :=
          hps.imp fun _ _ hfp => ⟨hfp.1, ih hfp.2⟩
        by_cases hab : a = b
        · subst hab
          rw [hf] at hg
          cases hg
          have hsame : Entries.get? (str s) ps = some v := by
            have hv : h.Reads (.ref a) (dict ps) := ⟨k + 1, hk⟩
            rcases hv.get? s with ⟨hnone, _⟩ | ⟨n', u, hn', hu, hnu⟩
            · rw [hb] at hnone
              cases hnone
            · rw [hb] at hn'
              cases hn'
              rw [hu, hnu.unique hn]
          refine (reads_dict ((fields?_change hf _).trans (if_pos rfl))).mpr ⟨_, rfl, ?_⟩
          rw [← Entries.put_same hsame]
          exact forall₂_put (fun _ _ hfp => hfp.1) hrows (hh.distinct a fs hf)
            (fun _ _ _ _ hfp => hfp) ⟨rfl, hx'⟩
        · exact (reads_dict ((fields?_change hf _).trans ((if_neg hab).trans hg))).mpr
            ⟨ps, rfl, hrows⟩
      · obtain ⟨vs, rfl, hvs⟩ := (read_fixed_iff hc).mp hk
        have hab : a ≠ b := by
          rintro rfl
          rw [fields?_eq_some, hc] at hf
          cases hf
        exact (reads_fixed ((getElem?_change_past _ hab).trans hc)).mpr
          ⟨vs, rfl, hvs.imp fun _ _ hu => ih hu⟩

end Heap

/-- The places at and under paths that lead to the same in two documents. -/
def Agreed (qs ds : Entries) (p : Place) : Prop :=
  ∃ q, getPath q (dict qs) = getPath q (dict ds) ∧ keySteps q <+: p

namespace Objects

variable {idField : String} {cs : Choices} {ds qs : Entries} {o r u : Objects} {n : Node} {v : Value}
  {path : List String}

/-- Copies of a document's parts. Where a dictionary of them stands at several places, these are
places at which the document has the same. -/
structure Draft (ds : Entries) (r : Objects) (qs : Entries) : Prop where
  proper : r.Proper
  solo : r.heap.Solo (Agreed qs ds) (.ref r.root)
  reads : r.heap.Reads (.ref r.root) (dict qs)
  part : Part (dict qs) (dict ds)

theorem draft_empty (ds : Entries) : Draft ds ⟨[.dict []], 0⟩ [] := by
  have hf : Heap.fields? [.dict []] 0 = some [] := rfl
  refine ⟨⟨Heap.proper_of_cells (by simp) (by simp), [], rfl⟩, fun y z c _ hy hz _ => ?_,
    (Heap.reads_dict hf).mpr ⟨[], rfl, .nil⟩, .empty ds⟩
  have hnil {y : Place} (hy : (Heap.edges [.dict []]).leads y (.ref 0) = some (.ref c)) :
      y = [] := by
    cases y with
    | nil => rfl
    | cons st y => cases st <;> cases hy
  rw [hnil hy, hnil hz]

/-- The dictionary that is set in has the value already, if it stands at a place at which the
document has the same. -/
theorem Draft.vacuous (h : Draft ds r qs) {s : String} {w rest : List String} {b : Nat} {x : Node}
    (hsets : Heap.Sets r.heap x path r.root w s rest b) (hv : getPath path (dict ds) = some v)
    (hw : getPath w (dict qs) = getPath w (dict ds)) :
    rest = [] ∧ getPath path (dict qs) = some v ∧
      ∃ n, r.heap.get? b s = some n ∧ r.heap.Reads n v := by
  obtain ⟨rfl, hlead, hb, hvacant⟩ := hsets
  obtain ⟨bs, hbs, hreads⟩ := h.reads.getPath_dict hlead hb
  have hqs : getPath (w ++ s :: rest) (dict qs) = some v := by
    rw [getPath_append] at hv ⊢
    rw [hw, hv]
  have hrest := hqs
  rw [getPath_append, hbs, Option.bind_some, getPath_dict] at hrest
  obtain ⟨y, hy, hyv⟩ := Option.bind_eq_some_iff.mp hrest
  rcases hreads.get? s with ⟨_, hnone⟩ | ⟨n, y', hn, hy', hny⟩
  · rw [hnone] at hy
    cases hy
  · rw [hy] at hy'
    cases hy'
    cases rest with
    | nil =>
      cases hyv
      exact ⟨rfl, hqs, n, hn, hny⟩
    | cons t rest =>
      exfalso
      rcases hvacant (by simp) with hs | hs
      · rw [hn] at hs
        cases hs
      · rw [hn] at hs
        cases hs
        obtain ⟨-, rfl⟩ := Heap.reads_leaf.mp hny
        cases hyv

/-- A path of the document is copied. -/
theorem Draft.copyAt (h : Draft ds r qs) {u : Heap} (hu : u.Proper) (hn : u.Within n)
    (hnv : u.Reads n v) (hp : path ≠ []) (hv : getPath path (dict ds) = some v) :
    ∃ r' qs', r.copyAt path u n = .ok r' ∧ Entries.setPath v path qs = .ok qs' ∧
      Draft ds r' qs' := by
  obtain ⟨qs', hset, hpart⟩ := Entries.setPath_part hp h.part hv
  -- the places of the copy are those of the document, once it is set
  have hagreed {y : Place} (hy : Agreed qs ds y ∨ keySteps path <+: y) : Agreed qs' ds y := by
    rcases hy with ⟨q, hq, hqy⟩ | hy
    · exact ⟨q, Entries.setPath_agree hp hv hset hq, hqy⟩
    · exact ⟨path, (Entries.getPath_setPath hp hset).trans hv.symm, hy⟩
  have hwithin := h.proper.root.within
  have hgraft : Draft ds ⟨r.heap.graft u, r.root⟩ qs := by
    obtain ⟨k, hk⟩ := h.reads
    exact ⟨⟨h.proper.heap.graft hu, (Heap.isDict_append_old _ hwithin).mpr h.proper.root⟩,
      h.solo.append h.proper.heap hwithin _, ⟨k, (h.proper.heap.read_append hwithin _ k).trans hk⟩,
      h.part⟩
  have hx : (r.heap.graft u).Within (n.shift r.heap.length) := Heap.within_shift hn
  have hxv : (r.heap.graft u).Reads (n.shift r.heap.length) v := by
    obtain ⟨k, hk⟩ := hnv
    exact ⟨k, (Heap.read_shift k n).trans hk⟩
  have hsolo : (r.heap.graft u).Solo (fun y => Agreed qs ds y ∨ keySteps path <+: y)
      (.ref r.root) := hgraft.solo.mono fun _ => .inl
  have hbrings : (r.heap.graft u).Brings (fun y => Agreed qs ds y ∨ keySteps path <+: y)
      (.ref r.root) (keySteps path) (n.shift r.heap.length) :=
    Heap.brings_graft h.proper.heap hwithin fun y _ _ _ _ _ hy =>
      absurd (.inr (List.prefix_append _ y)) hy
  rw [Objects.copyAt, setAt]
  cases hrun : (r.heap.graft u).setPath (n.shift r.heap.length) path r.root with
  | error e =>
    rw [Heap.setPath_eq_error hgraft.proper.heap hgraft.reads v hrun] at hset
    cases hset
  | ok heap =>
    obtain ⟨w, s, rest, b, hsets, rfl⟩ := Heap.setPath_eq_ok hp hgraft.proper.root hrun
    have hbelow (y z : Place) (hy : Agreed qs ds y ∨ keySteps path <+: y) :
        Agreed qs ds (y ++ z) ∨ keySteps path <+: y ++ z := by
      rcases hy with ⟨q, hq, hqy⟩ | hy
      · exact .inl ⟨q, hq, hqy.trans (List.prefix_append y z)⟩
      · exact .inr (hy.trans (List.prefix_append y z))
    have hkept :=
      Heap.kept_put hgraft.proper.heap hgraft.proper.root hsolo hbelow hx hsets hbrings
    refine ⟨_, qs', rfl, hset, ⟨⟨hkept.proper, hkept.isDict⟩,
      hkept.solo.mono fun _ => hagreed, ?_, hpart⟩⟩
    by_cases hw : Agreed qs ds (keySteps w) ∨ keySteps path <+: keySteps w
    · have hsame : getPath w (dict qs) = getPath w (dict ds) := by
        rcases hw with ⟨q, hq, hqw⟩ | hpw
        · exact getPath_under hq (isPrefix_of_keySteps hqw)
        · have hlen := (isPrefix_of_keySteps hpw).length_le
          rw [hsets.path_eq, List.length_append, List.length_cons] at hlen
          omega
      obtain ⟨rfl, hqs, m, hm, hmv⟩ := hgraft.vacuous hsets hv hsame
      rw [Entries.setPath_same hp hqs] at hset
      cases hset
      have hlead := hsets.leads
      rw [Heap.getPath_eq] at hlead
      exact hgraft.proper.heap.reads_replace hm hmv hxv
        (fun _ => Heap.graft_apart h.proper.heap hwithin hlead) hgraft.reads
    · obtain ⟨_, hset', hreads⟩ := Heap.reads_put hgraft.proper.heap hsolo hw hgraft.reads
        hgraft.proper.root hx hsets hbrings hxv
      rw [hset] at hset'
      cases hset'
      exact hreads

/-! Keeping paths -/

section Keep

variable {p : String} {keep : Bool}

theorem keepPaths_skipped (h : keep = false ∨ p = idField) :
    Objects.keepPaths idField o ((str p, keep) :: cs) r = Objects.keepPaths idField o cs r := by
  rw [Objects.keepPaths, if_pos]
  rcases h with rfl | rfl <;> simp

theorem keepPaths_missing (hp : p ≠ idField) (h : o.getAt (segments p) = none) :
    Objects.keepPaths idField o ((str p, true) :: cs) r = Objects.keepPaths idField o cs r := by
  have hne : ¬ (!true || equal (str p) (str idField)) = true :=
    fun h => hp (Value.str.inj (equal_str_right.mp h))
  rw [Objects.keepPaths, if_neg hne]
  simp only [h]

theorem keepPaths_found (hp : p ≠ idField) (h : o.getAt (segments p) = some n) :
    Objects.keepPaths idField o ((str p, true) :: cs) r =
      (r.copyAt (segments p) o.heap n).bind (Objects.keepPaths idField o cs) := by
  have hne : ¬ (!true || equal (str p) (str idField)) = true :=
    fun h => hp (Value.str.inj (equal_str_right.mp h))
  rw [Objects.keepPaths, if_neg hne]
  simp only [h]

/-- Objects that are worked on with the value that they stand for as guide. -/
theorem keepPaths_draft (idField : String) (hc : cs.Textual) (ho : o.Proper)
    (hd : o.heap.Reads (.ref o.root) (dict ds)) (h : Draft ds r qs) :
    ∃ r' res, Objects.keepPaths idField o cs r = .ok r' ∧
      DocStore.keepPaths idField (dict ds) cs qs = .ok res ∧ Draft ds r' res := by
  induction cs generalizing r qs with
  | nil => exact ⟨r, qs, rfl, rfl, h⟩
  | cons c cs ih =>
    obtain ⟨k, keep⟩ := c
    obtain ⟨p, rfl⟩ : ∃ n, k = str n := hc _ List.mem_cons_self
    by_cases hskip : keep = false ∨ p = idField
    · rw [keepPaths_skipped hskip, DocStore.keepPaths_skipped hskip]
      exact ih hc.tail h
    · obtain ⟨hkeep, hp⟩ := not_or.mp hskip
      obtain rfl := eq_true_of_ne_false hkeep
      rcases hd.getPath (segments p) with ⟨hm, hv⟩ | ⟨m, v, hm, hv, hmv⟩
      · rw [keepPaths_missing hp hm, DocStore.keepPaths_missing hp hv]
        exact ih hc.tail h
      · have hwithin : o.heap.Within m :=
          ho.heap.leads_within ho.root.within ((Heap.getPath_eq _ _ _).symm.trans hm)
        obtain ⟨r', qs', hcopy, hset, h'⟩ :=
          h.copyAt ho.heap hwithin hmv (segments_ne_nil p) hv
        rw [keepPaths_found hp hm, DocStore.keepPaths_found hp hv, hcopy, hset]
        exact ih hc.tail h'

theorem withId_draft (idField : String) (ho : o.Proper)
    (hd : o.heap.Reads (.ref o.root) (dict ds)) (wanted : Bool) :
    ∃ r, withId idField wanted o = .ok r ∧ Draft ds r (idEntry idField wanted ds) := by
  cases wanted with
  | false => exact ⟨_, rfl, draft_empty ds⟩
  | true =>
    unfold withId idEntry
    rcases hd.getPath [idField] with ⟨hm, hv⟩ | ⟨m, v, hm, hv, hmv⟩
    · rw [show o.getAt [idField] = none from hm]
      have hnone : Entries.get? (str idField) ds = none := by simpa [getPath_dict, getPath] using hv
      rw [hnone]
      exact ⟨_, rfl, draft_empty ds⟩
    · rw [show o.getAt [idField] = some m from hm]
      have hsome : Entries.get? (str idField) ds = some v := by
        simpa [getPath_dict, getPath] using hv
      rw [hsome]
      have hwithin : o.heap.Within m :=
        ho.heap.leads_within ho.root.within ((Heap.getPath_eq _ _ _).symm.trans hm)
      obtain ⟨r, qs, hcopy, hset, h⟩ := (draft_empty ds).copyAt ho.heap hwithin hmv (by simp) hv
      cases hset
      exact ⟨r, hcopy, h⟩

end Keep

/-! Leaving paths out -/

/-- What was taken from a path is there no more, and nothing has come to be where nothing was. -/
theorem getAt_taken (ho : o.Proper) (h : popAt path o = some (n, r)) :
    r.getAt path = none ∧ ∀ q, o.getAt q = none → r.getAt q = none := by
  obtain ⟨w, s, b, rfl, hw, hm, rfl⟩ := popAt_eq_some h
  obtain ⟨fs, hf⟩ := Heap.isDict_of_get? hm
  simp only [getAt, Heap.getPath_eq, Heap.edges_erase ho.heap hf, Option.eq_none_iff_forall_ne_some]
  constructor
  · intro m hlead
    rw [keySteps_append, Edges.leads_append] at hlead
    obtain ⟨x, hx, hlast⟩ := Option.bind_eq_some_iff.mp hlead
    have hxb := Edges.leads_of_set_none hx
    rw [← Heap.getPath_eq, hw] at hxb
    cases hxb
    change ((Edges.set _ b (.key s) none) b (.key s)).bind _ = _ at hlast
    rw [Edges.set_here] at hlast
    cases hlast
  · exact fun q hq m hlead => hq m (Edges.leads_of_set_none hlead)

theorem taken_tree (ho : o.Proper) (hd : o.tree = some (dict ds))
    (h : popAt path o = some (n, r)) : r.Proper ∧ ∃ qs, r.tree = some (dict qs) := by
  obtain ⟨w, s, b, -, -, -, rfl⟩ := popAt_eq_some h
  have hproper := ho.heap.erase b s
  have hroot : (o.heap.change b (Entries.erase (str s))).IsDict o.root :=
    (Heap.isDict_change _).mpr ho.root
  obtain ⟨v, hv⟩ := (ho.heap.tree_eq_some_iff.mp hd).erased b s
  obtain ⟨qs, rfl⟩ := hv.dict_of_isDict hroot
  exact ⟨⟨hproper, hroot⟩, qs, hproper.tree_eq_some_iff.mpr hv⟩

/-- What leaving paths out leaves of a document, whatever stands at several places in it. -/
structure Taken (cs : Choices) (o r : Objects) (qs : Entries) : Prop where
  tree : r.tree = some (dict qs)
  left : ∀ p, (str p, false) ∈ cs → r.getAt (segments p) = none
  less : ∀ q, o.getAt q = none → r.getAt q = none

theorem dropPaths_taken {N : String → Prop} {u : Heap} (hc : cs.Textual)
    (hN : ∀ p, (str p, false) ∈ cs → N p) (ho : o.Proper) (hd : o.tree = some (dict ds)) :
    ∃ r qs, Objects.dropPaths cs o = .ok r ∧ Edits N u o r ∧ Taken cs o r qs := by
  induction cs generalizing o ds with
  | nil => exact ⟨o, ds, rfl, .refl, hd, by simp, fun _ h => h⟩
  | cons c cs ih =>
    obtain ⟨k, keep⟩ := c
    obtain ⟨p, rfl⟩ : ∃ n, k = str n := hc _ List.mem_cons_self
    have hrest : ∀ p, (str p, false) ∈ cs → N p := fun p h => hN p (List.mem_cons_of_mem _ h)
    cases keep with
    | true =>
      rw [Objects.dropPaths, if_pos rfl]
      obtain ⟨r, qs, hrun, hedits, htree, hleft, hless⟩ := ih hc.tail hrest ho hd
      exact ⟨r, qs, hrun, hedits, htree, fun p h => hleft p (by simpa using h), hless⟩
    | false =>
      rw [Objects.dropPaths, if_neg Bool.false_ne_true]
      have hleft {o r : Objects} (hp : o.getAt (segments p) = none)
          (hless : ∀ q, o.getAt q = none → r.getAt q = none)
          (hothers : ∀ p, (str p, false) ∈ cs → r.getAt (segments p) = none) :
          ∀ q, (str q, false) ∈ (str p, false) :: cs → r.getAt (segments q) = none := by
        intro q hq
        rcases List.mem_cons.mp hq with he | hq
        · cases he
          exact hless _ hp
        · exact hothers q hq
      cases hpop : popAt (segments p) o with
      | none =>
        have hnone : o.getAt (segments p) = none :=
          (Heap.popPath_eq_none_iff (segments_ne_nil p)).mp (Option.map_eq_none_iff.mp hpop)
        obtain ⟨r, qs, hrun, hedits, htree, hothers, hless⟩ := ih hc.tail hrest ho hd
        exact ⟨r, qs, hrun, hedits, htree, hleft hnone hless hothers, hless⟩
      | some t =>
        obtain ⟨n, o'⟩ := t
        obtain ⟨hnone, hfewer⟩ := getAt_taken ho hpop
        obtain ⟨ho', ds', hd'⟩ := taken_tree ho hd hpop
        obtain ⟨r, qs, hrun, hedits, htree, hothers, hless⟩ := ih hc.tail hrest ho' hd'
        exact ⟨r, qs, hrun, hedits.head (.take (hN p List.mem_cons_self) hpop), htree,
          hleft hnone hless hothers, fun q hq => hless q (hfewer q hq)⟩

theorem dropPaths_absent (hc : cs.Textual)
    (h : ∀ p, (str p, false) ∈ cs → o.getAt (segments p) = none) :
    Objects.dropPaths cs o = .ok o := by
  induction cs with
  | nil => rfl
  | cons c cs ih =>
    obtain ⟨k, keep⟩ := c
    obtain ⟨p, rfl⟩ : ∃ n, k = str n := hc _ List.mem_cons_self
    have hrest := ih hc.tail fun q hq => h q (List.mem_cons_of_mem _ hq)
    cases keep with
    | true => rw [Objects.dropPaths, if_pos rfl, hrest]
    | false =>
      have hpop : popAt (segments p) o = none := Option.map_eq_none_iff.mpr
        ((Heap.popPath_eq_none_iff (segments_ne_nil p)).mpr (h p List.mem_cons_self))
      rw [Objects.dropPaths, if_neg Bool.false_ne_true, hpop]
      exact hrest

/-- Where no dictionary stands at two places, leaving paths out of objects is leaving them out of
what they stand for. -/
theorem dropPaths_embodies (hc : cs.Textual) (h : o.Embodies (dict ds)) :
    ∃ r res, Objects.dropPaths cs o = .ok r ∧ DocStore.dropPaths cs ds = .ok res ∧
      r.Embodies (dict res) := by
  induction cs generalizing o ds with
  | nil => exact ⟨o, ds, rfl, rfl, h⟩
  | cons c cs ih =>
    obtain ⟨k, keep⟩ := c
    obtain ⟨p, rfl⟩ : ∃ n, k = str n := hc _ List.mem_cons_self
    rw [DocStore.dropPaths, Objects.dropPaths]
    cases keep with
    | true =>
      rw [if_pos rfl, if_pos rfl]
      exact ih hc.tail h
    | false =>
      rw [if_neg Bool.false_ne_true, if_neg Bool.false_ne_true]
      rcases h.popAt (segments_ne_nil p) with ⟨hn, hv⟩ | ⟨n, o', v, d', hn, hv, h', -⟩
      · rw [Value.popAt, Option.map_eq_none_iff] at hv
        rw [hv, hn]
        exact ih hc.tail h
      · obtain ⟨⟨w, qs⟩, hpop, he⟩ := Option.map_eq_some_iff.mp hv
        cases he
        rw [hpop, hn]
        exact ih hc.tail h'

/-! Projections -/

section Project

variable {projection : Entries}

theorem project_choices (h : projection ≠ []) (o : Objects) :
    Objects.project idField (dict projection) o =
      Objects.projectChoices idField (dict projection) (choices projection) o := by
  cases projection with
  | nil => exact absurd rfl h
  | cons q rest => rfl

/-- Keeping paths of objects gives objects for what keeping them of the document gives, also where
a dictionary stands at several places. -/
theorem project_keeping (hp : projection.Keyed) (ht : ∃ p, Chooses projection true p)
    (hf : ∀ p, Chooses projection false p → p = idField) (ho : o.Proper)
    (hd : o.tree = some (dict ds)) :
    ∃ r res, Objects.project idField (dict projection) o = .ok r ∧
      DocStore.project idField (dict projection) (dict ds) = .ok (dict res) ∧ r.Proper ∧
      r.tree = some (dict res) := by
  obtain ⟨p, h⟩ := ht
  obtain ⟨hmix, hkeep⟩ := (chosen_keeping hp ⟨p, h⟩ hf).elim keeping_of_chosen
  have hreads := ho.heap.tree_eq_some_iff.mp hd
  obtain ⟨r₀, hid, hdraft⟩ := withId_draft idField ho hreads
    (wantsId idField projection)
  obtain ⟨r, res, hrun, hres, h'⟩ :=
    keepPaths_draft idField (choices_textual hp) ho hreads hdraft
  refine ⟨r, res, ?_, ?_, h'.proper, h'.proper.heap.tree_eq_some_iff.mpr h'.reads⟩
  · rw [project_choices (ne_nil_of_chooses h), projectChoices]
    rw [hmix, hkeep, if_neg Bool.false_ne_true, if_pos rfl]
    exact except_bind_eq_ok.mpr ⟨r₀, hid, hrun⟩
  · rw [DocStore.project_keeping hp ⟨p, h⟩ hf, hres]
    rfl

theorem project_leaving (hp : projection.Keyed) (hne : projection ≠ [])
    (hl : Leaves idField projection) (o : Objects) :
    Objects.project idField (dict projection) o =
      Objects.dropPaths (choices projection) o := by
  obtain ⟨hmix, hleave⟩ := (chosen_leaving hp hl.only hl.some).elim leaving_of_chosen
  rw [project_choices hne, projectChoices, hmix, hleave, if_neg Bool.false_ne_true,
    if_neg Bool.false_ne_true]

/-- What is left of a document where paths are left out. -/
structure Exclusion (projection : Entries) (o r : Objects) (ds res : Entries) : Prop where
  left : ∀ p, Chooses projection false p → getPath (segments p) (dict res) = none
  rest : ∀ q, (∀ p, Chooses projection false p → Aloof (segments p) q) → o.Unechoed r q →
    getPath q (dict res) = getPath q (dict ds)

theorem project_exclusion (hp : projection.Keyed) (hl : Leaves idField projection) (ho : o.Proper)
    (hd : o.tree = some (dict ds)) : ∃ r res,
      Objects.project idField (dict projection) o = .ok r ∧ r.tree = some (dict res) ∧
      Objects.project idField (dict projection) r = .ok r ∧ Exclusion projection o r ds res ∧
      (o.Unshared → DocStore.project idField (dict projection) (dict ds) = .ok (dict res)) := by
  by_cases hne : projection = []
  · subst hne
    refine ⟨o, ds, rfl, hd, rfl, ⟨fun p h => ?_, fun _ _ _ => rfl⟩, fun _ => rfl⟩
    obtain ⟨v, hm, _⟩ := h
    cases hm
  · have hc := choices_textual hp
    obtain ⟨r, res, hrun, hedits, htree, hleft, -⟩ := dropPaths_taken (u := o.heap) hc
      (N := Chooses projection false) (fun p h => mem_choices.mp h) ho hd
    have hproper := hedits.proper ho ho.heap
    refine ⟨r, res, (project_leaving hp hne hl o).trans hrun, htree,
      (project_leaving hp hne hl r).trans (dropPaths_absent hc hleft),
      ⟨fun p h => ?_, fun q hq hal => ?_⟩, fun hs => ?_⟩
    · rw [← hproper.valueAt htree, valueAt, hleft p (mem_choices.mpr h), Option.bind_none]
    · rw [← hproper.valueAt htree, ← ho.valueAt hd]
      exact (hedits.frame ho ho.heap hq hal).2
    · obtain ⟨r', res', hrun', hres, hembodies⟩ := dropPaths_embodies hc ⟨ho, hs, hd⟩
      rw [hrun] at hrun'
      cases hrun'
      have htree' := hembodies.tree
      rw [htree] at htree'
      cases htree'
      rw [DocStore.project_leaving hp hne hl.only hl.some, hres]
      rfl

/-- A projection that does not mix what it keeps with what it leaves out never fails, leaves
nothing to do for a second time, and gives exactly the paths that it names. Where it leaves paths
out, another path is as it was unless something was taken from a dictionary that stands on its way
or below its end, and at a second place. A document without such dictionaries is projected as the
value that it stands for. -/
theorem project_exact (hp : projection.Keyed) (ho : o.Proper) (hd : o.tree = some (dict ds))
    (hm : (∀ p, Chooses projection true p → p = idField) ∨
      ∀ p, Chooses projection false p → p = idField) :
    ∃ r r' res, Objects.project idField (dict projection) o = .ok r ∧ r.tree = some (dict res) ∧
      Objects.project idField (dict projection) r = .ok r' ∧ r'.tree = some (dict res) ∧
      (Keeps idField projection → Inclusion idField projection ds res) ∧
      (Leaves idField projection → Exclusion projection o r ds res) ∧
      (Keeps idField projection ∨ o.Unshared →
        DocStore.project idField (dict projection) (dict ds) = .ok (dict res)) := by
  rcases keeps_or_leaves hm with hkeep | hleave
  · obtain ⟨res, hone, htwo, hres⟩ := project_inclusion hp hkeep.some hkeep.only ds
    obtain ⟨r, _, hr, hr', hproper, htree⟩ := project_keeping hp hkeep.some hkeep.only ho hd
    rw [hone] at hr'
    cases hr'
    obtain ⟨r', _, hagain, hres', _, htree'⟩ :=
      project_keeping hp hkeep.some hkeep.only hproper htree
    rw [htwo] at hres'
    cases hres'
    exact ⟨r, r', res, hr, htree, hagain, htree', fun _ => hres,
      fun hleave => absurd hkeep hleave.not_keeps, fun _ => hone⟩
  · obtain ⟨r, res, hr, htree, hagain, hres, hpure⟩ := project_exclusion hp hleave ho hd
    exact ⟨r, r, res, hr, htree, hagain, htree, fun hkeep => absurd hkeep hleave.not_keeps,
      fun _ => hres, fun h => hpure (h.resolve_left hleave.not_keeps)⟩

end Project

/-- A path, what it leads through, and no identifier. -/
def overlapping : Entries := [(str "a.b", int 1), (str "_id", bool false), (str "a", bool true)]

/-- A document with one dictionary at two places. -/
def doubled : Objects :=
  ⟨[.dict [(str "c", .leaf (int 2)), (str "b", .leaf (int 3))],
    .dict [(str "_id", .leaf (int 1)), (str "a", .ref 0), (str "z", .ref 0)]], 1⟩

def doubledFields : Entries :=
  [(str "_id", int 1), (str "a", dict [(str "c", int 2), (str "b", int 3)]),
    (str "z", dict [(str "c", int 2), (str "b", int 3)])]

theorem overlapping_keyed : overlapping.Keyed := ⟨by simp [overlapping], by simp [overlapping]⟩

theorem overlapping_left {p : String} (h : Chooses overlapping false p) : p = "_id" := by
  obtain ⟨v, hm, hv⟩ := h
  simp only [overlapping, List.mem_cons, Prod.mk.injEq, Value.str.injEq, List.not_mem_nil,
    or_false] at hm
  rcases hm with ⟨-, rfl⟩ | ⟨rfl, -⟩ | ⟨-, rfl⟩
  · cases hv
  · rfl
  · cases hv

theorem overlapping_keeps : Keeps "_id" overlapping :=
  ⟨⟨"a", bool true, by simp [overlapping], rfl⟩, fun _ h => overlapping_left h⟩

theorem doubled_proper : doubled.Proper := by
  refine ⟨Heap.proper_of_cells ?_ ?_, _, rfl⟩
  · simp [doubled, equal_str, Heap.Within, or_imp, forall_and]
  · simp [doubled]

theorem project_overlapping : ∃ r, Objects.project "_id" (dict overlapping) doubled = .ok r ∧
    r.tree = some (dict [(str "a", dict [(str "c", int 2), (str "b", int 3)])]) ∧
    Inclusion "_id" overlapping doubledFields
      [(str "a", dict [(str "c", int 2), (str "b", int 3)])] := by
  have hd : doubled.tree = some (dict doubledFields) := rfl
  obtain ⟨r, -, res, hr, htree, -, -, hkept, -⟩ := project_exact overlapping_keyed doubled_proper
    hd (.inr fun _ h => overlapping_left h)
  have hrun : (Objects.project "_id" (dict overlapping) doubled).toOption.bind tree =
      some (dict [(str "a", dict [(str "c", int 2), (str "b", int 3)])]) := rfl
  rw [hr] at hrun
  change r.tree = _ at hrun
  rw [hrun] at htree
  cases htree
  exact ⟨r, hr, hrun, hkept overlapping_keeps⟩

/-- An identifier with a dot in its name is a key of the document and not a path through it. What is
left out under one name of an object is left out under its other names too. -/
theorem project_dotted_id :
    (Chooses [(str "a.b", bool true)] true "a.b" ∧
      getPath (segments "a.b") (dict [(str "a", dict [(str "b", int 1)])]) = some (int 1) ∧
      (Objects.project "a.b" (dict [(str "a.b", bool true)])
          (ofEntries [(str "a", dict [(str "b", int 1)])])).toOption.bind tree =
        some (dict [])) ∧
      (Objects.project "_id" (dict [(str "a.b", bool false)]) doubled).toOption.bind tree =
        some (dict [(str "_id", int 1), (str "a", dict [(str "c", int 2)]),
          (str "z", dict [(str "c", int 2)])]) ∧
        Aloof (segments "a.b") (segments "z.b") :=
  ⟨⟨⟨bool true, by simp, rfl⟩, rfl, rfl⟩, rfl, by decide, by decide⟩

end Objects

end DocStore
