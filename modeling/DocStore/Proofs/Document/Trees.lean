import DocStore.Proofs.Document.Objects
import Mathlib.Data.List.Perm.Subperm

/-! The values that the nodes of a heap stand for. What a node stands for depends on the containers
below it only, so that a changed dictionary shows at the places where it stands and nowhere else. -/

namespace DocStore

open Value

section Lists

variable {α β : Type} {f g : α → Option β} {xs : List α} {ys : List β}

theorem mapM_eq_some_iff :
    xs.mapM f = some ys ↔ List.Forall₂ (fun x y => f x = some y) xs ys := by
  induction xs generalizing ys with
  | nil => simp [eq_comm]
  | cons x xs ih =>
    rw [List.mapM_cons, List.forall₂_cons_left_iff]
    constructor
    · intro h
      obtain ⟨y, hy, h⟩ := Option.bind_eq_some_iff.mp h
      obtain ⟨zs, hzs, he⟩ := Option.bind_eq_some_iff.mp h
      exact ⟨y, zs, hy, ih.mp hzs, (Option.some.inj he).symm⟩
    · rintro ⟨y, zs, hy, hzs, rfl⟩
      rw [hy, ih.mpr hzs]
      rfl

theorem mapM_congr_mem (h : ∀ x ∈ xs, f x = g x) : xs.mapM f = xs.mapM g := by
  induction xs with
  | nil => rfl
  | cons x xs ih =>
    rw [List.mapM_cons, List.mapM_cons, h x List.mem_cons_self,
      ih fun y hy => h y (List.mem_cons_of_mem x hy)]

/-- Pairs that are related from some bound on are related from a common bound on. -/
theorem forall₂_bound {R : Nat → α → β → Prop} (hR : ∀ j k x y, j ≤ k → R j x y → R k x y)
    (h : List.Forall₂ (fun x y => ∃ k, R k x y) xs ys) : ∃ k, List.Forall₂ (R k) xs ys := by
  induction h with
  | nil => exact ⟨0, .nil⟩
  | cons hxy _ ih =>
    obtain ⟨j, hj⟩ := hxy
    obtain ⟨k, hk⟩ := ih
    exact ⟨max j k, .cons (hR _ _ _ _ (Nat.le_max_left j k) hj)
      (hk.imp fun x y hxy => hR _ _ _ _ (Nat.le_max_right j k) hxy)⟩

theorem forall₂_imp_mem {R S : α → β → Prop} (h : List.Forall₂ R xs ys)
    (hS : ∀ x ∈ xs, ∀ y, R x y → S x y) : List.Forall₂ S xs ys := by
  induction h with
  | nil => exact .nil
  | @cons x y xs ys hxy _ ih =>
    exact .cons (hS x List.mem_cons_self y hxy) (ih fun z hz => hS z (List.mem_cons_of_mem x hz))

theorem exists_forall₂ {R : α → β → Prop} (h : ∀ x ∈ xs, ∃ y, R x y) :
    ∃ ys, List.Forall₂ R xs ys := by
  induction xs with
  | nil => exact ⟨[], .nil⟩
  | cons x xs ih =>
    obtain ⟨⟨y, hy⟩, hxs⟩ := List.forall_mem_cons.mp h
    obtain ⟨ys, hys⟩ := ih hxs
    exact ⟨y :: ys, .cons hy hys⟩

theorem map_eq_map {γ : Type} {f : α → γ} {g : β → γ}
    (h : List.Forall₂ (fun x y => f x = g y) xs ys) : xs.map f = ys.map g := by
  rw [← List.forall₂_eq_eq_eq, List.forall₂_map_left_iff, List.forall₂_map_right_iff]
  exact h

end Lists

namespace Heap

variable {h h' : Heap} {a b j k : Nat} {s : String} {n m : Node} {st : Step} {p : Place}
  {fs : List (Value × Node)} {frame : Frame} {ns : List Node} {v w : Value} {ps : Entries}

theorem read_leaf : h.read k (.leaf v) = if v.isDict then none else some v := by
  cases k <;> rfl

theorem read_dict_iff (hf : h.fields? a = some fs) : h.read (k + 1) (.ref a) = some v ↔
    ∃ ps, v = dict ps ∧
      List.Forall₂ (fun f p => f.1 = p.1 ∧ h.read k f.2 = some p.2) fs ps := by
  have hpair (f : Value × Node) (p : Value × Value) :
      (h.read k f.2).map (Prod.mk f.1) = some p ↔ f.1 = p.1 ∧ h.read k f.2 = some p.2 := by
    rw [Option.map_eq_some_iff]
    constructor
    · rintro ⟨w, hw, rfl⟩
      exact ⟨rfl, hw⟩
    · rintro ⟨hk, hw⟩
      exact ⟨p.2, hw, by rw [hk]⟩
  rw [read, fields?_eq_some.mp hf]
  simp only [Option.map_eq_some_iff, mapM_eq_some_iff, hpair]
  exact exists_congr fun ps => by rw [and_comm, eq_comm]

theorem read_fixed_iff (hc : h[a]? = some (.fixed frame ns)) : h.read (k + 1) (.ref a) = some v ↔
    ∃ vs, v = frame.build vs ∧ List.Forall₂ (fun n w => h.read k n = some w) ns vs := by
  rw [read, hc]
  simp only [Option.map_eq_some_iff, mapM_eq_some_iff]
  exact exists_congr fun vs => by rw [and_comm, eq_comm]

/-- What a node stands for is a dictionary, or made of other items, or no container. -/
theorem read_ref_cases (hv : h.read k (.ref a) = some v) : ∃ j, k = j + 1 ∧
    ((∃ fs, h.fields? a = some fs) ∨ ∃ frame ns, h[a]? = some (.fixed frame ns)) := by
  cases k with
  | zero => cases hv
  | succ j =>
    refine ⟨j, rfl, ?_⟩
    rw [read] at hv
    cases hc : h[a]? with
    | none => simp [hc] at hv
    | some cell =>
      cases cell with
      | dict fs => exact .inl ⟨fs, fields?_eq_some.mpr hc⟩
      | fixed frame ns => exact .inr ⟨frame, ns, rfl⟩

theorem read_succ (hv : h.read k n = some v) : h.read (k + 1) n = some v := by
  induction k generalizing n v with
  | zero =>
    cases n with
    | ref a => cases hv
    | leaf w => exact hv
  | succ k ih =>
    cases n with
    | leaf w => exact hv
    | ref a =>
      obtain ⟨_, _, ⟨fs, hf⟩ | ⟨frame, ns, hc⟩⟩ := read_ref_cases hv
      · obtain ⟨ps, rfl, hps⟩ := (read_dict_iff hf).mp hv
        exact (read_dict_iff hf).mpr ⟨ps, rfl, hps.imp fun f p hfp => ⟨hfp.1, ih hfp.2⟩⟩
      · obtain ⟨vs, rfl, hvs⟩ := (read_fixed_iff hc).mp hv
        exact (read_fixed_iff hc).mpr ⟨vs, rfl, hvs.imp fun n w hnw => ih hnw⟩

theorem read_le (hjk : j ≤ k) (hv : h.read j n = some v) : h.read k n = some v := by
  induction hjk with
  | refl => exact hv
  | step _ ih => exact read_succ ih

/-- What a node stands for, its containers being nested as deep as they may be. -/
def Reads (h : Heap) (n : Node) (v : Value) : Prop := ∃ k, h.read k n = some v

theorem Reads.unique (hv : h.Reads n v) (hw : h.Reads n w) : v = w := by
  obtain ⟨j, hj⟩ := hv
  obtain ⟨k, hk⟩ := hw
  have hj' := read_le (Nat.le_max_left j k) hj
  rw [read_le (Nat.le_max_right j k) hk] at hj'
  exact (Option.some.inj hj').symm

theorem reads_leaf : h.Reads (.leaf v) w ↔ v.isDict = false ∧ w = v := by
  simp only [Reads, read_leaf, exists_const, Option.ite_none_left_eq_some, Bool.not_eq_true,
    Option.some.injEq, eq_comm (a := v)]

theorem reads_dict (hf : h.fields? a = some fs) : h.Reads (.ref a) v ↔
    ∃ ps, v = dict ps ∧ List.Forall₂ (fun f p => f.1 = p.1 ∧ h.Reads f.2 p.2) fs ps := by
  constructor
  · rintro ⟨k, hk⟩
    obtain ⟨k, rfl, -⟩ := read_ref_cases hk
    obtain ⟨ps, rfl, hps⟩ := (read_dict_iff hf).mp hk
    exact ⟨ps, rfl, hps.imp fun f p hfp => ⟨hfp.1, k, hfp.2⟩⟩
  · rintro ⟨ps, rfl, hps⟩
    have hsome := hps.imp fun f p (⟨hkey, k, hk⟩ : f.1 = p.1 ∧ h.Reads f.2 p.2) =>
      (⟨k, hkey, hk⟩ : ∃ k, f.1 = p.1 ∧ h.read k f.2 = some p.2)
    obtain ⟨k, hk⟩ := forall₂_bound (fun _ _ _ _ hjk hfp => ⟨hfp.1, read_le hjk hfp.2⟩) hsome
    exact ⟨k + 1, (read_dict_iff hf).mpr ⟨ps, rfl, hk⟩⟩

theorem reads_fixed (hc : h[a]? = some (.fixed frame ns)) : h.Reads (.ref a) v ↔
    ∃ vs, v = frame.build vs ∧ List.Forall₂ h.Reads ns vs := by
  constructor
  · rintro ⟨k, hk⟩
    obtain ⟨k, rfl, -⟩ := read_ref_cases hk
    obtain ⟨vs, rfl, hvs⟩ := (read_fixed_iff hc).mp hk
    exact ⟨vs, rfl, hvs.imp fun m w hmw => ⟨k, hmw⟩⟩
  · rintro ⟨vs, rfl, hvs⟩
    obtain ⟨k, hk⟩ := forall₂_bound (R := fun k m w => h.read k m = some w)
      (fun _ _ _ _ hjk hr => read_le hjk hr) hvs
    exact ⟨k + 1, (read_fixed_iff hc).mpr ⟨vs, rfl, hk⟩⟩

/-- Only a dictionary stands for one. -/
theorem Reads.isDict_iff (hv : h.Reads (.ref a) v) : h.IsDict a ↔ v.isDict = true := by
  obtain ⟨k, hk⟩ := hv
  obtain ⟨k, rfl, ⟨fs, hf⟩ | ⟨frame, ns, hc⟩⟩ := read_ref_cases hk
  · obtain ⟨ps, rfl, -⟩ := (read_dict_iff hf).mp hk
    exact iff_of_true ⟨fs, hf⟩ rfl
  · obtain ⟨vs, rfl, -⟩ := (read_fixed_iff hc).mp hk
    refine iff_of_false ?_ (by cases frame <;> simp [Frame.build, isDict])
    rintro ⟨fs, hf⟩
    rw [fields?_eq_some, hc] at hf
    cases hf

/-! What stands below a node -/

theorem mem_of_edges (he : h.edges a st = some m) :
    (∃ fs, h.fields? a = some fs ∧ ∃ f ∈ fs, f.2 = m ∧ ∀ s, st = .key s → f.1 = str s) ∨
      ∃ frame ns, h[a]? = some (.fixed frame ns) ∧ m ∈ ns := by
  unfold edges at he
  split at he
  · next fs s hc =>
    refine .inl ⟨fs, fields?_eq_some.mpr hc, _, Entries.mem_of_get? he, rfl, fun t ht => ?_⟩
    cases ht
    rfl
  · next fs i hc =>
    obtain ⟨f, hf, rfl⟩ := Option.map_eq_some_iff.mp he
    refine .inl ⟨fs, fields?_eq_some.mpr hc, f, ?_, rfl, nofun⟩
    exact (List.mem_filter.mp (List.mem_of_getElem? hf)).1
  · next frame ns i hc => exact .inr ⟨frame, ns, hc, List.mem_of_getElem? he⟩
  · cases he

theorem proper_of_cells (hd : ∀ fs, Cell.dict fs ∈ h →
      (fs.Pairwise fun f g => equal f.1 g.1 = false) ∧ ∀ f ∈ fs, h.Within f.2)
    (hc : ∀ frame ns, Cell.fixed frame ns ∈ h → ∀ n ∈ ns, h.Within n) : h.Proper := by
  have hmem {a fs} (hf : h.fields? a = some fs) : Cell.dict fs ∈ h :=
    List.mem_of_getElem? (fields?_eq_some.mp hf)
  refine ⟨fun a fs hf => (hd fs (hmem hf)).1, fun a st n he => ?_⟩
  rcases mem_of_edges he with ⟨fs, hf, f, hm, rfl, -⟩ | ⟨frame, ns, hcell, hm⟩
  · exact (hd fs (hmem hf)).2 f hm
  · exact hc frame ns (List.mem_of_getElem? hcell) n hm

theorem get?_of_mem (hd : fs.Pairwise fun f g => equal f.1 g.1 = false) {f : Value × Node}
    (hf : f ∈ fs) (hk : f.1 = str s) : Entries.get? (str s) fs = some f.2 := by
  induction fs with
  | nil => cases hf
  | cons g fs ih =>
    obtain ⟨hfirst, hrest⟩ := List.pairwise_cons.mp hd
    rcases List.mem_cons.mp hf with rfl | hf
    · exact Entries.get?_here hk fs
    · have hg : g.1 ≠ str s := by
        intro hg
        have hne := hfirst f hf
        rw [hg, hk, equal_str] at hne
        simp at hne
      rw [Entries.get?_past hg]
      exact ih hrest hf

/-- Each entry of a dictionary is met by a step of its own kind. -/
theorem Proper.edge_of_mem (hh : h.Proper) (hf : h.fields? a = some fs) {f : Value × Node}
    (hm : f ∈ fs) : ∃ st, h.edges a st = some f.2 ∧ ∀ s, st = .key s ↔ f.1 = str s := by
  by_cases hs : f.1.isStr = true
  · obtain ⟨s, hk⟩ : ∃ s, f.1 = str s := by
      cases hv : f.1 with
      | str s => exact ⟨s, rfl⟩
      | _ => simp [hv, isStr] at hs
    refine ⟨.key s, ?_, fun t => by simp [hk]⟩
    rw [edges_key, get?_of_fields? hf]
    exact get?_of_mem (hh.distinct a fs hf) hm hk
  · have hm' : f ∈ fs.filter fun g => !g.1.isStr := List.mem_filter.mpr ⟨hm, by simpa using hs⟩
    obtain ⟨i, hi⟩ := List.getElem?_of_mem hm'
    refine ⟨.item i, ?_, fun t => ⟨fun h => (by cases h), fun hk => absurd (by rw [hk]; rfl) hs⟩⟩
    simp only [edges, fields?_eq_some.mp hf, hi, Option.map_some]

/-- What a node stands for depends on the containers below it. -/
theorem Proper.read_congr (hh : h.Proper)
    (hsame : ∀ p a, h.edges.leads p n = some (.ref a) → h'[a]? = h[a]?) (k : Nat) :
    h'.read k n = h.read k n := by
  induction k generalizing n with
  | zero => cases n <;> rfl
  | succ k ih =>
    cases n with
    | leaf v => rfl
    | ref a =>
      have hbelow (st m) (he : h.edges a st = some m) : h'.read k m = h.read k m := by
        refine ih fun p b hp => hsame (st :: p) b ?_
        rw [Edges.leads_ref, he]
        exact hp
      rw [read, read, hsame [] a rfl]
      split
      · next fs hc =>
        refine congrArg _ (mapM_congr_mem fun f hf => ?_)
        obtain ⟨st, he, -⟩ := hh.edge_of_mem (fields?_eq_some.mpr hc) hf
        rw [hbelow st f.2 he]
      · next frame ns hc =>
        refine congrArg _ (mapM_congr_mem fun m hm => ?_)
        obtain ⟨i, hi⟩ := List.getElem?_of_mem hm
        exact hbelow (.item i) m (by simp only [edges, hc, hi])
      · rfl

theorem Proper.read_append (hh : h.Proper) (hn : h.Within n) (cs : Heap) (k : Nat) :
    read (h ++ cs) k n = h.read k n :=
  hh.read_congr (fun _ _ hp => getElem?_append_old cs (hh.leads_within hn hp)) k

/-- A changed dictionary does not show where it does not stand. -/
theorem Proper.read_change (hh : h.Proper) (f : List (Value × Node) → List (Value × Node))
    (hb : ∀ p, h.edges.leads p n ≠ some (.ref b)) (k : Nat) :
    (h.change b f).read k n = h.read k n := by
  refine hh.read_congr (fun p a hp => getElem?_change_past f ?_) k
  rintro rfl
  exact hb p hp

theorem read_shift {u : Heap} (k : Nat) (n : Node) :
    (h.graft u).read k (n.shift h.length) = u.read k n := by
  induction k generalizing n with
  | zero => cases n <;> rfl
  | succ k ih =>
    cases n with
    | leaf v => rfl
    | ref a =>
      change (h.graft u).read (k + 1) (.ref (h.length + a)) = _
      rw [read, read, getElem?_graft]
      cases u[a]? with
      | none => rfl
      | some cell =>
        cases cell with
        | dict fs =>
          simp only [Option.map_some, Cell.shift, List.mapM_map, Function.comp_def, ih]
        | fixed frame ns =>
          simp only [Option.map_some, Cell.shift, List.mapM_map, Function.comp_def, ih]

theorem read_below (hv : h.read k n = some v) (hp : h.edges.leads p n = some m) :
    p.length ≤ k ∧ ∃ w, h.read (k - p.length) m = some w := by
  induction p generalizing k n v with
  | nil =>
    cases hp
    exact ⟨Nat.zero_le k, v, hv⟩
  | cons st p ih =>
    cases n with
    | leaf x => cases hp
    | ref a =>
      obtain ⟨x, hx, hp⟩ := Option.bind_eq_some_iff.mp hp
      obtain ⟨k, rfl, -⟩ := read_ref_cases hv
      obtain ⟨y, hy⟩ : ∃ y, h.read k x = some y := by
        rcases mem_of_edges hx with ⟨fs, hf, f, hmem, rfl, -⟩ | ⟨frame, ns, hc, hmem⟩
        · obtain ⟨ps, -, hps⟩ := (read_dict_iff hf).mp hv
          obtain ⟨q, -, -, hq⟩ := exists_partner hps hmem
          exact ⟨q.2, hq⟩
        · obtain ⟨vs, -, hvs⟩ := (read_fixed_iff hc).mp hv
          obtain ⟨y, -, hy⟩ := exists_partner hvs hmem
          exact ⟨y, hy⟩
      obtain ⟨hle, w, hw⟩ := ih hy hp
      refine ⟨by simpa using hle, w, ?_⟩
      rwa [List.length_cons, Nat.add_sub_add_right]

/-- A container that stands for a value does not stand below itself. -/
theorem Reads.acyclic (hv : h.Reads (.ref a) v) (hp : h.edges.leads p (.ref a) = some (.ref a)) :
    p = [] := by
  obtain ⟨k, hk⟩ := hv
  by_contra hne
  have hpos := List.length_pos_of_ne_nil hne
  induction k using Nat.strongRecOn generalizing v with
  | ind k ih =>
    obtain ⟨hle, w, hw⟩ := read_below hk hp
    exact ih (k - p.length) (by omega) hw

/-- Containers that were passed are not met again, so that there is always one left to pass. -/
theorem Proper.read_bounded (hh : h.Proper) (seen : List Nat) (hv : h.read k n = some v)
    (hd : seen.Nodup) (hlt : ∀ a ∈ seen, a < h.length)
    (hpast : ∀ a ∈ seen, ∀ p, h.edges.leads p n ≠ some (.ref a)) :
    h.read (h.length - seen.length) n = some v := by
  induction k generalizing n v seen with
  | zero =>
    cases n with
    | ref a => cases hv
    | leaf w => rwa [read_leaf] at hv ⊢
  | succ k ih =>
    cases n with
    | leaf w => rwa [read_leaf] at hv ⊢
    | ref a =>
      have hcell : a < h.length := by
        obtain ⟨_, _, ⟨fs, hf⟩ | ⟨frame, ns, hc⟩⟩ := read_ref_cases hv
        · exact lt_of_fields? hf
        · exact (List.getElem?_eq_some_iff.mp hc).1
      have hd' : (a :: seen).Nodup := List.nodup_cons.mpr ⟨fun ha => hpast a ha [] rfl, hd⟩
      have hlt' : ∀ b ∈ a :: seen, b < h.length := List.forall_mem_cons.mpr ⟨hcell, hlt⟩
      have hroom : (a :: seen).length ≤ h.length := by
        have hsub := List.subperm_of_subset hd' fun b hb => List.mem_range.mpr (hlt' b hb)
        simpa using hsub.length_le
      have hchild (st m w) (he : h.edges a st = some m) (hw : h.read k m = some w) :
          h.read (h.length - (a :: seen).length) m = some w := by
        have hbelow (p : Place) : h.edges.leads (st :: p) (.ref a) = h.edges.leads p m := by
          rw [Edges.leads_ref, he, Option.bind_some]
        refine ih (a :: seen) hw hd' hlt' (List.forall_mem_cons.mpr ⟨fun p hp => ?_, fun b hb p hp => ?_⟩)
        · have hself := Reads.acyclic ⟨k + 1, hv⟩ ((hbelow p).trans hp)
          cases hself
        · exact hpast b hb (st :: p) ((hbelow p).trans hp)
      have hsucc : h.length - seen.length = h.length - (a :: seen).length + 1 := by
        rw [List.length_cons] at hroom ⊢
        omega
      rw [hsucc]
      obtain ⟨_, _, ⟨fs, hf⟩ | ⟨frame, ns, hc⟩⟩ := read_ref_cases hv
      · obtain ⟨ps, rfl, hps⟩ := (read_dict_iff hf).mp hv
        refine (read_dict_iff hf).mpr ⟨ps, rfl, forall₂_imp_mem hps fun f hm p hfp => ?_⟩
        obtain ⟨st, he, -⟩ := hh.edge_of_mem hf hm
        exact ⟨hfp.1, hchild st f.2 p.2 he hfp.2⟩
      · obtain ⟨vs, rfl, hvs⟩ := (read_fixed_iff hc).mp hv
        refine (read_fixed_iff hc).mpr ⟨vs, rfl, forall₂_imp_mem hvs fun m hm w hmw => ?_⟩
        obtain ⟨i, hi⟩ := List.getElem?_of_mem hm
        exact hchild (.item i) m w (by simp only [edges, hc, hi]) hmw

/-- The bound that is used to read a node is no bound on what it may stand for. -/
theorem Proper.tree_eq_some_iff (hh : h.Proper) : h.tree n = some v ↔ h.Reads n v := by
  refine ⟨fun hv => ⟨h.length, hv⟩, fun ⟨k, hk⟩ => ?_⟩
  have hall := hh.read_bounded [] hk .nil nofun nofun
  exact hall

/-! What stands at a path -/

theorem Reads.get? (hv : h.Reads (.ref a) (dict ps)) (s : String) :
    h.get? a s = none ∧ Entries.get? (str s) ps = none ∨
      ∃ m w, h.get? a s = some m ∧ Entries.get? (str s) ps = some w ∧ h.Reads m w := by
  obtain ⟨fs, hf⟩ := hv.isDict_iff.mpr rfl
  obtain ⟨qs, he, hqs⟩ := (reads_dict hf).mp hv
  cases he
  rw [get?_of_fields? hf]
  clear hf hv
  induction hqs with
  | nil => exact .inl ⟨rfl, rfl⟩
  | @cons f p fs ps hfp _ ih =>
    by_cases hk : f.1 = str s
    · exact .inr ⟨f.2, p.2, Entries.get?_here hk fs, Entries.get?_here (hfp.1 ▸ hk) ps, hfp.2⟩
    · rw [Entries.get?_past hk, Entries.get?_past (hfp.1 ▸ hk)]
      exact ih

theorem Reads.dict_of_isDict (hv : h.Reads (.ref a) v) (hd : h.IsDict a) : ∃ ps, v = dict ps := by
  obtain ⟨fs, hf⟩ := hd
  obtain ⟨ps, rfl, -⟩ := (reads_dict hf).mp hv
  exact ⟨ps, rfl⟩

theorem Reads.frame_of_not_isDict (hv : h.Reads (.ref a) v) (hd : ¬ h.IsDict a) :
    ∃ frame vs, v = Frame.build frame vs := by
  obtain ⟨k, hk⟩ := hv
  obtain ⟨k, rfl, ⟨fs, hf⟩ | ⟨frame, ns, hc⟩⟩ := read_ref_cases hk
  · exact absurd ⟨fs, hf⟩ hd
  · obtain ⟨vs, rfl, -⟩ := (read_fixed_iff hc).mp hk
    exact ⟨frame, vs, rfl⟩

theorem get?_of_not_isDict (hd : ¬ h.IsDict a) (s : String) : h.get? a s = none := by
  rw [Option.eq_none_iff_forall_ne_some]
  exact fun m hm => hd (isDict_of_get? hm)

theorem getPath_of_not_isDict (hv : v.isDict = false) (s : String) (rest : List String) :
    Value.getPath (s :: rest) v = none := by
  cases v with
  | dict ps => cases hv
  | _ => rfl

/-- Following a path through objects and through what they stand for comes to the same. -/
theorem Reads.getPath (hv : h.Reads n v) (path : List String) :
    h.getPath path n = none ∧ Value.getPath path v = none ∨
      ∃ m w, h.getPath path n = some m ∧ Value.getPath path v = some w ∧ h.Reads m w := by
  induction path generalizing n v with
  | nil => exact .inr ⟨n, v, rfl, rfl, hv⟩
  | cons s rest ih =>
    cases n with
    | leaf x =>
      obtain ⟨hx, rfl⟩ := reads_leaf.mp hv
      exact .inl ⟨rfl, getPath_of_not_isDict hx s rest⟩
    | ref a =>
      by_cases hd : h.IsDict a
      · obtain ⟨ps, rfl⟩ := hv.dict_of_isDict hd
        rw [Heap.getPath, getPath_dict]
        rcases hv.get? s with ⟨hm, hw⟩ | ⟨m, w, hm, hw, hmw⟩
        · exact .inl ⟨by rw [hm]; rfl, by rw [hw]; rfl⟩
        · rw [hm, hw, Option.bind_some, Option.bind_some]
          exact ih hmw
      · refine .inl ⟨?_, getPath_of_not_isDict ?_ s rest⟩
        · rw [Heap.getPath, get?_of_not_isDict hd, Option.bind_none]
        · exact Bool.eq_false_iff.mpr (mt hv.isDict_iff.mpr hd)

end Heap

/-! Changes in a tree at the end of a path through dictionaries -/

namespace Entries

variable {ps qs : Entries} {s : String} {rest w : List String} {v : Value}
  {g : Entries → Entries}

/-- Changes the dictionary at a path. -/
def alterAt (g : Entries → Entries) : List String → Entries → Entries
  | [], ps => g ps
  | s :: w, ps =>
    match get? (str s) ps with
    | some (dict qs) => put (str s) (dict (alterAt g w qs)) ps
    | _ => ps

/-- A value in new dictionaries, one in the other along a path. -/
def nested (v : Value) : List String → Value
  | [] => v
  | s :: rest => dict [(str s, nested v rest)]

theorem setPath_nil (v : Value) (s : String) (rest : List String) :
    setPath v (s :: rest) [] = .ok [(str s, nested v rest)] := by
  induction rest generalizing s with
  | nil => rfl
  | cons t rest ih =>
    change (setPath v (t :: rest) []).map _ = _
    rw [ih]
    rfl

/-- The way to a dictionary leads through dictionaries. -/
theorem through_dict {u : String} (hw : getPath (u :: w) (dict ps) = some (dict qs)) :
    ∃ cs, get? (str u) ps = some (dict cs) ∧ getPath w (dict cs) = some (dict qs) := by
  obtain ⟨_, x, he, hx, hrest⟩ := getPath_cons_eq_some hw
  cases he
  cases w with
  | nil => exact ⟨qs, hx.trans hrest, rfl⟩
  | cons t w =>
    obtain ⟨cs, _, rfl, _⟩ := getPath_cons_eq_some hrest
    exact ⟨cs, hx, hrest⟩

theorem setPath_alterAt (hw : getPath w (dict ps) = some (dict qs))
    (hvacant : rest ≠ [] → get? (str s) qs = none ∨ get? (str s) qs = some null) :
    setPath v (w ++ s :: rest) ps = .ok (alterAt (put (str s) (nested v rest)) w ps) := by
  induction w generalizing ps with
  | nil =>
    cases hw
    cases rest with
    | nil => rfl
    | cons t rest =>
      rw [List.nil_append, setPath]
      · rcases hvacant (by simp) with hs | hs
        · rw [hs]
          change (setPath v (t :: rest) []).map _ = _
          rw [setPath_nil]
          rfl
        · rw [hs]
          change (setPath v (t :: rest) []).map _ = _
          rw [setPath_nil]
          rfl
      · simp
  | cons u w ih =>
    obtain ⟨cs, hx, hrest⟩ := through_dict hw
    rw [List.cons_append, setPath, hx, alterAt, hx]
    · change (setPath v (w ++ s :: rest) cs).map _ = _
      rw [ih hrest]
      rfl
    · simp

theorem popPath_alterAt (hw : getPath w (dict ps) = some (dict qs))
    (hs : get? (str s) qs = some v) :
    popPath (w ++ [s]) ps = some (v, alterAt (erase (str s)) w ps) := by
  induction w generalizing ps with
  | nil =>
    cases hw
    rw [List.nil_append, popPath, hs]
    rfl
  | cons u w ih =>
    obtain ⟨cs, hx, hrest⟩ := through_dict hw
    rw [List.cons_append, popPath, hx, alterAt, hx]
    · change (popPath (w ++ [s]) cs).map _ = _
      rw [ih hrest]
      rfl
    · simp

end Entries

namespace Heap

variable {h h' : Heap} {a b j k : Nat} {s : String} {n m x : Node} {st : Step} {p : Place}
  {fs : List (Value × Node)} {v w : Value} {ps qs : Entries} {path : List String}

theorem forall₂_put {R S : Value × Node → Value × Value → Prop} (hR : ∀ f p, R f p → f.1 = p.1)
    (h : List.Forall₂ R fs ps) (hd : fs.Pairwise fun f g => equal f.1 g.1 = false)
    (hS : ∀ f ∈ fs, ∀ p, f.1 ≠ str s → R f p → S f p) (hn : S (str s, n) (str s, v)) :
    List.Forall₂ S (Entries.put (str s) n fs) (Entries.put (str s) v ps) := by
  induction h with
  | nil => exact .cons hn .nil
  | @cons f p fs ps hfp hrest ih =>
    obtain ⟨hfirst, hd⟩ := List.pairwise_cons.mp hd
    by_cases hk : f.1 = str s
    · rw [Entries.put_here hk, Entries.put_here (hR f p hfp ▸ hk)]
      refine .cons hn (forall₂_imp_mem hrest fun g hg q hgq => ?_)
      refine hS g (List.mem_cons_of_mem f hg) q (fun hgk => ?_) hgq
      have hne := hfirst g hg
      rw [hk, hgk, equal_str] at hne
      simp at hne
    · rw [Entries.put_past hk, Entries.put_past (hR f p hfp ▸ hk)]
      exact .cons (hS f List.mem_cons_self p hk hfp)
        (ih hd fun g hg => hS g (List.mem_cons_of_mem f hg))

theorem forall₂_erase {R S : Value × Node → Value × Value → Prop} (hR : ∀ f p, R f p → f.1 = p.1)
    (h : List.Forall₂ R fs ps) (hd : fs.Pairwise fun f g => equal f.1 g.1 = false)
    (hS : ∀ f ∈ fs, ∀ p, f.1 ≠ str s → R f p → S f p) :
    List.Forall₂ S (Entries.erase (str s) fs) (Entries.erase (str s) ps) := by
  induction h with
  | nil => exact .nil
  | @cons f p fs ps hfp hrest ih =>
    obtain ⟨hfirst, hd⟩ := List.pairwise_cons.mp hd
    rw [Entries.erase, Entries.erase, ← hR f p hfp]
    by_cases hk : f.1 = str s
    · rw [if_pos (equal_str_right.mpr hk), if_pos (equal_str_right.mpr hk)]
      refine forall₂_imp_mem hrest fun g hg q hgq => ?_
      refine hS g (List.mem_cons_of_mem f hg) q (fun hgk => ?_) hgq
      have hne := hfirst g hg
      rw [hk, hgk, equal_str] at hne
      simp at hne
    · rw [if_neg fun he => hk (equal_str_right.mp he), if_neg fun he => hk (equal_str_right.mp he)]
      exact .cons (hS f List.mem_cons_self p hk hfp)
        (ih hd fun g hg => hS g (List.mem_cons_of_mem f hg))

/-- What stands for something still does when an entry is taken from a dictionary. -/
theorem Reads.erased (hv : h.Reads n v) (b : Nat) (s : String) :
    ∃ w, (h.change b (Entries.erase (str s))).Reads n w := by
  obtain ⟨k, hk⟩ := hv
  induction k generalizing n v with
  | zero =>
    cases n with
    | ref a => cases hk
    | leaf u => exact ⟨v, 0, hk⟩
  | succ k ih =>
    cases n with
    | leaf u => exact ⟨v, k + 1, hk⟩
    | ref a =>
      obtain ⟨_, _, ⟨fs, hf⟩ | ⟨frame, ns, hc⟩⟩ := read_ref_cases hk
      · obtain ⟨ps, -, hps⟩ := (read_dict_iff hf).mp hk
        have hrow (f) (hm : f ∈ fs) : ∃ p : Value × Value, f.1 = p.1 ∧
            (h.change b (Entries.erase (str s))).Reads f.2 p.2 := by
          obtain ⟨p, -, -, hp⟩ := exists_partner hps hm
          obtain ⟨w, hw⟩ := ih hp
          exact ⟨(f.1, w), rfl, hw⟩
        by_cases hab : a = b
        · subst hab
          obtain ⟨qs, hqs⟩ := exists_forall₂ fun f hm =>
            hrow f ((Entries.erase_sublist (str s) fs).subset hm)
          exact ⟨_, (reads_dict ((fields?_change hf _).trans (if_pos rfl))).mpr ⟨qs, rfl, hqs⟩⟩
        · obtain ⟨qs, hqs⟩ := exists_forall₂ hrow
          refine ⟨_, (reads_dict ?_).mpr ⟨qs, rfl, hqs⟩⟩
          rw [fields?, getElem?_change_past _ hab]
          exact hf
      · obtain ⟨vs, -, hvs⟩ := (read_fixed_iff hc).mp hk
        obtain ⟨ws, hws⟩ := exists_forall₂ fun m hm => by
          obtain ⟨w, -, hw⟩ := exists_partner hvs hm
          exact ih hw
        exact ⟨_, (reads_fixed (getElem?_change_fixed hc b _)).mpr ⟨ws, rfl, hws⟩⟩

/-- The way to a dictionary leads through dictionaries. -/
theorem through_dict {rest : List String} (hw : h.getPath (s :: rest) (.ref a) = some (.ref b))
    (hb : h.IsDict b) :
    ∃ c, h.get? a s = some (.ref c) ∧ h.getPath rest (.ref c) = some (.ref b) ∧ h.IsDict c := by
  obtain ⟨m, hm, hrest⟩ := Option.bind_eq_some_iff.mp hw
  cases rest with
  | nil =>
    cases hrest
    exact ⟨b, hm, rfl, hb⟩
  | cons t rest =>
    cases m with
    | leaf v => cases hrest
    | ref c =>
      obtain ⟨x, hx, _⟩ := Option.bind_eq_some_iff.mp hrest
      exact ⟨c, hm, hrest, isDict_of_get? hx⟩

/-- A dictionary that stands at one place only is changed at that place only. -/
theorem Proper.reads_change (hh : h.Proper) {path : List String}
    (hw : h.getPath path (.ref a) = some (.ref b))
    (halone : ∀ z, h.edges.leads z (.ref a) = some (.ref b) → z = keySteps path)
    {f : List (Value × Node) → List (Value × Node)} {g : Entries → Entries}
    (hfg : ∀ qs, h.Reads (.ref b) (dict qs) → (h.change b f).Reads (.ref b) (dict (g qs)))
    (hb : h.IsDict b) (hv : h.Reads (.ref a) (dict ps)) :
    (h.change b f).Reads (.ref a) (dict (Entries.alterAt g path ps)) := by
  induction path generalizing a ps with
  | nil =>
    cases hw
    exact hfg ps hv
  | cons s rest ih =>
    have hab : a ≠ b := by
      rintro rfl
      cases halone [] rfl
    obtain ⟨c, hc, hrest, hcd⟩ := through_dict hw hb
    have hedge : h.edges a (.key s) = some (.ref c) := (edges_key h a s).trans hc
    have hbelow (z : Place) : h.edges.leads (.key s :: z) (.ref a) = h.edges.leads z (.ref c) := by
      rw [Edges.leads_ref, hedge, Option.bind_some]
    obtain ⟨fs, hf⟩ := isDict_of_get? hc
    obtain ⟨_, he, hqs⟩ := (reads_dict hf).mp hv
    cases he
    rcases hv.get? s with ⟨hnone, _⟩ | ⟨m, w, hm, hsw, hmw⟩
    · rw [hc] at hnone
      cases hnone
    · rw [hc] at hm
      cases hm
      obtain ⟨cs, rfl⟩ := hmw.dict_of_isDict hcd
      have hchild := ih hrest (fun z hz => List.cons.inj (halone _ ((hbelow z).trans hz)) |>.2) hmw
      have hf' : (h.change b f).fields? a = some fs := by
        rw [← hf, fields?, fields?, getElem?_change_past f hab]
      rw [Entries.alterAt, hsw]
      refine (reads_dict hf').mpr ⟨_, rfl, ?_⟩
      rw [← Entries.put_same ((get?_of_fields? hf s).symm.trans hc)]
      refine forall₂_put (fun _ _ hfp => hfp.1) hqs (hh.distinct a fs hf) ?_ ⟨rfl, hchild⟩
      -- the dictionary is not below the other entries
      intro e hm q hk hfp
      refine ⟨hfp.1, ?_⟩
      obtain ⟨k, hkread⟩ := hfp.2
      refine ⟨k, ?_⟩
      rw [hh.read_change f (fun z hz => ?_) k]
      · exact hkread
      · obtain ⟨st, hst, hkey⟩ := hh.edge_of_mem hf hm
        have hplace := halone (st :: z) (by rw [Edges.leads_ref, hst]; exact hz)
        exact hk ((hkey s).mp (List.cons.inj hplace).1)

end Heap

/-! Documents -/

namespace Objects

variable {o : Objects} {v : Value} {path : List String}

structure Proper (o : Objects) : Prop where
  heap : o.heap.Proper
  root : o.heap.IsDict o.root

/-- No dictionary stands at two places of a document. -/
def Unshared (o : Objects) : Prop :=
  ∀ p q a, o.heap.IsDict a → o.heap.edges.leads p (.ref o.root) = some (.ref a) →
    o.heap.edges.leads q (.ref o.root) = some (.ref a) → p = q

/-- The value at a path. -/
def valueAt (path : List String) (o : Objects) : Option Value := (o.getAt path).bind o.heap.tree

/-- Objects in order, none of them at two places, that stand for a document. -/
structure Embodies (o : Objects) (d : Value) : Prop where
  proper : o.Proper
  unshared : o.Unshared
  tree : o.tree = some d

theorem Unshared.solo {A : Place → Prop} (h : o.Unshared) : o.heap.Solo A (.ref o.root) :=
  fun y z c hc hy hz _ => h y z c hc hy hz

theorem Embodies.reads (h : o.Embodies v) : o.heap.Reads (.ref o.root) v :=
  h.proper.heap.tree_eq_some_iff.mp h.tree

theorem Embodies.entries (h : o.Embodies v) : ∃ ps, v = .dict ps :=
  h.reads.dict_of_isDict h.proper.root

/-- The value at a path of the objects is the one at the path of what they stand for. -/
theorem Proper.valueAt (ho : o.Proper) (hd : o.tree = some v) (path : List String) :
    o.valueAt path = getPath path v := by
  rw [Objects.valueAt, getAt]
  rcases (ho.heap.tree_eq_some_iff.mp hd).getPath path with ⟨hm, hw⟩ | ⟨m, w, hm, hw, hmw⟩
  · rw [hm, hw, Option.bind_none]
  · rw [hm, hw, Option.bind_some, ho.heap.tree_eq_some_iff.mpr hmw]

end Objects

end DocStore
