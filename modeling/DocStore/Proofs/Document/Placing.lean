import DocStore.Proofs.Document.Trees

/-! Objects made of a value. Each dictionary of the value becomes an object of its own, so that no
two places of what is made have one in common. -/

namespace DocStore

open Value

/-- Values in which no dictionary has a key twice. -/
inductive Value.Single : Value → Prop
  | dict {ps : Entries} (hk : ps.Pairwise fun p q => equal p.1 q.1 = false)
      (hv : ∀ p ∈ ps, Single p.2) : Single (dict ps)
  | list {xs : List Value} (hv : ∀ x ∈ xs, Single x) : Single (list xs)
  | tuple {xs : List Value} (hv : ∀ x ∈ xs, Single x) : Single (tuple xs)
  | record {c : String} {ps : Entries} (hv : ∀ p ∈ ps, Single p.2) : Single (record c ps)
  | other {v : Value} (hp : ∀ h, v.place h = (.leaf v, h)) (hd : v.isDict = false) : Single v

theorem Value.Single.str (s : String) : Single (str s) := .other (fun _ => rfl) rfl

theorem Value.Single.int (n : Int) : Single (int n) := .other (fun _ => rfl) rfl

theorem Value.Single.bool (b : Bool) : Single (bool b) := .other (fun _ => rfl) rfl

namespace Heap

variable {h h' h'' : Heap} {n : Node} {ns : List Node} {v : Value} {vs : List Value}

/-- What is made of values: new objects, each of them at one place of one of the nodes. -/
structure Placed (h : Heap) (ns : List Node) (h' : Heap) (vs : List Value) : Prop where
  grown : ∃ cs, h' = h ++ cs
  proper : h'.Proper
  within : ∀ n ∈ ns, h'.Within n
  fresh : ∀ n ∈ ns, ∀ p a, h'.edges.leads p n = some (.ref a) → h.length ≤ a
  alone : ∀ (i j : Nat) (n m : Node) (p q : Place) (a : Nat), ns[i]? = some n → ns[j]? = some m →
    h'.edges.leads p n = some (.ref a) → h'.edges.leads q m = some (.ref a) → i = j ∧ p = q
  reads : List.Forall₂ h'.Reads ns vs

theorem Placed.nil (hh : h.Proper) : Placed h [] h [] :=
  ⟨⟨[], (List.append_nil h).symm⟩, hh, by simp, by simp, by simp, .nil⟩

theorem Placed.cons (hn : Placed h [n] h' [v]) (hns : Placed h' ns h'' vs) :
    Placed h (n :: ns) h'' (v :: vs) := by
  obtain ⟨cs, rfl⟩ := hn.grown
  obtain ⟨ds, rfl⟩ := hns.grown
  have hnw : Within (h ++ cs) n := hn.within n (by simp)
  have hkeep (p : Place) := hn.proper.leads_append hnw ds p
  have hnlt {p a} (hp : (edges (h ++ cs ++ ds)).leads p n = some (.ref a)) :
      a < (h ++ cs).length := hn.proper.leads_within hnw ((hkeep p).symm.trans hp)
  refine ⟨⟨cs ++ ds, by rw [List.append_assoc]⟩, hns.proper,
    List.forall_mem_cons.mpr ⟨hnw.append ds, hns.within⟩,
    List.forall_mem_cons.mpr ⟨fun p a hp => ?_, fun m hm p a hp => ?_⟩, ?_, .cons ?_ hns.reads⟩
  · exact hn.fresh n (by simp) p a ((hkeep p).symm.trans hp)
  · refine Nat.le_trans ?_ (hns.fresh m hm p a hp)
    rw [List.length_append]
    exact Nat.le_add_right _ _
  · intro i j x m p q a hi hj hp hq
    -- the objects of the first node are older than those of the others
    cases i with
    | zero =>
      cases hi
      cases j with
      | zero =>
        cases hj
        exact ⟨rfl, (hn.alone 0 0 n n p q a rfl rfl ((hkeep p).symm.trans hp)
          ((hkeep q).symm.trans hq)).2⟩
      | succ j =>
        exact absurd (hnlt hp) (Nat.not_lt_of_le (hns.fresh m (List.mem_of_getElem? hj) q a hq))
    | succ i =>
      cases j with
      | zero =>
        cases hj
        exact absurd (hnlt hq) (Nat.not_lt_of_le (hns.fresh x (List.mem_of_getElem? hi) p a hp))
      | succ j =>
        obtain ⟨hij, hpq⟩ := hns.alone i j x m p q a hi hj hp hq
        exact ⟨by rw [hij], hpq⟩
  · cases hn.reads with
    | cons hr _ =>
      obtain ⟨k, hk⟩ := hr
      exact ⟨k, (hn.proper.read_append hnw ds k).trans hk⟩

theorem Placed.leaf (hh : h.Proper) (hv : v.isDict = false) : Placed h [.leaf v] h [v] := by
  have hlead {p : Place} {a : Nat} : h.edges.leads p (.leaf v) ≠ some (.ref a) := by
    cases p <;> exact nofun
  refine ⟨⟨[], (List.append_nil h).symm⟩, hh, by simp [Within], fun n hn p a hp => ?_,
    fun i j n m p q a hi _ hp _ => ?_, .cons (reads_leaf.mpr ⟨hv, rfl⟩) .nil⟩
  · rw [List.mem_singleton.mp hn] at hp
    exact absurd hp hlead
  · rw [List.mem_singleton.mp (List.mem_of_getElem? hi)] at hp
    exact absurd hp hlead

/-- From a new container over nodes a way leads through one of the nodes. -/
theorem leads_container {cell : Cell} {step : Nat → Step} {p : Place} {m : Node} (hh : h.Proper)
    (hwithin : ∀ n ∈ ns, h.Within n)
    (hstep : ∀ st m, edges (h ++ [cell]) h.length st = some m → ∃ i, ns[i]? = some m ∧ step i = st)
    (hp : (edges (h ++ [cell])).leads p (.ref h.length) = some m) :
    p = [] ∧ m = .ref h.length ∨ ∃ i x q, p = step i :: q ∧ ns[i]? = some x ∧
      h.edges.leads q x = some m := by
  cases p with
  | nil => exact .inl ⟨rfl, (Option.some.inj hp).symm⟩
  | cons st q =>
    obtain ⟨x, hx, hq⟩ := Option.bind_eq_some_iff.mp hp
    obtain ⟨i, hi, rfl⟩ := hstep st x hx
    rw [hh.leads_append (hwithin x (List.mem_of_getElem? hi))] at hq
    exact .inr ⟨i, x, q, rfl, hi, hq⟩

/-- A new container over nodes, whose steps tell the nodes apart. -/
theorem Placed.container (hns : Placed h ns h' vs) (cell : Cell) (step : Nat → Step)
    (hd : ∀ fs, cell = .dict fs → fs.Pairwise fun f g => equal f.1 g.1 = false)
    (hstep : ∀ st m, edges (h' ++ [cell]) h'.length st = some m →
      ∃ i, ns[i]? = some m ∧ step i = st)
    (hv : List.Forall₂ (Reads (h' ++ [cell])) ns vs → Reads (h' ++ [cell]) (.ref h'.length) v) :
    Placed h [.ref h'.length] (h' ++ [cell]) [v] := by
  obtain ⟨cs, hcs⟩ := hns.grown
  have hlen : h.length ≤ h'.length := by
    rw [hcs, List.length_append]
    exact Nat.le_add_right _ _
  have hwithin {i m} (hm : ns[i]? = some m) : h'.Within m :=
    hns.within m (List.mem_of_getElem? hm)
  have hproper : Proper (h' ++ [cell]) := by
    refine hns.proper.append (fun fs hfs => hd fs (List.mem_singleton.mp hfs).symm) ?_
    intro a st m ha he
    have hlt := edges_of_lt he
    rw [List.length_append, List.length_singleton] at hlt
    obtain rfl : a = h'.length := Nat.le_antisymm (Nat.le_of_lt_succ hlt) ha
    obtain ⟨i, hi, -⟩ := hstep st m he
    exact (hwithin hi).append _
  have hreads : List.Forall₂ (Reads (h' ++ [cell])) ns vs :=
    forall₂_imp_mem hns.reads fun m hm w ⟨k, hk⟩ =>
      ⟨k, (hns.proper.read_append (hns.within m hm) _ k).trans hk⟩
  have hlead {p m} := leads_container (p := p) (m := m) hns.proper hns.within hstep
  have hold {i x q a} (hi : ns[i]? = some x) (hq : h'.edges.leads q x = some (.ref a)) :
      a < h'.length := hns.proper.leads_within (hwithin hi) hq
  refine ⟨⟨cs ++ [cell], by rw [hcs, List.append_assoc]⟩, hproper, ?_, ?_, ?_,
    .cons (hv hreads) .nil⟩
  · simp [Within]
  · intro n hn p a hp
    rw [List.mem_singleton.mp hn] at hp
    rcases hlead hp with ⟨-, ha⟩ | ⟨i, x, q, -, hi, hq⟩
    · cases ha
      exact hlen
    · exact hns.fresh x (List.mem_of_getElem? hi) q a hq
  · intro i j n m p q a hi hj hp hq
    have hij : i = j := by
      have hi' := (List.getElem?_eq_some_iff.mp hi).1
      have hj' := (List.getElem?_eq_some_iff.mp hj).1
      simp only [List.length_singleton, Nat.lt_one_iff] at hi' hj'
      rw [hi', hj']
    rw [List.mem_singleton.mp (List.mem_of_getElem? hi)] at hp
    rw [List.mem_singleton.mp (List.mem_of_getElem? hj)] at hq
    refine ⟨hij, ?_⟩
    rcases hlead hp with ⟨rfl, ha⟩ | ⟨i', x, p', rfl, hx, hp'⟩
    · rcases hlead hq with ⟨rfl, _⟩ | ⟨_, y, q', rfl, hy, hq'⟩
      · rfl
      · cases ha
        exact absurd (hold hy hq') (Nat.lt_irrefl _)
    · rcases hlead hq with ⟨rfl, ha⟩ | ⟨j', y, q', rfl, hy, hq'⟩
      · cases ha
        exact absurd (hold hx hp') (Nat.lt_irrefl _)
      · obtain ⟨rfl, rfl⟩ := hns.alone i' j' x y p' q' a hx hy hp' hq'
        rfl

/-- A new list or tuple, or a new record. -/
theorem Placed.fixed (hns : Placed h ns h' vs) (frame : Frame) :
    Placed h [.ref h'.length] (h' ++ [.fixed frame ns]) [frame.build vs] := by
  have hcell : (h' ++ [.fixed frame ns])[h'.length]? = some (.fixed frame ns) := by simp
  refine hns.container _ .item (by simp) (fun st m he => ?_) fun hreads => ?_
  · unfold edges at he
    rw [hcell] at he
    cases st with
    | key s => cases he
    | item i => exact ⟨i, he, rfl⟩
  · exact (reads_fixed hcell).mpr ⟨vs, rfl, hreads⟩

/-- The step that leads to an entry of a dictionary. -/
def stepAt (fs : List (Value × Node)) (i : Nat) : Step :=
  match fs[i]? with
  | some (.str s, _) => .key s
  | _ => .item ((fs.take i).countP fun f => !f.1.isStr)

theorem getElem?_filter {fs : List (Value × Node)} {j : Nat} {f : Value × Node}
    (hf : (fs.filter fun f => !f.1.isStr)[j]? = some f) :
    ∃ i, fs[i]? = some f ∧ stepAt fs i = .item j := by
  induction fs generalizing j with
  | nil => simp at hf
  | cons g fs ih =>
    have hpast {i j : Nat} (hi : fs[i]? = some f) (hs : stepAt fs i = .item j) :
        stepAt (g :: fs) (i + 1) = .item (j + if g.1.isStr then 0 else 1) := by
      unfold stepAt at hs ⊢
      rw [List.getElem?_cons_succ]
      rw [hi] at hs ⊢
      split at hs
      · cases hs
      · cases hs
        cases hg : g.1.isStr <;> simp [hg]
    cases hg : g.1.isStr with
    | true =>
      rw [List.filter_cons_of_neg (by simp [hg])] at hf
      obtain ⟨i, hi, hs⟩ := ih hf
      refine ⟨i + 1, hi, ?_⟩
      have := hpast hi hs
      simpa [hg] using this
    | false =>
      rw [List.filter_cons_of_pos (by simp [hg])] at hf
      cases j with
      | zero =>
        cases hf
        refine ⟨0, rfl, ?_⟩
        obtain ⟨k, n⟩ := f
        cases k <;> first | rfl | cases hg
      | succ j =>
        obtain ⟨i, hi, hs⟩ := ih hf
        refine ⟨i + 1, hi, ?_⟩
        have := hpast hi hs
        simpa [hg] using this

theorem forall₂_zip (ks : List Value) (hr : List.Forall₂ h.Reads ns vs) :
    List.Forall₂ (fun f p => f.1 = p.1 ∧ h.Reads f.2 p.2) (ks.zip ns) (ks.zip vs) := by
  induction hr generalizing ks with
  | nil => simp
  | cons hnv _ ih =>
    cases ks with
    | nil => exact .nil
    | cons k ks => exact .cons ⟨rfl, hnv⟩ (ih ks)

/-- A new dictionary. -/
theorem Placed.dict (ks : List Value) (hns : Placed h ns h' vs) (hlen : ks.length = vs.length)
    (hk : ks.Pairwise fun k l => equal k l = false) :
    Placed h [.ref h'.length] (h' ++ [.dict (ks.zip ns)]) [.dict (ks.zip vs)] := by
  have hnl := hns.reads.length_eq
  have hf : fields? (h' ++ [.dict (ks.zip ns)]) h'.length = some (ks.zip ns) :=
    fields?_eq_some.mpr (by simp)
  have hpart {i : Nat} {f : Value × Node} (hi : (ks.zip ns)[i]? = some f) : ns[i]? = some f.2 := by
    obtain ⟨-, hn⟩ := List.getElem?_zip_eq_some.mp hi
    exact hn
  refine hns.container _ (stepAt (ks.zip ns)) (fun fs he => ?_) (fun st m he => ?_) fun hreads => ?_
  · cases he
    have hkeys : (ks.zip ns).map Prod.fst = ks := List.map_fst_zip (by omega)
    rw [← hkeys] at hk
    exact List.pairwise_map.mp hk
  · unfold edges at he
    rw [fields?_eq_some.mp hf] at he
    cases st with
    | key s =>
      obtain ⟨i, hi⟩ := List.getElem?_of_mem (Entries.mem_of_get? he)
      exact ⟨i, hpart hi, by rw [stepAt, hi]⟩
    | item j =>
      obtain ⟨f, hfj, rfl⟩ := Option.map_eq_some_iff.mp he
      obtain ⟨i, hi, hs⟩ := getElem?_filter hfj
      exact ⟨i, hpart hi, hs⟩
  · refine (reads_dict hf).mpr ⟨_, rfl, ?_⟩
    exact forall₂_zip ks hreads

theorem placed_placeItems (xs : List Value) (hh : h.Proper)
    (hxs : ∀ x ∈ xs, ∀ h : Heap, h.Proper → Placed h [(x.place h).1] (x.place h).2 [x]) :
    Placed h (placeItems xs h).1 (placeItems xs h).2 xs := by
  induction xs generalizing h with
  | nil => exact .nil hh
  | cons x xs ih =>
    obtain ⟨hx, hxs⟩ := List.forall_mem_cons.mp hxs
    have hfirst := hx h hh
    exact hfirst.cons (ih hfirst.proper hxs)

/-- The values of entries are placed as items are. -/
theorem placeEntries_eq (ps : Entries) (h : Heap) : placeEntries ps h =
    (ps.keys.zip (placeItems ps.values h).1, (placeItems ps.values h).2) := by
  induction ps generalizing h with
  | nil => rfl
  | cons p ps ih =>
    obtain ⟨k, v⟩ := p
    rw [placeEntries]
    simp only [ih]
    rfl

theorem zip_keys_values (ps : Entries) : ps.keys.zip ps.values = ps := by
  induction ps with
  | nil => rfl
  | cons p ps ih => exact congrArg _ ih

theorem placed_place (hv : v.Single) : ∀ h : Heap, h.Proper →
    Placed h [(v.place h).1] (v.place h).2 [v] := by
  induction hv with
  | @dict ps hk _ ih =>
    intro h hh
    have hvalues := placed_placeItems ps.values hh fun x hx => by
      obtain ⟨p, hp, rfl⟩ := List.mem_map.mp hx
      exact ih p hp
    have hdict := hvalues.dict ps.keys (by simp [Entries.keys, Entries.values])
      (List.pairwise_map.mpr hk)
    rw [zip_keys_values] at hdict
    rw [place, placeEntries_eq]
    exact hdict
  | @list xs _ ih =>
    intro h hh
    exact (placed_placeItems xs hh ih).fixed .list
  | @tuple xs _ ih =>
    intro h hh
    exact (placed_placeItems xs hh ih).fixed .tuple
  | @record c ps _ ih =>
    intro h hh
    have hvalues := placed_placeItems ps.values hh fun x hx => by
      obtain ⟨p, hp, rfl⟩ := List.mem_map.mp hx
      exact ih p hp
    have hrecord := hvalues.fixed (.record c ps.keys)
    have hlen : ps.keys.length = (placeItems ps.values h).1.length := by
      rw [hvalues.reads.length_eq]
      simp [Entries.keys, Entries.values]
    rw [Frame.build, zip_keys_values] at hrecord
    rw [place, placeEntries_eq]
    simp only [List.map_fst_zip (Nat.le_of_eq hlen), List.map_snd_zip (Nat.le_of_eq hlen.symm)]
    exact hrecord
  | other hp hd =>
    intro h hh
    rw [hp h]
    exact .leaf hh hd

end Heap

namespace Objects

variable {ps : Entries}

/-- What is made of entries stands for them, and has no object at two places. -/
theorem embodies_ofEntries (hv : (dict ps).Single) : (ofEntries ps).Embodies (dict ps) := by
  have hplaced := Heap.placed_place hv [] ⟨fun _ _ hf => (by cases hf), fun _ _ _ he => (by cases he)⟩
  have hread : (ofEntries ps).heap.Reads (.ref (ofEntries ps).root) (dict ps) := by
    cases hplaced.reads with
    | cons hr _ => exact hr
  refine ⟨⟨hplaced.proper, hread.isDict_iff.mpr rfl⟩, fun p q a _ hp hq => ?_,
    hplaced.proper.tree_eq_some_iff.mpr hread⟩
  exact (hplaced.alone 0 0 _ _ p q a rfl rfl hp hq).2

end Objects

end DocStore
