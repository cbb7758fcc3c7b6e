import DocStore.Proofs.Document.Sharing

/-! The heap of a document: what a changed dictionary, new dictionaries and the copy of another heap
make of the edges between its containers. -/

namespace DocStore

open Value

namespace Heap

variable {h u : Heap} {a b : Nat} {s : String} {n m : Node} {st : Step} {p : Place}
  {fs : List (Value × Node)}

def edges (h : Heap) : Edges := fun a st =>
  match h[a]?, st with
  | some (.dict fs), .key s => Entries.get? (str s) fs
  | some (.dict fs), .item i => (fs.filter fun f => !f.1.isStr)[i]?.map Prod.snd
  | some (.fixed _ ns), .item i => ns[i]?
  | _, _ => none

def IsDict (h : Heap) (a : Nat) : Prop := ∃ fs, h.fields? a = some fs

def Within (h : Heap) : Node → Prop
  | .ref a => a < h.length
  | .leaf _ => True

/-- No dictionary has a key twice, and no address leads out of the heap. -/
structure Proper (h : Heap) : Prop where
  distinct : ∀ a fs, h.fields? a = some fs → fs.Pairwise fun f g => equal f.1 g.1 = false
  closed : ∀ a st n, h.edges a st = some n → h.Within n

theorem fields?_eq_some : h.fields? a = some fs ↔ h[a]? = some (.dict fs) := by
  unfold fields?
  split <;> simp_all

theorem lt_of_fields? (hf : h.fields? a = some fs) : a < h.length :=
  (List.getElem?_eq_some_iff.mp (fields?_eq_some.mp hf)).1

theorem edges_key (h : Heap) (a : Nat) (s : String) : h.edges a (.key s) = h.get? a s := by
  unfold edges get? fields?
  split <;> simp_all

theorem get?_of_fields? (hf : h.fields? a = some fs) (s : String) :
    h.get? a s = Entries.get? (str s) fs := by
  rw [get?, hf, Option.bind_some]

theorem isDict_of_get? (hs : h.get? a s = some n) : h.IsDict a := by
  obtain ⟨fs, hf, _⟩ := Option.bind_eq_some_iff.mp hs
  exact ⟨fs, hf⟩

/-- Following a dotted path is following its places. -/
theorem getPath_eq (h : Heap) (path : List String) (n : Node) :
    h.getPath path n = h.edges.leads (keySteps path) n := by
  induction path generalizing n with
  | nil => rfl
  | cons s rest ih =>
    cases n with
    | ref a =>
      change (h.get? a s).bind (h.getPath rest) = (h.edges a (.key s)).bind _
      rw [edges_key]
      exact congrArg _ (funext ih)
    | leaf v => rfl

/-! Changing a dictionary -/

theorem fields?_change (hf : h.fields? a = some fs) (f : List (Value × Node) → List (Value × Node)) :
    (h.change a f).fields? b = if b = a then some (f fs) else h.fields? b := by
  have hlt := lt_of_fields? hf
  rw [change, hf]
  by_cases hb : b = a
  · subst hb
    rw [if_pos rfl, fields?_eq_some, List.getElem?_set_self hlt]
  · rw [if_neg hb, fields?, fields?, List.getElem?_set_ne (Ne.symm hb)]

theorem getElem?_change_past (f : List (Value × Node) → List (Value × Node)) (hb : b ≠ a) :
    (h.change a f)[b]? = h[b]? := by
  unfold change
  split
  · exact List.getElem?_set_ne (Ne.symm hb)
  · rfl

/-- Only dictionaries are changed. -/
theorem getElem?_change_fixed {frame : Frame} {ns : List Node} (hc : h[b]? = some (.fixed frame ns))
    (a : Nat) (f : List (Value × Node) → List (Value × Node)) :
    (h.change a f)[b]? = some (.fixed frame ns) := by
  by_cases hb : b = a
  · subst hb
    rwa [change, fields?, hc]
  · rw [getElem?_change_past f hb, hc]

theorem length_change (f : List (Value × Node) → List (Value × Node)) :
    (h.change a f).length = h.length := by
  unfold change
  split
  · exact List.length_set
  · rfl

theorem isDict_change (f : List (Value × Node) → List (Value × Node)) :
    (h.change a f).IsDict b ↔ h.IsDict b := by
  by_cases ha : h.IsDict a
  · obtain ⟨fs, hf⟩ := ha
    unfold IsDict
    rw [fields?_change hf]
    by_cases hb : b = a
    · subst hb
      simp [hf]
    · rw [if_neg hb]
  · have hnone : h.fields? a = none := by
      rw [Option.eq_none_iff_forall_ne_some]
      exact fun fs hf => ha ⟨fs, hf⟩
    rw [change, hnone]

theorem within_change (f : List (Value × Node) → List (Value × Node)) :
    (h.change a f).Within n ↔ h.Within n := by
  cases n with
  | ref b => rw [Within, Within, length_change]
  | leaf v => exact Iff.rfl

/-- What stands under other keys is not touched. -/
theorem filter_put (s : String) (n : Node) (fs : List (Value × Node)) :
    (Entries.put (str s) n fs).filter (fun f => !f.1.isStr) = fs.filter fun f => !f.1.isStr := by
  induction fs with
  | nil => rfl
  | cons f fs ih =>
    by_cases hf : f.1 = str s
    · rw [Entries.put_here hf, List.filter_cons_of_neg (by simp [isStr]),
        List.filter_cons_of_neg (by simp [hf, isStr])]
    · rw [Entries.put_past hf, List.filter_cons, List.filter_cons, ih]

theorem filter_erase (s : String) (fs : List (Value × Node)) :
    (Entries.erase (str s) fs).filter (fun f => !f.1.isStr) = fs.filter fun f => !f.1.isStr := by
  induction fs with
  | nil => rfl
  | cons f fs ih =>
    rw [Entries.erase]
    by_cases hf : f.1 = str s
    · rw [if_pos (equal_str_right.mpr hf), List.filter_cons_of_neg (by simp [hf, isStr])]
    · rw [if_neg fun he => hf (equal_str_right.mp he), List.filter_cons, List.filter_cons, ih]

theorem edges_congr (hc : u[a]? = h[a]?) : u.edges a st = h.edges a st := by
  unfold edges
  rw [hc]

theorem edges_change_past (f : List (Value × Node) → List (Value × Node)) (hb : b ≠ a) :
    (h.change a f).edges b st = h.edges b st := edges_congr (getElem?_change_past f hb)

theorem edges_change_here (hf : h.fields? a = some fs)
    {f : List (Value × Node) → List (Value × Node)}
    (hfilter : (f fs).filter (fun g => !g.1.isStr) = fs.filter fun g => !g.1.isStr)
    {next : Option Node} (hget : ∀ t, Entries.get? (str t) (f fs) =
      if t = s then next else Entries.get? (str t) fs) :
    (h.change a f).edges = h.edges.set a (.key s) next := by
  funext b st
  by_cases hb : b = a
  · subst hb
    have hnew := fields?_eq_some.mp ((fields?_change hf f).trans (if_pos rfl))
    cases st with
    | key t =>
      rw [edges_key, get?_of_fields? (fields?_eq_some.mpr hnew), hget]
      by_cases ht : t = s
      · subst ht
        rw [if_pos rfl, Edges.set_here]
      · rw [if_neg ht, Edges.set_past (by simp [ht]), edges_key, get?_of_fields? hf]
    | item i =>
      rw [Edges.set_past (by simp)]
      simp only [edges, hnew, fields?_eq_some.mp hf, hfilter]
  · rw [edges_change_past f hb, Edges.set_past (by simp [hb])]

theorem edges_put (hf : h.fields? a = some fs) (s : String) (n : Node) :
    (h.change a (Entries.put (str s) n)).edges = h.edges.set a (.key s) (some n) := by
  refine edges_change_here hf (filter_put s n fs) fun t => ?_
  by_cases ht : t = s
  · subst ht
    rw [if_pos rfl, Entries.get?_put_here]
  · rw [if_neg ht, Entries.get?_put_other ht]

theorem edges_erase (hh : h.Proper) (hf : h.fields? a = some fs) (s : String) :
    (h.change a (Entries.erase (str s))).edges = h.edges.set a (.key s) none := by
  refine edges_change_here hf (filter_erase s fs) fun t => ?_
  by_cases ht : t = s
  · subst ht
    rw [if_pos rfl]
    refine Entries.get?_erase_here ((hh.distinct a fs hf).imp fun {f g} hne hf hg => ?_)
    rw [hf, hg, equal_str] at hne
    simp at hne
  · rw [if_neg ht, Entries.get?_erase_other ht]

/-! Heaps in order -/

theorem Proper.of_change {f : List (Value × Node) → List (Value × Node)} (hh : h.Proper)
    (hf : h.fields? a = some fs) (hd : (f fs).Pairwise fun f g => equal f.1 g.1 = false)
    (hc : ∀ st n, (h.change a f).edges a st = some n → h.Within n) : (h.change a f).Proper := by
  refine ⟨fun b gs hg => ?_, fun b st n he => (within_change f).mpr ?_⟩
  · rw [fields?_change hf] at hg
    split at hg
    · cases hg
      exact hd
    · exact hh.distinct b gs hg
  · by_cases hb : b = a
    · subst hb
      exact hc st n he
    · rw [edges_change_past f hb] at he
      exact hh.closed b st n he

theorem key_of_mem_put {k : Value} {n : Node} {g : Value × Node} {fs : List (Value × Node)}
    (hg : g ∈ Entries.put k n fs) : g.1 = k ∨ ∃ f ∈ fs, f.1 = g.1 := by
  induction fs with
  | nil =>
    rw [Entries.put, List.mem_singleton] at hg
    exact .inl (by rw [hg])
  | cons f fs ih =>
    rw [Entries.put] at hg
    split at hg
    · rcases List.mem_cons.mp hg with rfl | hg
      · exact .inr ⟨f, List.mem_cons_self, rfl⟩
      · exact .inr ⟨g, List.mem_cons_of_mem f hg, rfl⟩
    · rcases List.mem_cons.mp hg with rfl | hg
      · exact .inr ⟨g, List.mem_cons_self, rfl⟩
      · rcases ih hg with hk | ⟨e, he, hk⟩
        · exact .inl hk
        · exact .inr ⟨e, List.mem_cons_of_mem f he, hk⟩

theorem pairwise_put (hd : fs.Pairwise fun f g => equal f.1 g.1 = false) (s : String) (n : Node) :
    (Entries.put (str s) n fs).Pairwise fun f g => equal f.1 g.1 = false := by
  induction fs with
  | nil => simp [Entries.put]
  | cons f fs ih =>
    obtain ⟨hfirst, hrest⟩ := List.pairwise_cons.mp hd
    rw [Entries.put]
    split
    · exact List.pairwise_cons.mpr ⟨hfirst, hrest⟩
    · next hf =>
      refine List.pairwise_cons.mpr ⟨fun g hg => ?_, ih hrest⟩
      rcases key_of_mem_put hg with hk | ⟨e, he, hk⟩
      · rw [hk]
        exact Bool.eq_false_iff.mpr hf
      · rw [← hk]
        exact hfirst e he

theorem Proper.put (hh : h.Proper) (hn : h.Within n) (a : Nat) (s : String) :
    (h.change a (Entries.put (str s) n)).Proper := by
  cases hf : h.fields? a with
  | none => rwa [change, hf]
  | some fs =>
    refine hh.of_change hf (pairwise_put (hh.distinct a fs hf) s n) fun st m he => ?_
    rw [edges_put hf] at he
    by_cases hst : st = .key s
    · subst hst
      rw [Edges.set_here] at he
      exact Option.some.inj he ▸ hn
    · rw [Edges.set_past (by simp [hst])] at he
      exact hh.closed a st m he

theorem Proper.erase (hh : h.Proper) (a : Nat) (s : String) :
    (h.change a (Entries.erase (str s))).Proper := by
  cases hf : h.fields? a with
  | none => rwa [change, hf]
  | some fs =>
    refine hh.of_change hf ((hh.distinct a fs hf).sublist (Entries.erase_sublist _ fs))
      fun st m he => ?_
    rw [edges_erase hh hf] at he
    by_cases hst : st = .key s
    · subst hst
      rw [Edges.set_here] at he
      cases he
    · rw [Edges.set_past (by simp [hst])] at he
      exact hh.closed a st m he

/-! New cells -/

theorem getElem?_append_old (cs : Heap) (ha : a < h.length) : (h ++ cs)[a]? = h[a]? :=
  List.getElem?_append_left ha

theorem fields?_append_old (cs : Heap) (ha : a < h.length) :
    fields? (h ++ cs) a = h.fields? a := by
  rw [fields?, fields?, getElem?_append_old cs ha]

theorem edges_append_old (cs : Heap) (ha : a < h.length) :
    edges (h ++ cs) a st = h.edges a st := edges_congr (getElem?_append_old cs ha)

theorem Within.append (hn : h.Within n) (cs : Heap) : Within (h ++ cs) n := by
  cases n with
  | ref a => exact Nat.lt_of_lt_of_le hn (List.length_append ▸ Nat.le_add_right _ _)
  | leaf v => trivial

theorem Proper.leads_within (hh : h.Proper) (hn : h.Within n) (hm : h.edges.leads p n = some m) :
    h.Within m := by
  induction p generalizing n with
  | nil =>
    cases hm
    exact hn
  | cons st p ih =>
    cases n with
    | ref a =>
      obtain ⟨x, hx, hp⟩ := Option.bind_eq_some_iff.mp hm
      exact ih (hh.closed a st x hx) hp
    | leaf v => cases hm

/-- New cells are at no place of what stood in the heap before. -/
theorem Proper.leads_append (hh : h.Proper) (hn : h.Within n) (cs : Heap) (p : Place) :
    (edges (h ++ cs)).leads p n = h.edges.leads p n := by
  induction p generalizing n with
  | nil => rfl
  | cons st p ih =>
    cases n with
    | ref a =>
      rw [Edges.leads_ref, Edges.leads_ref, edges_append_old cs hn]
      cases hx : h.edges a st with
      | none => rfl
      | some x => exact ih (hh.closed a st x hx)
    | leaf v => rfl

theorem edges_of_lt (he : h.edges a st = some n) : a < h.length := by
  by_contra hge
  have hnone : h[a]? = none := List.getElem?_eq_none (Nat.le_of_not_lt hge)
  unfold edges at he
  rw [hnone] at he
  cases he

/-- A heap stays in order if the new cells are. -/
theorem Proper.append {cs : Heap} (hh : h.Proper)
    (hd : ∀ fs, Cell.dict fs ∈ cs → fs.Pairwise fun f g => equal f.1 g.1 = false)
    (hc : ∀ a st n, h.length ≤ a → edges (h ++ cs) a st = some n → Within (h ++ cs) n) :
    Proper (h ++ cs) := by
  refine ⟨fun a fs hf => ?_, fun a st n he => ?_⟩
  · by_cases ha : a < h.length
    · rw [fields?_append_old cs ha] at hf
      exact hh.distinct a fs hf
    · have hcell := fields?_eq_some.mp hf
      rw [List.getElem?_append_right (Nat.le_of_not_lt ha)] at hcell
      exact hd fs (List.mem_of_getElem? hcell)
  · by_cases ha : a < h.length
    · rw [edges_append_old cs ha] at he
      exact (hh.closed a st n he).append cs
    · exact hc a st n (Nat.le_of_not_lt ha) he

section Nest

variable {D : Nat → Prop} {A : Place → Prop} {x : Node} {path : List String}

/-- A new dictionary with one entry. -/
def holding (h : Heap) (s : String) (x : Node) : Heap := h ++ [.dict [(str s, x)]]

theorem fields?_holding : (h.holding s x).fields? h.length = some [(str s, x)] :=
  fields?_eq_some.mpr (by simp [holding])

theorem edges_holding {t : Step} :
    (h.holding s x).edges h.length t = if t = .key s then some x else none := by
  cases t with
  | key t =>
    rw [edges_key, get?_of_fields? fields?_holding]
    by_cases ht : t = s
    · subst ht
      rw [if_pos rfl, Entries.get?_here rfl]
    · rw [if_neg (by simpa using ht), Entries.get?_past (by simpa using Ne.symm ht)]
      rfl
  | item i =>
    unfold edges
    rw [fields?_eq_some.mp fields?_holding]
    simp [isStr]

theorem Proper.holding (hh : h.Proper) (hx : h.Within x) (s : String) : (h.holding s x).Proper := by
  refine hh.append (by simp) fun a t n ha he => ?_
  have hlt := edges_of_lt he
  rw [List.length_append, List.length_singleton] at hlt
  obtain rfl : a = h.length := Nat.le_antisymm (Nat.le_of_lt_succ hlt) ha
  change (h.holding s x).edges _ _ = _ at he
  rw [edges_holding] at he
  split at he
  · cases he
    exact hx.append _
  · cases he

/-- Below a new dictionary there is what was put into it, and the dictionary is nowhere else. -/
theorem leads_holding (hh : h.Proper) (hx : h.Within x)
    (hm : (h.holding s x).edges.leads p (.ref h.length) = some m) :
    p = [] ∧ m = .ref h.length ∨ ∃ q, p = .key s :: q ∧ h.edges.leads q x = some m := by
  cases p with
  | nil => exact .inl ⟨rfl, (Option.some.inj hm).symm⟩
  | cons t q =>
    rw [Edges.leads_ref, edges_holding] at hm
    split at hm
    · next ht =>
      refine .inr ⟨q, by rw [ht], ?_⟩
      rw [Option.bind_some, holding, hh.leads_append hx] at hm
      exact hm
    · cases hm

theorem isDict_append_old (cs : Heap) (ha : a < h.length) : IsDict (h ++ cs) a ↔ h.IsDict a := by
  rw [IsDict, IsDict, fields?_append_old cs ha]

/-- The dictionaries below a node stand at one place each, but for places of a sort. -/
abbrev Solo (h : Heap) (A : Place → Prop) (n : Node) : Prop := h.edges.Solo h.IsDict A n

/-- What a node brings along to a place of a document. -/
abbrev Brings (h : Heap) (A : Place → Prop) (n : Node) (p : Place) (x : Node) : Prop :=
  h.edges.Brings h.IsDict A n p x

theorem Solo.append (hs : h.Solo A n) (hh : h.Proper) (hn : h.Within n) (cs : Heap) :
    Solo (h ++ cs) A n := by
  intro y z c hc hy hz
  rw [hh.leads_append hn] at hy hz
  exact hs ((isDict_append_old cs (hh.leads_within hn hy)).mp hc) hy hz

theorem Brings.holding (hh : h.Proper) (hn : h.Within n) (hx : h.Within x)
    (hb : h.Brings A n (p ++ [.key s]) x) :
    (h.holding s x).Brings A n p (.ref h.length) := by
  have hold {c} (hc : (h.holding s x).IsDict c) (hlt : c < h.length) : h.IsDict c :=
    (isDict_append_old _ hlt).mp hc
  have hnew {q} (hq : h.Within (.ref h.length)) : q := absurd hq (Nat.lt_irrefl h.length)
  refine ⟨fun y z c hc hy hz hny => ?_, fun y z c hc hy hz => ?_⟩
  · rcases leads_holding hh hx hy with ⟨rfl, hcy⟩ | ⟨y', rfl, hy'⟩
    · rcases leads_holding hh hx hz with ⟨rfl, _⟩ | ⟨z', rfl, hz'⟩
      · rfl
      · cases hcy
        exact hnew (hh.leads_within hx hz')
    · have hlt := hh.leads_within hx hy'
      rcases leads_holding hh hx hz with ⟨rfl, hcz⟩ | ⟨z', rfl, hz'⟩
      · cases hcz
        exact hnew hlt
      · rw [hb.solo (hold hc hlt) hy' hz' (by simpa using hny)]
  · rw [Heap.holding, hh.leads_append hn] at hy
    have hlt := hh.leads_within hn hy
    rcases leads_holding hh hx hz with ⟨rfl, hcz⟩ | ⟨z', rfl, hz'⟩
    · cases hcz
      exact hnew hlt
    · obtain ⟨hay, haz⟩ := hb.apart (hold hc hlt) hy hz'
      exact ⟨hay, by simpa using haz⟩

theorem nest_append (x : Node) (path : List String) (h : Heap) :
    ∃ cs, (nest x path h).2 = h ++ cs := by
  induction path with
  | nil => exact ⟨[], (List.append_nil h).symm⟩
  | cons s rest ih =>
    obtain ⟨cs, hcs⟩ := ih
    refine ⟨cs ++ [.dict [(str s, (nest x rest h).1)]], ?_⟩
    rw [← List.append_assoc, ← hcs]
    rfl

/-- New dictionaries along a path, with a node in the innermost one. -/
structure Nests (h : Heap) (A : Place → Prop) (n : Node) (p : Place) (path : List String)
    (h' : Heap) (x' : Node) : Prop where
  proper : h'.Proper
  within : h'.Within x'
  brings : h'.Brings A n p x'
  along : ∀ q m, h'.edges.leads (keySteps q) x' = some m → path <+: q ∨ q <+: path

theorem nests_nest (hh : h.Proper) (hn : h.Within n) (hx : h.Within x)
    (hb : h.Brings A n (p ++ keySteps path) x) :
    Nests h A n p path (nest x path h).2 (nest x path h).1 := by
  induction path generalizing p with
  | nil =>
    rw [keySteps, List.map_nil, List.append_nil] at hb
    exact ⟨hh, hx, hb, fun q _ _ => .inl List.nil_prefix⟩
  | cons s rest ih =>
    obtain ⟨hproper, hwithin, hbrings, halong⟩ :=
      ih (p := p ++ [.key s]) (by simpa [keySteps] using hb)
    obtain ⟨cs, hcs⟩ := nest_append x rest h
    have hn' : (nest x rest h).2.Within n := hcs ▸ hn.append cs
    change Nests h A n p (s :: rest) ((nest x rest h).2.holding s (nest x rest h).1)
      (.ref (nest x rest h).2.length)
    refine ⟨hproper.holding hwithin s, ?_, hbrings.holding hproper hn' hwithin, fun q m hm => ?_⟩
    · simp [Within, holding]
    · rcases leads_holding hproper hwithin hm with ⟨hq, _⟩ | ⟨y, hq, hy⟩
      · rw [List.map_eq_nil_iff.mp hq]
        exact .inr List.nil_prefix
      · cases q with
        | nil => cases hq
        | cons t q =>
          cases hq
          exact (halong q m hy).imp (fun hp => List.cons_prefix_cons.mpr ⟨rfl, hp⟩)
            fun hp => List.cons_prefix_cons.mpr ⟨rfl, hp⟩

theorem leads_nest (hh : h.Proper) (hx : h.Within x) (path : List String) :
    (nest x path h).2.Proper ∧ (nest x path h).2.Within (nest x path h).1 ∧
      (nest x path h).2.edges.leads (keySteps path) (nest x path h).1 = some x := by
  induction path with
  | nil => exact ⟨hh, hx, rfl⟩
  | cons s rest ih =>
    obtain ⟨hproper, hwithin, hleads⟩ := ih
    refine ⟨hproper.holding hwithin s, ?_, ?_⟩
    · change _ < ((nest x rest h).2.holding s (nest x rest h).1).length
      simp [holding]
    · change ((nest x rest h).2.holding s (nest x rest h).1).edges.leads (.key s :: keySteps rest)
        (.ref (nest x rest h).2.length) = some x
      rw [Edges.leads_ref, edges_holding, if_pos rfl, Option.bind_some, holding,
        hproper.leads_append hwithin, hleads]

end Nest

/-! Copies of other heaps -/

section Graft

variable {A : Place → Prop} {x : Node}

theorem getElem?_graft (h u : Heap) (a : Nat) :
    (h.graft u)[h.length + a]? = u[a]?.map (Cell.shift h.length) := by
  rw [graft, List.getElem?_append_right (Nat.le_add_right _ _), Nat.add_sub_cancel_left,
    List.getElem?_map]

theorem get?_shift (k : Nat) (v : Value) (fs : List (Value × Node)) :
    Entries.get? v (fs.map fun f => (f.1, f.2.shift k)) =
      (Entries.get? v fs).map (Node.shift k) := by
  induction fs with
  | nil => rfl
  | cons f fs ih =>
    rw [List.map_cons, Entries.get?, Entries.get?]
    split
    · rfl
    · exact ih

theorem edges_graft (h u : Heap) (a : Nat) (st : Step) :
    (h.graft u).edges (h.length + a) st = (u.edges a st).map (Node.shift h.length) := by
  unfold edges
  rw [getElem?_graft]
  cases u[a]? with
  | none => rfl
  | some cell =>
    cases cell with
    | dict fs =>
      cases st with
      | key s => exact get?_shift h.length (str s) fs
      | item i =>
        simp only [Option.map_some, Cell.shift, List.filter_map, List.getElem?_map,
          Option.map_map, Function.comp_def]
    | fixed frame ns =>
      cases st with
      | key s => rfl
      | item i => exact List.getElem?_map

theorem leads_graft (h u : Heap) (p : Place) (n : Node) :
    (h.graft u).edges.leads p (n.shift h.length) =
      (u.edges.leads p n).map (Node.shift h.length) := by
  induction p generalizing n with
  | nil => rfl
  | cons st p ih =>
    cases n with
    | ref a =>
      change ((h.graft u).edges (h.length + a) st).bind _ = _
      rw [edges_graft, Edges.leads_ref]
      cases u.edges a st with
      | none => rfl
      | some m => exact ih m
    | leaf v => rfl

theorem fields?_graft (h u : Heap) (a : Nat) : (h.graft u).fields? (h.length + a) =
    (u.fields? a).map fun fs => fs.map fun f => (f.1, f.2.shift h.length) := by
  rw [fields?, fields?, getElem?_graft]
  cases u[a]? with
  | none => rfl
  | some cell => cases cell <;> rfl

theorem within_shift (hx : u.Within x) : (h.graft u).Within (x.shift h.length) := by
  cases x with
  | ref a =>
    change h.length + a < (h ++ u.map _).length
    rw [List.length_append, List.length_map]
    exact Nat.add_lt_add_left hx h.length
  | leaf v => trivial

theorem Proper.graft (hh : h.Proper) (hu : u.Proper) : (h.graft u).Proper := by
  refine hh.append (fun fs hfs => ?_) fun a st n ha he => ?_
  · obtain ⟨cell, hcell, hshift⟩ := List.mem_map.mp hfs
    cases cell with
    | dict gs =>
      cases hshift
      obtain ⟨a, ha⟩ := List.getElem?_of_mem hcell
      exact List.pairwise_map.mpr (hu.distinct a gs (fields?_eq_some.mpr ha))
    | fixed frame ns => cases hshift
  · obtain ⟨b, rfl⟩ := Nat.exists_eq_add_of_le ha
    change (h.graft u).edges _ _ = _ at he
    rw [edges_graft] at he
    obtain ⟨m, hm, rfl⟩ := Option.map_eq_some_iff.mp he
    exact within_shift (hu.closed b st m hm)

theorem leads_graft_ref {c : Nat} {z : Place}
    (hz : (h.graft u).edges.leads z (x.shift h.length) = some (.ref c)) :
    ∃ b, c = h.length + b ∧ u.edges.leads z x = some (.ref b) := by
  rw [leads_graft] at hz
  obtain ⟨m, hm, he⟩ := Option.map_eq_some_iff.mp hz
  cases m with
  | ref b =>
    cases he
    exact ⟨b, rfl, hm⟩
  | leaf v => cases he

/-- No object of a copy stands where something stood before. -/
theorem graft_apart (hh : h.Proper) (hn : h.Within n) {c : Nat} {y z : Place}
    (hy : (h.graft u).edges.leads y n = some (.ref c)) :
    (h.graft u).edges.leads z (x.shift h.length) ≠ some (.ref c) := by
  intro hz
  obtain ⟨b, rfl, -⟩ := leads_graft_ref hz
  rw [graft, hh.leads_append hn] at hy
  exact absurd (hh.leads_within hn hy) (Nat.not_lt_of_le (Nat.le_add_right _ _))

/-- A copy has its objects for itself. -/
theorem brings_graft (hh : h.Proper) (hn : h.Within n)
    (hx : u.Solo (fun q => A (p ++ q)) x) : (h.graft u).Brings A n p (x.shift h.length) := by
  refine ⟨fun y z c hc hy hz hny => ?_, fun y z c _ hy hz => absurd hz (graft_apart hh hn hy)⟩
  obtain ⟨b, rfl, hy'⟩ := leads_graft_ref hy
  obtain ⟨b', hb, hz'⟩ := leads_graft_ref hz
  obtain rfl := Nat.add_left_cancel hb
  refine hx ?_ hy' hz' hny
  obtain ⟨fs, hf⟩ := hc
  rw [fields?_graft] at hf
  obtain ⟨gs, hg, _⟩ := Option.map_eq_some_iff.mp hf
  exact ⟨gs, hg⟩

end Graft

/-! Setting and removing, each of which changes one dictionary -/

section Write

variable {h' : Heap} {path : List String} {x : Node}

/-- The dictionary that setting a path changes: the last one that there is on the path. -/
structure Sets (h : Heap) (x : Node) (path : List String) (a : Nat) (w : List String) (s : String)
    (rest : List String) (b : Nat) : Prop where
  path_eq : path = w ++ s :: rest
  leads : h.getPath w (.ref a) = some (.ref b)
  isDict : h.IsDict b
  vacant : rest ≠ [] → h.get? b s = none ∨ h.get? b s = some (.leaf null)

theorem setPath_eq_ok (hp : path ≠ []) (ha : h.IsDict a) (hs : h.setPath x path a = .ok h') :
    ∃ w s rest b, Sets h x path a w s rest b ∧ h' = putNested x s rest b h := by
  induction path generalizing a with
  | nil => exact absurd rfl hp
  | cons s rest ih =>
    cases rest with
    | nil =>
      cases hs
      exact ⟨[], s, [], a, ⟨rfl, rfl, ha, fun hne => absurd rfl hne⟩, rfl⟩
    | cons t rest =>
      rw [setPath] at hs
      · split at hs
        · next hget =>
          cases hs
          exact ⟨[], s, t :: rest, a, ⟨rfl, rfl, ha, fun _ => .inl hget⟩, rfl⟩
        · next hget =>
          cases hs
          exact ⟨[], s, t :: rest, a, ⟨rfl, rfl, ha, fun _ => .inr hget⟩, rfl⟩
        · cases hs
        · next c hget =>
          split at hs
          · next fs hf =>
            obtain ⟨w, r, rest', b, ⟨hpath, hleads, hb, hvacant⟩, hh'⟩ := ih (by simp) ⟨fs, hf⟩ hs
            refine ⟨s :: w, r, rest', b, ⟨by rw [hpath]; rfl, ?_, hb, hvacant⟩, hh'⟩
            rw [getPath, hget, Option.bind_some, hleads]
          · cases hs
      · simp

theorem popPath_eq_some (hp : h.popPath path a = some (n, h')) :
    ∃ w s b, path = w ++ [s] ∧ h.getPath w (.ref a) = some (.ref b) ∧ h.get? b s = some n ∧
      h' = h.change b (Entries.erase (str s)) := by
  induction path generalizing a with
  | nil => cases hp
  | cons s rest ih =>
    cases rest with
    | nil =>
      obtain ⟨m, hm, he⟩ := Option.map_eq_some_iff.mp hp
      cases he
      exact ⟨[], s, a, rfl, rfl, hm, rfl⟩
    | cons t rest =>
      rw [popPath] at hp
      · split at hp
        · next c hget =>
          obtain ⟨w, r, b, hpath, hleads, hn, hh'⟩ := ih hp
          refine ⟨s :: w, r, b, by rw [hpath]; rfl, ?_, hn, hh'⟩
          rw [getPath, hget, Option.bind_some, hleads]
        · cases hp
      · simp

theorem popPath_eq_none_iff (hp : path ≠ []) :
    h.popPath path a = none ↔ h.getPath path (.ref a) = none := by
  induction path generalizing a with
  | nil => exact absurd rfl hp
  | cons s rest ih =>
    cases rest with
    | nil =>
      rw [popPath, Option.map_eq_none_iff, getPath]
      cases h.get? a s <;> simp [getPath]
    | cons t rest =>
      rw [popPath, getPath]
      · cases hget : h.get? a s with
        | none => simp
        | some m =>
          cases m with
          | ref c => exact ih (by simp)
          | leaf v => simp [getPath]
      · simp

end Write

end Heap

end DocStore
