import DocStore.Proofs.Query.Frame

/-! Updates in place and updates of values. Where no dictionary stands at two places, neither of a
document nor of an update, what an update does to the objects is what it does to the value that they
stand for, and the objects are again at one place each. -/

namespace DocStore

open Value

namespace Objects

variable {o o' u : Objects} {d v : Value} {n : Node} {path : String} {q : List String}
  {fs : List (Value × Node)} {ps : Entries} {r : Altered} {x : Updated}

/-- No place is exempt from being the only one. -/
abbrev Nowhere : Place → Prop := fun _ => False

theorem Embodies.solo (h : o.Embodies d) : o.heap.Solo Nowhere (.ref o.root) := h.unshared.solo

/-- A node of the heap brings its own objects along, if it is set in a document. -/
abbrev Brought (o : Objects) (n : Node) : Prop :=
  ∀ p, o.heap.Brings Nowhere (.ref o.root) p n

/-- Work on objects and on the value that they stand for, with the same end. -/
inductive Agree : Except Error Objects → Except Error Value → Prop
  | ok {o : Objects} {d : Value} (h : o.Embodies d) : Agree (.ok o) (.ok d)
  | error (e : Error) : Agree (.error e) (.error e)

theorem Embodies.setAt (h : o.Embodies d) (hn : o.heap.Within n) (hb : o.Brought n)
    (hv : o.heap.Reads n v) (hq : q ≠ []) : Agree (o.setAt q n) (Value.setAt q v d) := by
  obtain ⟨ps, rfl⟩ := h.entries
  rw [Objects.setAt, Value.setAt]
  cases hset : o.heap.setPath n q o.root with
  | error e =>
    rw [Heap.setPath_eq_error h.proper.heap h.reads v hset]
    exact .error e
  | ok heap =>
    obtain ⟨w, s, rest, b, hsets, rfl⟩ := Heap.setPath_eq_ok hq h.proper.root hset
    obtain ⟨qs, hqs, hreads⟩ := Heap.reads_put h.proper.heap h.solo not_false h.reads
      h.proper.root hn hsets (hb _) hv
    have hkept := Heap.kept_put h.proper.heap h.proper.root h.solo (fun _ _ hp => hp.elim) hn hsets
      (hb _)
    rw [hqs]
    exact .ok ⟨⟨hkept.proper, hkept.isDict⟩, fun p p' a ha hp hp' =>
      hkept.solo ha hp hp' not_false, hkept.proper.tree_eq_some_iff.mpr hreads⟩

/-- What was taken from a path, and what is left. -/
theorem Embodies.popAt (h : o.Embodies d) (hq : q ≠ []) :
    o.popAt q = none ∧ Value.popAt q d = none ∨ ∃ n o' v d', o.popAt q = some (n, o') ∧
      Value.popAt q d = some (v, d') ∧ o'.Embodies d' ∧ o'.heap.Within n ∧ o'.Brought n ∧
      o'.heap.Reads n v := by
  obtain ⟨ps, rfl⟩ := h.entries
  cases hpop : o.popAt q with
  | none =>
    refine .inl ⟨rfl, ?_⟩
    have hnone := (Heap.popPath_eq_none_iff hq).mp (Option.map_eq_none_iff.mp hpop)
    rcases h.reads.getPath q with ⟨-, hw⟩ | ⟨m, w, hm, -⟩
    · rw [Value.popAt, (Entries.popPath_eq_none_iff hq).mpr hw, Option.map_none]
    · rw [hm] at hnone
      cases hnone
  | some r =>
    obtain ⟨n, o'⟩ := r
    obtain ⟨w, s, b, rfl, hw, hm, rfl⟩ := popAt_eq_some hpop
    obtain ⟨v, qs, hqs, hreads, hv⟩ := Heap.reads_erase h.proper.heap h.solo not_false h.reads hw hm
    have hkept := Heap.kept_erase h.proper.heap h.proper.root h.solo (fun _ _ hp => hp.elim) hw hm
    refine .inr ⟨n, _, v, dict qs, rfl, by rw [Value.popAt, hqs, Option.map_some],
      ⟨⟨hkept.proper, hkept.isDict⟩, fun p p' a ha hp hp' => hkept.solo ha hp hp' not_false,
        hkept.proper.tree_eq_some_iff.mpr hreads⟩, ?_, fun p => ?_, hv⟩
    · exact (Heap.within_change _).mpr
        (h.proper.heap.closed b _ n ((Heap.edges_key o.heap b s).trans hm))
    · exact Heap.brings_popped h.proper.heap h.solo hw hm fun _ hp => hp.elim

theorem Embodies.holdsAt (h : o.Embodies d) {u : Heap} (hu : u.Proper) (hv : u.Reads n v)
    (q : List String) : Objects.holdsAt q u n o = Value.holdsAt q v d := by
  have hget := h.proper.valueAt h.tree q
  unfold Objects.holdsAt Value.holdsAt
  rw [show (o.getAt q).bind o.heap.tree = getPath q d from hget, hu.tree_eq_some_iff.mpr hv]
  cases getPath q d <;> rfl

/-- A node of an update that stands for a value and has its objects for itself. -/
structure Operand (u : Heap) (n : Node) (v : Value) : Prop where
  within : u.Within n
  solo : u.Solo Nowhere n
  reads : u.Reads n v

theorem Embodies.copyAt (h : o.Embodies d) {u : Heap} (hu : u.Proper) (hn : Operand u n v)
    (hq : q ≠ []) : Agree (o.copyAt q u n) (Value.setAt q v d) := by
  have hwithin := h.proper.root.within
  have hgraft : (⟨o.heap.graft u, o.root⟩ : Objects).Embodies d := by
    have hproper := h.proper.heap.graft hu
    obtain ⟨k, hk⟩ := h.reads
    refine ⟨⟨hproper, (Heap.isDict_append_old _ hwithin).mpr h.proper.root⟩,
      fun p p' a ha hp hp' => (h.solo.append h.proper.heap hwithin _) ha hp hp' not_false,
      hproper.tree_eq_some_iff.mpr ⟨k, (h.proper.heap.read_append hwithin _ k).trans hk⟩⟩
  refine hgraft.setAt (Heap.within_shift hn.within)
    (fun p => Heap.brings_graft h.proper.heap hwithin hn.solo) ?_ hq
  obtain ⟨k, hk⟩ := hn.reads
  exact ⟨k, (Heap.read_shift k n).trans hk⟩

/-- An update of objects and one of the value that they stand for, with the same end. -/
structure Equals (r : Altered) (x : Updated) : Prop where
  document : r.document.Embodies x.document
  result : r.result = x.result

theorem Embodies.equals (h : o.Embodies d) (res : Except Error Bool) : Equals ⟨o, res⟩ ⟨d, res⟩ :=
  ⟨h, rfl⟩

theorem Equals.andThen {f : Bool → Objects → Altered} {g : Bool → Value → Updated}
    (h : Equals r x) (hfg : ∀ b o d, o.Embodies d → Equals (f b o) (g b d)) :
    Equals (r.andThen f) (x.andThen g) := by
  rw [Altered.andThen, Updated.andThen, h.result]
  cases x.result with
  | ok b => exact hfg b _ _ h.document
  | error e => exact h

/-- Fields of an update and the entries that they stand for. -/
def Operands (u : Heap) : List (Value × Node) → Entries → Prop :=
  List.Forall₂ fun f p => f.1 = p.1 ∧ Operand u f.2 p.2

theorem equals_setAll {u : Heap} (hu : u.Proper) (hops : Operands u fs ps) (h : o.Embodies d)
    (changed : Bool) : Equals (Objects.setAll u fs changed o) (DocStore.setAll ps changed d) := by
  induction hops generalizing changed o d with
  | nil => exact h.equals _
  | @cons f p fs ps hfp _ ih =>
    obtain ⟨k, n⟩ := f
    obtain ⟨_, v⟩ := p
    obtain ⟨rfl, hn⟩ := hfp
    cases k with
    | str path =>
      rw [Objects.setAll, DocStore.setAll, h.holdsAt hu hn.reads]
      split
      · exact ih h changed
      · have hcopy := h.copyAt hu hn (segments_ne_nil path)
        generalize Objects.copyAt (segments path) u n o = r at hcopy ⊢
        generalize Value.setAt (segments path) v d = x at hcopy ⊢
        cases hcopy with
        | ok h' => exact ih h' true
        | error e => exact h.equals _
    | _ => exact h.equals _

theorem equals_unsetAll (ks : List Value) (h : o.Embodies d) (changed : Bool) :
    Equals (Objects.unsetAll ks changed o) (DocStore.unsetAll ks changed d) := by
  induction ks generalizing changed o d with
  | nil => exact h.equals _
  | cons k ks ih =>
    cases k with
    | str path =>
      rw [Objects.unsetAll, DocStore.unsetAll]
      rcases h.popAt (segments_ne_nil path) with ⟨hn, hv⟩ | ⟨n, o', v, d', hn, hv, h', -⟩
      · rw [hn, hv]
        exact ih h changed
      · rw [hn, hv]
        exact ih h' true
    | _ => exact h.equals _

theorem equals_renameAll {u : Heap} (hu : u.Proper) (hops : Operands u fs ps) (h : o.Embodies d)
    (changed : Bool) :
    Equals (Objects.renameAll u fs changed o) (DocStore.renameAll ps changed d) := by
  induction hops generalizing changed o d with
  | nil => exact h.equals _
  | @cons f p fs ps hfp _ ih =>
    obtain ⟨k, n⟩ := f
    obtain ⟨_, v⟩ := p
    obtain ⟨rfl, hn⟩ := hfp
    change Operand u n v at hn
    change Equals _ (DocStore.renameAll ((k, v) :: ps) changed d)
    have htree := hu.tree_eq_some_iff.mpr hn.reads
    cases n with
    | ref a =>
      unfold Objects.renameAll
      dsimp only
      rw [htree]
      by_cases hd : u.IsDict a
      · obtain ⟨qs, rfl⟩ := hn.reads.dict_of_isDict hd
        exact h.equals _
      · obtain ⟨frame, vs, rfl⟩ := hn.reads.frame_of_not_isDict hd
        cases frame <;> exact h.equals _
    | leaf w =>
      obtain ⟨-, rfl⟩ := Heap.reads_leaf.mp hn.reads
      cases v with
      | str new =>
        cases k with
        | str old =>
          rw [Objects.renameAll, DocStore.renameAll]
          split
          · exact h.equals _
          · rcases h.popAt (segments_ne_nil old) with ⟨hn, hv⟩ | ⟨m, o', w, d', hm, hw, h', hin, hb, hr⟩
            · rw [hn, hv]
              exact ih h changed
            · rw [hm, hw]
              have hset := h'.setAt hin hb hr (segments_ne_nil new)
              dsimp only
              generalize Objects.setAt (segments new) m o' = r at hset ⊢
              generalize Value.setAt (segments new) w d' = x at hset ⊢
              cases hset with
              | ok h'' => exact ih h'' true
              | error e => exact h'.equals _
        | _ => exact h.equals _
      | _ =>
        unfold Objects.renameAll
        dsimp only
        rw [htree]
        exact h.equals _

/-! The parts of an update -/

variable {ups : Entries}

/-- What stands at a place of an update can be copied from it. -/
theorem Embodies.operand (h : u.Embodies d) {p : Place}
    (hp : u.heap.edges.leads p (.ref u.root) = some n) (hv : u.heap.Reads n v) :
    Operand u.heap n v :=
  ⟨h.proper.heap.leads_within h.proper.root.within hp, h.solo.below hp, hv⟩

theorem Embodies.fields (h : u.Embodies (dict ups)) : u.heap.fields? u.root = some u.fields ∧
    List.Forall₂ (fun f p => f.1 = p.1 ∧ u.heap.Reads f.2 p.2) u.fields ups := by
  obtain ⟨fs, hfs⟩ := h.proper.root
  have hfields : u.fields = fs := by rw [Objects.fields, hfs, Option.getD_some]
  obtain ⟨_, he, hrows⟩ := (Heap.reads_dict hfs).mp h.reads
  cases he
  rw [hfields]
  exact ⟨hfs, hrows⟩

theorem Embodies.get? (h : u.Embodies (dict ups)) (op : String) :
    Entries.get? (str op) u.fields = none ∧ Entries.get? (str op) ups = none ∨
      ∃ m w, Entries.get? (str op) u.fields = some m ∧ Entries.get? (str op) ups = some w ∧
        Operand u.heap m w ∧ u.heap.edges.leads [.key op] (.ref u.root) = some m := by
  have hget := Heap.get?_of_fields? h.fields.1 op
  rcases h.reads.get? op with ⟨hm, hw⟩ | ⟨m, w, hm, hw, hmw⟩
  · exact .inl ⟨hget.symm.trans hm, hw⟩
  · have hplace : u.heap.edges.leads [.key op] (.ref u.root) = some m := by
      rw [Edges.leads_ref, Heap.edges_key, hm]
      rfl
    exact .inr ⟨m, w, hget.symm.trans hm, hw, h.operand hplace hmw, hplace⟩

theorem Embodies.operands (h : u.Embodies (dict ups)) (op : String) :
    (∃ e, u.operands op = .error e ∧ DocStore.operands op ups = .error e) ∨
      ∃ fs ps, u.operands op = .ok fs ∧ DocStore.operands op ups = .ok ps ∧
        Operands u.heap fs ps := by
  unfold Objects.operands DocStore.operands
  rcases h.get? op with ⟨hm, hw⟩ | ⟨m, w, hm, hw, hmw, hplace⟩
  · rw [hm, hw]
    exact .inr ⟨[], [], rfl, rfl, .nil⟩
  · rw [hm, hw]
    cases m with
    | leaf x =>
      obtain ⟨hx, rfl⟩ := Heap.reads_leaf.mp hmw.reads
      cases w with
      | dict ps => cases hx
      | _ => exact .inl ⟨.kind, rfl, rfl⟩
    | ref a =>
      dsimp only
      cases hf : u.heap.fields? a with
      | some fs =>
        obtain ⟨ps, rfl, hrows⟩ := (Heap.reads_dict hf).mp hmw.reads
        refine .inr ⟨fs, ps, rfl, rfl, forall₂_imp_mem hrows fun f hf' p hfp => ⟨hfp.1, ?_⟩⟩
        obtain ⟨st, he, -⟩ := h.proper.heap.edge_of_mem hf hf'
        exact h.operand ((Edges.leads_snoc hplace st).trans he) hfp.2
      | none =>
        have hd : ¬ u.heap.IsDict a := by
          rintro ⟨fs, hfs⟩
          rw [hf] at hfs
          cases hfs
        obtain ⟨frame, vs, rfl⟩ := hmw.reads.frame_of_not_isDict hd
        cases frame <;> exact .inl ⟨.kind, rfl, rfl⟩

/-- Iterating over a node and over what it stands for comes to the same. -/
theorem iterate?_eq {u : Heap} (hu : u.Proper) (hv : u.Reads n v) : u.iterate? n = v.iterate? := by
  cases n with
  | leaf w =>
    obtain ⟨-, rfl⟩ := Heap.reads_leaf.mp hv
    rfl
  | ref a =>
    unfold Heap.iterate?
    dsimp only
    obtain ⟨k, hk⟩ := hv
    obtain ⟨k, rfl, ⟨fs, hf⟩ | ⟨frame, ns, hc⟩⟩ := Heap.read_ref_cases hk
    · obtain ⟨ps, rfl, hrows⟩ := (Heap.read_dict_iff hf).mp hk
      rw [Heap.fields?_eq_some.mp hf]
      exact congrArg some (map_eq_map (hrows.imp fun _ _ h => h.1))
    · obtain ⟨vs, rfl, hvs⟩ := (Heap.read_fixed_iff hc).mp hk
      have hitems : (ns.map fun n => (u.tree n).getD handle) = vs := by
        rw [← List.map_id vs]
        refine map_eq_map (hvs.imp fun m w hm => ?_)
        rw [hu.tree_eq_some_iff.mpr ⟨k, hm⟩]
        rfl
      rw [hc]
      cases frame with
      | list => exact congrArg some hitems
      | tuple => exact congrArg some hitems
      | record c names => rfl

theorem Embodies.removals (h : u.Embodies (dict ups)) : u.removals = DocStore.removals ups := by
  unfold Objects.removals DocStore.removals
  rcases h.get? "$unset" with ⟨hm, hw⟩ | ⟨m, w, hm, hw, hmw, -⟩
  · rw [hm, hw]
  · have hiterate := iterate?_eq h.proper.heap hmw.reads
    cases hi : w.iterate? <;> simp [hm, hw, hiterate, hi]

theorem Embodies.updateFault? (h : u.Embodies (dict ups)) :
    updateFault? (.dict (u.fields.map fun f => (f.1, null))) = DocStore.updateFault? (dict ups) := by
  have hkeys : u.fields.map Prod.fst = ups.map Prod.fst :=
    map_eq_map (h.fields.2.imp fun _ _ h => h.1)
  have hempty : u.fields.isEmpty = ups.isEmpty := by
    rw [← List.isEmpty_map (f := Prod.fst), hkeys, List.isEmpty_map]
  unfold DocStore.updateFault?
  simp only [truthy, iterate?, List.isEmpty_map, hempty, List.map_map, Function.comp_def]
  rw [hkeys]
  rfl

theorem equals_runUpdate (hu : u.Embodies (dict ups)) (h : o.Embodies d) :
    Equals (Objects.runUpdate u o) (DocStore.runUpdate ups d) := by
  unfold Objects.runUpdate DocStore.runUpdate
  refine Equals.andThen (Equals.andThen ?_ fun changed o d h => ?_) fun changed o d h => ?_
  · rcases hu.operands "$set" with ⟨e, ho, hd⟩ | ⟨fs, ps, ho, hd, hops⟩
    · rw [ho, hd]
      exact h.equals _
    · rw [ho, hd]
      exact equals_setAll hu.proper.heap hops h false
  · rw [hu.removals]
    cases DocStore.removals ups with
    | error e => exact h.equals _
    | ok ks => exact equals_unsetAll ks h changed
  · rcases hu.operands "$rename" with ⟨e, ho, hd⟩ | ⟨fs, ps, ho, hd, hops⟩
    · rw [ho, hd]
      exact h.equals _
    · rw [ho, hd]
      exact equals_renameAll hu.proper.heap hops h changed

/-- Updating a document in place is updating the value that it stands for, and the document is again
one that has each dictionary at one place. -/
theorem equals_applyUpdate (hu : u.Embodies (dict ups)) (h : o.Embodies d) :
    Equals (o.applyUpdate u) (DocStore.applyUpdate d (dict ups)) := by
  rw [Objects.applyUpdate, DocStore.applyUpdate, hu.updateFault?]
  cases DocStore.updateFault? (dict ups) with
  | some e => exact h.equals _
  | none => exact equals_runUpdate hu h

end Objects

end DocStore
