import DocStore.Proofs.Query.Frame
import Mathlib.Data.List.Pairwise

/-! What is set is there afterwards, unless something stood there that equality takes for it. The
values may have objects in common; the document may not. -/

namespace DocStore

open Value

/-- What becomes of a path that is set. It holds the value, or what it held before, which was
exactly the value or was taken for it. -/
inductive Lands (before after : Option Value) (v : Value) : Prop
  | written (h : after = some v)
  | held {w : Value} (hb : before = some w) (ha : after = some w) (h : exactly w v = true)
  | mistaken {w : Value} (hb : before = some w) (ha : after = some w) (hc : w.classOf = v.classOf)
      (h : Confused w v)

/-- Fields whose paths are not in each other's way. -/
def PathsAloof (f g : Value × Node) : Prop :=
  ∀ p q, f.1 = str p → g.1 = str q → Aloof (segments p) (segments q)

instance : Std.Symm PathsAloof := ⟨fun _ _ h p q hp hq => (h q p hq hp).symm⟩

theorem pathsAloof {p q : String} {n m : Node} (h : Aloof (segments p) (segments q)) :
    PathsAloof (str p, n) (str q, m) := by
  intro p' q' hp hq
  cases hp
  cases hq
  exact h

namespace Objects

variable {A : Place → Prop} {o o' u : Objects} {fs : List (Value × Node)} {n : Node} {v : Value}
  {path : String} {changed b : Bool}

/-- The places at and under the paths of a sort. -/
def Under (N : String → Prop) (p : Place) : Prop := ∃ path, N path ∧ keySteps (segments path) <+: p

theorem Under.append {N : String → Prop} {p : Place} (q : Place) (h : Under N p) :
    Under N (p ++ q) := by
  obtain ⟨path, hN, hp⟩ := h
  exact ⟨path, hN, hp.trans (List.prefix_append p q)⟩

theorem valueAt_eq_some_iff (ho : o.Proper) {q : List String} :
    o.valueAt q = some v ↔ ∃ m, o.getAt q = some m ∧ o.heap.Reads m v := by
  simp only [valueAt, Option.bind_eq_some_iff, ho.heap.tree_eq_some_iff]

/-- A copy that was set at a path stands for what was copied. -/
theorem valueAt_copyAt (hA : ∀ p q, A p → A (p ++ q)) (ho : o.Proper)
    (hs : o.heap.Solo A (.ref o.root)) (hu : u.heap.Proper) (hn : u.heap.Within n)
    (hexempt : ∀ y, A (keySteps (segments path) ++ y))
    (hfree : ∀ w t, segments path = w ++ t → t ≠ [] → ¬ A (keySteps w))
    (h : copyAt (segments path) u.heap n o = .ok o') (hv : u.heap.tree n = some v) :
    o'.valueAt (segments path) = some v := by
  have hp : Open A (fun _ => False) path := ⟨hexempt, fun _ h => h.elim, fun _ h => h.elim⟩
  have hproper := (copyAt_spares hA ho hs hp hu hn h).proper
  obtain ⟨hgraft, hroot, hsolo, w, s, rest, b, hsets, rfl⟩ := copyAt_eq_ok ho hs hu h
  obtain ⟨hget, hread⟩ := Heap.putNested_at hgraft hroot hsolo (Heap.within_shift hn) hsets
    (brings_copy ho hp) (hfree w (s :: rest) hsets.path_eq (by simp))
  obtain ⟨k, hk⟩ := hu.tree_eq_some_iff.mp hv
  exact (valueAt_eq_some_iff hproper).mpr
    ⟨_, hget, k, (hread k).trans ((Heap.read_shift k n).trans hk)⟩

theorem holdsAt_eq_true {q : List String} {u : Heap} (h : holdsAt q u n o = true)
    (hv : u.tree n = some v) :
    ∃ w, o.valueAt q = some w ∧ equal w v = true ∧ w.classOf = v.classOf := by
  unfold holdsAt at h
  rw [hv] at h
  split at h
  · next w _ hw hv' =>
    cases hv'
    obtain ⟨he, hc⟩ := Bool.and_eq_true_iff.mp h
    exact ⟨w, hw, (Bool.and_eq_true_iff.mp he).2, beq_iff_eq.mp hc⟩
  · cases h

theorem holdsAt_congr {q : List String} {u : Heap} (h : o'.valueAt q = o.valueAt q) :
    holdsAt q u n o' = holdsAt q u n o := by
  unfold holdsAt
  rw [show (o'.getAt q).bind o'.heap.tree = (o.getAt q).bind o.heap.tree from h]

/-- Paths that are aloof of each other are set as if each were the only one. -/
theorem setAll_each (hA : ∀ p q, A p → A (p ++ q)) (ho : o.Proper)
    (hs : o.heap.Solo A (.ref o.root)) (hu : u.heap.Proper) (hfs : ∀ f ∈ fs, u.heap.Within f.2)
    (hexempt : ∀ p n, (str p, n) ∈ fs → ∀ y, A (keySteps (segments p) ++ y))
    (hfree : ∀ p n, (str p, n) ∈ fs → ∀ w t, segments p = w ++ t → t ≠ [] → ¬ A (keySteps w))
    (hapart : fs.Pairwise PathsAloof)
    (h : (setAll u.heap fs changed o).result = .ok b) :
    ∀ path n v, (str path, n) ∈ fs → u.heap.tree n = some v →
      (setAll u.heap fs changed o).document.valueAt (segments path) = some v ∨
        holdsAt (segments path) u.heap n o = true ∧
          (setAll u.heap fs changed o).document.valueAt (segments path) =
            o.valueAt (segments path) := by
  induction fs generalizing changed o with
  | nil => simp
  | cons f fs ih =>
    obtain ⟨k, m⟩ := f
    obtain ⟨hfirst, hrest⟩ := List.pairwise_cons.mp hapart
    obtain ⟨hm, hwithin⟩ := List.forall_mem_cons.mp hfs
    have hexempt' := fun p n h => hexempt p n (List.mem_cons_of_mem _ h)
    have hfree' := fun p n h => hfree p n (List.mem_cons_of_mem _ h)
    cases k with
    | str first =>
      -- setting the others is not seen from the first path
      have hspared {o : Objects} (ho : o.Proper) (hs : o.heap.Solo A (.ref o.root))
          (changed : Bool) : (setAll u.heap fs changed o).document.valueAt (segments first) =
            o.valueAt (segments first) := by
        have hedits := setAll_edits (N := fun p => ∃ n, (str p, n) ∈ fs) hwithin
          (fun p n hmem => ⟨n, hmem⟩) changed o
        refine (hedits.spares hA ho hs hu (Q := (· = segments first)) ?_).valueAt ho rfl
        rintro p ⟨n, hmem⟩
        refine ⟨hexempt' p n hmem, ?_, fun _ _ => .inl (hfree' p n hmem)⟩
        rintro _ rfl
        exact (hfirst _ hmem first p rfl rfl).symm
      have hcases {p n} (hmem : (str p, n) ∈ (str first, m) :: fs) :
          p = first ∧ n = m ∨ (str p, n) ∈ fs := by simpa using hmem
      rw [setAll] at h ⊢
      by_cases hheld : holdsAt (segments first) u.heap m o = true
      · rw [if_pos hheld] at h ⊢
        intro path n v hmem hv
        rcases hcases hmem with ⟨rfl, rfl⟩ | hmem
        · exact .inr ⟨hheld, hspared ho hs changed⟩
        · exact ih ho hs hwithin hexempt' hfree' hrest h path n v hmem hv
      · rw [if_neg hheld] at h ⊢
        cases hc : copyAt (segments first) u.heap m o with
        | error e =>
          rw [hc] at h
          cases h
        | ok o' =>
          rw [hc] at h
          have hopen : Open A (fun q => ∃ p n, (str p, n) ∈ fs ∧ q = segments p) first := by
            refine ⟨hexempt first m List.mem_cons_self, ?_,
              fun _ _ => .inl (hfree first m List.mem_cons_self)⟩
            rintro _ ⟨p, n, hp, rfl⟩
            exact hfirst _ hp first p rfl rfl
          have hset := copyAt_spares hA ho hs hopen hu hm hc
          intro path n v hmem hv
          rcases hcases hmem with ⟨rfl, rfl⟩ | hmem
          · exact .inl ((hspared hset.proper hset.solo true).trans
              (valueAt_copyAt hA ho hs hu hm hopen.exempt (hfree path n List.mem_cons_self) hc hv))
          · have hsame : o'.valueAt (segments path) = o.valueAt (segments path) :=
              hset.valueAt ho ⟨path, n, hmem, rfl⟩
            rcases ih hset.proper hset.solo hwithin hexempt' hfree' hrest h path n v hmem hv with
              hland | ⟨hheld, hkept⟩
            · exact .inl hland
            · exact .inr ⟨holdsAt_congr hsame ▸ hheld, hkept.trans hsame⟩
    | _ => cases h

theorem Altered.andThen_done (r : Altered) :
    (r.andThen fun changed o => ⟨o, .ok changed⟩) = r := by
  obtain ⟨o, res⟩ := r
  cases res <;> rfl

/-- An update whose one operator is `$set` does nothing else. -/
theorem applyUpdate_setting {a : Nat} (o : Objects) (hset : u.fields = [(str "$set", .ref a)])
    (hfs : u.heap.fields? a = some fs) : o.applyUpdate u = setAll u.heap fs false o := by
  have hfault : updateFault? (dict (u.fields.map fun f => (f.1, null))) = none := by
    rw [hset]
    exact updateFault?_eq_none_iff.mpr ⟨by simp, by simp [Entries.keys, isUpdateOperator]⟩
  rw [applyUpdate, hfault]
  simp only [runUpdate, operands, removals, hset, Entries.get?, equal_str]
  simp only [String.reduceEq, decide_false, decide_true, if_true, Bool.false_eq_true, if_false, hfs]
  exact (Altered.andThen_done _).trans (Altered.andThen_done _)

def correction : Objects :=
  ⟨[.dict [(str "x", .leaf (int 1))],
    .dict [(str "n", .leaf (str "x")), (str "a.b", .ref 3), (str "t.u", .leaf (int 2))],
    .dict [(str "$set", .ref 1)], .fixed .list [.ref 0, .ref 0]], 2⟩

def uncorrected : Entries :=
  [(str "n", int 7), (str "a", null), (str "t", dict [(str "u", int 2)])]

theorem proper_correction : correction.Proper := by
  refine ⟨Heap.proper_of_cells ?_ ?_, _, rfl⟩
  · simp [correction, equal_str, Heap.Within, or_imp, forall_and]
  · simp [correction, Heap.Within]

theorem embodies_uncorrected : (ofEntries uncorrected).Embodies (dict uncorrected) :=
  embodies_ofEntries (.dict (by simp [uncorrected, equal_str]) (by
    simp only [uncorrected, List.forall_mem_cons, List.not_mem_nil, false_imp_iff, implies_true,
      and_true]
    exact ⟨.int 7, .other (fun _ => rfl) rfl, .dict (by simp) (by simp [Single.int])⟩))

end Objects

end DocStore
