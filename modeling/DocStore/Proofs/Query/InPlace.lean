import DocStore.Proofs.Document.InPlace
import DocStore.Proofs.Query.Update
import DocStore.Query.InPlace
import Mathlib.Logic.Relation

/-! Updates in place, edit by edit. Where no dictionary stands at two places of a document, an edit
reaches the path that it names and no others, whatever the values that are set share among
themselves. -/

namespace DocStore

open Value

namespace Objects

variable {A : Place → Prop} {Q : List String → Prop} {N : String → Prop} {o o' o'' u : Objects}
  {n : Node} {path : String} {v : Value} {fs : List (Value × Node)} {r : Altered}

/-! Edits -/

/-- What an update does to a document at a time. It sets a copy of one of its own nodes at a path,
takes away what stands at one, or moves that to another one. -/
inductive Edit (N : String → Prop) (u : Heap) : Objects → Objects → Prop
  | copy {o o' : Objects} {path : String} {n : Node} (hN : N path) (hn : u.Within n)
      (h : copyAt (segments path) u n o = .ok o') : Edit N u o o'
  | take {o o' : Objects} {path : String} {n : Node} (hN : N path)
      (h : popAt (segments path) o = some (n, o')) : Edit N u o o'
  | move {o o' o'' : Objects} {old new : String} {n : Node} (hold : N old) (hnew : N new)
      (hpop : popAt (segments old) o = some (n, o'))
      (hset : setAt (segments new) n o' = .ok o'') : Edit N u o o''

abbrev Edits (N : String → Prop) (u : Heap) := Relation.ReflTransGen (Edit N u)

theorem Edits.andThen {u : Heap} {f : Bool → Objects → Altered} (h : Edits N u o r.document)
    (hf : ∀ changed o', Edits N u o' (f changed o').document) :
    Edits N u o (r.andThen f).document := by
  rw [Altered.andThen]
  cases r.result with
  | ok changed => exact h.trans (hf changed _)
  | error e => exact h

theorem setAll_edits {u : Heap} (hfs : ∀ f ∈ fs, u.Within f.2)
    (hN : ∀ p n, (str p, n) ∈ fs → N p) (changed : Bool) (o : Objects) :
    Edits N u o (setAll u fs changed o).document := by
  induction fs generalizing changed o with
  | nil => exact .refl
  | cons f fs ih =>
    obtain ⟨k, n⟩ := f
    obtain ⟨hn, hwithin⟩ := List.forall_mem_cons.mp hfs
    have ih := ih hwithin fun p n h => hN p n (List.mem_cons_of_mem _ h)
    cases k with
    | str path =>
      rw [setAll]
      split
      · exact ih changed o
      · cases hc : copyAt (segments path) u n o with
        | error e => exact .refl
        | ok o' => exact (ih true o').head (.copy (hN path n List.mem_cons_self) hn hc)
    | _ => exact .refl

theorem unsetAll_edits {u : Heap} {ks : List Value} (hN : ∀ p, str p ∈ ks → N p) (changed : Bool)
    (o : Objects) : Edits N u o (unsetAll ks changed o).document := by
  induction ks generalizing changed o with
  | nil => exact .refl
  | cons k ks ih =>
    have ih := ih fun p h => hN p (List.mem_cons_of_mem _ h)
    cases k with
    | str path =>
      rw [unsetAll]
      cases hpop : popAt (segments path) o with
      | none => exact ih changed o
      | some r => exact (ih true r.2).head (.take (hN path List.mem_cons_self) hpop)
    | _ => exact .refl

theorem renameAll_edits {u : Heap} (hold : ∀ p n, (str p, n) ∈ fs → N p)
    (hnew : ∀ k p, (k, Node.leaf (str p)) ∈ fs → N p) (changed : Bool) (o : Objects) :
    Edits N u o (renameAll u fs changed o).document := by
  induction fs generalizing changed o with
  | nil => exact .refl
  | cons f fs ih =>
    obtain ⟨k, target⟩ := f
    have ih := ih (fun p n h => hold p n (List.mem_cons_of_mem _ h))
      fun k p h => hnew k p (List.mem_cons_of_mem _ h)
    unfold renameAll
    split
    · next new =>
      split
      · next old =>
        have hN := hold old _ List.mem_cons_self
        split
        · exact .refl
        · cases hpop : popAt (segments old) o with
          | none => exact ih changed o
          | some r =>
            dsimp only
            cases hset : setAt (segments new) r.1 r.2 with
            | error e => exact .single (.take hN hpop)
            | ok o' => exact (ih true o').head (.move hN (hnew _ new List.mem_cons_self) hpop hset)
      · exact .refl
    · exact .refl

/-- An update names a path: as one to set or to remove, or as the old or the new one of a value. -/
inductive Names (u : Objects) (path : String) : Prop
  | set {fs : List (Value × Node)} {n : Node} (ho : u.operands "$set" = .ok fs)
      (h : (str path, n) ∈ fs) : Names u path
  | unset {ks : List Value} (ho : u.removals = .ok ks) (h : str path ∈ ks) : Names u path
  | source {fs : List (Value × Node)} {n : Node} (ho : u.operands "$rename" = .ok fs)
      (h : (str path, n) ∈ fs) : Names u path
  | target {fs : List (Value × Node)} {k : Value} (ho : u.operands "$rename" = .ok fs)
      (h : (k, .leaf (str path)) ∈ fs) : Names u path

theorem operands_within {op : String} (hu : u.Proper) (h : u.operands op = .ok fs) :
    ∀ f ∈ fs, u.heap.Within f.2 := by
  intro f hf
  unfold operands at h
  split at h
  · cases h
    cases hf
  · next a _ =>
    split at h
    · next gs hg =>
      cases h
      obtain ⟨st, he, -⟩ := hu.heap.edge_of_mem hg hf
      exact hu.heap.closed a st _ he
    · cases h
  · cases h

theorem runUpdate_edits (hu : u.Proper) (o : Objects) :
    Edits u.Names u.heap o (runUpdate u o).document := by
  refine Edits.andThen (Edits.andThen ?_ fun changed o => ?_) fun changed o => ?_
  · cases hop : u.operands "$set" with
    | ok fs =>
      exact setAll_edits (operands_within hu hop) (fun p n hm => .set hop hm) false o
    | error e => exact .refl
  · cases hop : u.removals with
    | ok ks => exact unsetAll_edits (fun p hm => .unset hop hm) changed o
    | error e => exact .refl
  · cases hop : u.operands "$rename" with
    | ok fs =>
      exact renameAll_edits (fun p n hm => .source hop hm) (fun k p hm => .target hop hm) changed o
    | error e => exact .refl

/-- Whether it succeeds or breaks off, an update is a sequence of edits at the paths it names. -/
theorem applyUpdate_edits (hu : u.Proper) (o : Objects) :
    Edits u.Names u.heap o (o.applyUpdate u).document := by
  unfold applyUpdate
  split
  · exact .refl
  · exact runUpdate_edits hu o

/-! What edits leave as it was -/

/-- What work on a document leaves in order: dictionaries that are at several places are at exempt
ones, and certain paths lead to what they led to. -/
structure Spares (A : Place → Prop) (Q : List String → Prop) (o o' : Objects) : Prop where
  root : o'.root = o.root
  proper : o'.Proper
  solo : o'.heap.Solo A (.ref o'.root)
  frame : ∀ q, Q q → o'.getAt q = o.getAt q ∧
    ∀ m, o.getAt q = some m → ∀ k, o'.heap.read k m = o.heap.read k m

/-- A path that may be changed while certain others stay. What is set there may have objects at
several places, which the others do not see. -/
structure Open (A : Place → Prop) (Q : List String → Prop) (path : String) : Prop where
  exempt : ∀ y, A (keySteps (segments path) ++ y)
  aloof : ∀ q, Q q → Aloof (segments path) q
  apart : ∀ q, Q q → Heap.Apart A (segments path) q

theorem Spares.refl (ho : o.Proper) (hs : o.heap.Solo A (.ref o.root)) : Spares A Q o o :=
  ⟨rfl, ho, hs, fun _ _ => ⟨rfl, fun _ _ _ => rfl⟩⟩

theorem Spares.trans (h : Spares A Q o o') (h' : Spares A Q o' o'') : Spares A Q o o'' := by
  refine ⟨h'.root.trans h.root, h'.proper, h'.solo, fun q hq => ?_⟩
  obtain ⟨hget, hread⟩ := h.frame q hq
  obtain ⟨hget', hread'⟩ := h'.frame q hq
  exact ⟨hget'.trans hget, fun m hm k => (hread' m (hget.trans hm) k).trans (hread m hm k)⟩

/-- The value at a path is the same if the path leads to the same and that is read as before. -/
theorem valueAt_congr (ho : o.Proper) (ho' : o'.Proper) {q : List String}
    (hget : o'.getAt q = o.getAt q)
    (hread : ∀ m, o.getAt q = some m → ∀ k, o'.heap.read k m = o.heap.read k m) :
    o'.valueAt q = o.valueAt q := by
  rw [Objects.valueAt, Objects.valueAt, hget]
  cases hm : o.getAt q with
  | none => rfl
  | some m =>
    refine Option.ext fun v => ?_
    rw [Option.bind_some, Option.bind_some, ho'.heap.tree_eq_some_iff, ho.heap.tree_eq_some_iff]
    exact exists_congr fun k => by rw [hread m hm k]

theorem Spares.valueAt (h : Spares A Q o o') (ho : o.Proper) {q : List String} (hq : Q q) :
    o'.valueAt q = o.valueAt q :=
  valueAt_congr ho h.proper (h.frame q hq).1 (h.frame q hq).2

theorem spares_of_kept {h : Heap} (hp : Open A Q path)
    (hk : Heap.Kept A o.root (segments path) o.heap h) : Spares A Q o ⟨h, o.root⟩ :=
  ⟨rfl, ⟨hk.proper, hk.isDict⟩, hk.solo, fun q hq => hk.frame q (hp.aloof q hq) (hp.apart q hq)⟩

theorem popAt_eq_some {p : List String} (h : popAt p o = some (n, o')) : ∃ w s b,
    p = w ++ [s] ∧ o.heap.getPath w (.ref o.root) = some (.ref b) ∧ o.heap.get? b s = some n ∧
      o' = ⟨o.heap.change b (Entries.erase (str s)), o.root⟩ := by
  obtain ⟨⟨m, heap⟩, hpop, he⟩ := Option.map_eq_some_iff.mp h
  cases he
  obtain ⟨w, s, b, hp, hw, hm, hheap⟩ := Heap.popPath_eq_some hpop
  exact ⟨w, s, b, hp, hw, hm, by rw [← hheap]⟩

section Steps

variable (hA : ∀ p q, A p → A (p ++ q))
include hA

section Step

variable (ho : o.Proper) (hs : o.heap.Solo A (.ref o.root)) (hp : Open A Q path)
include ho hs hp

theorem setAt_spares (hn : o.heap.Within n)
    (hb : o.heap.Brings A (.ref o.root) (keySteps (segments path)) n)
    (h : setAt (segments path) n o = .ok o') : Spares A Q o o' := by
  obtain ⟨heap, hset, rfl⟩ := except_map_eq_ok.mp h
  obtain ⟨w, s, rest, b, hsets, rfl⟩ :=
    Heap.setPath_eq_ok (segments_ne_nil path) ho.root hset
  exact spares_of_kept hp (Heap.kept_put ho.heap ho.root hs hA hn hsets hb)

theorem popAt_spares (h : popAt (segments path) o = some (n, o')) : Spares A Q o o' := by
  obtain ⟨w, s, b, hpath, hw, hm, rfl⟩ := popAt_eq_some h
  refine spares_of_kept hp ?_
  rw [hpath]
  exact Heap.kept_erase ho.heap ho.root hs hA hw hm

/-- A value that is taken from one path and set at another one. -/
theorem move_spares {new : String} (hnew : Open A Q new)
    (hpop : popAt (segments path) o = some (n, o'))
    (hset : setAt (segments new) n o' = .ok o'') : Spares A Q o o'' := by
  have hpopped := popAt_spares hA ho hs hp hpop
  obtain ⟨w, s, b, hpath, hw, hm, rfl⟩ := popAt_eq_some hpop
  have hwithin := ho.heap.closed b _ n ((Heap.edges_key o.heap b s).trans hm)
  refine hpopped.trans (setAt_spares hA hpopped.proper hpopped.solo hnew
    ((Heap.within_change _).mpr hwithin) ?_ hset)
  exact Heap.brings_popped ho.heap hs hw hm fun q _ => hnew.exempt q

omit hA hs in
/-- All places of a copy are exempt. -/
theorem brings_copy {u : Heap} : (o.heap.graft u).Brings A (.ref o.root)
    (keySteps (segments path)) (n.shift o.heap.length) :=
  Heap.brings_graft ho.heap ho.root.within fun y _ _ _ _ _ hy => absurd (hp.exempt y) hy

omit hA hp in
/-- A copy is set where a path ends in the document. -/
theorem copyAt_eq_ok {u : Heap} (hu : u.Proper) (h : copyAt (segments path) u n o = .ok o') :
    (o.heap.graft u).Proper ∧ (o.heap.graft u).IsDict o.root ∧
      (o.heap.graft u).Solo A (.ref o.root) ∧ ∃ w s rest b,
        Heap.Sets (o.heap.graft u) (n.shift o.heap.length) (segments path) o.root w s rest b ∧
        o' = ⟨Heap.putNested (n.shift o.heap.length) s rest b (o.heap.graft u), o.root⟩ := by
  obtain ⟨heap, hset, rfl⟩ := except_map_eq_ok.mp h
  have hroot : (o.heap.graft u).IsDict o.root :=
    (Heap.isDict_append_old _ ho.root.within).mpr ho.root
  obtain ⟨w, s, rest, b, hsets, rfl⟩ := Heap.setPath_eq_ok (segments_ne_nil path) hroot hset
  exact ⟨ho.heap.graft hu, hroot, hs.append ho.heap ho.root.within _, w, s, rest, b, hsets, rfl⟩

theorem copyAt_spares {u : Heap} (hu : u.Proper) (hn : u.Within n)
    (h : copyAt (segments path) u n o = .ok o') : Spares A Q o o' := by
  obtain ⟨hgraft, hroot, hsolo, w, s, rest, b, hsets, rfl⟩ := copyAt_eq_ok ho hs hu h
  exact spares_of_kept hp (Heap.Kept.append _ ho.heap ho.root (Heap.kept_put hgraft hroot hsolo hA
    (Heap.within_shift hn) hsets (brings_copy ho hp)))

end Step

section Edits

variable {u : Heap} (ho : o.Proper) (hs : o.heap.Solo A (.ref o.root)) (hu : u.Proper)
  (hN : ∀ p, N p → Open A Q p)
include ho hs hu hN

theorem Edit.spares (h : Edit N u o o') : Spares A Q o o' := by
  cases h with
  | copy hp hn h => exact copyAt_spares hA ho hs (hN _ hp) hu hn h
  | take hp h => exact popAt_spares hA ho hs (hN _ hp) h
  | move hold hnew hpop hset => exact move_spares hA ho hs (hN _ hold) (hN _ hnew) hpop hset

theorem Edits.spares (h : Edits N u o o') : Spares A Q o o' := by
  induction h with
  | refl => exact .refl ho hs
  | tail _ h ih => exact ih.trans (h.spares hA ih.proper ih.solo hu hN)

end Edits

end Steps

end Objects

end DocStore
