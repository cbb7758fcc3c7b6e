import DocStore.Proofs.Document.Writes
import DocStore.Proofs.Query.InPlace
import Mathlib.Data.List.Induction

/-! Edits seen from a path. A path aloof of those that are edited leads to what it led to, unless a
dictionary on its way or below its end was changed that stands at a second place. -/

namespace DocStore

open Value

namespace Objects

variable {N : String → Prop} {o o' o'' : Objects} {u : Heap} {n : Node} {path : String}
  {q : List String} {z : Place} {st : Step} {a c : Nat}

/-- No dictionary that has changed from `o` to `o'` stands in `o` on the way of a path or below its
end, and at a second place as well. -/
def Unechoed (o o' : Objects) (q : List String) : Prop :=
  ∀ a, o.heap.IsDict a → o'.heap[a]? ≠ o.heap[a]? → ∀ y z, On q z →
    o.heap.edges.leads y (.ref o.root) = some (.ref a) →
    o.heap.edges.leads z (.ref o.root) = some (.ref a) → y = z

theorem Unshared.unechoed (h : o.Unshared) (o' : Objects) (q : List String) : o.Unechoed o' q :=
  fun a ha _ y z _ hy hz => h y z a ha hy hz

/-- Where an edit writes. -/
theorem writes_take (ho : o.Proper) (h : popAt (segments path) o = some (n, o')) :
    o'.root = o.root ∧ ∃ w s rest b,
      Heap.Writes o.heap o'.heap o.root (segments path) w s rest b := by
  obtain ⟨w, s, b, hpath, hw, hm, rfl⟩ := popAt_eq_some h
  rw [hpath]
  exact ⟨rfl, w, s, [], b, Heap.writes_erase ho.heap hw hm⟩

theorem writes_set (ho : o.Proper) (h : setAt (segments path) n o = .ok o') :
    o'.root = o.root ∧ ∃ w s rest b,
      Heap.Writes o.heap o'.heap o.root (segments path) w s rest b := by
  obtain ⟨heap, hset, rfl⟩ := except_map_eq_ok.mp h
  obtain ⟨w, s, rest, b, hsets, rfl⟩ := Heap.setPath_eq_ok (segments_ne_nil path) ho.root hset
  exact ⟨rfl, w, s, rest, b, hsets.writes⟩

theorem writes_copy (ho : o.Proper) (hu : u.Proper)
    (h : copyAt (segments path) u n o = .ok o') :
    o'.root = o.root ∧ ∃ w s rest b,
      Heap.Writes o.heap o'.heap o.root (segments path) w s rest b := by
  have hgraft : Proper ⟨o.heap.graft u, o.root⟩ :=
    ⟨ho.heap.graft hu, (Heap.isDict_append_old _ ho.root.within).mpr ho.root⟩
  obtain ⟨hroot, w, s, rest, b, hw⟩ := writes_set hgraft h
  exact ⟨hroot, w, s, rest, b, hw.of_append _ ho.heap ho.root.within⟩

/-- What edits leave of the containers on the way of a path and below its end, as long as these
stand at one place each. -/
structure Upholds (q : List String) (o o' : Objects) : Prop where
  root : o'.root = o.root
  fixed : ∀ a, a < o.heap.length → ¬ o.heap.IsDict a → o'.heap[a]? = o.heap[a]?
  firm : ∀ z c, On q z → o.heap.Firm o.root z c → o'.heap.Firm o'.root z c
  stays : ∀ z c, On q z → o.heap.Firm o.root z c → Heap.Stays o.heap o'.heap q o.root z c

theorem Upholds.refl (q : List String) (o : Objects) : Upholds q o o :=
  ⟨rfl, fun _ _ _ => rfl, fun _ _ _ hf => hf,
    fun _ _ _ hf => ⟨hf.isDict, hf.leads, fun _ => rfl, fun _ _ _ he => he⟩⟩

theorem Upholds.not_isDict (h : Upholds q o o') (ha : a < o.heap.length)
    (hd : ¬ o.heap.IsDict a) : a < o'.heap.length ∧ ¬ o'.heap.IsDict a := by
  have hcell := h.fixed a ha hd
  constructor
  · rw [List.getElem?_eq_getElem ha] at hcell
    exact (List.getElem?_eq_some_iff.mp hcell).1
  · unfold Heap.IsDict Heap.fields?
    rw [hcell]
    exact hd

theorem Upholds.trans (h : Upholds q o o') (h' : Upholds q o' o'') : Upholds q o o'' := by
  refine ⟨h'.root.trans h.root, fun a ha hd => ?_,
    fun z c hz hf => h'.firm z c hz (h.firm z c hz hf),
    fun z c hz hf => (h.stays z c hz hf).trans ?_⟩
  · obtain ⟨ha', hd'⟩ := h.not_isDict ha hd
    exact (h'.fixed a ha' hd').trans (h.fixed a ha hd)
  · have hstays := h'.stays z c hz (h.firm z c hz hf)
    rwa [h.root] at hstays

/-- A write after others. That dictionaries stand at one place each is known of the whole only. -/
theorem Upholds.write {w rest : List String} {s : String} {b : Nat} (h : Upholds q o o')
    (ho' : o'.Proper) (hroot : o''.root = o'.root)
    (hw : Heap.Writes o'.heap o''.heap o'.root (segments path) w s rest b)
    (hq : Aloof (segments path) q)
    (hsolo : ∀ z, On q z → o.heap.Solo (fun y => ¬ y <+: z) (.ref o.root) →
      o''.heap.Solo (fun y => ¬ y <+: z) (.ref o''.root)) : Upholds q o o'' := by
  have hstays (z c) (hz : On q z) (hf : o.heap.Firm o.root z c) :
      Heap.Stays o.heap o''.heap q o.root z c := by
    have hs := hw.stays (h.firm z c hz hf) ho'.heap ho'.root.within hq hz
    rw [h.root] at hs
    exact (h.stays z c hz hf).trans hs
  refine ⟨hroot.trans h.root, fun a ha hd => ?_, fun z c hz hf => ?_, hstays⟩
  · obtain ⟨ha', hd'⟩ := h.not_isDict ha hd
    refine (hw.others a ha' ?_).trans (h.fixed a ha hd)
    rintro rfl
    exact hd' hw.isDict
  · have hs := hstays z c hz hf
    refine ⟨hs.isDict, ?_, hsolo z hz hf.solo⟩
    rw [hroot, h.root]
    exact hs.leads

/-- What every edit leaves in order, also if dictionaries stand at several places. -/
theorem Edits.proper (ho : o.Proper) (hu : u.Proper) (h : Edits N u o o') : o'.Proper := by
  have hspares : Spares (fun _ => True) (fun _ => False) o o' :=
    h.spares (fun _ _ _ => trivial) ho (fun _ _ _ _ _ _ hA => absurd trivial hA) hu
      fun _ _ => ⟨fun _ => trivial, fun _ h => h.elim, fun _ h => h.elim⟩
  exact hspares.proper

/-- The way to a place on a path is not seen by edits aloof of the path. -/
theorem open_off (hq : Aloof (segments path) q) (hz : On q z) :
    Open (fun y => ¬ y <+: z) (fun _ => False) path :=
  ⟨fun y hy => hq.off hz ((List.prefix_append _ y).trans hy), fun _ h => h.elim, fun _ h => h.elim⟩

theorem open_apart (hq : Aloof (segments path) q) : Open (fun y => ¬ On q y) (· = q) path := by
  refine ⟨fun y hy => hq.off hy (List.prefix_append _ y), fun _ h => h ▸ hq, fun _ h => .inr ?_⟩
  exact fun y => not_not.mpr (.inr (h ▸ List.prefix_append _ y))

theorem not_isPrefix_append (y t : Place) (h : ¬ y <+: z) : ¬ y ++ t <+: z :=
  fun ht => h ((List.prefix_append y t).trans ht)

theorem not_on_append (y t : Place) (h : ¬ On q y) : ¬ On q (y ++ t) := fun ht => h ht.of_append

section Edit

variable (ho : o.Proper) (hu : u.Proper) (hN : ∀ p, N p → Aloof (segments p) q)
include ho hu hN

theorem Edit.upholds (h : Edit N u o o') : Upholds q o o' := by
  have hsolo {o'} (h : Edit N u o o') (z : Place) (hz : On q z)
      (hs : o.heap.Solo (fun y => ¬ y <+: z) (.ref o.root)) :
      o'.heap.Solo (fun y => ¬ y <+: z) (.ref o'.root) :=
    (h.spares not_isPrefix_append ho hs hu fun p hp => open_off (hN p hp) hz).solo
  cases h with
  | copy hp hn h =>
    obtain ⟨hroot, w, s, rest, b, hw⟩ := writes_copy ho hu h
    exact (Upholds.refl q o).write ho hroot hw (hN _ hp) (hsolo (.copy hp hn h))
  | take hp h =>
    obtain ⟨hroot, w, s, rest, b, hw⟩ := writes_take ho h
    exact (Upholds.refl q o).write ho hroot hw (hN _ hp) (hsolo (.take hp h))
  | @move _ o₁ old new n hold hnew hpop hset =>
    obtain ⟨hroot, w, s, rest, b, hw⟩ := writes_take ho hpop
    have htaken := (Upholds.refl q o).write ho hroot hw (hN _ hold) (hsolo (.take hold hpop))
    have ho₁ := Edits.proper ho hu (.single (.take hold hpop))
    obtain ⟨hroot', w', s', rest', b', hw'⟩ := writes_set ho₁ hset
    exact htaken.write ho₁ hroot' hw' (hN _ hnew) (hsolo (.move hold hnew hpop hset))

theorem Edits.upholds (h : Edits N u o o') : Upholds q o o' := by
  induction h with
  | refl => exact .refl q o
  | tail hs h ih => exact ih.trans (h.upholds (Edits.proper ho hu hs) hu hN)

end Edit

/-! Paths -/

section Frame

variable (h : Upholds q o o') (ho : o.Proper) (hal : o.Unechoed o' q)
include h ho hal

/-- A container on the way of the path, or below its end, is a dictionary that stands there only,
if it has been changed. -/
theorem Upholds.firm_of_changed (hz : On q z)
    (hc : o.heap.edges.leads z (.ref o.root) = some (.ref c))
    (hne : o'.heap[c]? ≠ o.heap[c]?) : o.heap.Firm o.root z c := by
  have hd : o.heap.IsDict c := by
    by_contra hd
    exact hne (h.fixed c (ho.heap.leads_within ho.root.within hc) hd)
  exact Heap.firm_of_alone hd hc fun y hy => hal c hd hne y z hz hy hc

/-- What stands below the end of the path is as it was. -/
theorem Upholds.cell (hq : keySteps q <+: z)
    (hc : o.heap.edges.leads z (.ref o.root) = some (.ref c)) : o'.heap[c]? = o.heap[c]? := by
  by_contra hne
  have hfirm := h.firm_of_changed ho hal (.inr hq) hc hne
  exact hne ((h.stays z c (.inr hq) hfirm).cell hq)

/-- From a container on the way of the path the next one is reached as before. -/
theorem Upholds.edge (hz : On q (z ++ [st]))
    (hc : o.heap.edges.leads z (.ref o.root) = some (.ref c))
    (he : o.heap.edges c st = some (.ref a)) : o'.heap.edges c st = some (.ref a) := by
  by_cases hne : o'.heap[c]? = o.heap[c]?
  · rw [Heap.edges_congr hne, he]
  · have hfirm := h.firm_of_changed ho hal hz.of_append hc hne
    have hstays := h.stays z c hz.of_append hfirm
    have hway : z ++ [st] <+: keySteps q := by
      rcases hz with hz | hz
      · exact hz
      · rcases List.prefix_concat_iff.mp hz with hz | hz
        · exact hz ▸ List.prefix_rfl
        · exact absurd (hstays.cell hz) hne
    obtain ⟨t, ht⟩ := hway
    obtain ⟨s, hs⟩ : ∃ s, st = .key s := by
      have hmem : st ∈ keySteps q := by
        rw [← ht]
        simp
      obtain ⟨s, -, hs⟩ := List.mem_map.mp hmem
      exact ⟨s, hs.symm⟩
    subst hs
    exact hstays.entry s a ⟨t, ht⟩ he

/-- A place on the way of the path, or below its end, leads to the container that it led to. -/
theorem Upholds.leads (hz : On q z) (hc : o.heap.edges.leads z (.ref o.root) = some (.ref c)) :
    o'.heap.edges.leads z (.ref o.root) = some (.ref c) := by
  induction z using List.reverseRecOn generalizing c with
  | nil => exact hc
  | append_singleton z st ih =>
    obtain ⟨m, hm, hlast⟩ :=
      Option.bind_eq_some_iff.mp ((Edges.leads_append z [st] _).symm.trans hc)
    cases m with
    | leaf v => cases hlast
    | ref b =>
      have hst := (Edges.leads_snoc hm st).symm.trans hc
      exact (Edges.leads_snoc (ih hz.of_append hm) st).trans (h.edge ho hal hz hm hst)

/-- From a dictionary on the way that stands at a second place everything is reached as before. -/
theorem Upholds.leads_shared {y t : Place} (hyt : keySteps q = y ++ t)
    (hy : o.heap.edges.leads y (.ref o.root) = some (.ref c))
    (hz : o.heap.edges.leads z (.ref o.root) = some (.ref c)) (hne : y ≠ z) :
    o'.heap.edges.leads (keySteps q) (.ref o.root) =
      o.heap.edges.leads (keySteps q) (.ref o.root) := by
  have hway {u r : Place} (hu : t = u ++ r) : On q (y ++ u) := by
    refine .inl ?_
    rw [hyt, hu, ← List.append_assoc]
    exact List.prefix_append _ r
  have hsame : o'.heap.edges.leads t (.ref c) = o.heap.edges.leads t (.ref c) := by
    refine Edges.leads_congr fun u st r a hu ha => Heap.edges_congr ?_
    by_contra hcell
    have hyu := (Edges.leads_append_of hy u).trans ha
    have hfirm := h.firm_of_changed ho hal (hway hu) hyu hcell
    have hyz : z ++ u = y ++ u :=
      hal a hfirm.isDict hcell _ _ (hway hu) ((Edges.leads_append_of hz u).trans ha) hyu
    exact hne (List.append_cancel_right hyz).symm
  have hy' := h.leads ho hal (.inl (hyt ▸ List.prefix_append y t)) hy
  rw [hyt, Edges.leads_append_of hy', Edges.leads_append_of hy, hsame]

/-- The path leads to what it led to. -/
theorem Upholds.frame (hspares : o.heap.Solo (fun y => ¬ On q y) (.ref o.root) →
      Spares (fun y => ¬ On q y) (· = q) o o') : o'.getAt q = o.getAt q ∧
    ∀ m, o.getAt q = some m → ∀ k, o'.heap.read k m = o.heap.read k m := by
  have hget : o.getAt q = o.heap.edges.leads (keySteps q) (.ref o.root) := Heap.getPath_eq _ _ _
  have hget' : o'.getAt q = o'.heap.edges.leads (keySteps q) (.ref o.root) := by
    rw [← h.root]
    exact Heap.getPath_eq _ _ _
  by_cases hc : ∃ c, o.getAt q = some (.ref c)
  · obtain ⟨c, hc⟩ := hc
    have hlead := hget.symm.trans hc
    refine ⟨?_, fun m hm k => ?_⟩
    · rw [hget', h.leads ho hal (.inl List.prefix_rfl) hlead, hc]
    · rw [hc] at hm
      cases hm
      exact ho.heap.read_congr (fun p b hp => h.cell ho hal (List.prefix_append _ p)
        ((Edges.leads_append_of hlead p).trans hp)) k
  · by_cases hsolo : o.heap.Solo (fun y => ¬ On q y) (.ref o.root)
    · exact (hspares hsolo).frame q rfl
    · -- the path ends at no container, and goes through one that stands at a second place
      simp only [Edges.Solo, not_forall] at hsolo
      obtain ⟨y, z, c, -, hy, hz, hyq, hne⟩ := hsolo
      have hway : y <+: keySteps q := by
        rcases not_not.mp hyq with hyq | ⟨t, rfl⟩
        · exact hyq
        · exfalso
          rw [Edges.leads_append] at hy
          obtain ⟨m, hm, ht⟩ := Option.bind_eq_some_iff.mp hy
          cases m with
          | ref b => exact hc ⟨b, hget.trans hm⟩
          | leaf v => cases t <;> cases ht
      obtain ⟨t, ht⟩ := hway
      refine ⟨?_, fun m hm k => ?_⟩
      · rw [hget', hget, h.leads_shared ho hal ht.symm hy hz hne]
      · cases m with
        | ref b => exact absurd ⟨b, hm⟩ hc
        | leaf v => rw [Heap.read_leaf, Heap.read_leaf]

end Frame

/-- Edits at paths aloof of another one are not seen from that, unless by way of a dictionary that
stands at a second place. -/
theorem Edits.frame (ho : o.Proper) (hu : u.Proper) (h : Edits N u o o')
    (hN : ∀ p, N p → Aloof (segments p) q) (hal : o.Unechoed o' q) :
    o'.getAt q = o.getAt q ∧ o'.valueAt q = o.valueAt q := by
  obtain ⟨hget, hread⟩ := (h.upholds ho hu hN).frame ho hal fun hs =>
    h.spares not_on_append ho hs hu fun p hp => open_apart (hN p hp)
  exact ⟨hget, valueAt_congr ho (h.proper ho hu) hget hread⟩

end Objects

end DocStore
