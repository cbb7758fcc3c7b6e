import DocStore.Proofs.Query.SortKeys

/-! Documents whose values under a sort key differ in the order of the entries of dictionaries: when
they tie, so that the other keys or the order they came in decide between them. -/

namespace DocStore

open Value

section Documents

variable {path : String} {direction : Int} {key x y v w k k' : Value} {before after : List Value}

/-- A path of a document leads to a value first, or to nothing, which is as null. -/
def LeadsTo (path : String) (document v : Value) : Prop :=
  ∃ found, lookupPath document path = .ok found ∧ found.head?.getD null = v

theorem LeadsTo.keyAt (h : LeadsTo path x v) (hk : v.sortKey = .ok k) :
    keyAt (str path) x = k := by
  obtain ⟨found, hf, rfl⟩ := h
  rw [DocStore.keyAt, documentKey_str, hf]
  change (found.head?.getD null).sortKey.toOption.getD null = k
  rw [hk]
  rfl

theorem tied_comm {α : Type} (lt : α → α → Bool) (x y : α) : tied lt x y = tied lt y x :=
  Bool.and_comm _ _

/-- A key in either direction ties two documents that have no order under it. -/
theorem tied_goesBefore_iff : tied (goesBefore (keyOf (path, direction))) x y = true ↔
    related .lt (keyAt (str path) x) (keyAt (str path) y) ≠ some true ∧
      related .lt (keyAt (str path) y) (keyAt (str path) x) ≠ some true := by
  simp only [tied, goesBefore, pair_keyOf]
  split
  · simp [and_comm]
  · simp

theorem tied_of_same (hx : LeadsTo path x v) (hy : LeadsTo path y w) (hk : v.sortKey = .ok k)
    (hk' : w.sortKey = .ok k) : tied (goesBefore (keyOf (path, direction))) x y = true := by
  rw [tied_goesBefore_iff, hx.keyAt hk, hy.keyAt hk']
  exact ⟨related_itself k, related_itself k⟩

/-- Without NaN, documents with rearranged values tie only if the sort keys are the same. -/
theorem tied_iff_same (h : Rearranged v w) (hv : v.nanFree = true) (hx : LeadsTo path x v)
    (hy : LeadsTo path y w) (hk : v.sortKey = .ok k) (hk' : w.sortKey = .ok k') :
    tied (goesBefore (keyOf (path, direction))) x y = true ↔ k = k' := by
  refine ⟨fun htied => ?_, fun he => tied_of_same hx hy hk (he ▸ hk')⟩
  have hs := sortKey_sortable v hv hk
  have hs' := sortKey_sortable w (h.nanFree hv) hk'
  obtain ⟨o, ho, hoeq⟩ := compared_rearranged h hv hk hk'
  rw [tied_goesBefore_iff, hx.keyAt hk, hy.keyAt hk', related_eq_compared .lt k k' hs hs',
    related_eq_compared .lt k' k hs' hs, compared_swap k k', ho] at htied
  refine hoeq.mp ?_
  cases o with
  | eq => rfl
  | lt => exact absurd rfl htied.1
  | gt => exact absurd rfl htied.2

/-- A key that ties two documents does not count between them. -/
theorem precedes_of_tied (h : tied (goesBefore key) x y = true) :
    precedes (before ++ key :: after) x y = precedes (before ++ after) x y := by
  induction before with
  | nil =>
    simp only [tied, Bool.and_eq_true, Bool.not_eq_true'] at h
    simp [precedes, inTurn, h.1, h.2]
  | cons b before ih =>
    rw [List.cons_append, List.cons_append, precedes, precedes, inTurn, inTurn, ih]

/-- Documents that a key ties are put in place by the other keys. -/
theorem sortDocuments_past {documents ys : List Value}
    (hn : NanFree (before ++ key :: after) documents)
    (h : sortDocuments documents (before ++ key :: after) = .ok ys) :
    ∃ places : List (Fin documents.length),
      places.Perm (List.finRange documents.length) ∧ ys = places.map documents.get ∧
      ∀ i j, tied (goesBefore key) (documents.get i) (documents.get j) = true →
        PlacedBy (before ++ after) documents places i j := by
  obtain ⟨places, hperm, hys, hplaces⟩ := sortDocuments_ordered hn h
  refine ⟨places, hperm, hys, fun i j htied => (hplaces i j).trans ?_⟩
  rw [tied, tied, precedes_of_tied htied, precedes_of_tied (tied_comm _ _ _ ▸ htied)]

end Documents

def bern : Value := dict [(str "city", str "Bern"), (str "zip", int 3000)]

def bernByZip : Value := dict [(str "zip", int 3000), (str "city", str "Bern")]

theorem bern_rearranged : Rearranged bern bernByZip :=
  rearranged_dict.mpr ⟨_, _, rfl, .swap .., List.forall₂_same.mpr fun p _ => ⟨rfl, .same p.2⟩⟩

theorem bern_ranked : Ranked bern := ranked_of_keyed ⟨by simp, by simp⟩

/-- Someone at an address, with a number. -/
def dweller (address : Value) (n : Int) : Value := dict [(str "at", address), (str "n", int n)]

def atThenN : List (String × Int) := [("at", 1), ("n", 1)]

def clashing : Value := dict [(int 1, null), (str "a", null)]

theorem dweller_leads (address : Value) (n : Int) : LeadsTo "at" (dweller address n) address :=
  ⟨[address], lookup_nil address, rfl⟩

theorem sortable_dwellers : Sortable atThenN [dweller bernByZip 2, dweller bern 1] where
  readable := by decide
  direction := by decide
  placed := by decide

/-- Someone whose address is known in one country. -/
def abroad (address : Value) : Value := dict [(str "ch", address)]

theorem abroad_sortKey (address : Value) : (abroad address).sortKey =
    .ok (tuple [int 3, str (text (list [tuple [str "ch", address]]))]) := by
  have hrow := sortKey_row (.refl [(str "ch", address)]) (List.pairwise_singleton _ _)
  exact hrow

theorem abroad_first : goesBefore (keyOf ("at", 1)) (dweller (abroad bern) 2)
    (dweller (abroad bernByZip) 1) = true := by
  rw [goesBefore, pair_keyOf]
  simp only
  rw [(dweller_leads _ 2).keyAt (abroad_sortKey bern),
    (dweller_leads _ 1).keyAt (abroad_sortKey bernByZip)]
  decide

theorem sortable_abroad :
    Sortable atThenN [dweller (abroad bern) 2, dweller (abroad bernByZip) 1] where
  readable := by decide
  direction := by decide
  placed := by decide

end DocStore
