import DocStore.Proofs.Store.Reading

/-! Readings that come to a document that cannot be read. What was read before it is given, and then
the failure. -/

namespace DocStore

open Value

namespace Reading

variable {r : Reading} {d : Decoder} {ids ids' : IdSet} {s t : Store} {k n m m' : Nat}
  {x : Value} {xs before after vs : List Value} {e : Error}

theorem under_refused (h : Store.readCursor k Cursor.next s = (.ok (some x), t))
    (hx : readDocument d r.only r.partly ids x t.issued = (.error e, m)) :
    ∃ u, r.under d ids k s = (.error e, u) := by
  unfold under
  rw [bind_of_ok h]
  unfold readDocument at hx
  cases ho : r.only with
  | some field =>
    rw [ho] at hx
    cases x with
    | dict ps => cases hx
    | _ =>
      cases hx
      exact ⟨t, rfl⟩
  | none =>
    rw [ho] at hx
    exact ⟨_, bind_of_error (Store.fresh_run hx)⟩

theorem next_refused (hr : r.stage = .under k) (ho : s.Offers k n (x :: xs))
    (hx : readDocument d r.only r.partly ids x s.issued = (.error e, m)) :
    (r.next d ids s).result = .error e := by
  obtain ⟨t, ht, _, hm, _⟩ := Store.readCursor_cons ho
  rw [← hm] at hx
  obtain ⟨u, hu⟩ := under_refused ht hx
  have hrun : (r.under d ids k).run s = (.error e, u) := hu
  rw [next_under hr]
  unfold step
  rw [hrun]

theorem take_refused {fuel : Nat} (hr : r.stage = .under k)
    (ho : s.Offers k n (before ++ x :: after))
    (hs : Reads d r.only r.partly before ids s.issued vs ids' m)
    (hx : readDocument d r.only r.partly ids' x m = (.error e, m')) (hf : before.length < fuel) :
    (r.take fuel d ids s).items = vs ∧ (r.take fuel d ids s).fault = some e := by
  induction before generalizing fuel ids s vs with
  | nil =>
    obtain ⟨fuel, rfl⟩ := Nat.exists_eq_succ_of_ne_zero (Nat.ne_of_gt hf)
    cases hs
    simp only [take, next_refused hr ho hx, and_self]
  | cons y before ih =>
    obtain ⟨fuel, rfl⟩ := Nat.exists_eq_succ_of_ne_zero (Nat.ne_of_gt (Nat.zero_lt_of_lt hf))
    cases hs with
    | cons hy hrest =>
      obtain ⟨t, ht, _, hm, hoffers⟩ := next_cons hr ho hy
      rw [← hm] at hrest
      obtain ⟨hitems, hfault⟩ := ih hoffers hrest (Nat.lt_of_succ_lt_succ hf)
      simp only [take, ht]
      exact ⟨congrArg _ hitems, hfault⟩

/-- A reading stops at the first document of its plan's window that cannot be read. -/
theorem takeAll_refused {p : Plan} {only : Option String} {keys sorted : List Value} {a b : Nat}
    (h : p.Runs (s.collectionAt n).documents.values keys sorted a b)
    (hp : Cursor.projectAll (s.collectionAt n).idField (shown p only) (cut a b sorted) =
      .ok (before ++ x :: after))
    (hs : Reads d only (!p.projection.isNull) before ids s.issued vs ids' m)
    (hx : readDocument d only (!p.projection.isNull) ids' x m = (.error e, m')) :
    ((ofPlan n p only).takeAll d ids s).items = vs ∧
      ((ofPlan n p only).takeAll d ids s).fault = some e := by
  obtain ⟨t, k, _, hissued, hoffers, htake⟩ :=
    take_opened h hp (s.collectionAt n).size d ids
  rw [← hissued] at hs
  have hlen : before.length < (s.collectionAt n).size + 1 := by
    have hall := projectAll_length hp
    have hw := h.length_le
    have hd : (s.collectionAt n).documents.values.length = (s.collectionAt n).size := by
      simp [Entries.values, Collection.size]
    rw [List.length_append, List.length_cons] at hall
    omega
  obtain ⟨hitems, hfault⟩ :=
    take_refused (r := ⟨n, p, only, .under k⟩) rfl hoffers hs hx hlen
  rw [← htake] at hitems hfault
  exact ⟨hitems, hfault⟩

end Reading

end DocStore
