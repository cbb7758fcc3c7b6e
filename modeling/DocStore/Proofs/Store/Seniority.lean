import DocStore.Proofs.Store.Operations

/-! One collection under a run of writes, each of which may fail. Its documents stand under their
identifiers, no two of these are equal, and they are in the order of the insertions since which
they have stood there. -/

namespace DocStore

open Value

namespace Store

variable {s t : Store} {n : Nat} {op : Operation} {ops : List Operation}

def keysAt (s : Store) (n : Nat) : List Value := (s.collectionAt n).documents.keys

namespace Operation

/-- Writes to one collection. -/
def WritesTo (n : Nat) : Operation → Prop
  | .insert m _ => m = n
  | .replace m _ _ => m = n
  | .remove m _ => m = n
  | .update m _ _ _ _ => m = n
  | .drop m => m = n
  | _ => False

/-- What a write with this result does to keys: an insertion adds one at the end, a removal takes
one out or finds none, and dropping takes all; others, and all that fail, leave them. -/
def Moves (op : Operation) (r : Except Error Unit) (keys keys' : List Value) : Prop :=
  match op, r with
  | _, .error _ => keys' = keys
  | .insert _ _, .ok _ => ∃ k, keys' = keys ++ [k]
  | .remove _ _, .ok _ =>
    keys' = keys ∨ ∃ before k after, keys = before ++ k :: after ∧ keys' = before ++ after
  | .drop _, .ok _ => keys' = []
  | _, .ok _ => keys' = keys

theorem Moves.inserted_or_sublist {r : Except Error Unit} {keys keys' : List Value}
    (h : op.Moves r keys keys') :
    (∃ n document k, op = .insert n document ∧ keys' = keys ++ [k]) ∨ keys'.Sublist keys := by
  have hsame : ∀ {xs : List Value}, xs = keys → xs.Sublist keys := fun he => he ▸ .refl _
  cases r with
  | error e => exact .inr (hsame h)
  | ok u =>
    cases op with
    | insert n document =>
      obtain ⟨k, hk⟩ := h
      exact .inl ⟨n, document, k, rfl, hk⟩
    | remove n query =>
      rcases h with h | ⟨before, k, after, hk, hk'⟩
      · exact .inr (hsame h)
      · rw [hk, hk']
        exact .inr ((List.sublist_cons_self k after).append_left before)
    | drop n => exact .inr (Eq.symm h ▸ List.nil_sublist keys)
    | _ => exact .inr (hsame h)

end Operation

/-- One write, successful or not: the collection is still there, identifiers are where they were,
and keys have moved as the write moves them. -/
structure Wrote (n : Nat) (op : Operation) (s : Store) : Prop where
  size : (op.perform s).2.collections.length = s.collections.length
  idField : ((op.perform s).2.collectionAt n).idField = (s.collectionAt n).idField
  moves : op.Moves (op.perform s).1 (s.keysAt n) ((op.perform s).2.keysAt n)

theorem collectionAt_put (h : n < s.collections.length) (c : Collection) :
    (s.putCollection n c).collectionAt n = c := by
  rw [collectionAt_putCollection, if_pos ⟨rfl, h⟩]

theorem size_put (s : Store) (n : Nat) (c : Collection) :
    (s.putCollection n c).collections.length = s.collections.length :=
  List.length_set

theorem onCollection_cases {α : Type} (n : Nat) (f : Collection → Except Error (α × Collection))
    (s : Store) : (∃ e, onCollection n f s = (.error e, s)) ∨
      ∃ a c, f (s.collectionAt n) = .ok (a, c) ∧
        onCollection n f s = (.ok a, s.putCollection n c) := by
  rcases hf : f (s.collectionAt n) with e | ⟨a, c⟩
  · exact .inl ⟨e, by rw [onCollection, hf]⟩
  · exact .inr ⟨a, c, rfl, by rw [onCollection, hf]⟩

theorem wrote_insert (h : n < s.collections.length) (document : Value) :
    Wrote n (.insert n document) s := by
  rcases insert_cases n document s with ⟨e, m, hrun⟩ | ⟨c, m, hc, hrun⟩
  · have hperform : (Operation.insert n document).perform s = (.error e, { s with issued := m }) :=
      hrun
    exact ⟨by rw [hperform], by rw [hperform]; rfl, by rw [hperform]; rfl⟩
  · have hperform : (Operation.insert n document).perform s =
        (.ok (), ({ s with issued := m } : Store).putCollection n c) := hrun
    have hat := collectionAt_put (s := { s with issued := m }) h c
    obtain ⟨hfield, k, _, _, hkeys⟩ := Collection.insert_keys hc
    refine ⟨?_, ?_, ?_⟩
    · rw [hperform]
      exact size_put _ _ _
    · rw [hperform, hat, hfield]
    · rw [hperform, keysAt, keysAt, hat]
      exact ⟨k, hkeys⟩

/-- Work on a collection whose keys move as those of a write. -/
theorem wrote_onCollection {α : Type} {f : Collection → Except Error (α × Collection)}
    (h : n < s.collections.length) (hop : op.perform = discard (onCollection n f))
    (hf : ∀ {c a c'}, f c = .ok (a, c') → c'.idField = c.idField ∧
      op.Moves (.ok ()) c.documents.keys c'.documents.keys) : Wrote n op s := by
  rcases onCollection_cases n f s with ⟨e, hrun⟩ | ⟨a, c, hc, hrun⟩
  · have hperform : op.perform s = (.error e, s) := by
      rw [hop, run_discard, hrun]
      rfl
    refine ⟨by rw [hperform], by rw [hperform], ?_⟩
    rw [hperform]
    cases op <;> rfl
  · have hperform : op.perform s = (.ok (), s.putCollection n c) := by
      rw [hop, run_discard, hrun]
      rfl
    obtain ⟨hfield, hmoves⟩ := hf hc
    refine ⟨?_, ?_, ?_⟩
    · rw [hperform]
      exact size_put _ _ _
    · rw [hperform, collectionAt_put h, hfield]
    · rw [hperform, keysAt, keysAt, collectionAt_put h]
      exact hmoves

theorem wrote_update (h : n < s.collections.length) (query update : Value) (upsert every : Bool) :
    Wrote n (.update n query update upsert every) s := by
  let c := ((s.collectionAt n).updateMany query update upsert every).1
  have hperform : (Operation.update n query update upsert every).perform s =
      (((s.collectionAt n).updateMany query update upsert every).2.map fun _ => (),
        s.putCollection n c) := run_discard _ s
  have hkeys : c.documents.keys = (s.collectionAt n).documents.keys := by
    cases upsert with
    | true => rfl
    | false => exact Collection.keys_updateEntries _ _ _ _ _
  have hfield : c.idField = (s.collectionAt n).idField := by
    cases upsert <;> rfl
  refine ⟨?_, ?_, ?_⟩
  · rw [hperform]
    exact size_put _ _ _
  · rw [hperform, collectionAt_put h, hfield]
  · rw [hperform, keysAt, keysAt, collectionAt_put h, hkeys]
    cases ((s.collectionAt n).updateMany query update upsert every).2 <;> rfl

/-- What a write does, whatever it writes and whether it succeeds or not. -/
theorem wrote (h : n < s.collections.length) (hop : op.WritesTo n) : Wrote n op s := by
  cases op with
  | insert m document =>
    obtain rfl : m = n := hop
    exact wrote_insert h document
  | replace m query document =>
    obtain rfl : m = n := hop
    exact wrote_onCollection h rfl Collection.replaceFirst_keys
  | remove m query =>
    obtain rfl : m = n := hop
    exact wrote_onCollection h rfl Collection.removeFirst_keys
  | update m query update upsert every =>
    obtain rfl : m = n := hop
    exact wrote_update h query update upsert every
  | drop m =>
    obtain rfl : m = n := hop
    have hperform : (Operation.drop m).perform s =
        (.ok (), s.putCollection m (s.collectionAt m).drop) := rfl
    refine ⟨?_, ?_, ?_⟩
    · rw [hperform]
      exact size_put _ _ _
    · rw [hperform, collectionAt_put h]
      rfl
    · rw [hperform, keysAt, keysAt, collectionAt_put h]
      rfl
  | _ => exact absurd hop id

/-! Runs of writes -/

theorem size_after (h : n < s.collections.length) (hops : ∀ op ∈ ops, op.WritesTo n) :
    n < (s.after ops).collections.length ∧
      ((s.after ops).collectionAt n).idField = (s.collectionAt n).idField := by
  induction ops using List.reverseRecOn with
  | nil => exact ⟨h, rfl⟩
  | append_singleton ops op ih =>
    obtain ⟨hn, hfield⟩ := ih fun op hop => hops op (by simp [hop])
    have hw := wrote hn (hops op (by simp))
    rw [after_snoc, hw.size, hw.idField]
    exact ⟨hn, hfield⟩

/-- A key that an insertion at this place of a run has put at the end, and that has stood after
every write since. -/
structure Since (s : Store) (n : Nat) (ops : List Operation) (i : Nat) (k : Value) : Prop where
  insertion : ∃ document, ops[i]? = some (.insert n document)
  added : (s.after (ops.take (i + 1))).keysAt n = (s.after (ops.take i)).keysAt n ++ [k]
  stood : ∀ j, i < j → j ≤ ops.length → k ∈ (s.after (ops.take j)).keysAt n

theorem Since.lt {i : Nat} {k : Value} (h : Since s n ops i k) : i < ops.length := by
  obtain ⟨document, hi⟩ := h.insertion
  exact (List.getElem?_eq_some_iff.mp hi).1

theorem Since.snoc {i : Nat} {k : Value} (h : Since s n ops i k)
    (hk : k ∈ (s.after (ops ++ [op])).keysAt n) : Since s n (ops ++ [op]) i k := by
  have hi := h.lt
  have htake : ∀ j, j ≤ ops.length → (ops ++ [op]).take j = ops.take j := fun j hj =>
    List.take_append_of_le_length hj
  refine ⟨?_, ?_, fun j hj hle => ?_⟩
  · rw [List.getElem?_append_left hi]
    exact h.insertion
  · rw [htake (i + 1) hi, htake i (by omega)]
    exact h.added
  · rw [List.length_append, List.length_singleton] at hle
    by_cases hend : j = ops.length + 1
    · rw [List.take_of_length_le (by simp [hend])]
      exact hk
    · rw [htake j (by omega)]
      exact h.stood j hj (by omega)

/-- The keys of a collection, each with the place of the insertion since which it has stood there:
these places rise. -/
theorem seniority (h : n < s.collections.length) (hempty : s.keysAt n = [])
    (hops : ∀ op ∈ ops, op.WritesTo n) : ∃ born : List (Nat × Value),
      born.map Prod.snd = (s.after ops).keysAt n ∧ born.Pairwise (fun p q => p.1 < q.1) ∧
      ∀ p ∈ born, Since s n ops p.1 p.2 := by
  induction ops using List.reverseRecOn with
  | nil => exact ⟨[], hempty.symm, .nil, by simp⟩
  | append_singleton ops op ih =>
    have hrest : ∀ op ∈ ops, op.WritesTo n := fun op hop => hops op (by simp [hop])
    have hlast : op.WritesTo n := hops op (by simp)
    obtain ⟨born, hkeys, hrise, hsince⟩ := ih hrest
    have hmoves := (wrote (size_after h hrest).1 hlast).moves
    rw [← after_snoc] at hmoves
    have hkey : ∀ p ∈ born, p.2 ∈ (s.after (ops ++ [op])).keysAt n →
        Since s n (ops ++ [op]) p.1 p.2 := fun p hp => (hsince p hp).snoc
    rcases hmoves.inserted_or_sublist with ⟨m, document, k, rfl, hnew⟩ | hsub
    · obtain rfl : m = n := hlast
      have hk : k ∈ (s.after (ops ++ [.insert m document])).keysAt m := by simp [hnew]
      refine ⟨born ++ [(ops.length, k)], ?_, ?_, fun p hp => ?_⟩
      · rw [List.map_append, hkeys, hnew]
        rfl
      · rw [List.pairwise_append]
        refine ⟨hrise, List.pairwise_singleton _ _, fun p hp q hq => ?_⟩
        rw [List.mem_singleton.mp hq]
        exact (hsince p hp).lt
      · rcases List.mem_append.mp hp with hp | hp
        · refine hkey p hp ?_
          rw [hnew, ← hkeys]
          exact List.mem_append_left _ (List.mem_map_of_mem hp)
        · rw [List.mem_singleton.mp hp]
          refine ⟨⟨document, by simp⟩, ?_, fun j hj hle => ?_⟩
          · rw [List.take_of_length_le (by simp), List.take_left]
            exact hnew
          · rw [List.length_append, List.length_singleton] at hle
            rw [List.take_of_length_le (by simp; omega)]
            exact hk
    · rw [← hkeys] at hsub
      obtain ⟨kept, hkept, hmap⟩ := List.sublist_map_iff.mp hsub
      refine ⟨kept, hmap.symm, hrise.sublist hkept, fun p hp => hkey p (hkept.subset hp) ?_⟩
      rw [hmap]
      exact List.mem_map_of_mem hp

/-- A collection that was just made in an empty store. -/
def founded (name : Value) (idField : String) (issued : Nat) : Store :=
  (empty idField issued).after [.collection name]

theorem collectionAt_founded (name : Value) (idField : String) (issued : Nat) :
    (founded name idField issued).collectionAt 0 = .empty name idField := rfl

/-- What holds of a collection after a run of writes: no two keys are equal, each document has the
identifier it stands under, which is equal to the key wherever this is equal to itself, keys are in
the order of the insertions since which they have stood, and one more write, whether it succeeds or
fails, moves them as such a write does. -/
structure Represented (idField : String) (s : Store) (n : Nat) (ops : List Operation) : Prop where
  apart : Entries.Apart ((s.after ops).keysAt n)
  stands : ∀ p ∈ ((s.after ops).collectionAt n).documents, Collection.Stands idField p
  identified : ∀ p ∈ ((s.after ops).collectionAt n).documents, equal p.1 p.1 = true →
    ∃ ps, p.2 = dict ps ∧ equal ((Entries.get? (str idField) ps).getD null) p.1 = true
  senior : ∃ born : List (Nat × Value), born.map Prod.snd = (s.after ops).keysAt n ∧
    born.Pairwise (fun p q => p.1 < q.1) ∧ ∀ p ∈ born, Since s n ops p.1 p.2
  moves : ∀ op : Operation, op.WritesTo n → op.Moves (op.perform (s.after ops)).1
    ((s.after ops).keysAt n) ((op.perform (s.after ops)).2.keysAt n)

/-- Writes to a new collection leave it in order, whatever they write and whichever of them fail. -/
theorem represented (name : Value) (idField : String) (issued : Nat)
    (hops : ∀ op ∈ ops, op.WritesTo 0) :
    Represented idField (founded name idField issued) 0 ops := by
  have hsize : 0 < (founded name idField issued).collections.length := Nat.one_pos
  obtain ⟨hlt, hfield⟩ := size_after hsize hops
  have horderly : ((founded name idField issued).after ops).Orderly fun _ => True := by
    have hrun := orderly_run idField issued (.collection name :: ops)
    exact hrun
  have hc := horderly.collections 0
  rw [collectionAt_founded] at hfield
  have hstands := hc.stands
  rw [hfield] at hstands
  exact ⟨hc.apart, hstands, fun p hp => (hstands p hp).equal, seniority hsize rfl hops,
    fun op hop => (wrote hlt hop).moves⟩

/-- An identifier that is taken under another kind of number, one that is inserted again after its
removal, and a change of an identifier that fails. -/
def turnover : List Operation :=
  [.insert 0 (dict [(str "_id", int 1)]), .insert 0 (dict [(str "_id", int 2)]),
    .insert 0 (dict [(str "_id", bool true)]), .remove 0 (dict [(str "_id", int 1)]),
    .insert 0 (dict [(str "_id", int 1)]),
    .update 0 null (dict [(str "$set", dict [(str "_id", int 3)])]) false true,
    .replace 0 (dict [(str "_id", int 2)]) (dict [(str "b", null)])]

theorem represented_turnover : (∀ op ∈ turnover, op.WritesTo 0) ∧
    ((founded null "_id" 0).after turnover).keysAt 0 = [int 2, int 1] ∧
    Represented "_id" (founded null "_id" 0) 0 turnover := by
  have hwrites : ∀ op ∈ turnover, op.WritesTo 0 := by simp [turnover, Operation.WritesTo]
  exact ⟨hwrites, rfl, represented null "_id" 0 hwrites⟩

end Store

end DocStore
