import DocStore.Proofs.Store.Operations

/-! The collections of a store as changes made them. Whatever is done to a store, each of its
collections was empty once and came about by one change after the other, so what every change keeps
holds of all of them. -/

namespace DocStore

open Value

namespace Collection

variable {c c' : Collection}

/-- Changes made the collection, starting with an empty one. -/
def Made (c : Collection) : Prop :=
  ∃ name idField, Relation.ReflTransGen Change (.empty name idField) c

theorem made_empty (name : Value) (idField : String) : (empty name idField).Made :=
  ⟨name, idField, .refl⟩

theorem Made.change (h : c.Made) (hc : Change c c') : c'.Made := by
  obtain ⟨name, idField, h⟩ := h
  exact ⟨name, idField, h.tail hc⟩

/-- A change adds one key, which is new, or none. -/
theorem Change.keys (h : Change c c') :
    (∃ id, id.hashable = true ∧ Entries.contains id c.documents = false ∧
      c'.documents.keys = c.documents.keys ++ [id]) ∨
    c'.documents.keys.Sublist c.documents.keys := by
  cases h with
  | insert h => exact .inl (insert_keys h).2
  | replace h => exact .inr ((replaceFirst_keys h).2 ▸ List.Sublist.refl _)
  | remove h =>
    obtain ⟨_, hkeys | ⟨before, k, after, hkeys, hkeys'⟩⟩ := removeFirst_keys h
    · exact .inr (hkeys ▸ List.Sublist.refl _)
    · rw [hkeys, hkeys']
      exact .inr ((List.sublist_cons_self k after).append_left before)
  | update query update upsert every =>
    cases upsert with
    | true => exact .inr (List.Sublist.refl _)
    | false =>
      have hkeys : (c.updateMany query update false every).1.documents.keys = c.documents.keys :=
        keys_updateEntries c.idField query update every c.documents
      exact .inr (hkeys ▸ List.Sublist.refl _)
  | select query => exact .inr (List.Sublist.refl _)
  | index h =>
    unfold ensureIndex at h
    dsimp only at h
    split at h
    · split at h
      · cases h
        exact .inr (List.Sublist.refl _)
      · cases h
        exact .inr (List.Sublist.refl _)
    · cases h
  | drop => exact .inr (List.nil_sublist _)

/-- All documents stand under what can be a key. -/
def Keyed (c : Collection) : Prop := ∀ k ∈ c.documents.keys, k.hashable = true

theorem Change.keyed (h : Change c c') (hc : c.Keyed) : c'.Keyed := by
  rcases h.keys with ⟨id, hid, _, hkeys⟩ | hsub
  · intro k hk
    rw [hkeys] at hk
    rcases List.mem_append.mp hk with hk | hk
    · exact hc k hk
    · rwa [List.mem_singleton.mp hk]
  · exact fun k hk => hc k (hsub.subset hk)

theorem Made.keyed (h : c.Made) : c.Keyed := by
  obtain ⟨_, _, h⟩ := h
  induction h with
  | refl => exact List.forall_mem_nil _
  | tail _ h ih => exact h.keyed ih

end Collection

namespace Store

open Collection

variable {s t : Store} {n k : Nat}

/-- Changes made every collection. -/
def Made (s : Store) : Prop := ∀ n, (s.collectionAt n).Made

theorem made_empty (idField : String) (issued : Nat) : (empty idField issued).Made :=
  fun _ => Collection.made_empty _ _

/-- A store's collections were made by changes if those of another one were. -/
abbrev StaysMade (s t : Store) : Prop := s.Made → t.Made

instance : IsPreorder Store StaysMade where
  refl _ h := h
  trans _ _ _ h h' hs := h' (h hs)

theorem Made.putCollection (h : s.Made) {c : Collection} (hc : c.Made) :
    (s.putCollection n c).Made := by
  intro m
  rw [collectionAt_putCollection]
  split
  · exact hc
  · exact h m

theorem made_onCollection {α : Type} {f : Collection → Except Error (α × Collection)}
    (hf : ∀ {c a c'}, f c = .ok (a, c') → Change c c') : Within StaysMade (onCollection n f) := by
  intro s h
  unfold onCollection
  split
  · next a c hc => exact h.putCollection ((h n).change (hf hc))
  · exact h

theorem made_throughCollection {α : Type} {f : Collection → Collection × Except Error α}
    (hf : ∀ c, Change c (f c).1) : Within StaysMade (throughCollection n f) :=
  fun _ h => h.putCollection ((h n).change (hf _))

theorem made_note (r : LogRecord) : Within StaysMade (note r) := fun _ h => h

theorem made_collection (name : Value) : Within StaysMade (collection name) := by
  intro s h
  unfold collection
  split
  · exact h
  · intro m
    rw [collectionAt_append]
    split
    · exact Collection.made_empty _ _
    · exact h m

theorem made_dropCollection (name : Value) : Within StaysMade (dropCollection name) := by
  intro s h
  rw [dropCollection, run_modify]
  cases s.numberOf? name with
  | none => exact h
  | some n => exact h.putCollection ((h n).change .drop)

theorem made_insert (n : Nat) (document : Value) : Within StaysMade (insert n document) := by
  intro s h
  rcases insert_cases n document s with ⟨e, m, hrun⟩ | ⟨c, m, hc, hrun⟩
  · rw [hrun]
    exact h
  · have hissued : ({ s with issued := m } : Store).Made := h
    rw [hrun]
    exact hissued.putCollection ((h n).change (.insert hc))

theorem made_ensureIndex (n : Nat) (field direction : Value) :
    Within StaysMade (ensureIndex n field direction) := by
  have hindex : Within StaysMade (onCollection n fun c =>
      (c.ensureIndex field direction).map fun r => ((r.1, r.2.1), r.2.2)) := by
    refine made_onCollection fun hc => ?_
    obtain ⟨r, hr, he⟩ := except_map_eq_ok.mp hc
    cases he
    exact .index hr
  refine within_bind within_get fun s => within_bind hindex fun r => ?_
  exact within_step (made_note _) fun _ => within_pure _

/-- A cursor leaves a collection as changes make it. -/
theorem made_leaves {cur : Cursor} {c c' : Collection} (h : c.Made) (hl : cur.Leaves c c') :
    c'.Made := by
  rcases hl with rfl | rfl
  · exact h
  · exact h.change (.select cur.query)

theorem made_readCursor {α : Type} {f : Cursor → Collection → Cursor.Read α}
    (hf : ∀ cur c, Cursor.Leaves cur c (f cur c).collection) (k : Nat) :
    Within StaysMade (readCursor k f) :=
  fun _ h => h.putCollection (made_leaves (h _) (hf _ _))

theorem made_sizeOfCursor (k : Nat) : Within StaysMade (sizeOfCursor k) :=
  fun _ h => h.putCollection (made_leaves (h _) (Cursor.leaves_size _ _))

theorem made_setUpCursor (k : Nat) (f : Cursor → Except Error Cursor) :
    Within StaysMade (setUpCursor k f) := by
  intro s h
  unfold setUpCursor
  split <;> exact h

theorem made_unnamed (h : s.Made) (idField : String) :
    ({ s with idField := idField, names := [] } : Store).Made := by
  intro n
  have hn := h n
  unfold collectionAt at hn ⊢
  by_cases hlt : n < s.collections.length
  · simpa [hlt] using hn
  · simpa [hlt] using Collection.made_empty .null idField

theorem made_replacing {α : Type} {x : Storing α} (idField : String) (hx : Within StaysMade x) :
    Within StaysMade (replacing idField x) := by
  intro s h
  have ht := hx _ (made_unnamed h idField)
  unfold replacing
  split
  · next hr => rwa [hr] at ht
  · exact h

theorem made_save (path : String) : Within StaysMade (save path) :=
  within_bind within_get fun _ => within_bind (within_liftExcept _) fun _ =>
    within_bind within_get fun _ => within_bind (made_note _) fun _ => within_pure _

/-- One operation makes changes of collections only. -/
theorem made_perform (op : Operation) : Within StaysMade op.perform := by
  cases op with
  | collection name => exact within_discard (made_collection name)
  | dropCollection name => exact made_dropCollection name
  | insert n document => exact made_insert n document
  | replace n query document => exact within_discard (made_onCollection fun h => .replace h)
  | remove n query => exact within_discard (made_onCollection fun h => .remove h)
  | update n query change upsert every =>
    exact within_discard (made_throughCollection fun _ => .update query change upsert every)
  | select n query => exact within_discard (made_throughCollection fun _ => .select query)
  | index n field direction => exact within_discard (made_ensureIndex n field direction)
  | drop n => exact fun s h => h.putCollection ((h n).change .drop)
  | openCursor n query projection => exact within_discard fun _ h => h
  | setUpCursor k f => exact made_setUpCursor k f
  | next k => exact within_discard (made_readCursor Cursor.leaves_next k)
  | drain k => exact within_discard (made_readCursor Cursor.leaves_drain k)
  | sizeOfCursor k => exact within_discard (made_sizeOfCursor k)
  | closeCursor k => exact fun _ h => h
  | save path => exact within_discard (made_save path)
  | load file idField path =>
    exact within_load made_collection made_insert (fun n _ _ => made_ensureIndex n _ _) made_note
      (fun idField hx => made_replacing idField hx) file idField path

/-- Whatever was done since a store was empty, changes made its collections. -/
theorem made_run (idField : String) (issued : Nat) (ops : List Operation) :
    ((empty idField issued).after ops).Made := by
  induction ops using List.reverseRecOn with
  | nil => exact made_empty idField issued
  | append_singleton ops op ih =>
    rw [after_snoc]
    exact made_perform op _ ih

/-- Operations led to the store from an empty one. -/
def Reached (s : Store) : Prop := ∃ idField issued ops, (empty idField issued).after ops = s

theorem Reached.made (h : s.Reached) : s.Made := by
  obtain ⟨idField, issued, ops, rfl⟩ := h
  exact made_run idField issued ops

theorem Reached.orderly (h : s.Reached) : s.Orderly fun _ => True := by
  obtain ⟨idField, issued, ops, rfl⟩ := h
  exact orderly_run idField issued ops

end Store

end DocStore
