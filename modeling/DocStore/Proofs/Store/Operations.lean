import DocStore.Proofs.Store.Opening
import DocStore.Proofs.Store.Orderly
import DocStore.Store.Basic

/-! Stores as their operations make them, one after the other. Whatever was done, also where it
failed, names differ and collections are in order. -/

namespace DocStore

open Value

namespace Cursor

variable {N : String → Prop} {cur : Cursor} {c : Collection}

/-- A cursor leaves the collection as it was, or has looked through it. -/
def Leaves (cur : Cursor) (c c' : Collection) : Prop := c' = c ∨ c' = (c.select cur.query).1

theorem Leaves.orderly {c' : Collection} (h : cur.Leaves c c') (hc : c.Orderly N) :
    c'.Orderly N ∧ c'.idField = c.idField := by
  rcases h with rfl | rfl
  · exact ⟨hc, rfl⟩
  · exact ⟨hc.select cur.query, rfl⟩

theorem leaves_start (cur : Cursor) (c : Collection) : cur.Leaves c (cur.start c).1 := by
  unfold start
  split
  · exact .inl rfl
  · exact .inr rfl

theorem leaves_next (cur : Cursor) (c : Collection) : cur.Leaves c (cur.next c).collection := by
  have hstart := leaves_start cur c
  unfold next
  split
  · exact .inl rfl
  · split
    · next h => rwa [h] at hstart
    · next h => rwa [h] at hstart
    · next h => rwa [h] at hstart

theorem leaves_drain (cur : Cursor) (c : Collection) : cur.Leaves c (cur.drain c).collection := by
  have hstart := leaves_start cur c
  unfold drain
  split
  · exact .inl rfl
  · split
    · next h => rwa [h] at hstart
    · next h => rwa [h] at hstart

theorem leaves_size (cur : Cursor) (c : Collection) : cur.Leaves c (cur.size c).1 := by
  unfold size
  split
  · exact .inl rfl
  · exact .inr rfl

end Cursor

namespace Store

variable {N : String → Prop} {s t : Store} {n k : Nat}

/-- Names belong to collections that there are. -/
def Inside (s : Store) : Prop := ∀ p ∈ s.names, p.2 < s.collections.length

structure Orderly (N : String → Prop) (s : Store) : Prop where
  apart : Entries.Apart s.collectionNames
  inside : s.Inside
  idField : ∀ p ∈ s.names, (s.collectionAt p.2).idField = s.idField
  collections : ∀ n, (s.collectionAt n).Orderly N

/-- Operations on a store, its collections and its cursors, which are known by their numbers. -/
inductive Operation
  | collection (name : Value)
  | dropCollection (name : Value)
  | insert (n : Nat) (document : Value)
  | replace (n : Nat) (query document : Value)
  | remove (n : Nat) (query : Value)
  | update (n : Nat) (query update : Value) (upsert every : Bool)
  | select (n : Nat) (query : Value)
  | index (n : Nat) (field direction : Value)
  | drop (n : Nat)
  | openCursor (n : Nat) (query projection : Value)
  | setUpCursor (k : Nat) (f : Cursor → Except Error Cursor)
  | next (k : Nat)
  | drain (k : Nat)
  | sizeOfCursor (k : Nat)
  | closeCursor (k : Nat)
  | save (path : String)
  | load (file : List UInt8) (idField path : String)

def Operation.perform : Operation → Storing Unit
  | .collection name => discard (Store.collection name)
  | .dropCollection name => Store.dropCollection name
  | .insert n document => Store.insert n document
  | .replace n query document => discard (onCollection n (·.replaceFirst query document))
  | .remove n query => discard (onCollection n (·.removeFirst query))
  | .update n query change upsert every =>
    discard (throughCollection n (·.updateMany query change upsert every))
  | .select n query => discard (throughCollection n (·.select query))
  | .index n field direction => discard (ensureIndex n field direction)
  | .drop n => modify fun s => s.putCollection n (s.collectionAt n).drop
  | .openCursor n query projection => discard (Store.openCursor n query projection)
  | .setUpCursor k f => Store.setUpCursor k f
  | .next k => discard (readCursor k Cursor.next)
  | .drain k => discard (readCursor k Cursor.drain)
  | .sizeOfCursor k => discard (Store.sizeOfCursor k)
  | .closeCursor k => Store.closeCursor k
  | .save path => discard (Store.save path)
  | .load file idField path => Store.load file idField path

/-- What operations leave behind, each whether it succeeded or not. -/
def after (s : Store) (ops : List Operation) : Store :=
  ops.foldl (fun s op => (op.perform s).2) s

theorem after_snoc (s : Store) (ops : List Operation) (op : Operation) :
    s.after (ops ++ [op]) = (op.perform (s.after ops)).2 := by
  simp [after]

/-- Indexes that an operation adds have names that satisfy a predicate. -/
def Operation.Names (N : String → Prop) : Operation → Prop
  | .index _ field direction =>
    Collection.isDirection direction = true → N (Collection.indexName field direction)
  | _ => True

/-- Indexes are made with the directions one and minus one only. -/
def Operation.Directed : Operation → Prop
  | .index _ _ direction => direction = .int 1 ∨ direction = .int (-1)
  | _ => True

/-- Work that keeps a store in order. -/
def Keeps (N : String → Prop) {α : Type} (x : Storing α) : Prop :=
  ∀ s : Store, s.Orderly N → (x s).2.Orderly N

/-- A store is in order if another one was. -/
abbrev StaysOrderly (N : String → Prop) (s t : Store) : Prop := s.Orderly N → t.Orderly N

instance (N : String → Prop) : IsPreorder Store (StaysOrderly N) where
  refl _ h := h
  trans _ _ _ h h' hs := h' (h hs)

section Keeps

variable {α β : Type} {x : Storing α} {f : α → Storing β}

theorem keeps_pure (a : α) : Keeps N (pure a : Storing α) := fun _ h => h

theorem keeps_liftExcept (a : Except Error α) : Keeps N (liftExcept a : Storing α) :=
  within_liftExcept (R := StaysOrderly N) a

theorem keeps_bind (hx : Keeps N x) (hf : ∀ a, Keeps N (f a)) : Keeps N (x >>= f) :=
  within_bind (R := StaysOrderly N) hx hf

theorem keeps_discard (hx : Keeps N x) : Keeps N (discard x) :=
  within_discard (R := StaysOrderly N) hx

end Keeps

/-- Only names, collections and the field of identifiers matter. -/
theorem Orderly.of_eq (h : s.Orderly N) (hn : t.names = s.names)
    (hc : t.collections = s.collections) (hi : t.idField = s.idField) : t.Orderly N := by
  have hat : ∀ n, t.collectionAt n = s.collectionAt n := by
    intro n
    rw [collectionAt, collectionAt, hc, hi]
  refine ⟨?_, ?_, ?_, fun n => hat n ▸ h.collections n⟩
  · rw [collectionNames, hn]
    exact h.apart
  · rw [Inside, hn, hc]
    exact h.inside
  · rw [hn, hi]
    intro p hp
    rw [hat]
    exact h.idField p hp

theorem Orderly.putCollection (h : s.Orderly N) {c : Collection} (hc : c.Orderly N)
    (hi : c.idField = (s.collectionAt n).idField) : (s.putCollection n c).Orderly N := by
  have hat : ∀ m, (s.putCollection n c).collectionAt m = c ∧ m = n ∨
      (s.putCollection n c).collectionAt m = s.collectionAt m := by
    intro m
    rw [collectionAt_putCollection]
    split
    · next hm => exact .inl ⟨rfl, hm.1⟩
    · exact .inr rfl
  refine ⟨h.apart, fun p hp => ?_, fun p hp => ?_, fun m => ?_⟩
  · rw [Store.putCollection, List.length_set]
    exact h.inside p hp
  · rcases hat p.2 with ⟨he, hm⟩ | he
    · rw [he, hi, ← hm]
      exact h.idField p hp
    · rw [he]
      exact h.idField p hp
  · rcases hat m with ⟨he, _⟩ | he
    · rw [he]
      exact hc
    · rw [he]
      exact h.collections m

theorem keeps_onCollection {α : Type} {f : Collection → Except Error (α × Collection)}
    (hf : ∀ {c a c'}, c.Orderly N → f c = .ok (a, c') → c'.Orderly N ∧ c'.idField = c.idField) :
    Keeps N (onCollection n f) := by
  intro s h
  unfold onCollection
  split
  · next a c hc =>
    obtain ⟨ho, hi⟩ := hf (h.collections n) hc
    exact h.putCollection ho hi
  · exact h

theorem keeps_throughCollection {α : Type} {f : Collection → Collection × Except Error α}
    (hf : ∀ {c}, c.Orderly N → (f c).1.Orderly N ∧ (f c).1.idField = c.idField) :
    Keeps N (throughCollection n f) := by
  intro s h
  obtain ⟨ho, hi⟩ := hf (h.collections n)
  exact h.putCollection ho hi

theorem keeps_note (r : LogRecord) : Keeps N (note r) := fun _ h => h.of_eq rfl rfl rfl

theorem keeps_get : Keeps N (get : Storing Store) := fun _ h => h

theorem numberOf?_eq_none {name : Value} (h : s.numberOf? name = none) :
    ∀ k ∈ s.collectionNames, equal k name = false := by
  intro k hk
  obtain ⟨p, hp, rfl⟩ := List.mem_map.mp hk
  have hnone := List.find?_eq_none.mp (Option.map_eq_none_iff.mp h) p hp
  simpa using hnone

theorem collectionAt_append (s : Store) (names : List (Value × Nat)) (c : Collection) (n : Nat) :
    ({ s with names := names, collections := s.collections ++ [c] } : Store).collectionAt n =
      if n = s.collections.length then c else s.collectionAt n := by
  unfold collectionAt
  split
  · next hn => simp [hn]
  · next hn =>
    rcases Nat.lt_or_gt_of_ne hn with hlt | hgt
    · simp [List.getD_eq_getElem?_getD, List.getElem?_append_left hlt]
    · simp [List.getD_eq_getElem?_getD, List.getElem?_append_right hgt.le,
        List.getElem?_eq_none hgt.le, Nat.sub_ne_zero_of_lt hgt]

theorem keeps_collection (name : Value) : Keeps N (collection name) := by
  intro s h
  unfold collection
  split
  · exact h
  · next hnone =>
    refine ⟨?_, fun p hp => ?_, fun p hp => ?_, fun m => ?_⟩
    · have hnames : ({ s with
          names := s.names ++ [(name, s.collections.length)],
          collections := s.collections ++ [Collection.empty name s.idField] } :
          Store).collectionNames = s.collectionNames ++ [name] := by
        simp [collectionNames]
      rw [hnames, Entries.Apart, List.pairwise_append]
      refine ⟨h.apart, List.pairwise_singleton _ _, fun a ha b hb => ?_⟩
      rw [List.mem_singleton.mp hb]
      exact numberOf?_eq_none hnone a ha
    · dsimp only at hp ⊢
      rw [List.length_append, List.length_singleton]
      rcases List.mem_append.mp hp with hp | hp
      · exact Nat.lt_succ_of_lt (h.inside p hp)
      · rw [List.mem_singleton.mp hp]
        exact Nat.lt_succ_self _
    · rw [collectionAt_append]
      split
      · rfl
      · next hn =>
        rcases List.mem_append.mp hp with hp | hp
        · exact h.idField p hp
        · rw [List.mem_singleton.mp hp] at hn
          exact absurd rfl hn
    · rw [collectionAt_append]
      split
      · exact Collection.orderly_empty _ _
      · exact h.collections m

theorem keeps_dropCollection (name : Value) : Keeps N (dropCollection name) := by
  intro s h
  rw [dropCollection, run_modify]
  cases hn : s.numberOf? name with
  | none => exact h
  | some n =>
    have hdrop : (s.putCollection n (s.collectionAt n).drop).Orderly N :=
      h.putCollection (Collection.orderly_drop _) rfl
    have hsub : (s.names.filter fun p => !equal p.1 name).Sublist s.names := List.filter_sublist
    exact ⟨h.apart.sublist (hsub.map Prod.fst), fun p hp => hdrop.inside p (hsub.subset hp),
      fun p hp => hdrop.idField p (hsub.subset hp), hdrop.collections⟩

/-- An insertion either fails, having taken an identifier at most, or writes to its collection. -/
theorem insert_cases (n : Nat) (document : Value) (s : Store) :
    (∃ e m, insert n document s = (.error e, { s with issued := m })) ∨
      ∃ c m, (s.collectionAt n).insert document s.issued = (.ok c, m) ∧
        insert n document s = (.ok (), ({ s with issued := m } : Store).putCollection n c) := by
  rcases hc : (s.collectionAt n).insert document s.issued with ⟨e | c, m⟩
  · refine .inl ⟨e, m, ?_⟩
    unfold insert
    rw [bind_of_ok (run_get s)]
    exact bind_of_error (fresh_run hc)
  · refine .inr ⟨c, m, rfl, ?_⟩
    unfold insert
    rw [bind_of_ok (run_get s), bind_of_ok (fresh_run hc)]
    rfl

theorem keeps_insert (n : Nat) (document : Value) : Keeps N (insert n document) := by
  intro s h
  rcases insert_cases n document s with ⟨e, m, hrun⟩ | ⟨c, m, hc, hrun⟩
  · rw [hrun]
    exact h.of_eq rfl rfl rfl
  · rw [hrun]
    obtain ⟨ho, hi⟩ := (h.collections n).insert hc
    have hissued : ({ s with issued := m } : Store).Orderly N := h.of_eq rfl rfl rfl
    exact hissued.putCollection ho hi

theorem keeps_ensureIndex (n : Nat) {field direction : Value}
    (hN : Collection.isDirection direction = true → N (Collection.indexName field direction)) :
    Keeps N (ensureIndex n field direction) := by
  have hindex : Keeps N (onCollection n fun c =>
      (c.ensureIndex field direction).map fun r => ((r.1, r.2.1), r.2.2)) := by
    refine keeps_onCollection fun ho hc => ?_
    obtain ⟨r, hr, he⟩ := except_map_eq_ok.mp hc
    cases he
    exact ho.ensureIndex hN hr
  unfold ensureIndex
  refine keeps_bind keeps_get fun s => keeps_bind hindex fun r => ?_
  dsimp only
  split
  · exact keeps_bind (keeps_note _) fun _ => keeps_pure _
  · exact keeps_pure _

theorem keeps_readCursor {α : Type} {f : Cursor → Collection → Cursor.Read α}
    (hf : ∀ cur c, Cursor.Leaves cur c (f cur c).collection) (k : Nat) :
    Keeps N (readCursor k f) := by
  intro s h
  obtain ⟨ho, hi⟩ := (hf (s.cursorAt k).2 (s.collectionAt (s.cursorAt k).1)).orderly
    (h.collections _)
  exact (h.putCollection ho hi).of_eq rfl rfl rfl

theorem keeps_sizeOfCursor (k : Nat) : Keeps N (sizeOfCursor k) := by
  intro s h
  obtain ⟨ho, hi⟩ := (Cursor.leaves_size (s.cursorAt k).2
    (s.collectionAt (s.cursorAt k).1)).orderly (h.collections _)
  exact h.putCollection ho hi

theorem keeps_setUpCursor (k : Nat) (f : Cursor → Except Error Cursor) :
    Keeps N (setUpCursor k f) := by
  intro s h
  unfold setUpCursor
  split
  · exact h.of_eq rfl rfl rfl
  · exact h

theorem keeps_openCursor (n : Nat) (query projection : Value) :
    Keeps N (openCursor n query projection) := fun _ h => h.of_eq rfl rfl rfl

theorem keeps_closeCursor (k : Nat) : Keeps N (closeCursor k) := fun _ h => h.of_eq rfl rfl rfl

theorem keeps_save (path : String) : Keeps N (save path) :=
  keeps_bind keeps_get fun _ => keeps_bind (keeps_liftExcept _) fun _ =>
    keeps_bind keeps_get fun _ => keeps_bind (keeps_note _) fun _ => keeps_pure _

/-! Loading asks for collections, inserts and adds indexes, one after the other -/

section Within

variable {R : Store → Store → Prop} [IsPreorder Store R]

theorem within_insertAll (hinsert : ∀ document, Within R (insert n document))
    (documents : List Value) : Within R (insertAll n documents) := by
  induction documents with
  | nil => exact within_pure ()
  | cons d ds ih => exact within_bind (hinsert d) fun _ => ih

theorem within_loadIndexes
    (hindex : ∀ (field : String) (d : Int), Within R (ensureIndex n (.str field) (.int d)))
    (names : List Value) : Within R (loadIndexes n names) := by
  induction names with
  | nil => exact within_pure ()
  | cons v vs ih =>
    cases v with
    | str name =>
      exact within_bind (within_liftExcept _) fun d => within_bind (hindex _ d) fun _ => ih
    | _ => exact within_throw _

variable (hcollection : ∀ name, Within R (collection name))
  (hinsert : ∀ n document, Within R (insert n document))
  (hindex : ∀ n (field : String) (d : Int), Within R (ensureIndex n (.str field) (.int d)))

include hcollection hinsert hindex

theorem within_loadCollections (ps : Entries) : Within R (loadCollections ps) := by
  induction ps with
  | nil => exact within_pure ()
  | cons p ps ih =>
    obtain ⟨name, data⟩ := p
    refine within_bind (hcollection name) fun n => ?_
    cases data with
    | dict qs =>
      exact within_bind (within_liftExcept _) fun documents =>
        within_bind (within_insertAll (hinsert n) documents) fun _ =>
          within_bind (within_liftExcept _) fun names =>
            within_bind (within_loadIndexes (hindex n) names) fun _ => ih
    | _ => exact within_throw _

theorem within_load (hnote : ∀ r, Within R (note r))
    (hreplacing : ∀ {x : Storing Unit} (idField : String), Within R x →
      Within R (replacing idField x))
    (file : List UInt8) (idField path : String) : Within R (load file idField path) := by
  refine within_bind (within_liftExcept _) fun v => ?_
  cases v with
  | dict ps =>
    exact hreplacing idField (within_bind (within_loadCollections hcollection hinsert hindex ps)
      fun _ => hnote _)
  | _ => exact within_throw _

end Within

theorem orderly_unnamed (h : s.Orderly N) (idField : String) :
    ({ s with idField := idField, names := [] } : Store).Orderly N := by
  refine ⟨.nil, by simp [Inside], by simp, fun n => ?_⟩
  have hn := h.collections n
  unfold collectionAt at hn ⊢
  by_cases hlt : n < s.collections.length
  · simpa [hlt] using hn
  · simpa [hlt] using Collection.orderly_empty .null idField

theorem keeps_replacing {α : Type} {x : Storing α} (idField : String) (hx : Keeps N x) :
    Keeps N (replacing idField x) := by
  intro s h
  have ht := hx _ (orderly_unnamed h idField)
  unfold replacing
  split
  · next hr => rwa [hr] at ht
  · exact h.of_eq rfl rfl rfl

theorem orderly_empty (idField : String) (issued : Nat) : (empty idField issued).Orderly N :=
  ⟨.nil, by simp [Inside, empty], by simp [empty], fun _ => Collection.orderly_empty _ _⟩

section Loading

variable (hN : ∀ name, Collection.Directed name → N name)
include hN

theorem keeps_load (file : List UInt8) (idField path : String) :
    Keeps N (load file idField path) :=
  within_load (R := StaysOrderly N) keeps_collection keeps_insert
    (fun n _ _ => keeps_ensureIndex n fun hd => hN _ (Collection.directed_indexName _ hd))
    keeps_note (fun idField hx => keeps_replacing idField hx) file idField path

/-- One operation keeps a store in order. -/
theorem keeps_perform {op : Operation} (hop : op.Names N) : Keeps N op.perform := by
  cases op with
  | collection name => exact keeps_discard (keeps_collection name)
  | dropCollection name => exact keeps_dropCollection name
  | insert n document => exact keeps_insert n document
  | replace n query document =>
    exact keeps_discard (keeps_onCollection fun ho hc => ho.replaceFirst hc)
  | remove n query => exact keeps_discard (keeps_onCollection fun ho hc => ho.removeFirst hc)
  | update n query change upsert every =>
    refine keeps_discard (keeps_throughCollection fun ho => ⟨ho.updateMany _ _ _ _, ?_⟩)
    cases upsert <;> rfl
  | select n query => exact keeps_discard (keeps_throughCollection fun ho => ⟨ho.select _, rfl⟩)
  | index n field direction => exact keeps_discard (keeps_ensureIndex n hop)
  | drop n => exact fun s h => h.putCollection (Collection.orderly_drop _) rfl
  | openCursor n query projection => exact keeps_discard (keeps_openCursor n query projection)
  | setUpCursor k f => exact keeps_setUpCursor k f
  | next k => exact keeps_discard (keeps_readCursor Cursor.leaves_next k)
  | drain k => exact keeps_discard (keeps_readCursor Cursor.leaves_drain k)
  | sizeOfCursor k => exact keeps_discard (keeps_sizeOfCursor k)
  | closeCursor k => exact keeps_closeCursor k
  | save path => exact keeps_discard (keeps_save path)
  | load file idField path => exact keeps_load hN file idField path

theorem orderly_after (h : s.Orderly N) {ops : List Operation} (hops : ∀ op ∈ ops, op.Names N) :
    (s.after ops).Orderly N := by
  induction ops generalizing s with
  | nil => exact h
  | cons op ops ih =>
    obtain ⟨hop, hrest⟩ := List.forall_mem_cons.mp hops
    exact ih (keeps_perform hN hop s h) hrest

end Loading

/-- Whatever was done since a store was empty, it is in order. -/
theorem orderly_run (idField : String) (issued : Nat) (ops : List Operation) :
    ((empty idField issued).after ops).Orderly fun _ => True := by
  refine orderly_after (fun _ _ => trivial) (orderly_empty idField issued) fun op _ => ?_
  cases op with
  | index n field direction => exact fun _ => trivial
  | _ => trivial

theorem names_directed {op : Operation} (h : op.Directed) : op.Names Collection.Directed := by
  cases op with
  | index n field direction =>
    rcases h with rfl | rfl
    · exact Collection.directed_indexName field
    · exact Collection.directed_indexName field
  | _ => trivial

theorem orderly_directed (idField : String) (issued : Nat) {ops : List Operation}
    (h : ∀ op ∈ ops, op.Directed) :
    ((empty idField issued).after ops).Orderly Collection.Directed :=
  orderly_after (fun _ hn => hn) (orderly_empty idField issued) fun op hop =>
    names_directed (h op hop)

end Store

end DocStore
