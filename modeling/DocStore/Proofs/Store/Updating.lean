import DocStore.Store.Collection

/-! Updates of many documents. What becomes of a document depends on itself, the query and the
update only, and an update that cannot go on leaves whole documents: those before the one at which
it stopped are done, the others are as they were. -/

namespace DocStore

open Value

namespace Updated

variable {d₀ : Value} {u : Updated} {f : Bool → Value → Updated} {document update : Value}

/-- What the flag of an update tells: the document is the old one, or a changed dictionary. -/
def Tells (d₀ : Value) : Bool → Value → Prop
  | false, d => d = d₀
  | true, d => ∃ ps, d = dict ps

/-- Work that tells truly whether it changed the document, unless it failed. -/
def Honest (d₀ : Value) (u : Updated) : Prop :=
  ∀ changed, u.result = .ok changed → Tells d₀ changed u.document

theorem honest_error (d : Value) (e : Error) : Honest d₀ ⟨d, .error e⟩ := by
  intro changed h
  cases h

theorem honest_ok {changed : Bool} {d : Value} (h : Tells d₀ changed d) :
    Honest d₀ ⟨d, .ok changed⟩ := by
  intro b hb
  cases hb
  exact h

theorem setAt_dict {path : List String} {v d d' : Value} (h : setAt path v d = .ok d') :
    ∃ ps, d' = dict ps := by
  cases d with
  | dict ps =>
    rw [setAt] at h
    cases hs : Entries.setPath v path ps with
    | error e =>
      rw [hs] at h
      cases h
    | ok qs =>
      rw [hs] at h
      cases h
      exact ⟨qs, rfl⟩
  | _ => cases h

theorem popAt_dict {path : List String} {d v d' : Value} (h : popAt path d = some (v, d')) :
    ∃ ps, d' = dict ps := by
  cases d with
  | dict ps =>
    rw [popAt] at h
    obtain ⟨⟨_, qs⟩, _, hq⟩ := Option.map_eq_some_iff.mp h
    cases hq
    exact ⟨qs, rfl⟩
  | _ => cases h

theorem honest_setAll (ps : Entries) {changed : Bool} {d : Value} (h : Tells d₀ changed d) :
    Honest d₀ (setAll ps changed d) := by
  induction ps generalizing changed d with
  | nil => exact honest_ok h
  | cons p ps ih =>
    obtain ⟨k, v⟩ := p
    cases k with
    | str path =>
      by_cases hv : holdsAt (segments path) v d = true
      · rw [setAll, if_pos hv]
        exact ih h
      · rw [setAll, if_neg hv]
        cases hs : setAt (segments path) v d with
        | error e => exact honest_error d e
        | ok d' =>
          have hd : Tells d₀ true d' := setAt_dict hs
          exact ih hd
    | _ => exact honest_error d _

theorem honest_unsetAll (ks : List Value) {changed : Bool} {d : Value}
    (h : Tells d₀ changed d) : Honest d₀ (unsetAll ks changed d) := by
  induction ks generalizing changed d with
  | nil => exact honest_ok h
  | cons k ks ih =>
    cases k with
    | str path =>
      rw [unsetAll]
      cases hp : popAt (segments path) d with
      | none => exact ih h
      | some r =>
        have hd : Tells d₀ true r.2 := popAt_dict hp
        exact ih hd
    | _ => exact honest_error d _

theorem honest_renameAll (ps : Entries) {changed : Bool} {d : Value} (h : Tells d₀ changed d) :
    Honest d₀ (renameAll ps changed d) := by
  induction ps generalizing changed d with
  | nil => exact honest_ok h
  | cons p ps ih =>
    obtain ⟨k, target⟩ := p
    cases target with
    | str new =>
      cases k with
      | str old =>
        by_cases hn : old = new
        · rw [renameAll, if_pos hn]
          exact honest_error d _
        · rw [renameAll, if_neg hn]
          cases hp : popAt (segments old) d with
          | none => exact ih h
          | some r =>
            dsimp only
            cases hs : setAt (segments new) r.1 r.2 with
            | error e => exact honest_error r.2 e
            | ok d' =>
              have hd : Tells d₀ true d' := setAt_dict hs
              exact ih hd
      | _ => exact honest_error d _
    | _ => exact honest_error d _

theorem Honest.andThen (h : Honest d₀ u)
    (hf : ∀ changed d, Tells d₀ changed d → Honest d₀ (f changed d)) :
    Honest d₀ (u.andThen f) := by
  rw [Updated.andThen]
  cases hu : u.result with
  | ok changed => exact hf changed u.document (h changed hu)
  | error e =>
    intro changed hc
    rw [hu] at hc
    cases hc

theorem honest_runUpdate (ps : Entries) (d : Value) : Honest d (runUpdate ps d) := by
  refine Honest.andThen (Honest.andThen ?_ fun changed d' h => ?_) fun changed d' h => ?_
  · cases operands "$set" ps with
    | ok qs => exact honest_setAll qs rfl
    | error e => exact honest_error d e
  · cases removals ps with
    | ok ks => exact honest_unsetAll ks h
    | error e => exact honest_error d' e
  · cases operands "$rename" ps with
    | ok qs => exact honest_renameAll qs h
    | error e => exact honest_error d' e

/-- An update that says that it changed nothing has left the document as it was. -/
theorem honest_applyUpdate (document update : Value) :
    Honest document (applyUpdate document update) := by
  unfold applyUpdate
  split
  · exact honest_error document _
  · split
    · exact honest_runUpdate _ document
    · exact honest_error document _

end Updated

namespace Collection

variable {idField : String} {query update : Value} {every : Bool} {p : Value × Value}
  {ps : Entries} {sel : List Bool} {pass : Pass Value} {e : Error}

theorem updateEntries_cons (idField : String) (query update : Value) (every : Bool)
    (p : Value × Value) (ps : Entries) :
    updateEntries idField query update every (p :: ps) =
      match matchesQuery p.2 query with
      | .error e => ⟨p :: ps, ⟨0, 0⟩, .error e⟩
      | .ok false => (updateEntries idField query update every ps).before p ⟨0, 0⟩
      | .ok true =>
        match updated idField p.1 p.2 update with
        | .error e => ⟨p :: ps, ⟨1, 0⟩, .error e⟩
        | .ok changed =>
          let count : Counts := ⟨1, if changed.isSome then 1 else 0⟩
          let new := (p.1, changed.getD p.2)
          if every then (updateEntries idField query update every ps).before new count
          else ⟨new :: ps, count, .ok ()⟩ := by
  unfold updateEntries
  rw [passOver]
  cases matchesQuery p.2 query with
  | error e => rfl
  | ok b =>
    cases b with
    | false => rfl
    | true => cases updated idField p.1 p.2 update <;> rfl

/-- Whether a document, as it stands, matches. -/
def matched (query : Value) (p : Value × Value) : Bool :=
  (matchesQuery p.2 query).toOption.getD false

/-- Whether an update says that it changes a document. -/
def changes (update : Value) (p : Value × Value) : Bool :=
  (applyUpdate p.2 update).result.toOption.getD false

def onlyFirst : List Bool → List Bool
  | [] => []
  | true :: bs => true :: bs.map fun _ => false
  | false :: bs => false :: onlyFirst bs

/-- Which documents an update is for: all that match, or the first of them. -/
def selection (query : Value) (every : Bool) (ps : Entries) : List Bool :=
  if every then ps.map (matched query) else onlyFirst (ps.map (matched query))

/-- A document after an update; one that is not selected is left alone. -/
def renewed (update : Value) (p : Value × Value) (selected : Bool) : Value × Value :=
  if selected then (p.1, (applyUpdate p.2 update).document) else p

/-- The documents that an update goes past: all, or those before the first that matches. -/
def scanned (query : Value) (every : Bool) (ps : Entries) : Entries :=
  if every then ps else ps.takeWhile fun p => !matched query p

/-- What stops an update at a document. -/
inductive Stops (idField : String) (query update : Value) (p : Value × Value) (selected : Bool) :
    Error → Prop
  | matching {e : Error} (h : matchesQuery p.2 query = .error e) :
      Stops idField query update p selected e
  | applying {e : Error} (hs : selected = true) (h : (applyUpdate p.2 update).result = .error e) :
      Stops idField query update p selected e
  | identifier {qs : Entries} (hs : selected = true)
      (h : applyUpdate p.2 update = ⟨dict qs, .ok true⟩)
      (hid : equal ((Entries.get? (str idField) qs).getD null) p.1 = false) :
      Stops idField query update p selected (.malformed (.changedId idField))

/-- Documents have been updated as they were selected, one by one, and none of these was one to
stop at. -/
structure Renewed (idField : String) (query update : Value) (ps : Entries) (sel : List Bool)
    (qs : Entries) : Prop where
  documents : qs = List.zipWith (renewed update) ps sel
  unstopped : ∀ x ∈ ps.zip sel, x.2 = true → ∀ e, ¬ Stops idField query update x.1 true e

/-- All documents have been gone through, and counted. -/
structure Finished (idField : String) (query update : Value) (every : Bool) (ps qs : Entries)
    (counts : Counts) : Prop where
  read : ∀ p ∈ scanned query every ps, ∃ b, matchesQuery p.2 query = .ok b
  renewed : Renewed idField query update ps (selection query every ps) qs
  matched : counts.matched = (selection query every ps).count true
  modified : counts.modified =
    (ps.zip (selection query every ps)).countP fun x => x.2 && changes update x.1

/-- The document at a number stopped the update: those before it are done, and it and all after
it are as they were. -/
structure Stopped (idField : String) (query update : Value) (every : Bool) (ps qs : Entries)
    (e : Error) (k : Nat) : Prop where
  read : k ≤ (scanned query every ps).length ∧
    ∀ p ∈ ps.take k, ∃ b, matchesQuery p.2 query = .ok b
  here : ∃ p, ps[k]? = some p ∧
    Stops idField query update p ((selection query every ps).getD k false) e
  documents : ∃ rs, qs = rs ++ ps.drop k ∧
    Renewed idField query update (ps.take k) ((selection query every ps).take k) rs

/-- What an update of documents comes to. -/
def Outcome (idField : String) (query update : Value) (every : Bool) (ps qs : Entries) :
    Except Error Counts → Prop
  | .ok counts => Finished idField query update every ps qs counts
  | .error e => ∃ k, Stopped idField query update every ps qs e k

theorem selection_skip (h : matched query p = false) :
    selection query every (p :: ps) = false :: selection query every ps := by
  cases every <;> simp [selection, onlyFirst, h]

theorem selection_every (h : matched query p = true) :
    selection query true (p :: ps) = true :: selection query true ps := by
  simp [selection, h]

theorem selection_first (h : matched query p = true) :
    selection query false (p :: ps) = true :: ps.map fun _ => false := by
  simp [selection, onlyFirst, h, Function.comp_def]

theorem scanned_skip (h : matched query p = false) :
    scanned query every (p :: ps) = p :: scanned query every ps := by
  cases every <;> simp [scanned, h]

theorem scanned_first (h : matched query p = true) : scanned query false (p :: ps) = [] := by
  simp [scanned, h]

theorem updated_error (h : updated idField p.1 p.2 update = .error e) :
    Stops idField query update p true e := by
  rw [updated] at h
  split at h
  · next hu =>
    cases h
    exact .applying rfl hu
  · cases h
  · next hu =>
    obtain ⟨qs, hq⟩ := Updated.honest_applyUpdate p.2 update true hu
    rw [hq] at h
    dsimp only at h
    split at h
    · cases h
    · next hid =>
      cases h
      refine .identifier rfl ?_ (Bool.eq_false_iff.mpr hid)
      rw [← hu, ← hq]

theorem updated_ok {new : Option Value} (h : updated idField p.1 p.2 update = .ok new) :
    new.isSome = changes update p ∧ (p.1, new.getD p.2) = renewed update p true := by
  have htells := Updated.honest_applyUpdate p.2 update
  rw [updated] at h
  split at h
  · cases h
  · next hu =>
    cases h
    have hd : (applyUpdate p.2 update).document = p.2 := htells false hu
    refine ⟨by simp [changes, hu, Except.toOption], ?_⟩
    rw [renewed, if_pos rfl, hd]
    rfl
  · next hu =>
    obtain ⟨qs, hq⟩ := htells true hu
    rw [hq] at h
    dsimp only at h
    split at h
    · cases h
      refine ⟨by simp [changes, hu, Except.toOption], ?_⟩
      rw [renewed, if_pos rfl, hq]
      rfl
    · cases h

theorem unstopped_of_updated {new : Option Value} (hm : matchesQuery p.2 query = .ok true)
    (h : updated idField p.1 p.2 update = .ok new) (e : Error) :
    ¬ Stops idField query update p true e := by
  intro hstops
  cases hstops with
  | matching he =>
    rw [he] at hm
    cases hm
  | applying _ he =>
    rw [updated] at h
    simp only [he] at h
    cases h
  | identifier _ ha hid =>
    rw [updated] at h
    simp only [ha, hid] at h
    cases h

theorem Renewed.cons {qs : Entries} {selected : Bool}
    (h : Renewed idField query update ps sel qs)
    (hp : selected = true → ∀ e, ¬ Stops idField query update p true e) :
    Renewed idField query update (p :: ps) (selected :: sel) (renewed update p selected :: qs) := by
  refine ⟨by rw [h.documents]; rfl, ?_⟩
  rw [List.zip_cons_cons]
  exact List.forall_mem_cons.mpr ⟨hp, h.unstopped⟩

theorem renewed_none (idField : String) (query update : Value) (ps : Entries) :
    Renewed idField query update ps (ps.map fun _ => false) ps := by
  induction ps with
  | nil => exact ⟨rfl, by simp⟩
  | cons p ps ih =>
    have hp : Renewed idField query update (p :: ps) (false :: ps.map fun _ => false)
        (renewed update p false :: ps) := ih.cons (by simp)
    exact hp

/-- One document that was gone through stands before what comes of the others. -/
theorem Outcome.cons {selected b : Bool}
    (h : Outcome idField query update every ps pass.documents
      (pass.result.map fun _ => pass.counts))
    (hsel : selection query every (p :: ps) = selected :: selection query every ps)
    (hscan : scanned query every (p :: ps) = p :: scanned query every ps)
    (hread : matchesQuery p.2 query = .ok b)
    (hp : selected = true → ∀ e, ¬ Stops idField query update p true e) :
    Outcome idField query update every (p :: ps) (renewed update p selected :: pass.documents)
      (pass.result.map fun _ => ⟨(if selected then 1 else 0) + pass.counts.matched,
        (if selected && changes update p then 1 else 0) + pass.counts.modified⟩) := by
  cases hr : pass.result with
  | ok u =>
    rw [hr] at h
    refine ⟨?_, ?_, ?_, ?_⟩
    · rw [hscan]
      exact List.forall_mem_cons.mpr ⟨⟨b, hread⟩, h.read⟩
    · rw [hsel]
      exact h.renewed.cons hp
    · rw [hsel, List.count_cons, ← h.matched]
      cases selected <;> simp [Nat.add_comm]
    · rw [hsel, List.zip_cons_cons, List.countP_cons, ← h.modified]
      cases selected <;> simp [Nat.add_comm]
  | error e =>
    rw [hr] at h
    obtain ⟨k, ⟨hk, hbefore⟩, ⟨q, hq, hstops⟩, rs, hrs, hdone⟩ := h
    refine ⟨k + 1, ⟨?_, List.forall_mem_cons.mpr ⟨⟨b, hread⟩, hbefore⟩⟩, ⟨q, hq, ?_⟩,
      renewed update p selected :: rs, ?_, ?_⟩
    · rw [hscan, List.length_cons]
      omega
    · rw [hsel]
      exact hstops
    · simp [hrs]
    · rw [hsel]
      exact hdone.cons hp

theorem outcome_here {selected : Bool} {bs : List Bool}
    (h : Stops idField query update p selected e)
    (hsel : selection query every (p :: ps) = selected :: bs) :
    Outcome idField query update every (p :: ps) (p :: ps) (.error e) := by
  refine ⟨0, ⟨Nat.zero_le _, by simp⟩, ⟨p, rfl, ?_⟩, [], rfl, rfl, by simp⟩
  rw [hsel]
  exact h

theorem outcome_first (hm : matched query p = true)
    (hp : ∀ e, ¬ Stops idField query update p true e) :
    Outcome idField query update false (p :: ps) (renewed update p true :: ps)
      (.ok ⟨1, if changes update p then 1 else 0⟩) := by
  refine ⟨?_, ?_, ?_, ?_⟩
  · rw [scanned_first hm]
    simp
  · rw [selection_first hm]
    exact (renewed_none idField query update ps).cons fun _ => hp
  · rw [selection_first hm, List.count_cons_self, List.count_eq_zero.mpr (by simp)]
  · have hnone : ((ps.zip (ps.map fun _ => false)).countP
        fun x => x.2 && changes update x.1) = 0 := by
      refine List.countP_eq_zero.mpr fun x hx => ?_
      obtain ⟨_, _, hs⟩ := List.mem_map.mp (List.of_mem_zip hx).2
      simp [← hs]
    rw [selection_first hm, List.zip_cons_cons, List.countP_cons, hnone]
    simp

theorem outcome_updateEntries (idField : String) (query update : Value) (every : Bool)
    (ps : Entries) :
    Outcome idField query update every ps
      (updateEntries idField query update every ps).documents
      ((updateEntries idField query update every ps).result.map fun _ =>
        (updateEntries idField query update every ps).counts) := by
  induction ps with
  | nil => exact ⟨by cases every <;> simp [scanned], ⟨rfl, by simp⟩, by cases every <;> rfl, rfl⟩
  | cons p ps ih =>
    rw [updateEntries_cons]
    cases hm : matchesQuery p.2 query with
    | error e =>
      have hb : matched query p = false := by simp [matched, hm, Except.toOption]
      exact outcome_here (.matching hm) (selection_skip hb)
    | ok b =>
      have hb : matched query p = b := by simp [matched, hm, Except.toOption]
      cases b with
      | false => exact ih.cons (selection_skip hb) (scanned_skip hb) hm (by simp)
      | true =>
        cases hu : updated idField p.1 p.2 update with
        | error e =>
          have hstops : Stops idField query update p true e := updated_error hu
          cases every with
          | true => exact outcome_here hstops (selection_every hb)
          | false => exact outcome_here hstops (selection_first hb)
        | ok new =>
          obtain ⟨hchanges, hnew⟩ := updated_ok hu
          have hp : ∀ e, ¬ Stops idField query update p true e := unstopped_of_updated hm hu
          dsimp only
          rw [hnew, hchanges]
          cases every with
          | true => exact ih.cons (selection_every hb) rfl hm fun _ => hp
          | false => exact outcome_first hb hp

/-- Updating many documents renews those that are selected, each as a whole, up to the one that
stops it; an update that should add a document is refused. -/
theorem updateMany_pointwise (c : Collection) (query update : Value) (every : Bool) :
    Outcome c.idField query update every c.documents
      (c.updateMany query update false every).1.documents
      (c.updateMany query update false every).2 ∧
    c.updateMany query update true every = (c, .error (.malformed .upsert)) :=
  ⟨outcome_updateEntries c.idField query update every c.documents, rfl⟩

/-- A number where a document should be stops the update at the second of three documents. -/
example : (updateEntries "_id" (dict []) (dict [(str "$set", dict [(str "n.m", int 1)])]) true
    [(int 1, dict [(str "_id", int 1)]), (int 2, dict [(str "_id", int 2), (str "n", int 5)]),
      (int 3, dict [(str "_id", int 3)])]).documents =
    [(int 1, dict [(str "_id", int 1), (str "n", dict [(str "m", int 1)])]),
      (int 2, dict [(str "_id", int 2), (str "n", int 5)]), (int 3, dict [(str "_id", int 3)])] :=
  rfl

end Collection

end DocStore
