import DocStore.Proofs.Document.Placing
import DocStore.Proofs.Query.Upholding

/-! What an update leaves as it was: the paths aloof of those that it names, the whole document if
it says that nothing changed, and the whole document if it is refused before it begins. -/

namespace DocStore

open Value

namespace Objects

variable {o u : Objects} {fs : List (Value × Node)} {changed : Bool} {r : Altered}

/-! Honest answers -/

/-- Work that began with a document and says that nothing changed has left it alone. -/
def Honest (o : Objects) (changed : Bool) (r : Altered) : Prop :=
  r.result = .ok false → changed = false ∧ r.document = o

theorem Honest.andThen {f : Bool → Objects → Altered} (hr : Honest o changed r)
    (hf : ∀ b o, Honest o b (f b o)) : Honest o changed (r.andThen f) := by
  intro h
  rw [Altered.andThen] at h ⊢
  cases hres : r.result with
  | error e =>
    rw [hres] at h
    rw [hres] at h
    cases h
  | ok b =>
    rw [hres] at h
    obtain ⟨rfl, hdoc⟩ := hf b r.document h
    obtain ⟨hchanged, hsame⟩ := hr hres
    exact ⟨hchanged, hdoc.trans hsame⟩

theorem honest_ok (o : Objects) (changed : Bool) : Honest o changed ⟨o, .ok changed⟩ :=
  fun h => ⟨Except.ok.inj h, rfl⟩

theorem honest_error (o o' : Objects) (changed : Bool) (e : Error) :
    Honest o changed ⟨o', .error e⟩ := nofun

/-- Work that has changed something does not say that it did not. -/
theorem Honest.of_true (hr : Honest o true r) (o' : Objects) (changed : Bool) :
    Honest o' changed r := fun h => nomatch (hr h).1

theorem honest_setAll (u : Heap) (fs : List (Value × Node)) (changed : Bool) (o : Objects) :
    Honest o changed (setAll u fs changed o) := by
  induction fs generalizing changed o with
  | nil => exact honest_ok o changed
  | cons f fs ih =>
    obtain ⟨k, n⟩ := f
    cases k with
    | str path =>
      rw [setAll]
      split
      · exact ih changed o
      · split
        · next o' _ => exact (ih true o').of_true o changed
        · exact honest_error o o changed _
    | _ => exact honest_error o o changed _

theorem honest_unsetAll (ks : List Value) (changed : Bool) (o : Objects) :
    Honest o changed (unsetAll ks changed o) := by
  induction ks generalizing changed o with
  | nil => exact honest_ok o changed
  | cons k ks ih =>
    cases k with
    | str path =>
      rw [unsetAll]
      split
      · next o' _ => exact (ih true o').of_true o changed
      · exact ih changed o
    | _ => exact honest_error o o changed _

theorem honest_renameAll (u : Heap) (fs : List (Value × Node)) (changed : Bool) (o : Objects) :
    Honest o changed (renameAll u fs changed o) := by
  induction fs generalizing changed o with
  | nil => exact honest_ok o changed
  | cons f fs ih =>
    obtain ⟨k, target⟩ := f
    unfold renameAll
    split
    · split
      · split
        · exact honest_error o o changed _
        · split
          · next n o' _ =>
            split
            · next o'' _ => exact (ih true o'').of_true o changed
            · exact honest_error o o' changed _
          · exact ih changed o
      · exact honest_error o o changed _
    · exact honest_error o o changed _

theorem honest_applyUpdate (o u : Objects) : Honest o false (o.applyUpdate u) := by
  unfold applyUpdate
  split
  · exact honest_error o o false _
  · refine Honest.andThen (Honest.andThen ?_ fun b o => ?_) fun b o => ?_
    · split
      · exact honest_setAll _ _ false o
      · exact honest_error o o false _
    · split
      · exact honest_unsetAll _ b o
      · exact honest_error o o b _
    · split
      · exact honest_renameAll _ _ b o
      · exact honest_error o o b _

/-- An update without operators, or with one that is none, is refused as a whole. -/
theorem applyUpdate_refused (o : Objects)
    (h : u.fields = [] ∨ ∃ f ∈ u.fields, isUpdateOperator f.1 = false) :
    ∃ cause, o.applyUpdate u = ⟨o, .error (.malformed cause)⟩ := by
  have hfault : updateFault? (dict (u.fields.map fun f => (f.1, null))) ≠ none := by
    rw [Ne, updateFault?_eq_none_iff]
    rintro ⟨hne, hall⟩
    rcases h with hnil | ⟨f, hf, hop⟩
    · exact hne (by rw [hnil, List.map_nil])
    · rw [hall f.1 (List.mem_map.mpr ⟨_, List.mem_map_of_mem hf, rfl⟩)] at hop
      cases hop
  obtain ⟨e, he⟩ := Option.ne_none_iff_exists'.mp hfault
  obtain ⟨cause, rfl⟩ := updateFault?_malformed he
  exact ⟨cause, by rw [applyUpdate, he]⟩

/-- Whether an update succeeds or breaks off, a path aloof of those that it names leads to the same
object as before and to the same value, unless the update changes a dictionary that stands on the
way of the path or below its end, and at a second place. An update that says that it changed nothing
did not, and one that is refused for its operators has not begun. -/
theorem applyUpdate_frame (ho : o.Proper) (hu : u.Proper) :
    (∀ q, (∀ p, u.Names p → Aloof (segments p) q) → o.Unechoed (o.applyUpdate u).document q →
      (o.applyUpdate u).document.getAt q = o.getAt q ∧
      (o.applyUpdate u).document.valueAt q = o.valueAt q) ∧
    ((o.applyUpdate u).result = .ok false → (o.applyUpdate u).document = o) ∧
    (u.fields = [] ∨
        (∃ f ∈ u.fields, f.1 ≠ str "$set" ∧ f.1 ≠ str "$unset" ∧ f.1 ≠ str "$rename") →
      ∃ cause, o.applyUpdate u = ⟨o, .error (.malformed cause)⟩) := by
  refine ⟨fun q hq hal => (applyUpdate_edits hu o).frame ho hu.heap hq hal,
    fun h => (honest_applyUpdate o u h).2, fun h => ?_⟩
  refine applyUpdate_refused o (h.imp id fun ⟨f, hf, hset, hunset, hrename⟩ => ⟨f, hf, ?_⟩)
  rw [Bool.eq_false_iff, ne_eq, isUpdateOperator_iff]
  rintro (he | he | he)
  · exact hset he
  · exact hunset he
  · exact hrename he

/-! A nested document and an update with all operators, of which the last one fails -/

/-- Sets and removes something, and then has no place for what it takes away. -/
def hasty : Entries :=
  [(str "$rename", dict [(str "k.m", str "n.x")]), (str "$unset", dict [(str "a.b", int 1)]),
    (str "$set", dict [(str "a.c", int 2)])]

/-- One dictionary stands under two keys, aloof of what the update names. -/
def crowded : Objects :=
  ⟨[.dict [(str "b", .leaf (int 1)), (str "e", .leaf (int 7))],
    .dict [(str "m", .leaf (bool true))], .dict [(str "e", .leaf (int 9))],
    .dict [(str "n", .leaf (int 5)), (str "a", .ref 0), (str "k", .ref 1), (str "s", .ref 2),
      (str "t", .ref 2)]], 3⟩

theorem names_hasty {p : String} (h : (ofEntries hasty).Names p) :
    p = "a.c" ∨ p = "a.b" ∨ p = "k.m" ∨ p = "n.x" := by
  cases h with
  | set ho h =>
    cases ho
    simp at h
    exact .inl h.1
  | unset ho h =>
    cases ho
    simp at h
    exact .inr (.inl h)
  | source ho h =>
    cases ho
    simp at h
    exact .inr (.inr (.inl h.1))
  | target ho h =>
    cases ho
    simp at h
    exact .inr (.inr (.inr h.2))

theorem embodies_hasty : (ofEntries hasty).Embodies (dict hasty) :=
  embodies_ofEntries (.dict (by simp [hasty, equal_str]) (by
    simp only [hasty, List.forall_mem_cons, List.not_mem_nil, false_imp_iff, implies_true, and_true]
    exact ⟨.dict (by simp) (by simp [Single.str]), .dict (by simp) (by simp [Single.int]),
      .dict (by simp) (by simp [Single.int])⟩))

theorem proper_crowded : crowded.Proper := by
  refine ⟨Heap.proper_of_cells ?_ ?_, _, rfl⟩
  · simp [crowded, equal_str, Heap.Within, or_imp, forall_and]
  · simp [crowded]

/-- The dictionaries on the way of `s.e` are the two that the update leaves alone. -/
theorem unechoed_crowded :
    crowded.Unechoed (crowded.applyUpdate (ofEntries hasty)).document ["s", "e"] := by
  have hway {z : Place} {a : Nat} (hz : On ["s", "e"] z)
      (ha : crowded.heap.edges.leads z (.ref crowded.root) = some (.ref a)) : a = 3 ∨ a = 2 := by
    rcases hz with hz | ⟨t, rfl⟩
    · simp only [keySteps, List.map_cons, List.map_nil, List.prefix_cons_iff,
        List.prefix_nil] at hz
      rcases hz with rfl | ⟨_, rfl, rfl | ⟨_, rfl, rfl⟩⟩ <;> cases ha
      · exact .inl rfl
      · exact .inr rfl
    · rw [Edges.leads_append_of (m := .leaf (int 9)) rfl] at ha
      cases t <;> cases ha
  intro a _ hne y z hz _ ha
  rcases hway hz ha with rfl | rfl <;> exact absurd rfl hne

theorem applyUpdate_hasty :
    (crowded.applyUpdate (ofEntries hasty)).document.tree =
        some (dict [(str "n", int 5), (str "a", dict [(str "e", int 7), (str "c", int 2)]),
          (str "k", dict []), (str "s", dict [(str "e", int 9)]),
          (str "t", dict [(str "e", int 9)])]) ∧
      (crowded.applyUpdate (ofEntries hasty)).result =
        .error (.malformed (.nonDocument "n" (int 5))) ∧
      (crowded.applyUpdate (ofEntries hasty)).document.valueAt ["s", "e"] = some (int 9) := by
  have haloof : ∀ p, (ofEntries hasty).Names p → Aloof (segments p) ["s", "e"] := by
    intro p hp
    rcases names_hasty hp with rfl | rfl | rfl | rfl <;> exact ⟨by decide, by decide⟩
  have hframe := (applyUpdate_frame proper_crowded embodies_hasty.proper).1 ["s", "e"] haloof
    unechoed_crowded
  exact ⟨rfl, rfl, hframe.2⟩

/-- One dictionary under two keys. -/
def twins : Objects :=
  ⟨[.dict [(str "c", .leaf (int 1))], .dict [(str "a", .ref 0), (str "b", .ref 0)]], 1⟩

/-- An update that names `a.c` and no other path changes `b.c` too where one object stands under `a`
and `b`, and one that is to remove `name` removes the fields that are named by letters of the
word. -/
theorem applyUpdate_beyond :
    (twins.tree = some (dict [(str "a", dict [(str "c", int 1)]),
        (str "b", dict [(str "c", int 1)])]) ∧
      (∀ p, (ofEntries [(str "$set", dict [(str "a.c", int 2)])]).Names p →
        Aloof (segments p) (segments "b.c")) ∧
      (twins.applyUpdate (ofEntries [(str "$set", dict [(str "a.c", int 2)])])).document.tree =
        some (dict [(str "a", dict [(str "c", int 2)]), (str "b", dict [(str "c", int 2)])])) ∧
    Aloof (segments "name") (segments "n") ∧
      ((ofEntries [(str "n", int 1)]).applyUpdate (ofEntries [(str "$unset", str "name")])
        ).document.tree = some (dict []) := by
  refine ⟨⟨rfl, fun p hp => ?_, rfl⟩, ⟨by decide, by decide⟩, rfl⟩
  cases hp with
  | set ho h =>
    cases ho
    simp at h
    rw [h.1]
    exact ⟨by decide, by decide⟩
  | unset ho h =>
    cases ho
    simp at h
  | source ho h =>
    cases ho
    simp at h
  | target ho h =>
    cases ho
    simp at h

end Objects

end DocStore
