import DocStore.Proofs.Codec.Identity
import DocStore.Proofs.Session.Beside
import DocStore.Proofs.Session.Finding

/-! Sessions that have seen just the identifiers of the map that their collection holds. Writing
keeps them so, and so does all reading, since any part of a document that has the identifier is
read as an object with that identifier. -/

namespace DocStore

open Value

variable {d : Decoder} {b n : Nat} {m m' : ObjectMap d} {s t : Session} {o : Item d} {u : Uuid}
  {r : Reading} {rs : List Reading} {x v : Value} {names names' : Registry}

/-- An item whose document has its identifier, and whose class keeps it. -/
structure Item.Traceable (o : Item d) : Prop where
  carried : o.Carried
  keepsId : o.KeepsId

namespace ObjectMap

/-- The identifiers that are there, as values. -/
def Knows (m : ObjectMap d) (v : Value) : Prop := ∃ u, v = uuid u ∧ m.Has u

/-- A part, with the identifier, of the document of an item that was once written under an
identifier that is there. -/
def Draws (m : ObjectMap d) (names : Registry) (x : Value) : Prop :=
  ∃ (o : Item d) (es : Entries), x = dict es ∧ m.Has o.id ∧ o.Traceable ∧
    Registry.Grown d.catalog o.names names ∧ Part (dict es) (dict o.entries) ∧
    Entries.get? (str d.schema.idField) es = some (uuid o.id)

theorem Draws.mono (h : m.Draws names x) (hm : ∀ u, m.Has u → m'.Has u)
    (hnames : Registry.Grown d.catalog names names') : m'.Draws names' x := by
  obtain ⟨o, es, hx, hhas, ho, hg, hpart, hid⟩ := h
  exact ⟨o, es, hx, hm _ hhas, ho, hg.trans hnames, hpart, hid⟩

theorem knows_uuid : m.Knows (uuid u) ↔ m.Has u := by
  constructor
  · rintro ⟨w, hw, hm⟩
    cases hw
    exact hm
  · exact fun h => ⟨u, rfl, h⟩

theorem Knows.mono (h : m.Knows v) (hm : ∀ u, m.Has u → m'.Has u) : m'.Knows v := by
  obtain ⟨u, hu, hhas⟩ := h
  exact ⟨u, hu, hm u hhas⟩

end ObjectMap

namespace Session

theorem Holding.supplies (h : Holding d b m s) (ht : ∀ o ∈ m.items, o.Traceable) :
    (s.stored b).Supplies (m.Draws s.registry) := by
  intro x hx projection y hprojection hy
  rw [h.values] at hx
  obtain ⟨o, ho, rfl⟩ := List.mem_map.mp hx
  rw [h.idField] at hy
  obtain ⟨es, rfl, hpart, hid⟩ := project_inclusive hprojection hy
  exact ⟨o, es, rfl, ObjectMap.has_iff.mpr ⟨o, ho, rfl⟩, ht o ho, h.named o ho, hpart,
    hid.trans (h.carried o ho)⟩

theorem Holding.notes (h : Holding d b m s) :
    s.decoder.reader.Notes (m.Draws s.registry) m.Knows := by
  rintro x ⟨o, es, rfl, hhas, ho, hg, hpart, hid⟩ partly k v k' id hv _ hattribute
  have hdecoded : Codec.fromDocument d.catalog d.schema s.registry partly (dict es) k =
      (.ok v, k') := by
    rw [← h.catalog, ← h.schema]
    exact hv
  rw [Item.part_id hg hpart hdecoded ho.keepsId ho.carried hid] at hattribute
  cases hattribute
  exact ⟨o.id, rfl, hhas⟩

/-- The session has seen just the identifiers of the map that its collection holds, and has
readings that show nothing but what was drawn from it. -/
structure Tracking (d : Decoder) (b : Nat) (m : ObjectMap d) (rs : List Reading) (s : Session) :
    Prop extends Holding d b m s where
  traceable : ∀ o ∈ m.items, o.Traceable
  bound : b < s.bindings.length
  seen : ∀ v, v ∈ (s.binding b).ids.ids ↔ m.Knows v
  readings : ∀ r ∈ rs, r.Shows (m.Draws s.registry) (s.binding b).collection s.store

theorem Tracking.some_readings {rs' : List Reading} (h : Tracking d b m rs s)
    (hrs : ∀ r ∈ rs', r ∈ rs) : Tracking d b m rs' s :=
  { h with readings := fun r hr => h.readings r (hrs r hr) }

theorem Tracking.supplies (h : Tracking d b m rs s) :
    (s.store.collectionAt (s.binding b).collection).Supplies (m.Draws s.registry) :=
  h.toHolding.supplies h.traceable

/-- Work beside the cursors leaves a session as it was but for what the map gained. -/
theorem Tracking.beside (h : Tracking d b m rs s) (hb : Beside m'.Knows b s t)
    (ht : Holding d b m' t) (htraceable : ∀ o ∈ m'.items, o.Traceable)
    (hm : ∀ u, m.Has u → m'.Has u)
    (hnew : ∀ u, m'.Has u → m.Has u ∨ uuid u ∈ (t.binding b).ids.ids) :
    Tracking d b m' rs t := by
  have hgrown : Registry.Grown d.catalog s.registry t.registry := h.catalog ▸ hb.grown
  refine ⟨ht, htraceable, hb.size ▸ h.bound, fun v => ⟨fun hv => ?_, ?_⟩, fun r hr => ?_⟩
  · rcases hb.ids.only v hv with hv | hv
    · exact ((h.seen v).mp hv).mono hm
    · exact hv
  · rintro ⟨u, rfl, hu⟩
    rcases hnew u hu with hu | hu
    · exact hb.ids.kept _ ((h.seen _).mpr ⟨u, rfl, hu⟩)
    · exact hu
  · rw [hb.collection]
    have hshows := h.readings r hr
    exact ⟨hshows.collection, hshows.projection, fun k hk =>
      ((hshows.stage k hk).mono fun x hx => hx.mono hm hgrown).aside hb.store⟩

theorem Tracking.unchanged (h : Tracking d b m rs s) (hb : Beside m.Knows b s t)
    (ht : Holding d b m t) : Tracking d b m rs t :=
  h.beside hb ht h.traceable (fun _ hu => hu) fun _ hu => .inl hu

section Writing

theorem Tracking.insert_fresh (h : Tracking d b m rs s) (ho : o.Traceable) (hm : ¬ m.Has o.id) :
    ∃ t, insert b o.object s = (.ok (), t) ∧ Tracking d b (m.insert o hm) rs t := by
  obtain ⟨t, ht, hh⟩ := Session.insert_fresh h.toHolding ho.carried hm
  have hbeside := beside_insert (Q := (m.insert o hm).Knows) (b := b) o.object
    (fun id hid => ⟨o.id, Except.ok.inj (hid.symm.trans o.identified),
      (ObjectMap.has_insert hm).mpr (.inr rfl)⟩) s
  rw [ht] at hbeside
  refine ⟨t, ht, h.beside hbeside hh (fun p hp => ?_)
    (fun u hu => (ObjectMap.has_insert hm).mpr (.inl hu)) fun u hu => ?_⟩
  · rcases List.mem_append.mp hp with hp | hp
    · exact h.traceable p hp
    · rw [List.mem_singleton.mp hp]
      exact ho
  · rcases (ObjectMap.has_insert hm).mp hu with hu | rfl
    · exact .inl hu
    · exact .inr (insert_seen h.bound o.identified ht)

theorem Tracking.insert_taken (h : Tracking d b m rs s) (ho : o.Traceable) (hm : m.Has o.id) :
    Tracking d b m rs (insert b o.object s).2 := by
  obtain ⟨_, _, t, ht, hh⟩ := Session.insert_taken h.toHolding ho.carried hm
  have hbeside := beside_insert (Q := m.Knows) (b := b) o.object
    (fun id hid => ⟨o.id, Except.ok.inj (hid.symm.trans o.identified), hm⟩) s
  rw [ht] at hbeside ⊢
  exact h.unchanged hbeside hh

theorem Tracking.replace_present (h : Tracking d b m rs s) (ho : o.Traceable) (hm : m.Has o.id) :
    ∃ t, replace b o.object s = (.ok (), t) ∧ Tracking d b (m.replace o) rs t := by
  obtain ⟨t, ht, hh⟩ := Session.replace_present h.toHolding ho.carried hm
  have hbeside := beside_replace (Q := (m.replace o).Knows) (b := b) o.object s
  rw [ht] at hbeside
  refine ⟨t, ht, h.beside hbeside hh (fun p hp => ?_) (fun u => ObjectMap.has_replace.mpr)
    fun u hu => .inl (ObjectMap.has_replace.mp hu)⟩
  rcases ObjectMap.mem_replace hp with rfl | hp
  · exact ho
  · exact h.traceable p hp

theorem Tracking.replace_missing (h : Tracking d b m rs s) (hm : ¬ m.Has o.id) :
    Tracking d b m rs (replace b o.object s).2 := by
  obtain ⟨_, t, ht, hh⟩ := Session.replace_missing h.toHolding hm
  have hbeside := beside_replace (Q := m.Knows) (b := b) o.object s
  rw [ht] at hbeside ⊢
  exact h.unchanged hbeside hh

/-- What persisting an object knows to do is right. -/
theorem Tracking.persist_run (h : Tracking d b m rs s) (o : Item d) :
    persist b o.object s =
      if m.Has o.id then replace b o.object s else insert b o.object s := by
  have hknown : (s.binding b).ids.holds (uuid o.id) = true ↔ m.Has o.id := by
    rw [IdSet.holds_uuid, h.seen, ObjectMap.knows_uuid]
  unfold persist
  rw [o.identified, bind_of_ok (run_liftExcept _ s), bind_of_ok (run_get s), IdSet.contains_uuid,
    bind_of_ok (run_liftExcept _ s)]
  by_cases hm : m.Has o.id
  · rw [if_pos hm, if_pos (hknown.mpr hm)]
  · rw [if_neg hm, if_neg (fun hh => hm (hknown.mp hh))]

end Writing

section Asking

variable {ids : IdSet} {w : Store} {q : Description}

theorem Tracking.read (h : Tracking d b m rs s)
    (hw : Store.Reshows (m.Draws s.registry) (s.binding b).collection s.store w)
    (hids : (s.binding b).ids.Gains m.Knows ids) : Tracking d b m rs (s.withRead b ids w) := by
  have hbinding := binding_withRead h.bound ids w
  obtain ⟨hsame, hshows⟩ := hw h.supplies
  refine ⟨h.toHolding.quiet (quiet_withRead hsame ids), h.traceable, ?_, fun v => ?_,
    fun r hr => ?_⟩
  · simpa [withRead] using h.bound
  · rw [hbinding]
    refine ⟨fun hv => ?_, fun hv => hids.kept v ((h.seen v).mpr hv)⟩
    rcases hids.only v hv with hv | hv
    · exact (h.seen v).mp hv
    · exact hv
  · rw [hbinding]
    exact (h.readings r hr).later hshows

/-- A reading that goes on is one more reading that shows nothing else. -/
theorem Tracking.goes (h : Tracking d b m rs s)
    (hg : Reading.Goes (m.Draws s.registry) m.Knows (s.binding b).collection s.store
      (s.binding b).ids r ids w) : Tracking d b m (r :: rs) (s.withRead b ids w) := by
  have hread := h.read hg.store hg.ids
  refine { hread with readings := fun r' hr => ?_ }
  rcases List.mem_cons.mp hr with rfl | hr
  · rw [binding_withRead h.bound]
    exact hg.reading
  · exact hread.readings r' hr

theorem Tracking.plan (h : Tracking d b m rs s) (q : Description) :
    Tracking d b m rs (plan q s).2 :=
  h.unchanged (beside_plan q s) (h.toHolding.quiet (quiet_plan b q s))

theorem Tracking.count (h : Tracking d b m rs s) (q : Description) :
    Tracking d b m rs (count b q s).2 := by
  have hplan := h.plan q
  unfold Session.count
  rcases hp : Session.plan q s with ⟨e | p, t⟩
  · rw [hp] at hplan
    rw [bind_of_error hp]
    exact hplan
  · rw [hp] at hplan
    have hcount := Store.reshows_count (P := m.Draws t.registry) (n := (t.binding b).collection) p
      (plan_inclusive (congrArg Prod.fst hp)) t.store
    rw [bind_of_ok hp, onCollection_run rfl, ← withRead_same]
    exact hplan.read hcount (refl_of (IdSet.Gains m.Knows) _)

theorem Tracking.start (h : Tracking d b m rs s) (q : Description) (idsOnly : Bool) :
    Tracking d b m ((start b q idsOnly s).1.toOption.toList ++ rs) (start b q idsOnly s).2 := by
  have hplan := h.plan q
  rcases start_planned b q idsOnly s with ⟨e, hs⟩ | ⟨p, only, hp, hs⟩
  · rw [hs]
    exact hplan
  · rw [hs]
    refine { hplan with readings := fun r hr => ?_ }
    rcases List.mem_cons.mp hr with rfl | hr
    · exact Reading.shows_ofPlan (plan_inclusive hp) _ only _
    · exact hplan.readings r hr

theorem Tracking.take_goes (h : Tracking d b m rs s) (hr : r ∈ rs) (j : Nat) :
    Reading.Goes (m.Draws s.registry) m.Knows (s.binding b).collection s.store (s.binding b).ids
      (r.take j s.decoder (s.binding b).ids s.store).reading
      (r.take j s.decoder (s.binding b).ids s.store).ids
      (r.take j s.decoder (s.binding b).ids s.store).store :=
  Reading.take_goes h.notes h.supplies (h.readings r hr) _ j

theorem Tracking.take (h : Tracking d b m rs s) (hr : r ∈ rs) (most : Option Nat) :
    Tracking d b m ((take b r most s).1.reading :: rs) (take b r most s).2 := by
  cases most with
  | some j => exact h.goes (h.take_goes hr j)
  | none => exact h.goes (h.take_goes hr _)

theorem Tracking.stop (h : Tracking d b m rs s) (hr : r ∈ rs) :
    Tracking d b m ((r.stop s.store).1 :: rs) { s with store := (r.stop s.store).2 } := by
  rw [← withRead_same s b]
  exact h.goes (Reading.stop_goes (h.readings r hr) _)

theorem Tracking.first (h : Tracking d b m rs s) (q : Description) :
    Tracking d b m rs (first b q s).2 := by
  have hstart := h.start ⟨q.filterStack, q.sortStack, q.fields, q.skipped, 1⟩ false
  rcases first_cases b q s with ⟨e, t, hs, hfirst⟩ | ⟨r, t, x, hs, rfl, hfirst⟩
  · rw [hs] at hstart
    rw [hfirst]
    exact hstart
  · rw [hs] at hstart
    have htake := hstart.take_goes (r := r) (by simp [Except.toOption]) 1
    rw [hfirst]
    exact (hstart.goes (htake.trans (Reading.stop_goes htake.reading _))).some_readings
      fun r' hr' => by simp [Except.toOption, hr']

theorem byId_cases (id : Value) (s : Session) :
    (∃ e, byId id s = (.error e, s)) ∨ ∃ q, byId id s = (.ok q, s) := by
  have hstate : Within Eq (byId id) := within_of_get fun s =>
    within_bind (within_liftExcept _) (fun _ => within_bind (within_liftExcept _) fun _ =>
      within_pure _) s
  have hs := hstate s
  rcases hq : byId id s with ⟨e | q, t⟩
  · rw [hq] at hs
    cases hs
    exact .inl ⟨e, rfl⟩
  · rw [hq] at hs
    cases hs
    exact .inr ⟨q, rfl⟩

theorem Tracking.find (h : Tracking d b m rs s) (id : Value) :
    Tracking d b m rs (find b id s).2 := by
  unfold Session.find
  rcases byId_cases id s with ⟨e, hq⟩ | ⟨q, hq⟩
  · rw [bind_of_error hq]
    exact h
  · rw [bind_of_ok hq]
    exact h.first q

theorem Tracking.contains (h : Tracking d b m rs s) (id : Value) :
    Tracking d b m rs (contains b id s).2 := by
  unfold Session.contains
  rcases byId_cases id s with ⟨e, hq⟩ | ⟨q, hq⟩
  · rw [bind_of_error hq]
    exact h
  · have hcount := h.count q
    rw [bind_of_ok hq]
    rcases hc : Session.count b q s with ⟨e | k, t⟩
    · rw [hc] at hcount
      rw [bind_of_error hc]
      exact hcount
    · rw [hc] at hcount
      rw [bind_of_ok hc]
      exact hcount

end Asking

end Session

end DocStore
