import DocStore.Filter.Compile
import DocStore.Proofs.Codec.Growth
import DocStore.Proofs.Regex.Again
import DocStore.Query.Match

/-! What compiling a filter gives, node by node, and that it depends on the names of classes only
up to growth. -/

namespace DocStore

open Value

theorem Operator.word_of_condition {op : Operator} {word : String}
    (h : op.condition? = some word) : startsWithDollar word = true ∧ word ≠ "$options" := by
  cases op <;> cases h <;> decide

theorem Operator.word_of_group {op : Operator} {word : String} (h : op.group? = some word) :
    word = "$and" ∨ word = "$or" := by
  cases op <;> cases h <;> simp

namespace Filter

/-- A filter stands somewhere in another one. -/
inductive Within : Filter → Filter → Prop
  | here (f : Filter) : Within f f
  | sub {g c : Filter} (f : Field) (h : Within g c) : Within g (sub f c)
  | group {g c : Filter} {cs : List Filter} (op : Operator) (hc : c ∈ cs) (h : Within g c) :
    Within g (group op cs)
  | posing {g c : Filter} {cs : List Filter} {k : FilterKind} {v : Value}
    (tagged : v.filterKind? = some k) (hc : c ∈ cs) (h : Within g c) :
    Within g (posing k v tagged cs)

/-- Nothing that stands in a filter poses as one. -/
structure Genuine (f : Filter) : Prop where
  not_posing : ∀ {k v tagged cs}, ¬ Within (posing k v tagged cs) f

theorem Genuine.of_within {f g : Filter} (h : Genuine f) (hw : ∀ {c}, Within c g → Within c f) :
    Genuine g := ⟨fun hg => h.not_posing (hw hg)⟩

theorem Genuine.field (f : Field) (op : Operator) (v : Value) : Genuine (field f op v) where
  not_posing h := by cases h

theorem Genuine.foreign (v : Value) (untagged : v.filterKind? = none) :
    Genuine (foreign v untagged) where
  not_posing h := by cases h

theorem Genuine.sub {c : Filter} (f : Field) (h : Genuine c) : Genuine (sub f c) where
  not_posing hw := by cases hw with | sub _ hw => exact h.not_posing hw

theorem Genuine.group {cs : List Filter} (op : Operator) (h : ∀ c ∈ cs, Genuine c) :
    Genuine (group op cs) where
  not_posing hw := by cases hw with | group _ hc hw => exact (h _ hc).not_posing hw

variable {cat : Catalog} {s : Schema} {limit : Value} {depth : Nat} {path : String}
  {r t : Registry} {q : Value}

theorem operand_steady (cat : Catalog) (s : Schema) (op : Operator) (v : Value) :
    Steady cat (operand cat s op v) := by
  unfold operand
  split
  · exact (Codec.toValues_steady cat s _).map _
  · exact .pure _
  · refine (Codec.toValue_steady cat s _).bind fun w => ?_
    split
    · exact (Steady.lift _).bind fun _ => .pure _
    · exact .throw _
  · exact Codec.toValue_steady cat s _

theorem compileField_steady (cat : Catalog) (s : Schema) (name : String) (op : Operator)
    (v : Value) : Steady cat (compileField cat s name op v) := by
  unfold compileField
  split
  · exact .throw _
  · exact (operand_steady cat s op v).bind fun _ => .pure _

mutual

theorem compileAt_steady (cat : Catalog) (s : Schema) (limit : Value) (f : Filter) :
    ∀ depth path, Steady cat (compileAt cat s limit depth path f) := by
  intro depth path
  cases f with
  | field f op v =>
    rw [compileAt]
    exact (Steady.lift _).bind fun _ => compileField_steady cat s _ op v
  | sub f c =>
    rw [compileAt]
    exact (Steady.lift _).bind fun _ => compileAt_steady cat s limit c _ _
  | group op cs =>
    rw [compileAt]
    refine (Steady.lift _).bind fun _ => ?_
    split
    · exact .throw _
    · exact (compileEach_steady cat s limit cs _ _).bind fun _ => .pure _
  | posing k v tagged cs =>
    cases k with
    | comparison =>
      rw [compileAt]
      refine (Steady.lift _).bind fun _ => (Steady.lift _).bind fun ⟨name, op⟩ => ?_
      dsimp only
      split
      · refine (compileEach_steady cat s limit cs _ _).bind fun qs => ?_
        split
        · exact .pure _
        · exact .throw _
      · exact (Steady.lift _).bind fun _ => compileField_steady cat s _ _ _
    | connective =>
      rw [compileAt]
      exact (Steady.lift _).bind fun _ => (Steady.lift _).bind fun _ =>
        (compileEach_steady cat s limit cs _ _).bind fun _ => .pure _
  | foreign v untagged =>
    rw [compileAt]
    exact (Steady.lift _).bind fun _ => .throw _
termination_by structural f

theorem compileEach_steady (cat : Catalog) (s : Schema) (limit : Value) (cs : List Filter) :
    ∀ depth path, Steady cat (compileEach cat s limit depth path cs) := by
  intro depth path
  cases cs with
  | nil => exact .pure []
  | cons c cs =>
    rw [compileEach]
    exact (compileAt_steady cat s limit c depth path).bind fun _ =>
      (compileEach_steady cat s limit cs depth path).bind fun _ => .pure _
termination_by structural cs

end

theorem compile_steady (cat : Catalog) (s : Schema) (limit : Value) (path : String) (f : Filter) :
    Steady cat (compile cat s limit path f) :=
  compileAt_steady cat s limit f 1 path

theorem compileAll_steady (cat : Catalog) (s : Schema) (limit : Value) (fs : List Filter) :
    ∀ query, Steady cat (compileAll cat s limit query fs) := by
  induction fs with
  | nil => exact fun query => .pure query
  | cons f fs ih =>
    intro query
    rw [compileAll]
    refine (compile_steady cat s limit "" f).bind fun q => ?_
    split
    · dsimp only
      split
      · exact ih _
      · exact .throw _
    · exact .throw _

theorem compileField_dict {name : String} {op : Operator} {v : Value}
    (h : compileField cat s name op v r = (.ok q, t)) : ∃ word w, op.condition? = some word ∧
      operand cat s op v r = (.ok w, t) ∧ q = dict [(str name, dict [(str word, w)])] := by
  unfold compileField at h
  cases hw : op.condition? with
  | none =>
    rw [hw] at h
    cases h
  | some word =>
    rw [hw] at h
    obtain ⟨w, u, hv, hq⟩ := bind_eq_ok_iff.mp h
    cases hq
    exact ⟨word, w, rfl, hv, rfl⟩

theorem compileAt_field {f : Field} {op : Operator} {v : Value}
    (h : compileAt cat s limit depth path (field f op v) r = (.ok q, t)) :
    ∃ word w, op.condition? = some word ∧ operand cat s op v r = (.ok w, t) ∧
      q = dict [(str (path ++ f.name), dict [(str word, w)])] := by
  rw [compileAt] at h
  obtain ⟨_, _, h⟩ := liftExcept_bind_eq_ok h
  exact compileField_dict h

theorem compileAt_sub {f : Field} {c : Filter}
    (h : compileAt cat s limit depth path (sub f c) r = (.ok q, t)) :
    compileAt cat s limit (depth + 1) (path ++ f.name ++ ".") c r = (.ok q, t) := by
  rw [compileAt] at h
  obtain ⟨_, _, h⟩ := liftExcept_bind_eq_ok h
  exact h

theorem compileAt_group {op : Operator} {cs : List Filter}
    (h : compileAt cat s limit depth path (group op cs) r = (.ok q, t)) :
    ∃ word qs, op.group? = some word ∧
      compileEach cat s limit (depth + 1) path cs r = (.ok qs, t) ∧
      q = dict [(str word, list qs)] := by
  rw [compileAt] at h
  obtain ⟨_, _, h⟩ := liftExcept_bind_eq_ok h
  cases hw : op.group? with
  | none =>
    rw [hw] at h
    cases h
  | some word =>
    rw [hw] at h
    obtain ⟨qs, u, hv, hq⟩ := bind_eq_ok_iff.mp h
    cases hq
    exact ⟨word, qs, rfl, hv, rfl⟩

theorem not_compileAt_foreign {v : Value} {untagged : v.filterKind? = none} :
    ¬ compileAt cat s limit depth path (foreign v untagged) r = (.ok q, t) := by
  intro h
  rw [compileAt] at h
  obtain ⟨_, _, h⟩ := liftExcept_bind_eq_ok h
  cases h

theorem compileEach_cons {c : Filter} {cs : List Filter} {qs : List Value}
    (h : compileEach cat s limit depth path (c :: cs) r = (.ok qs, t)) :
    ∃ q rest u, compileAt cat s limit depth path c r = (.ok q, u) ∧
      compileEach cat s limit depth path cs u = (.ok rest, t) ∧ qs = q :: rest := by
  rw [compileEach] at h
  obtain ⟨q, u, hq, h⟩ := bind_eq_ok_iff.mp h
  obtain ⟨rest, u', hr, h⟩ := bind_eq_ok_iff.mp h
  cases h
  exact ⟨q, rest, u, hq, hr, rfl⟩

theorem compileEach_ne_nil {cs : List Filter} {qs : List Value} (hne : cs ≠ [])
    (h : compileEach cat s limit depth path cs r = (.ok qs, t)) : qs ≠ [] := by
  cases cs with
  | nil => exact absurd rfl hne
  | cons c cs =>
    obtain ⟨q, rest, u, _, _, rfl⟩ := compileEach_cons h
    simp

mutual

theorem compileAt_dict (f : Filter) : ∀ {depth path r t q},
    compileAt cat s limit depth path f r = (.ok q, t) → ∃ p, q = dict [p] := by
  intro depth path r t q h
  cases f with
  | field f op v =>
    obtain ⟨word, w, _, _, rfl⟩ := compileAt_field h
    exact ⟨_, rfl⟩
  | sub f c => exact compileAt_dict c (compileAt_sub h)
  | group op cs =>
    obtain ⟨word, qs, _, _, rfl⟩ := compileAt_group h
    exact ⟨_, rfl⟩
  | posing k v tagged cs =>
    cases k with
    | comparison =>
      rw [compileAt] at h
      obtain ⟨_, _, h⟩ := liftExcept_bind_eq_ok h
      obtain ⟨⟨name, op⟩, _, h⟩ := liftExcept_bind_eq_ok h
      dsimp only at h
      split at h
      · obtain ⟨qs, u, hqs, h⟩ := bind_eq_ok_iff.mp h
        split at h
        · cases h
          exact compileEach_dict cs hqs q (List.mem_singleton_self q)
        · cases h
      · obtain ⟨x, _, h⟩ := liftExcept_bind_eq_ok h
        obtain ⟨word, w, _, _, rfl⟩ := compileField_dict h
        exact ⟨_, rfl⟩
    | connective =>
      rw [compileAt] at h
      obtain ⟨_, _, h⟩ := liftExcept_bind_eq_ok h
      obtain ⟨word, _, h⟩ := liftExcept_bind_eq_ok h
      obtain ⟨qs, u, _, h⟩ := bind_eq_ok_iff.mp h
      cases h
      exact ⟨_, rfl⟩
  | foreign v untagged => exact absurd h not_compileAt_foreign
termination_by structural f

theorem compileEach_dict (cs : List Filter) : ∀ {depth path r t qs},
    compileEach cat s limit depth path cs r = (.ok qs, t) → ∀ q ∈ qs, ∃ p, q = dict [p] := by
  intro depth path r t qs h
  cases cs with
  | nil =>
    cases h
    simp
  | cons c cs =>
    obtain ⟨q, rest, u, hq, hrest, rfl⟩ := compileEach_cons h
    exact List.forall_mem_cons.mpr ⟨compileAt_dict c hq, compileEach_dict cs hrest⟩
termination_by structural cs

end

theorem compileEach_dicts {cs : List Filter} {qs : List Value}
    (h : compileEach cat s limit depth path cs r = (.ok qs, t)) : ∀ q ∈ qs, ∃ ps, q = dict ps := by
  intro q hq
  obtain ⟨p, hp⟩ := compileEach_dict cs h q hq
  exact ⟨[p], hp⟩

end Filter

end DocStore
