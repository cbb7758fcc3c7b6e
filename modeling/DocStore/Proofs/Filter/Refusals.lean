import DocStore.Proofs.Filter.Meaning
import DocStore.Proofs.Value.SortOrder

/-! When compiling a filter fails, and with what. Its nodes are looked at one after the other, each
before those inside it, and the first one that cannot be compiled decides. -/

namespace DocStore

open Value

namespace Operator

/-- The operators that compare the value of a field. -/
def comparisons : List Operator :=
  [equal, notEqual, lessThan, greaterThan, lessOrEqual, greaterOrEqual, present, regex, oneOf]

theorem condition?_eq_none_iff {op : Operator} : op.condition? = none ↔ op ∉ comparisons := by
  cases op <;> simp [condition?, comparisons]

theorem group?_eq_none_iff {op : Operator} : op.group? = none ↔ op ≠ all ∧ op ≠ any := by
  cases op <;> simp [group?]

end Operator

/-- The error that work ended with, if it failed. -/
def failure? {α : Type} : Except Error α → Option Error
  | .ok _ => none
  | .error e => some e

theorem failure?_eq_none_iff {α : Type} {x : Except Error α} :
    failure? x = none ↔ ∃ a, x = .ok a := by
  cases x <;> simp [failure?]

theorem failure?_eq_some_iff {α : Type} {x : Except Error α} {e : Error} :
    failure? x = some e ↔ x = .error e := by
  cases x <;> simp [failure?]

/-- Work that fails with the fault, or succeeds if there is none, under a registry and under all
that this one grows into. -/
def Ends (cat : Catalog) (r₀ : Registry) {α : Type} (x : Naming α) (fault : Option Error) : Prop :=
  ∀ r, Registry.Grown cat r₀ r → failure? (x r).1 = fault

namespace Ends

variable {cat : Catalog} {r₀ : Registry} {α β : Type}

theorem pure (a : α) : Ends cat r₀ (Pure.pure a : Naming α) none := fun _ _ => rfl

theorem throw (e : Error) : Ends cat r₀ (MonadExcept.throw e : Naming α) (some e) := fun _ _ => rfl

theorem lift (a : Except Error α) : Ends cat r₀ (liftExcept a : Naming α) (failure? a) := by
  intro r _
  rw [run_liftExcept]

/-- What fails first decides. -/
theorem bind {x : Naming α} {f : α → Naming β} {p q : Option Error} (hx : Ends cat r₀ x p)
    (steady : Steady cat x) (hf : ∀ a, Ends cat r₀ (f a) q) : Ends cat r₀ (x >>= f) (p.or q) := by
  intro r hg
  have hp := hx r hg
  rcases hr : x r with ⟨e | a, t⟩
  · rw [bind_of_error hr, ← hp, hr]
    rfl
  · rw [bind_of_ok hr, ← hp, hr]
    exact hf a t (hg.trans (steady.grows hr))

/-- What is made of a result once it is there makes no difference. -/
theorem bind_pure {x : Naming α} {p : Option Error} (hx : Ends cat r₀ x p) (steady : Steady cat x)
    (f : α → β) : Ends cat r₀ (x >>= fun a => Pure.pure (f a)) p := by
  rw [← Option.or_none (o := p)]
  exact hx.bind steady fun a => .pure (f a)

/-- Work that succeeds under a registry does so under all that this one grows into. -/
theorem of_steady {x : Naming α} {a : α} {t : Registry} (steady : Steady cat x)
    (h : x r₀ = (.ok a, t)) : Ends cat r₀ x none := by
  intro r hg
  obtain ⟨t', ha, _⟩ := steady.onward hg h
  rw [ha]
  rfl

theorem ok_iff {x : Naming α} {fault : Option Error} (h : Ends cat r₀ x fault) :
    (∃ a t, x r₀ = (.ok a, t)) ↔ fault = none := by
  rw [← h r₀ (.refl cat r₀), failure?_eq_none_iff]
  exact exists_congr fun a => ⟨fun ⟨t, ht⟩ => by rw [ht], fun ha => ⟨(x r₀).2, Prod.ext ha rfl⟩⟩

theorem error_iff {x : Naming α} {fault : Option Error} (h : Ends cat r₀ x fault) (e : Error) :
    (∃ t, x r₀ = (.error e, t)) ↔ fault = some e := by
  rw [← h r₀ (.refl cat r₀), failure?_eq_some_iff]
  exact ⟨fun ⟨t, ht⟩ => by rw [ht], fun he => ⟨(x r₀).2, Prod.ext he rfl⟩⟩

end Ends

namespace Filter

/-- A node of a filter with its depth, the whole filter being at depth one. -/
structure Visit where
  depth : Nat
  node : Filter

mutual

/-- The nodes of a filter from left to right, each before those inside it. -/
def visits (depth : Nat) : Filter → List Visit
  | field f op v => [⟨depth, field f op v⟩]
  | sub f c => ⟨depth, sub f c⟩ :: visits (depth + 1) c
  | group op cs => ⟨depth, group op cs⟩ :: visitsEach (depth + 1) cs
  | posing k v tagged cs => ⟨depth, posing k v tagged cs⟩ :: visitsEach (depth + 1) cs
  | foreign v untagged => [⟨depth, foreign v untagged⟩]
termination_by structural x => x

def visitsEach (depth : Nat) : List Filter → List Visit
  | [] => []
  | c :: cs => visits depth c ++ visitsEach depth cs
termination_by structural x => x

end

theorem visited_cons {depth : Nat} {f g : Filter} {rest : List Visit} :
    (∃ d, Visit.mk d g ∈ Visit.mk depth f :: rest) ↔ g = f ∨ ∃ d, Visit.mk d g ∈ rest := by
  simp [exists_or]

mutual

/-- What is visited is what stands somewhere in a filter. -/
theorem visited_iff {g : Filter} (f : Filter) :
    ∀ depth, (∃ d, Visit.mk d g ∈ visits depth f) ↔ Within g f := by
  intro depth
  cases f with
  | sub f c =>
    rw [visits, visited_cons, visited_iff c]
    constructor
    · rintro (rfl | h)
      · exact .here _
      · exact .sub f h
    · rintro (_ | ⟨_, h⟩)
      · exact .inl rfl
      · exact .inr h
  | group op cs =>
    rw [visits, visited_cons, visitedEach_iff cs]
    constructor
    · rintro (rfl | ⟨c, hc, h⟩)
      · exact .here _
      · exact .group op hc h
    · rintro (_ | _ | ⟨_, hc, h⟩)
      · exact .inl rfl
      · exact .inr ⟨_, hc, h⟩
  | posing k v tagged cs =>
    rw [visits, visited_cons, visitedEach_iff cs]
    constructor
    · rintro (rfl | ⟨c, hc, h⟩)
      · exact .here _
      · exact .posing tagged hc h
    · rintro (_ | _ | _ | ⟨_, hc, h⟩)
      · exact .inl rfl
      · exact .inr ⟨_, hc, h⟩
  | _ =>
    rw [visits, visited_cons]
    constructor
    · rintro (rfl | ⟨_, h⟩)
      · exact .here _
      · cases h
    · rintro ⟨⟩
      exact .inl rfl
termination_by structural f

theorem visitedEach_iff {g : Filter} (cs : List Filter) :
    ∀ depth, (∃ d, Visit.mk d g ∈ visitsEach depth cs) ↔ ∃ c ∈ cs, Within g c := by
  intro depth
  cases cs with
  | nil => simp [visitsEach]
  | cons c cs =>
    rw [visitsEach, List.exists_mem_cons_iff, ← visited_iff c depth, ← visitedEach_iff cs depth,
      ← exists_or]
    exact exists_congr fun d => List.mem_append
termination_by structural cs

end

/-- A node that cannot be compiled, with the error. That it is too deep counts before anything else
about it. What is in the place of an operator is named, unless it cannot even be looked up. -/
inductive Offends (limit : Int) : Visit → Error → Prop
  | deep {d : Nat} {f : Filter} (h : limit < d) : Offends limit ⟨d, f⟩ (.depth (int limit))
  | foreign {d : Nat} {v : Value} {untagged : v.filterKind? = none} (h : d ≤ limit) :
    Offends limit ⟨d, .foreign v untagged⟩ (.variant v.typeName)
  | field {d : Nat} {f : Field} {op : Operator} {v : Value} (h : d ≤ limit)
    (hop : op ∉ Operator.comparisons) (hkey : op.toValue.hashable = true) :
    Offends limit ⟨d, .field f op v⟩ (.unsupported op.toValue "FieldFilter")
  | group {d : Nat} {op : Operator} {cs : List Filter} (h : d ≤ limit)
    (hop : op ≠ .all ∧ op ≠ .any) (hkey : op.toValue.hashable = true) :
    Offends limit ⟨d, .group op cs⟩ (.unsupported op.toValue "SubFilter")
  | fieldKey {d : Nat} {f : Field} {op : Operator} {v : Value} (h : d ≤ limit)
    (hkey : op.toValue.hashable = false) : Offends limit ⟨d, .field f op v⟩ .kind
  | groupKey {d : Nat} {op : Operator} {cs : List Filter} (h : d ≤ limit)
    (hkey : op.toValue.hashable = false) : Offends limit ⟨d, .group op cs⟩ .kind
  | pattern {d : Nat} {f : Field} {source : String} {e : Error} (h : d ≤ limit)
    (hp : Pattern.compiled Regex.Options.none (.text source) = .error e) :
    Offends limit ⟨d, .field f .regex (str source)⟩ e

def operandFault? : Operator → Value → Option Error
  | .regex, str source => failure? (Pattern.compiled Regex.Options.none (.text source))
  | _, _ => none

/-- What is wrong with a node apart from its depth. -/
def fault? : Filter → Option Error
  | field _ op v =>
    match op.condition? with
    | none => some (op.refused "FieldFilter")
    | some _ => operandFault? op v
  | sub _ _ => none
  | group op _ =>
    match op.group? with
    | none => some (op.refused "SubFilter")
    | some _ => none
  | posing .. => none
  | foreign v _ => some (.variant v.typeName)

def deep? (limit : Int) (depth : Nat) : Option Error :=
  if limit < depth then some (.depth (int limit)) else none

def Visit.fault? (limit : Int) (v : Visit) : Option Error :=
  (deep? limit v.depth).or v.node.fault?

theorem operandFault?_eq_some {op : Operator} {v : Value} {e : Error}
    (h : operandFault? op v = some e) : op = .regex ∧ ∃ source, v = str source ∧
      Pattern.compiled Regex.Options.none (.text source) = .error e := by
  unfold operandFault? at h
  split at h
  · exact ⟨rfl, _, rfl, failure?_eq_some_iff.mp h⟩
  · cases h

theorem offends_of_fault {limit : Int} {d : Nat} {f : Filter} {e : Error} (hd : d ≤ limit)
    (h : f.fault? = some e) : Offends limit ⟨d, f⟩ e := by
  cases f with
  | field f op v =>
    cases hop : op.condition? with
    | none =>
      obtain rfl : op.refused "FieldFilter" = e := by simpa [fault?, hop] using h
      rw [Operator.refused]
      split
      · next hkey => exact .field hd (Operator.condition?_eq_none_iff.mp hop) hkey
      · next hkey => exact .fieldKey hd (Bool.not_eq_true _ ▸ hkey)
    | some word =>
      rw [fault?, hop] at h
      obtain ⟨rfl, source, rfl, hp⟩ := operandFault?_eq_some h
      exact .pattern hd hp
  | sub f c => cases h
  | group op cs =>
    cases hop : op.group? with
    | none =>
      obtain rfl : op.refused "SubFilter" = e := by simpa [fault?, hop] using h
      rw [Operator.refused]
      split
      · next hkey => exact .group hd (Operator.group?_eq_none_iff.mp hop) hkey
      · next hkey => exact .groupKey hd (Bool.not_eq_true _ ▸ hkey)
    | some word => simp [fault?, hop] at h
  | posing k v tagged cs => cases h
  | foreign v untagged =>
    cases h
    exact .foreign hd

/-- What cannot be looked up is in neither table of operators. -/
theorem not_native_of_unhashable {op : Operator} (h : op.toValue.hashable = false) :
    op.condition? = none ∧ op.group? = none := by
  cases op with
  | other v => exact ⟨rfl, rfl⟩
  | _ => cases h

theorem offends_iff {limit : Int} {v : Visit} {e : Error} :
    Offends limit v e ↔ v.fault? limit = some e := by
  obtain ⟨d, f⟩ := v
  unfold Visit.fault? deep?
  by_cases hd : limit < d
  · rw [if_pos hd, Option.some_or, Option.some.injEq]
    constructor
    · rintro (_ | h | h | h | h | h | h) <;> first | rfl | omega
    · rintro rfl
      exact .deep hd
  · rw [if_neg hd, Option.none_or]
    constructor
    · rintro (h | _ | ⟨_, hop, hkey⟩ | ⟨_, hop, hkey⟩ | ⟨_, hkey⟩ | ⟨_, hkey⟩ | ⟨_, hp⟩)
      · exact absurd h hd
      · rfl
      · simp [fault?, Operator.condition?_eq_none_iff.mpr hop, Operator.refused, hkey]
      · simp [fault?, Operator.group?_eq_none_iff.mpr hop, Operator.refused, hkey]
      · simp [fault?, (not_native_of_unhashable hkey).1, Operator.refused, hkey]
      · simp [fault?, (not_native_of_unhashable hkey).2, Operator.refused, hkey]
      · exact failure?_eq_some_iff.mpr hp
    · exact offends_of_fault (by omega)

variable {cat : Catalog} {s : Schema} {r₀ : Registry} {limit : Int}

theorem checkDepth_failure (limit : Int) (depth : Nat) :
    failure? (checkDepth (int limit) depth) = deep? limit depth := by
  have hgt : Relation.gt.holds (Ord.compare (depth : Int) limit) = decide (limit < depth) := by
    rw [Relation.holds, Bool.eq_iff_iff, beq_iff_eq, decide_eq_true_iff, compare_gt_iff_gt]
  rw [checkDepth, related_int, hgt, deep?]
  by_cases h : limit < depth
  · simp [h, failure?]
  · simp [h, failure?]

/-- Apart from patterns, operands are kept as any values are. -/
theorem operand_eq {op : Operator} (hop : op ≠ .regex) (v : Value) :
    operand cat s op v = Codec.toValue cat s v := by
  unfold operand
  split
  · rw [map_eq_bind, Codec.toValue]
  · exact absurd rfl hop
  · exact absurd rfl hop
  · rfl

theorem operand_ends {fld : Field} {op : Operator} {v w : Value} {t : Registry}
    (hmade : compare fld op v = .ok (field fld op v)) (hv : Codec.toValue cat s v r₀ = (.ok w, t)) :
    Ends cat r₀ (operand cat s op v) (operandFault? op v) := by
  by_cases hop : op = .regex
  · subst hop
    rcases pattern_of_made hmade with ⟨source, rfl⟩ | ⟨p, rfl⟩
    · have hw : Codec.toValue cat s (str source) = pure (str source) := rfl
      rw [operand_regex_eq (by simp), hw, pure_bind, operandFault?]
      exact (Ends.lift _).bind_pure (.lift _) _
    · exact .pure _
  · have hnone : operandFault? op v = none := by
      rw [operandFault?]
      simp [hop]
    rw [operand_eq hop, hnone]
    exact .of_steady (Codec.toValue_steady cat s v) hv

theorem compileField_ends {name : String} {fld : Field} {op : Operator} {v w : Value} {t : Registry}
    (hmade : compare fld op v = .ok (field fld op v)) (hv : Codec.toValue cat s v r₀ = (.ok w, t)) :
    Ends cat r₀ (compileField cat s name op v) (field fld op v).fault? := by
  rw [compileField, fault?]
  cases op.condition? with
  | none => exact .throw _
  | some word => exact (operand_ends hmade hv).bind_pure (operand_steady cat s op v) _

/-- What compiling a filter requires of its nodes: nothing poses as a filter that is none, and the
comparisons were made by the constructors, with values that can be written. -/
structure Writable (cat : Catalog) (s : Schema) (r₀ : Registry) (f : Filter) : Prop where
  genuine : f.Genuine
  made : ∀ {fld op v}, Within (field fld op v) f → compare fld op v = .ok (field fld op v)
  written : ∀ {fld op v}, Within (field fld op v) f → ∃ w t, Codec.toValue cat s v r₀ = (.ok w, t)

theorem Writable.of_within {f g : Filter} (h : Writable cat s r₀ f)
    (hw : ∀ {c}, Within c g → Within c f) : Writable cat s r₀ g where
  genuine := h.genuine.of_within hw
  made hg := h.made (hw hg)
  written hg := h.written (hw hg)

theorem findSome?_visits (depth : Nat) (f : Filter) (rest : List Visit) :
    (Visit.mk depth f :: rest).findSome? (Visit.fault? limit) =
      ((deep? limit depth).or f.fault?).or (rest.findSome? (Visit.fault? limit)) := by
  rw [List.findSome?_cons, Visit.fault?]
  cases (deep? limit depth).or f.fault? <;> rfl

mutual

theorem compileAt_ends (f : Filter) : ∀ {depth path}, Writable cat s r₀ f →
    Ends cat r₀ (compileAt cat s (int limit) depth path f)
      ((visits depth f).findSome? (Visit.fault? limit)) := by
  intro depth path h
  have hcheck : Ends cat r₀ (liftExcept (checkDepth (int limit) depth)) (deep? limit depth) := by
    rw [← checkDepth_failure]
    exact .lift _
  cases f with
  | field fld op v =>
    obtain ⟨w, t, hv⟩ := h.written (.here _)
    rw [compileAt, visits, findSome?_visits, List.findSome?_nil, Option.or_none]
    exact hcheck.bind (.lift _) fun _ => compileField_ends (h.made (.here _)) hv
  | sub fld c =>
    rw [compileAt, visits, findSome?_visits, fault?, Option.or_none]
    exact hcheck.bind (.lift _) fun _ => compileAt_ends c (h.of_within (.sub fld))
  | group op cs =>
    rw [compileAt, visits, findSome?_visits, Option.or_assoc, fault?]
    refine hcheck.bind (.lift _) fun _ => ?_
    cases op.group? with
    | none => exact .throw _
    | some word =>
      exact (compileEach_ends cs fun c hc => h.of_within (.group op hc)).bind_pure
        (compileEach_steady cat s _ cs _ _) _
  | posing k v tagged cs => exact absurd (.here _) h.genuine.not_posing
  | foreign v untagged =>
    rw [compileAt, visits, findSome?_visits, List.findSome?_nil, Option.or_none]
    exact hcheck.bind (.lift _) fun _ => .throw _
termination_by structural f

theorem compileEach_ends (cs : List Filter) : ∀ {depth path}, (∀ c ∈ cs, Writable cat s r₀ c) →
    Ends cat r₀ (compileEach cat s (int limit) depth path cs)
      ((visitsEach depth cs).findSome? (Visit.fault? limit)) := by
  intro depth path h
  cases cs with
  | nil => exact .pure []
  | cons c cs =>
    rw [compileEach, visitsEach, List.findSome?_append]
    exact (compileAt_ends c (h c (by simp))).bind (compileAt_steady cat s _ c _ _) fun _ =>
      (compileEach_ends cs fun d hd => h d (by simp [hd])).bind_pure
        (compileEach_steady cat s _ cs _ _) _
termination_by structural cs

end

/-- A node that can be compiled where it stands. -/
structure Visit.Compiles (limit : Int) (v : Visit) : Prop where
  shallow : v.depth ≤ limit
  native : ∀ {x untagged}, v.node ≠ foreign x untagged
  comparison : ∀ {fld op x}, v.node = field fld op x → op ∈ Operator.comparisons
  connective : ∀ {op cs}, v.node = group op cs → op = .all ∨ op = .any
  readable : ∀ {fld source}, v.node = field fld .regex (str source) →
    ∃ p, Pattern.compiled Regex.Options.none (.text source) = .ok p

theorem Visit.Compiles.not_offends {limit : Int} {v : Visit} {e : Error} (h : v.Compiles limit) :
    ¬ Offends limit v e := by
  intro he
  cases he with
  | deep hd => exact absurd h.shallow (not_le_of_gt hd)
  | foreign _ => exact h.native rfl
  | field _ hop _ => exact hop (h.comparison rfl)
  | group _ hop _ => exact (h.connective rfl).elim hop.1 hop.2
  | fieldKey _ hkey =>
    exact Operator.condition?_eq_none_iff.mp (not_native_of_unhashable hkey).1 (h.comparison rfl)
  | groupKey _ hkey =>
    obtain ⟨hall, hany⟩ := Operator.group?_eq_none_iff.mp (not_native_of_unhashable hkey).2
    exact (h.connective rfl).elim hall hany
  | pattern _ hp =>
    obtain ⟨p, hs⟩ := h.readable rfl
    rw [hp] at hs
    cases hs

theorem Visit.compiles_of_not_offends {limit : Int} {v : Visit} (h : ∀ e, ¬ Offends limit v e) :
    v.Compiles limit := by
  obtain ⟨d, f⟩ := v
  have hd : (d : Int) ≤ limit := le_of_not_gt fun hd => h _ (.deep hd)
  constructor
  · exact hd
  · rintro x untagged rfl
    exact h _ (.foreign hd)
  · rintro fld op x rfl
    have hkey : op.toValue.hashable = true :=
      Bool.not_eq_false _ ▸ fun hkey => h _ (.fieldKey hd hkey)
    exact Classical.not_not.mp fun hop => h _ (.field hd hop hkey)
  · rintro op cs rfl
    have hkey : op.toValue.hashable = true :=
      Bool.not_eq_false _ ▸ fun hkey => h _ (.groupKey hd hkey)
    by_cases hop : op = .all
    · exact .inl hop
    · exact .inr (Classical.not_not.mp fun hop' => h _ (.group hd ⟨hop, hop'⟩ hkey))
  · rintro fld source rfl
    cases hp : Pattern.compiled Regex.Options.none (.text source) with
    | ok p => exact ⟨p, rfl⟩
    | error e => exact absurd (.pattern hd hp) (h e)

theorem Visit.fault?_eq_none_iff {limit : Int} {v : Visit} :
    v.fault? limit = none ↔ v.Compiles limit := by
  rw [Option.eq_none_iff_forall_ne_some]
  constructor
  · exact fun h => compiles_of_not_offends fun e he => h e (offends_iff.mp he)
  · exact fun h e he => h.not_offends (offends_iff.mpr he)

/-- A filter in which nothing only poses as one, whose comparisons were made by the constructors and
whose values can be written, is compiled exactly if all its nodes can be. Otherwise the error is
that of the first node that cannot be compiled. -/
theorem compile_refusal {f : Filter} (path : String) (limit : Int) (h : Writable cat s r₀ f) :
    ((∃ q t, compile cat s (int limit) path f r₀ = (.ok q, t)) ↔
        ∀ v ∈ visits 1 f, v.Compiles limit) ∧
      ∀ e, (∃ t, compile cat s (int limit) path f r₀ = (.error e, t)) ↔
        ∃ before v after, visits 1 f = before ++ v :: after ∧ (∀ u ∈ before, u.Compiles limit) ∧
          Offends limit v e := by
  have hends : Ends cat r₀ (compile cat s (int limit) path f)
      ((visits 1 f).findSome? (Visit.fault? limit)) := compileAt_ends f h
  constructor
  · rw [hends.ok_iff, List.findSome?_eq_none_iff]
    exact forall₂_congr fun v _ => Visit.fault?_eq_none_iff
  · intro e
    rw [hends.error_iff, List.findSome?_eq_some_iff]
    constructor
    · rintro ⟨before, v, after, hsplit, he, hb⟩
      exact ⟨before, v, after, hsplit, fun u hu => Visit.fault?_eq_none_iff.mp (hb u hu),
        offends_iff.mpr he⟩
    · rintro ⟨before, v, after, hsplit, hb, he⟩
      exact ⟨before, v, after, hsplit, offends_iff.mp he,
        fun u hu => Visit.fault?_eq_none_iff.mpr (hb u hu)⟩

/-- A group in which an unknown operator stands deeper than a value that is no filter. -/
def unknownComparison : Filter :=
  .group .all [
    .field ⟨"place", .object, by decide⟩ .equal (str "Rome"),
    .sub ⟨"house", .object, by decide⟩
      (.field ⟨"floor", .object, by decide⟩ (.other (str "between")) (int 1)),
    .foreign (int 3) rfl]

theorem unknownComparison_genuine : unknownComparison.Genuine := by
  refine .group _ fun c hc => ?_
  simp only [List.mem_cons, List.not_mem_nil, or_false] at hc
  rcases hc with rfl | rfl | rfl
  · exact .field ..
  · exact .sub _ (.field ..)
  · exact .foreign ..

theorem unknownComparison_writable :
    Writable Models.catalog Schema.standard .empty unknownComparison where
  genuine := unknownComparison_genuine
  made h := by
    obtain ⟨d, hd⟩ := (visited_iff _ 1).mpr h
    simp [unknownComparison, visits, visitsEach] at hd
    rcases hd with ⟨_, rfl, rfl, rfl⟩ | ⟨_, rfl, rfl, rfl⟩ <;> rfl
  written h := by
    obtain ⟨d, hd⟩ := (visited_iff _ 1).mpr h
    simp [unknownComparison, visits, visitsEach] at hd
    rcases hd with ⟨_, rfl, rfl, rfl⟩ | ⟨_, rfl, rfl, rfl⟩ <;> exact ⟨_, _, rfl⟩

/-- Where there is room for it the unknown operator is named, and where there is not, the depth. -/
theorem compile_unknownComparison :
    (∃ t, compile Models.catalog .standard (int 3) "" unknownComparison .empty =
        (.error (.unsupported (str "between") "FieldFilter"), t)) ∧
      ∃ t, compile Models.catalog .standard (int 2) "" unknownComparison .empty =
        (.error (.depth (int 2)), t) := by
  have hbefore (limit : Int) (hl : 2 ≤ limit) :
      ∀ u ∈ (visits 1 unknownComparison).take 3, u.Compiles limit := by
    intro u hu
    rw [← Visit.fault?_eq_none_iff]
    simp only [unknownComparison, visits, visitsEach, List.cons_append, List.nil_append,
      List.take_succ_cons, List.take_zero, List.mem_cons, List.not_mem_nil, or_false] at hu
    rcases hu with rfl | rfl | rfl <;>
      simp [Visit.fault?, deep?, fault?, operandFault?, Operator.condition?, Operator.group?] <;>
      omega
  constructor
  · refine ((compile_refusal "" 3 unknownComparison_writable).2 _).mpr
      ⟨_, _, _, (List.take_append_drop 3 _).symm, hbefore 3 (by decide), ?_⟩
    exact .field (by decide) (by decide) rfl
  · refine ((compile_refusal "" 2 unknownComparison_writable).2 _).mpr
      ⟨_, _, _, (List.take_append_drop 3 _).symm, hbefore 2 (by decide), ?_⟩
    exact .deep (by decide)

/-- An object that is no filter, but says of itself that it is a comparison. -/
def badge : Value := record "Badge" [(str "kind", str "field")]

/-- Not every refusal is one of depth, of a value that is no filter, of an operator by its name or
of a pattern: an operator that cannot be looked up, and an object with only the tag of a comparison,
are refused as values of the wrong kind. -/
theorem refusal_unnamed :
    (¬ ∀ (f : Filter) (e : Error) (t : Registry),
      compile Models.catalog .standard (int 32) "" f .empty = (.error e, t) →
        (∃ m, e = .depth m) ∨ (∃ n, e = .variant n) ∨ (∃ op n, e = .unsupported op n) ∨
          e = .pattern) ∧
      ∃ t, compile Models.catalog .standard (int 32) "" (.group .all [ofValue badge]) .empty =
        (.error .kind, t) := by
  refine ⟨fun hall => ?_, ⟨_, rfl⟩⟩
  rcases hall (.group (.other (list [str "and"])) []) _ _ rfl with ⟨_, h⟩ | ⟨_, h⟩ | ⟨_, _, h⟩ | h
  all_goals cases h

end Filter

end DocStore
