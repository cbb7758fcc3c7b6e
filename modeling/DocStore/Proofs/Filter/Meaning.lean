import DocStore.Catalog.Models
import DocStore.Proofs.Filter.Compile
import DocStore.Proofs.Query.Match

/-! The meaning of a filter, read off its tree, and that the query it compiles to is answered by
just this meaning. A pattern over bytes has no answer where there is a text to be searched; the
query then fails, if its groups get as far as that. -/

namespace DocStore

open Value

/-- A value as the codec stores it under a registry. -/
def Codec.stored (cat : Catalog) (s : Schema) (r : Registry) (v : Value) : Value :=
  (Codec.toValue cat s v r).1.toOption.getD null

/-- The pattern that a stored operand asks for. -/
def patternSought? : Value → Option Pattern
  | pattern p => some p
  | v => v.source?.bind fun source => (Pattern.compile Regex.Options.none source).toOption

/-- A comparison of what stands at a path of a document with a stored operand. -/
def Operator.HoldsAt (d : Value) (path : String) (x : Value) : Operator → Prop
  | .equal => EqualAt d path x
  | .notEqual => ¬ EqualAt d path x
  | .lessThan => RelatedAt .lt d path x
  | .greaterThan => RelatedAt .gt d path x
  | .lessOrEqual => RelatedAt .le d path x
  | .greaterOrEqual => RelatedAt .ge d path x
  | .present => ∃ b, x = bool b ∧ (b = true ↔ Present d path)
  | .oneOf => ∃ xs, x = list xs ∧ ∃ y ∈ xs, EqualAt d path y
  | .regex => ∃ p, patternSought? x = some p ∧ FoundAt p d path
  | _ => False

/-- A comparison cannot be made of what stands at a path of a document with a stored operand. -/
def Operator.BalksAt (d : Value) (path : String) (x : Value) : Operator → Prop
  | .regex => ∃ p, patternSought? x = some p ∧ DocStore.BalksAt p d path
  | _ => False

namespace Filter

mutual

/-- What a filter says of a document under a path; `stored` is how the codec keeps operands. -/
def Holds (stored : Value → Value) (d : Value) (path : String) : Filter → Prop
  | field f op v => op.HoldsAt d (path ++ f.name) (stored v)
  | sub f c => Holds stored d (path ++ f.name ++ ".") c
  | group op cs =>
    match op with
    | .all => HoldsAll stored d path cs
    | .any => HoldsSome stored d path cs
    | _ => False
  | posing .. => False
  | foreign .. => False
termination_by structural x => x

def HoldsAll (stored : Value → Value) (d : Value) (path : String) : List Filter → Prop
  | [] => True
  | c :: cs => Holds stored d path c ∧ HoldsAll stored d path cs
termination_by structural x => x

def HoldsSome (stored : Value → Value) (d : Value) (path : String) : List Filter → Prop
  | [] => False
  | c :: cs => Holds stored d path c ∨ HoldsSome stored d path cs
termination_by structural x => x

end

mutual

/-- A filter comes to a comparison that cannot be made. Those of a group are looked at in their
order, until one decides. -/
def Balks (stored : Value → Value) (d : Value) (path : String) : Filter → Prop
  | field f op v => op.BalksAt d (path ++ f.name) (stored v)
  | sub f c => Balks stored d (path ++ f.name ++ ".") c
  | group op cs =>
    match op with
    | .all => BalksAll stored d path cs
    | .any => BalksSome stored d path cs
    | _ => False
  | posing .. => False
  | foreign .. => False
termination_by structural x => x

def BalksAll (stored : Value → Value) (d : Value) (path : String) : List Filter → Prop
  | [] => False
  | c :: cs => Balks stored d path c ∨ (Holds stored d path c ∧ BalksAll stored d path cs)
termination_by structural x => x

def BalksSome (stored : Value → Value) (d : Value) (path : String) : List Filter → Prop
  | [] => False
  | c :: cs => Balks stored d path c ∨ (¬ Holds stored d path c ∧ BalksSome stored d path cs)
termination_by structural x => x

end

/-- A filter as the constructors make it, without empty groups and with paths whose numbers can be
read. -/
structure WellFormed (f : Filter) : Prop where
  genuine : f.Genuine
  made : ∀ {fld op v}, Within (field fld op v) f → compare fld op v = .ok (field fld op v)
  grouped : ∀ {op}, ¬ Within (group op []) f
  readable : ∀ {fld op v}, Within (field fld op v) f → Readable fld.name
  readableSub : ∀ {fld c}, Within (sub fld c) f → Readable fld.name

theorem WellFormed.of_within {f g : Filter} (h : WellFormed f)
    (hw : ∀ {c}, Within c g → Within c f) : WellFormed g where
  genuine := h.genuine.of_within hw
  made hg := h.made (hw hg)
  grouped hg := h.grouped (hw hg)
  readable hg := h.readable (hw hg)
  readableSub hg := h.readableSub (hw hg)

theorem WellFormed.sub {f : Field} {c : Filter} (h : WellFormed (sub f c)) : WellFormed c :=
  h.of_within (.sub f)

theorem WellFormed.child {op : Operator} {c : Filter} {cs : List Filter}
    (h : WellFormed (group op cs)) (hc : c ∈ cs) : WellFormed c :=
  h.of_within (.group op hc)

theorem WellFormed.of_field {fld : Field} {op : Operator} {v : Value}
    (hm : compare fld op v = .ok (field fld op v)) (hr : Readable fld.name) :
    WellFormed (field fld op v) where
  genuine := .field fld op v
  made h := by cases h; exact hm
  grouped h := by cases h
  readable h := by cases h; exact hr
  readableSub h := by cases h

theorem WellFormed.of_sub {fld : Field} {c : Filter} (hr : Readable fld.name)
    (hc : c.WellFormed) : WellFormed (.sub fld c) where
  genuine := hc.genuine.sub fld
  made h := by cases h with | sub _ h => exact hc.made h
  grouped h := by cases h with | sub _ h => exact hc.grouped h
  readable h := by cases h with | sub _ h => exact hc.readable h
  readableSub h := by
    cases h with
    | here => exact hr
    | sub _ h => exact hc.readableSub h

theorem WellFormed.of_group {op : Operator} {cs : List Filter} (hne : cs ≠ [])
    (hcs : ∀ c ∈ cs, c.WellFormed) : WellFormed (group op cs) where
  genuine := .group op fun c hc => (hcs c hc).genuine
  made h := by cases h with | group _ hc h => exact (hcs _ hc).made h
  grouped h := by
    cases h with
    | here => exact hne rfl
    | group _ hc h => exact (hcs _ hc).grouped h
  readable h := by cases h with | group _ hc h => exact (hcs _ hc).readable h
  readableSub h := by cases h with | group _ hc h => exact (hcs _ hc).readableSub h

theorem members_of_made {fld : Field} {v : Value}
    (h : compare fld .oneOf v = .ok (field fld .oneOf v)) : ∃ xs, v = tuple xs := by
  simp only [compare] at h
  cases hm : members? v with
  | none => simp [hm] at h
  | some xs =>
    cases hc : checkValues fld xs with
    | error e => simp [hm, hc, Except.map] at h
    | ok u =>
      have he : tuple xs = v := by simpa [hm, hc, Except.map] using h
      exact ⟨xs, he.symm⟩

theorem bool_of_made {fld : Field} {v : Value}
    (h : compare fld .present v = .ok (field fld .present v)) : ∃ b, v = bool b := by
  cases v with
  | bool b => exact ⟨b, rfl⟩
  | _ => simp [compare, isBool] at h

theorem pattern_of_made {fld : Field} {v : Value}
    (h : compare fld .regex v = .ok (field fld .regex v)) :
    (∃ source, v = str source) ∨ ∃ p, v = pattern p := by
  cases v with
  | str source => exact .inl ⟨source, rfl⟩
  | pattern p => exact .inr ⟨p, rfl⟩
  | _ => simp [compare] at h

end Filter

open DocStore.Filter

variable {cat : Catalog} {s : Schema} {limit : Value} {r t : Registry}

theorem Codec.stored_of_run {v w : Value} (h : Codec.toValue cat s v r = (.ok w, t)) :
    Codec.stored cat s r v = w := by
  unfold Codec.stored
  rw [h]
  rfl

theorem stored_of_operand {op : Operator} {v w : Value} (hop : op ≠ .regex)
    (h : operand cat s op v r = (.ok w, t)) : Codec.stored cat s r v = w := by
  apply Codec.stored_of_run (t := t)
  unfold operand at h
  split at h
  · rw [map_eq_bind] at h
    rw [Codec.toValue]
    exact h
  · exact absurd rfl hop
  · exact absurd rfl hop
  · exact h

theorem operand_regex_eq {v : Value} (hv : ∀ p, v ≠ pattern p) :
    operand cat s .regex v = (Codec.toValue cat s v >>= fun w =>
      match w.source? with
      | some source => do
        let p ← liftExcept (Pattern.compiled Regex.Options.none source)
        pure (pattern p)
      | none => throw .kind) := by
  cases v with
  | pattern p => exact absurd rfl (hv p)
  | _ => rfl

theorem pattern_of_operand {v w : Value} (h : operand cat s .regex v r = (.ok w, t)) :
    ∃ p, patternSought? (Codec.stored cat s r v) = some p ∧ w = pattern p := by
  by_cases hv : ∃ p, v = pattern p
  · obtain ⟨p, rfl⟩ := hv
    cases h
    exact ⟨p, rfl, rfl⟩
  · rw [operand_regex_eq fun p hp => hv ⟨p, hp⟩] at h
    obtain ⟨x, u, hx, h⟩ := bind_eq_ok_iff.mp h
    rw [Codec.stored_of_run hx]
    cases hs : x.source? with
    | none =>
      simp only [hs] at h
      cases h
    | some source =>
      simp only [hs] at h
      obtain ⟨p, hp, h⟩ := liftExcept_bind_eq_ok h
      cases h
      have hp : (Pattern.compile Regex.Options.none source).toOption = some p := by
        rw [Pattern.compiled_eq_ok.mp hp]
        rfl
      refine ⟨p, ?_, rfl⟩
      cases x with
      | str | bytes =>
        cases hs
        exact hp
      | _ => cases hs

/-- Only a pattern that was compiled before can be over bytes, for the others come from texts. -/
theorem pattern_of_overBytes {fld : Field} {v : Value} {p : Pattern}
    (hmade : compare fld .regex v = .ok (field fld .regex v))
    (hp : patternSought? (Codec.stored cat s r v) = some p) (hb : p.overBytes = true) :
    v = pattern p := by
  rcases pattern_of_made hmade with ⟨source, rfl⟩ | ⟨q, rfl⟩
  · have hcompile : (Pattern.compile Regex.Options.none (.text source)).toOption = some p := hp
    cases hc : Pattern.compile Regex.Options.none (.text source) with
    | error e =>
      rw [hc] at hcompile
      cases hcompile
    | ok q =>
      rw [hc] at hcompile
      cases hcompile
      obtain ⟨_, _, rfl⟩ := except_map_eq_ok.mp hc
      cases hb
  · cases hp
    rfl

theorem holdsOperator_answers {d : Value} {path : String} {found : List Value} {fld : Field}
    {op : Operator} {v w : Value} {word : String} (hf : IsFound d path found) (hre : op ≠ .regex)
    (hmade : compare fld op v = .ok (field fld op v)) (hop : op.condition? = some word)
    (hw : operand cat s op v r = (.ok w, t)) :
    Answers (holdsOperator found [(str word, w)] word w)
      (op.HoldsAt d path (Codec.stored cat s r v)) := by
  have hx := stored_of_operand hre hw
  rw [hx]
  cases op with
  | equal =>
    cases hop
    exact .of_ok (hf.equalsAny_iff w)
  | notEqual =>
    cases hop
    have hn : (!equalsAny found w) = true ↔ ¬ EqualAt d path w := by
      rw [Bool.not_eq_true', ← Bool.not_eq_true, hf.equalsAny_iff]
    exact .of_ok hn
  | lessThan =>
    cases hop
    exact .of_ok (hf.relatesAny_iff .lt w)
  | greaterThan =>
    cases hop
    exact .of_ok (hf.relatesAny_iff .gt w)
  | lessOrEqual =>
    cases hop
    exact .of_ok (hf.relatesAny_iff .le w)
  | greaterOrEqual =>
    cases hop
    exact .of_ok (hf.relatesAny_iff .ge w)
  | present =>
    cases hop
    obtain ⟨b, rfl⟩ := bool_of_made hmade
    have hb : w = bool b := hx.symm
    subst hb
    have hp : (!found.isEmpty) = true ↔ Present d path := by
      rw [Bool.not_eq_true', ← Bool.not_eq_true, hf.isEmpty_iff, Classical.not_not]
    refine .of_ok ?_
    simp only [Operator.HoldsAt, Value.truthy, beq_iff_eq, bool.injEq, exists_eq_left', ← hp]
    cases b <;> simp
  | oneOf =>
    cases hop
    obtain ⟨xs, rfl⟩ := members_of_made hmade
    obtain ⟨ys, u, _, hy⟩ := bind_eq_ok_iff.mp (by simpa only [operand, map_eq_bind] using hw)
    cases hy
    have hany : ys.any (equalsAny found) = true ↔ ∃ y ∈ ys, EqualAt d path y := by
      rw [List.any_eq_true]
      exact exists_congr fun y => and_congr_right' (hf.equalsAny_iff y)
    refine ⟨ys.any (equalsAny found), by simp [holdsOperator, relationOf?], ?_⟩
    simp [Operator.HoldsAt, hany]
  | regex => exact absurd rfl hre
  | _ => cases hop

theorem Operator.not_balksAt {op : Operator} (hre : op ≠ .regex) {d x : Value} {path : String} :
    ¬ op.BalksAt d path x := by
  cases op with
  | regex => exact absurd rfl hre
  | _ => exact id

theorem holdsOperator_replies {d : Value} {path : String} {found : List Value} {fld : Field}
    {op : Operator} {v w : Value} {word : String} (hf : IsFound d path found)
    (hmade : compare fld op v = .ok (field fld op v)) (hop : op.condition? = some word)
    (hw : operand cat s op v r = (.ok w, t)) :
    Replies (holdsOperator found [(str word, w)] word w)
      (op.BalksAt d path (Codec.stored cat s r v))
      (op.HoldsAt d path (Codec.stored cat s r v)) := by
  by_cases hre : op = .regex
  · subst hre
    cases hop
    obtain ⟨p, hp, rfl⟩ := pattern_of_operand hw
    simp only [Operator.BalksAt, Operator.HoldsAt, hp, Option.some.injEq, exists_eq_left']
    exact hf.foundByPattern_replies p
  · exact .of_answers (holdsOperator_answers hf hre hmade hop hw) (Operator.not_balksAt hre)

theorem matchesQuery_condition {d x : Value} {name word : String} {fails p : Prop}
    (hn : startsWithDollar name = false) (hr : Readable name) (hw : startsWithDollar word = true)
    (h : ∀ found, IsFound d name found →
      Replies (holdsOperator found [(str word, x)] word x) fails p) :
    Replies (matchesQuery d (dict [(str name, dict [(str word, x)])])) fails p := by
  obtain ⟨found, hf, hi⟩ := lookupPath_finds hr d
  have hc : isCondition (dict [(str word, x)]) = true := by simp [isCondition, isOperatorKey, hw]
  rw [matchesQuery_single, matchesEntry_of_name hn, matchesField_operators hf hc,
    holdsOperators_single]
  exact h found hi

section Compiled

variable {d : Value} {r₀ : Registry}

mutual

theorem compileAt_replies (f : Filter) : ∀ {depth path r t q}, Registry.Grown cat r₀ r →
    Scope path → ReadableUnder path → f.WellFormed → compileAt cat s limit depth path f r = (.ok q, t) →
    Replies (matchesQuery d q) (f.Balks (Codec.stored cat s r₀) d path)
      (f.Holds (Codec.stored cat s r₀) d path) := by
  intro depth path r t q hg hscope hread hf h
  cases f with
  | field fld op v =>
    obtain ⟨word, w, hop, hw, rfl⟩ := compileAt_field h
    have hn : startsWithDollar (path ++ fld.name) = false :=
      FieldPath.no_operator ⟨path, fld.name, hscope, fld.named, rfl⟩
    have hr : Readable (path ++ fld.name) := hread _ (hf.readable (.here _))
    obtain ⟨u, hu, _⟩ := (operand_steady cat s op v).back hg hw
    rw [Filter.Holds, Filter.Balks]
    exact matchesQuery_condition hn hr (Operator.word_of_condition hop).1 fun found hi =>
      holdsOperator_replies hi (hf.made (.here _)) hop hu
  | sub fld c =>
    rw [Filter.Holds, Filter.Balks]
    exact compileAt_replies c hg (hscope.inside fld.named)
      (hread.inside (hf.readableSub (.here _))) hf.sub (compileAt_sub h)
  | group op cs =>
    obtain ⟨word, qs, hop, hq, rfl⟩ := compileAt_group h
    obtain ⟨hall, hsome⟩ := compileEach_replies cs hg hscope hread (fun c hc => hf.child hc) hq
    have hcs : cs ≠ [] := by
      rintro rfl
      exact hf.grouped (.here _)
    have hqs := compileEach_ne_nil hcs hq
    cases op with
    | all =>
      cases hop
      rw [matchesQuery_all hqs]
      exact hall
    | any =>
      cases hop
      rw [matchesQuery_some hqs]
      exact hsome
    | _ => cases hop
  | posing k v tagged cs => exact absurd (.here _) hf.genuine.not_posing
  | foreign v untagged => exact absurd h not_compileAt_foreign
termination_by structural f

theorem compileEach_replies (cs : List Filter) : ∀ {depth path r t qs}, Registry.Grown cat r₀ r →
    Scope path → ReadableUnder path → (∀ c ∈ cs, c.WellFormed) →
    compileEach cat s limit depth path cs r = (.ok qs, t) →
    Replies (matchesAll d qs) (BalksAll (Codec.stored cat s r₀) d path cs)
        (HoldsAll (Codec.stored cat s r₀) d path cs) ∧
      Replies (matchesSome d qs) (BalksSome (Codec.stored cat s r₀) d path cs)
        (HoldsSome (Codec.stored cat s r₀) d path cs) := by
  intro depth path r t qs hg hscope hread hf h
  cases cs with
  | nil =>
    cases h
    exact ⟨.of_answers (.of_ok (by simp [HoldsAll])) id,
      .of_answers (.of_ok (by simp [HoldsSome])) id⟩
  | cons c cs =>
    obtain ⟨q, rest, u, hq, hrest, rfl⟩ := compileEach_cons h
    have hgu := hg.trans ((compileAt_steady cat s limit c depth path).grows hq)
    have hc := compileAt_replies c hg hscope hread (hf c (by simp)) hq
    obtain ⟨hall, hsome⟩ := compileEach_replies cs hgu hscope hread
      (fun g hm => hf g (by simp [hm])) hrest
    rw [HoldsAll, HoldsSome, BalksAll, BalksSome]
    exact ⟨hc.matchesAll_cons hall, hc.matchesSome_cons hsome⟩
termination_by structural cs

end

end Compiled

/-- A query compiled from a filter is answered on every document, and the answer is what the filter
means there, its operands being kept as the codec stores them; but it fails where the filter comes
upon a text with a pattern over bytes. -/
theorem matchesQuery_compile {f : Filter} {path : String} {q : Value} (hf : f.WellFormed)
    (hpath : path = "" ∨ ∃ n, fieldNameFault? n = none ∧ Readable n ∧ path = n ++ ".")
    (h : compile cat s limit path f r = (.ok q, t)) (d : Value) :
    Replies (matchesQuery d q) (f.Balks (Codec.stored cat s r) d path)
      (f.Holds (Codec.stored cat s r) d path) := by
  rcases hpath with rfl | ⟨n, hn, hr, rfl⟩
  · exact compileAt_replies f (.refl cat r) .top .top hf h
  · have hscope : Scope (n ++ ".") := by simpa using Scope.inside .top hn
    have hread : ReadableUnder (n ++ ".") := by simpa using ReadableUnder.top.inside hr
    exact compileAt_replies f (.refl cat r) hscope hread hf h

/-- Someone who lives in Rome under a known code, or is a junior. -/
def romanOrJunior : Filter :=
  .group .any [
    .sub ⟨"home", .object, by decide⟩ (.group .all [
      .field ⟨"city", .object, by decide⟩ .equal (str "Rome"),
      .field ⟨"codes.0", .object, by decide⟩ .present (bool true)]),
    .field ⟨"level", .object, by decide⟩ .oneOf (tuple [Models.junior])]

theorem romanOrJunior_wellFormed : romanOrJunior.WellFormed := by
  refine .of_group (by simp) fun c hc => ?_
  simp only [List.mem_cons, List.not_mem_nil, or_false] at hc
  rcases hc with rfl | rfl
  · refine .of_sub (by decide) (.of_group (by simp) fun c hc => ?_)
    simp only [List.mem_cons, List.not_mem_nil, or_false] at hc
    rcases hc with rfl | rfl
    · exact .of_field rfl (by decide)
    · exact .of_field rfl (by decide)
  · exact .of_field rfl (by decide)

theorem matchesQuery_romanOrJunior : ∃ q t,
    Filter.compile Models.catalog Schema.standard (int 32) "owner." romanOrJunior .empty =
      (.ok q, t) ∧
    Replies (matchesQuery (dict [(str "owner", dict [(str "level", str "junior")])]) q)
      (romanOrJunior.Balks (Codec.stored Models.catalog Schema.standard .empty)
        (dict [(str "owner", dict [(str "level", str "junior")])]) "owner.")
      (romanOrJunior.Holds (Codec.stored Models.catalog Schema.standard .empty)
        (dict [(str "owner", dict [(str "level", str "junior")])]) "owner.") :=
  ⟨_, _, rfl, matchesQuery_compile romanOrJunior_wellFormed
    (.inr ⟨"owner", by decide, by decide, rfl⟩)
    (show Filter.compile Models.catalog Schema.standard (int 32) _ _ _ = _ from rfl) _⟩

/-- The name, sought by a pattern over the single byte of a letter. -/
def namedByBytes : Filter :=
  .field ⟨"name", .object, by decide⟩ .regex (pattern ⟨.bytes [65], Regex.Options.none⟩)

/-- A filter that compiles need not have an answer on a document. -/
theorem namedByBytes_unanswered :
    ¬ ∀ (f : Filter) (q : Value) (t : Registry), f.WellFormed →
      Filter.compile Models.catalog Schema.standard (int 32) "" f .empty = (.ok q, t) →
        ∀ d, Answers (matchesQuery d q)
          (f.Holds (Codec.stored Models.catalog Schema.standard .empty) d "") := by
  intro hall
  obtain ⟨b, hb, _⟩ := hall namedByBytes _ _ (.of_field rfl (by decide)) rfl
    (dict [(str "name", str "Ada")])
  cases hb

end DocStore
