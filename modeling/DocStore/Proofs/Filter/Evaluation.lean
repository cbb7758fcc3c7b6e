import DocStore.Proofs.Filter.Meaning

/-! Evaluating what filters compile to. Whatever a document holds, a compiled query is answered on
it, unless the path of a comparison comes to an array with digits that are no number, or a pattern
over bytes is to be found in a text. -/

namespace DocStore

open Value

namespace Filter

/-- A comparison in a filter, with the whole path that it looks at. -/
structure Comparison where
  path : String
  op : Operator
  value : Value

mutual

/-- The comparisons of a filter that stands under a path. -/
def comparisons (path : String) : Filter → List Comparison
  | field f op v => [⟨path ++ f.name, op, v⟩]
  | sub f c => comparisons (path ++ f.name ++ ".") c
  | group _ cs => comparisonsEach path cs
  | posing _ _ _ cs => comparisonsEach path cs
  | foreign .. => []
termination_by structural x => x

def comparisonsEach (path : String) : List Filter → List Comparison
  | [] => []
  | c :: cs => comparisons path c ++ comparisonsEach path cs
termination_by structural x => x

end

namespace Comparison

/-- The path of a comparison stumbles over a document. -/
def Trips (d : Value) (c : Comparison) : Prop := Stumbles (segments c.path) d

/-- A comparison looks for a pattern over bytes where there is a text. -/
def Balks (d : Value) (c : Comparison) : Prop :=
  c.op = .regex ∧ ∃ p, c.value = pattern p ∧ p.overBytes = true ∧
    ∃ found, lookupPath d c.path = .ok found ∧ ∃ t, str t ∈ candidates found

end Comparison

end Filter

open DocStore.Filter

/-- A question is answered, or fails because of one of some comparisons. -/
def Attempts (d : Value) (r : Except Error Bool) (cs : List Comparison) : Prop :=
  (∃ b, r = .ok b) ∨ (r = .error .value ∧ ∃ c ∈ cs, c.Trips d) ∨
    (r = .error .kind ∧ ∃ c ∈ cs, c.Balks d)

namespace Attempts

variable {d q : Value} {qs : List Value} {r : Except Error Bool} {cs cs' : List Comparison}

theorem mono (h : Attempts d r cs) (hcs : ∀ c ∈ cs, c ∈ cs') : Attempts d r cs' :=
  h.imp_right (Or.imp (And.imp_right fun ⟨c, hc, ht⟩ => ⟨c, hcs c hc, ht⟩)
    (And.imp_right fun ⟨c, hc, hb⟩ => ⟨c, hcs c hc, hb⟩))

/-- A failed question fails all that it stands in front of. -/
theorem of_error {e : Error} (h : Attempts d (.error e) cs) : Attempts d (.error e) (cs ++ cs') :=
  h.mono fun _ => List.mem_append_left cs'

theorem matchesAll_cons (h : Attempts d (matchesQuery d q) cs)
    (h' : Attempts d (matchesAll d qs) cs') : Attempts d (matchesAll d (q :: qs)) (cs ++ cs') := by
  rw [matchesAll]
  cases hq : matchesQuery d q with
  | error e => exact (hq ▸ h).of_error
  | ok b =>
    cases b with
    | true => exact h'.mono fun _ => List.mem_append_right cs
    | false => exact .inl ⟨false, rfl⟩

theorem matchesSome_cons (h : Attempts d (matchesQuery d q) cs)
    (h' : Attempts d (matchesSome d qs) cs') :
    Attempts d (matchesSome d (q :: qs)) (cs ++ cs') := by
  rw [matchesSome]
  cases hq : matchesQuery d q with
  | error e => exact (hq ▸ h).of_error
  | ok b =>
    cases b with
    | true => exact .inl ⟨true, rfl⟩
    | false => exact h'.mono fun _ => List.mem_append_right cs

end Attempts

namespace Filter

/-- A filter as the constructors make it, without empty groups. -/
structure Proper (f : Filter) : Prop where
  genuine : f.Genuine
  made : ∀ {fld op v}, Within (field fld op v) f → compare fld op v = .ok (field fld op v)
  grouped : ∀ {op}, ¬ Within (group op []) f

theorem Proper.of_within {f g : Filter} (h : Proper f) (hw : ∀ {c}, Within c g → Within c f) :
    Proper g where
  genuine := h.genuine.of_within hw
  made hg := h.made (hw hg)
  grouped hg := h.grouped (hw hg)

end Filter

variable {cat : Catalog} {s : Schema} {limit : Value} {r t : Registry} {d : Value}

/-- The operator of a compiled comparison can be tried on any values, but for a pattern over bytes
where there is a text. -/
theorem holdsOperator_attempts {fld : Field} {op : Operator} {v w : Value} {word : String}
    (hmade : compare fld op v = .ok (field fld op v)) (hop : op.condition? = some word)
    (hw : operand cat s op v r = (.ok w, t)) (found : List Value) :
    (∃ b, holdsOperator found [(str word, w)] word w = .ok b) ∨
      (holdsOperator found [(str word, w)] word w = .error .kind ∧ op = .regex ∧
        ∃ p, v = pattern p ∧ p.overBytes = true ∧ ∃ t, str t ∈ candidates found) := by
  cases op with
  | regex =>
    cases hop
    obtain ⟨p, hp, rfl⟩ := pattern_of_operand hw
    have hrun : holdsOperator found [(str "$regex", pattern p)] "$regex" (pattern p) =
        foundByPattern found p := rfl
    rw [hrun, foundByPattern]
    split
    · next hb =>
      obtain ⟨hbytes, hany⟩ := Bool.and_eq_true_iff.mp hb
      obtain ⟨x, hx, hstr⟩ := List.any_eq_true.mp hany
      have ht : ∃ t, x = str t := by cases x <;> first | exact ⟨_, rfl⟩ | cases hstr
      obtain ⟨t, rfl⟩ := ht
      exact .inr ⟨rfl, rfl, p, pattern_of_overBytes hmade hp hbytes, hbytes, t, hx⟩
    · exact .inl ⟨_, rfl⟩
  | oneOf =>
    cases hop
    obtain ⟨xs, rfl⟩ := members_of_made hmade
    obtain ⟨ys, u, _, hy⟩ := bind_eq_ok_iff.mp (by simpa only [operand, map_eq_bind] using hw)
    cases hy
    exact .inl ⟨ys.any (equalsAny found), rfl⟩
  | _ =>
    cases hop
    all_goals exact .inl ⟨_, rfl⟩

theorem matchesQuery_attempts {fld : Field} {op : Operator} {v w : Value} {path word : String}
    (hmade : compare fld op v = .ok (field fld op v)) (hop : op.condition? = some word)
    (hw : operand cat s op v r = (.ok w, t)) (hn : startsWithDollar path = false) :
    Attempts d (matchesQuery d (dict [(str path, dict [(str word, w)])])) [⟨path, op, v⟩] := by
  rw [matchesQuery_single, matchesEntry_of_name hn]
  cases hf : lookupPath d path with
  | ok found =>
    have hc : isCondition (dict [(str word, w)]) = true := by
      simp [isCondition, isOperatorKey, (Operator.word_of_condition hop).1]
    rw [matchesField_operators hf hc, holdsOperators_single]
    rcases holdsOperator_attempts hmade hop hw found with hok | ⟨he, hre, p, hp, hb, ht⟩
    · exact .inl hok
    · exact .inr (.inr ⟨he, _, List.mem_singleton_self _, hre, p, hp, hb, found, hf, ht⟩)
  | error e =>
    obtain ⟨rfl, hs⟩ := (lookup_fails d (segments path) e).mp hf
    rw [matchesField, hf]
    exact .inr (.inl ⟨rfl, _, List.mem_singleton_self _, hs⟩)

mutual

theorem compileAt_attempts (f : Filter) : ∀ {depth path r t q}, Scope path → f.Proper →
    compileAt cat s limit depth path f r = (.ok q, t) →
    Attempts d (matchesQuery d q) (f.comparisons path) := by
  intro depth path r t q hscope hf h
  cases f with
  | field fld op v =>
    obtain ⟨word, w, hop, hw, rfl⟩ := compileAt_field h
    have hn : startsWithDollar (path ++ fld.name) = false :=
      FieldPath.no_operator ⟨path, fld.name, hscope, fld.named, rfl⟩
    rw [comparisons]
    exact matchesQuery_attempts (hf.made (.here _)) hop hw hn
  | sub fld c =>
    rw [comparisons]
    exact compileAt_attempts c (hscope.inside fld.named) (hf.of_within (.sub fld)) (compileAt_sub h)
  | group op cs =>
    obtain ⟨word, qs, hop, hq, rfl⟩ := compileAt_group h
    obtain ⟨hall, hsome⟩ := compileEach_attempts cs hscope
      (fun c hc => hf.of_within (.group op hc)) hq
    have hcs : cs ≠ [] := by
      rintro rfl
      exact hf.grouped (.here _)
    have hqs := compileEach_ne_nil hcs hq
    rw [comparisons]
    rcases Operator.word_of_group hop with rfl | rfl
    · rw [matchesQuery_all hqs]
      exact hall
    · rw [matchesQuery_some hqs]
      exact hsome
  | posing k v tagged cs => exact absurd (.here _) hf.genuine.not_posing
  | foreign v untagged => exact absurd h not_compileAt_foreign
termination_by structural f

theorem compileEach_attempts (cs : List Filter) : ∀ {depth path r t qs}, Scope path →
    (∀ c ∈ cs, c.Proper) → compileEach cat s limit depth path cs r = (.ok qs, t) →
    Attempts d (matchesAll d qs) (comparisonsEach path cs) ∧
      Attempts d (matchesSome d qs) (comparisonsEach path cs) := by
  intro depth path r t qs hscope hf h
  cases cs with
  | nil =>
    cases h
    exact ⟨.inl ⟨true, rfl⟩, .inl ⟨false, rfl⟩⟩
  | cons c cs =>
    obtain ⟨q, rest, u, hq, hrest, rfl⟩ := compileEach_cons h
    have hc := compileAt_attempts c hscope (hf c (by simp)) hq
    obtain ⟨hall, hsome⟩ := compileEach_attempts cs hscope
      (fun g hm => hf g (by simp [hm])) hrest
    rw [comparisonsEach]
    exact ⟨hc.matchesAll_cons hall, hc.matchesSome_cons hsome⟩
termination_by structural cs

end

/-- What a filter compiles to is answered on every document, or else fails with a value error, and
that only if the path of one of its comparisons stumbles over the document, or with an error of
kind, and that only if one of its comparisons looks for a pattern over bytes where there is a text.
-/
theorem compiled_evaluates {f : Filter} {path : String} {q : Value} (hf : f.Proper)
    (hpath : Scope path) (h : compile cat s limit path f r = (.ok q, t)) (d : Value) :
    (∃ b, matchesQuery d q = .ok b) ∨
      (matchesQuery d q = .error .value ∧ ∃ c ∈ f.comparisons path, c.Trips d) ∨
      (matchesQuery d q = .error .kind ∧ ∃ c ∈ f.comparisons path, c.Balks d) :=
  compileAt_attempts f hpath hf h

/-- A superscript two is a digit, but no number. -/
def superscript : Filter := .field ⟨"tags.²", .object, by decide⟩ .equal (str "x")

theorem superscript_proper : superscript.Proper where
  genuine := .field ..
  made h := by
    cases h
    rfl
  grouped h := by cases h

theorem evaluates_superscript : ∃ q t,
    Filter.compile Models.catalog .standard (int 32) "" superscript .empty = (.ok q, t) ∧
      ((∃ b, matchesQuery (dict [(str "tags", list [str "x"])]) q = .ok b) ∨
        (matchesQuery (dict [(str "tags", list [str "x"])]) q = .error .value ∧
          ∃ c ∈ superscript.comparisons "", c.Trips (dict [(str "tags", list [str "x"])])) ∨
        (matchesQuery (dict [(str "tags", list [str "x"])]) q = .error .kind ∧
          ∃ c ∈ superscript.comparisons "", c.Balks (dict [(str "tags", list [str "x"])]))) :=
  ⟨_, _, rfl, compiled_evaluates superscript_proper .top
    (show Filter.compile Models.catalog .standard (int 32) "" superscript .empty = _ from rfl) _⟩

theorem superscript_unanswered :
    ¬ ∀ (f : Filter) (q : Value) (t : Registry), f.Proper →
      Filter.compile Models.catalog .standard (int 32) "" f .empty = (.ok q, t) →
        ∀ d, ∃ b, matchesQuery d q = .ok b := by
  intro hall
  obtain ⟨b, hb⟩ :=
    hall superscript _ _ superscript_proper rfl (dict [(str "tags", list [str "x"])])
  have hstumbles : Stumbles (segments "tags.²") (dict [(str "tags", list [str "x"])]) :=
    .entry rfl (.here (by decide) (by decide))
  have hlookup := (lookup_fails _ _ .value).mpr ⟨rfl, hstumbles⟩
  change matchesQuery _ (equality "tags.²" (str "x")) = _ at hb
  rw [matchesQuery_equality (by decide), lookupPath, hlookup] at hb
  cases hb

end DocStore
