import DocStore.Catalog.Models
import DocStore.Filter.Compile
import DocStore.Proofs.Regex.Again
import DocStore.Proofs.Run
import DocStore.Proofs.Value.Equal

/-! The dictionary form of filters. Reading what was written gives the filter back without its
declared types, which neither the form nor the compiled query shows. -/

namespace DocStore

open Value

/-- A pattern that was compiled, all of whose options have letters. -/
structure Pattern.Lettered (p : Pattern) : Prop where
  compiled : p.Compiled
  ascii : p.options.ascii = false
  locale : p.options.locale = false
  template : p.options.template = false
  debug : p.options.debug = false

def Operator.isWord : Operator → Bool
  | other _ => false
  | _ => true

theorem Operator.word_of_isWord {op : Operator} (h : op.isWord = true) :
    ∃ n, op.toValue.worth = str n ∧ ofName? n = some op := by
  cases op with
  | other n => cases h
  | _ => exact ⟨_, rfl, rfl⟩

/-- The field of this name that accepts all values. -/
def Field.untyped (f : Field) : Field := ⟨f.name, .object, f.named⟩

theorem Field.ofValue_name (f : Field) : Field.ofValue (str f.name) .object = .ok f.untyped := by
  have hf := f.named
  simp only [Field.ofValue, Field.ofText]
  split
  · rfl
  · next he =>
    rw [hf] at he
    cases he

namespace Filter

mutual

/-- A filter without declared types; the operands are left as they are. -/
def untyped : Filter → Filter
  | field f op v => field f.untyped op v
  | sub f c => sub f.untyped (untyped c)
  | group op cs => group op (untypedEach cs)
  | posing k v tagged cs => posing k v tagged cs
  | foreign v untagged => foreign v untagged
termination_by structural x => x

def untypedEach : List Filter → List Filter
  | [] => []
  | c :: cs => untyped c :: untypedEach cs
termination_by structural x => x

end

/-- Filters as they are made with the words for operators, legal for their kind or not. -/
inductive Made : Filter → Prop
  | compare {fld : Field} {op : Operator} {v : Value} {f : Filter} (hop : op.isWord = true)
      (hv : ∀ p, v = pattern p → p.Lettered) (h : compare fld op v = .ok f) : Made f
  | sub (fld : Field) {c : Filter} (hc : Made c) : Made (sub fld c)
  | group {op : Operator} {cs : List Filter} (hop : op.isWord = true) (hcs : ∀ c ∈ cs, Made c) :
      Made (group op cs)

/-! Declared types do not show -/

mutual

theorem toDict_untyped (f : Filter) : f.untyped.toDict = f.toDict := by
  cases f with
  | field f op v => rfl
  | sub f c =>
    rw [untyped, toDict, toDict, toDict_untyped c]
    rfl
  | group op cs => rw [untyped, toDict, toDict, toDicts_untyped cs]
  | posing k v tagged cs => rfl
  | foreign v untagged => rfl
termination_by structural f

theorem toDicts_untyped (cs : List Filter) : toDicts (untypedEach cs) = toDicts cs := by
  cases cs with
  | nil => rfl
  | cons c cs => rw [untypedEach, toDicts, toDicts, toDict_untyped c, toDicts_untyped cs]
termination_by structural cs

end

section Compiled

variable (cat : Catalog) (s : Schema) (limit : Value)

mutual

theorem compileAt_untyped (f : Filter) : ∀ depth path,
    compileAt cat s limit depth path f.untyped = compileAt cat s limit depth path f := by
  intro depth path
  cases f with
  | field f op v => rfl
  | sub f c =>
    have hc := compileAt_untyped c (depth + 1) (path ++ f.name ++ ".")
    simp only [untyped, compileAt, Field.untyped, hc]
  | group op cs =>
    have hcs := compileEach_untyped cs (depth + 1) path
    simp only [untyped, compileAt, hcs]
  | posing k v tagged cs => rfl
  | foreign v untagged => rfl
termination_by structural f

theorem compileEach_untyped (cs : List Filter) : ∀ depth path,
    compileEach cat s limit depth path (untypedEach cs) =
      compileEach cat s limit depth path cs := by
  intro depth path
  cases cs with
  | nil => rfl
  | cons c cs =>
    simp only [untypedEach, compileEach, compileAt_untyped c depth path,
      compileEach_untyped cs depth path]
termination_by structural cs

end

end Compiled

/-! Reading a comparison -/

theorem checkValues_untyped (f : Field) (vs : List Value) : checkValues f.untyped vs = .ok () := by
  induction vs with
  | nil => rfl
  | cons v vs ih =>
    have haccepts : f.untyped.type.accepts v = .ok true := rfl
    by_cases hv : v.isNull = true
    · simp [checkValues, hv, ih]
    · simp [checkValues, hv, haccepts, ih]

/-- The value of a comparison, in the form in which it is written. -/
def written (op : Operator) (v : Value) : Value := if op = .oneOf then asArray v else v

theorem ne_subfilter_of_compare {fld : Field} {op : Operator} {v : Value} {f : Filter}
    (h : compare fld op v = .ok f) : op ≠ .subfilter := by
  intro hop
  rw [hop] at h
  cases h

/-- What a comparison accepted once it accepts again in its written form, whatever its type was. -/
theorem compare_again {fld : Field} {op : Operator} {v : Value} {f : Filter}
    (h : compare fld op v = .ok f) : ∃ x, f = field fld op x ∧
      (∀ p, written op x = pattern p → v = pattern p) ∧
      compare fld.untyped op (written op x) = .ok (field fld.untyped op x) := by
  have hcheck := checkValues_untyped fld
  cases op with
  | subfilter => cases h
  | oneOf =>
    simp only [compare] at h
    cases hm : members? v with
    | none =>
      rw [hm] at h
      cases h
    | some xs =>
      rw [hm] at h
      obtain ⟨_, _, rfl⟩ := except_map_eq_ok.mp h
      refine ⟨tuple xs, rfl, by simp [written, asArray], ?_⟩
      simp [compare, written, asArray, members?, hcheck, Except.map]
  | present =>
    simp only [compare] at h
    split at h
    · next hb =>
      cases h
      exact ⟨v, rfl, fun p hp => hp, by simp [compare, written, hb]⟩
    · cases h
  | regex =>
    cases v with
    | str source =>
      cases h
      exact ⟨_, rfl, fun p hp => hp, rfl⟩
    | pattern q =>
      cases h
      exact ⟨_, rfl, fun p hp => hp, rfl⟩
    | _ => cases h
  | equal | notEqual =>
    obtain ⟨_, _, rfl⟩ := except_map_eq_ok.mp h
    exact ⟨v, rfl, fun p hp => hp, by simp [compare, written, hcheck, Except.map]⟩
  | lessThan | greaterThan | lessOrEqual | greaterOrEqual =>
    by_cases hn : v.isNull = true
    · simp [compare, Operator.isOrdered, hn] at h
    · simp only [compare, Operator.isOrdered, hn] at h
      obtain ⟨_, _, rfl⟩ := except_map_eq_ok.mp h
      refine ⟨v, rfl, fun p hp => hp, ?_⟩
      simp [compare, written, Operator.isOrdered, hn, hcheck, Except.map]
  | all | any =>
    cases h
    exact ⟨v, rfl, fun p hp => hp, rfl⟩
  | other w =>
    simp only [compare] at h
    split at h
    · next hw =>
      cases h
      exact ⟨v, rfl, fun p hp => hp, by simp [compare, written, hw]⟩
    · cases h

def isOptionLetter (c : Char) : Bool := Pattern.letterOptions.any (·.1 == c)

theorem optionsFrom_letters (cs : List Char) (hcs : ∀ c ∈ cs, isOptionLetter c = true)
    (o : Regex.Options) : optionsFrom (cs.map fun c => str (String.singleton c)) o =
      .ok (cs.foldl (fun o c => (o.set true c).getD o) o) := by
  induction cs generalizing o with
  | nil => rfl
  | cons c cs ih =>
    obtain ⟨hc, hrest⟩ := List.forall_mem_cons.mp hcs
    have hhash : hashable (str (String.singleton c)) = true := rfl
    have hletter : Pattern.letterOptions.any (·.1 == c) = true := hc
    simp only [List.map_cons, List.foldl_cons, optionsFrom, hhash, String.toList_singleton, hletter,
      ih hrest, Bool.not_true, Bool.false_eq_true, if_false, if_true]

/-- The letters of a pattern name its options. -/
theorem options_of_letters {p : Pattern} (h : p.Lettered) :
    ∃ ls, (str p.letters).iterate? = some ls ∧
      optionsFrom ls Regex.Options.none = .ok p.options := by
  have hletter : ∀ c ∈ p.letters.toList, isOptionLetter c = true := by
    intro c hc
    rw [Pattern.letters, String.toList_ofList] at hc
    obtain ⟨l, hl, rfl⟩ := List.mem_map.mp hc
    exact List.any_eq_true.mpr ⟨l, (List.mem_filter.mp hl).1, beq_self_eq_true l.1⟩
  refine ⟨_, rfl, ?_⟩
  rw [optionsFrom_letters p.letters.toList hletter, Pattern.letters, String.toList_ofList]
  obtain ⟨source, i, m, s, x, a, l, t, g⟩ := p
  obtain ⟨_, ha, hl, ht, hg⟩ := h
  obtain rfl : a = false := ha
  obtain rfl : l = false := hl
  obtain rfl : t = false := ht
  obtain rfl : g = false := hg
  cases i <;> cases m <;> cases s <;> cases x <;> rfl

theorem compilePattern_lettered {p : Pattern} (h : p.Lettered) :
    compilePattern (ofSource p.source) (str p.letters) = .ok p := by
  obtain ⟨o, source, hcompile⟩ := h.compiled
  obtain ⟨ls, hls, hoptions⟩ := options_of_letters h
  have hagain := Pattern.compiled_eq_ok.mpr (Pattern.compile_again hcompile)
  rw [compilePattern, hls]
  cases hsource : p.source <;>
    simp only [ofSource, source?, hoptions, ← hsource, hagain]

/-- The entries of a comparison in dictionary form. -/
def comparison (f : Field) (op : Operator) (v : Value) : Entries :=
  [(str "type", str "field"), (str "field", str f.name), (str "operator", op.toValue.worth)] ++
    valueEntries v

theorem readField_comparison (f : Field) (op : Operator) (v : Value) :
    readField (comparison f op v) = .ok f.untyped := by
  simp [readField, comparison, Entries.get?, Field.ofValue_name]

theorem readOperator_comparison {op : Operator} (hop : op.isWord = true) (f : Field) (v : Value) :
    readOperator (comparison f op v) = .ok op := by
  obtain ⟨n, hn, hop⟩ := Operator.word_of_isWord hop
  simp [readOperator, comparison, Entries.get?, hn, hop]

theorem readValue_comparison (f : Field) (op : Operator) {v : Value}
    (hv : ∀ p, v = pattern p → p.Lettered) : readValue (comparison f op v) = .ok v := by
  cases v with
  | pattern p =>
    have hp := compilePattern_lettered (hv p rfl)
    simp [readValue, comparison, valueEntries, Entries.get?, hp]
  | _ => simp [readValue, comparison, valueEntries, Entries.get?]

theorem ofDict_comparison {f : Field} {op : Operator} {v : Value} {g : Filter}
    (hop : op.isWord = true) (hsub : op ≠ .subfilter) (hv : ∀ p, v = pattern p → p.Lettered)
    (h : compare f.untyped op v = .ok g) : ofDict (dict (comparison f op v)) = .ok g := by
  have hkind : Entries.get? (str "type") (comparison f op v) = some (str "field") := rfl
  rw [ofDict, readOperator_comparison hop, hkind]
  simp only [Option.getD_some, equal_str, decide_true, if_true, if_neg hsub,
    readValue_comparison f op hv, readField_comparison]
  exact h

theorem ofDict_sub {fld : Field} {c : Filter} {d : Value} (h : ofDict d = .ok c) :
    ofDict (comparisonDict (str fld.name) .subfilter [(str "value", d)]) =
      .ok (sub fld.untyped c) := by
  have hoperator : readOperator [(str "type", str "field"), (str "field", str fld.name),
      (str "operator", str "subfilter"), (str "value", d)] = .ok .subfilter := rfl
  simp [comparisonDict, Operator.toValue, worth, ofDict, hoperator, childIn, ofDictEntry, readField,
    Entries.get?, Field.ofValue_name, h]

theorem ofDict_group {op : Operator} {cs : List Filter} {ds : List Value}
    (hop : op.isWord = true) (h : ofDicts ds = .ok cs) :
    ofDict (dict [(str "type", str "sub"), (str "operator", op.toValue.worth),
      (str "filters", list ds)]) = .ok (group op cs) := by
  obtain ⟨n, hn, hop⟩ := Operator.word_of_isWord hop
  simp [ofDict, readOperator, childrenIn, ofDictsEntry, Entries.get?, hn, hop, h]

theorem ofDicts_of_each {cs : List Filter}
    (h : ∀ c ∈ cs, ∃ d, c.toDict = .ok d ∧ ofDict d = .ok c.untyped) :
    ∃ ds, toDicts cs = .ok ds ∧ ofDicts ds = .ok (untypedEach cs) := by
  induction cs with
  | nil => exact ⟨[], rfl, rfl⟩
  | cons c cs ih =>
    obtain ⟨d, hd, hc⟩ := h c (by simp)
    obtain ⟨ds, hds, hcs⟩ := ih fun c hc => h c (by simp [hc])
    exact ⟨d :: ds, by rw [toDicts, hd, hds], by rw [ofDicts, hc, hcs, untypedEach]⟩

theorem Made.ofDict_toDict {f : Filter} (h : f.Made) :
    ∃ d, f.toDict = .ok d ∧ ofDict d = .ok f.untyped := by
  induction h with
  | @compare fld op v f hop hv h =>
    have hsub := ne_subfilter_of_compare h
    obtain ⟨x, rfl, hpattern, hagain⟩ := compare_again h
    exact ⟨_, rfl, ofDict_comparison hop hsub (fun p hp => hv p (hpattern p hp)) hagain⟩
  | @sub fld c hc ih =>
    obtain ⟨d, hd, hread⟩ := ih
    exact ⟨_, by rw [toDict, hd], ofDict_sub hread⟩
  | @group op cs hop hcs ih =>
    obtain ⟨ds, hds, hread⟩ := ofDicts_of_each ih
    exact ⟨_, by rw [toDict, hds], ofDict_group hop hread⟩

/-- A filter in dictionary form is read back without error as the filter without declared types,
which has the same form and compiles to the same query, or fails with the same error, whatever the
path, the limit of depth and the names known before. -/
theorem dictionary_read_back {f : Filter} (h : f.Made) :
    ∃ d, f.toDict = .ok d ∧ ofDict d = .ok f.untyped ∧ f.untyped.toDict = f.toDict ∧
      ∀ cat s limit path, compile cat s limit path f.untyped = compile cat s limit path f := by
  obtain ⟨d, hd, hread⟩ := h.ofDict_toDict
  exact ⟨d, hd, hread, toDict_untyped f, fun cat s limit path =>
    compileAt_untyped cat s limit f 1 path⟩

/-- A pattern for what begins with a letter, large or small. -/
def initial : Pattern where
  source := .text "^r"
  options := { Regex.Options.none with ignoreCase := true, verbose := true }

theorem initial_lettered : initial.Lettered :=
  ⟨⟨initial.options, .text "^r", rfl⟩, rfl, rfl, rfl, rfl⟩

/-- A pattern under an operator that wants none, in a group whose operator is for fields. -/
def mislaid : Filter :=
  .group .equal [
    .sub ⟨"shelf", .cls (.kind .dict), by decide⟩
      (.field ⟨"title", .cls (.kind .pattern), by decide⟩ .all (pattern initial)),
    .field ⟨"pages", .cls (.kind .int), by decide⟩ .oneOf (tuple [int 36, null])]

theorem made_mislaid : mislaid.Made := by
  have htitle : compare ⟨"title", .cls (.kind .pattern), by decide⟩ .all (pattern initial) =
      .ok (.field ⟨"title", _, _⟩ .all _) := rfl
  have hpages : compare ⟨"pages", .cls (.kind .int), by decide⟩ .oneOf (.set false [int 36, null]) =
      .ok (.field ⟨"pages", _, _⟩ .oneOf (tuple [int 36, null])) := rfl
  refine .group rfl fun c hc => ?_
  simp only [List.mem_cons, List.not_mem_nil, or_false] at hc
  rcases hc with rfl | rfl
  · refine .sub _ (.compare rfl (fun p hp => ?_) htitle)
    rw [← Value.pattern.inj hp]
    exact initial_lettered
  · refine .compare rfl ?_ hpages
    exact nofun

theorem dictionary_mislaid : mislaid.Made ∧
    ∃ d, mislaid.toDict = .ok d ∧ ofDict d = .ok mislaid.untyped ∧
      mislaid.untyped.toDict = mislaid.toDict ∧
      ∀ cat s limit path,
        compile cat s limit path mislaid.untyped = compile cat s limit path mislaid :=
  ⟨made_mislaid, dictionary_read_back made_mislaid⟩

end Filter

end DocStore
