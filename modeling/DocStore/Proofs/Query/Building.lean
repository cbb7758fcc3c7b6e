import DocStore.Proofs.Document.Places
import DocStore.Proofs.Query.Arrangement
import DocStore.Query.Plan

/-! What a chain of builder calls describes: all that was handed to the calls that succeeded, in the
order of the calls, one field of each name, and the last counts. -/

namespace DocStore

open Value

/-- The builders of a description. -/
inductive Builder
  | filter | sort | fields | skip | limit
  deriving DecidableEq

/-- A call of a builder with its arguments. -/
inductive BuilderCall
  | filter (args : List Value)
  | sort (args : List Value)
  | fields (args : List Value)
  | skip (n : Value)
  | limit (n : Value)

namespace BuilderCall

def builder : BuilderCall → Builder
  | filter _ => .filter
  | sort _ => .sort
  | fields _ => .fields
  | skip _ => .skip
  | limit _ => .limit

/-- All arguments are of the sort that the builder takes. -/
def fits : BuilderCall → Bool
  | filter args => args.all fun v => (Description.filterOf? v).isSome
  | sort args => args.all fun v => (SortSpec.ofRecord? v).isSome
  | fields args => args.all fun v => (Field.ofRecord? v).isSome
  | skip (int n) | limit (int n) => decide (0 ≤ n)
  | skip _ | limit _ => false

def filtersOf : BuilderCall → List Filter
  | filter args => args.filterMap Description.filterOf?
  | _ => []

def sortsOf : BuilderCall → List SortSpec
  | sort args => args.filterMap SortSpec.ofRecord?
  | _ => []

def fieldsOf : BuilderCall → List Field
  | fields args => args.filterMap Field.ofRecord?
  | _ => []

def skipsOf : BuilderCall → List Nat
  | skip (int n) => [n.toNat]
  | _ => []

def limitsOf : BuilderCall → List Nat
  | limit (int n) => [n.toNat]
  | _ => []

/-- What the calls that succeed hand over, one call after the other. -/
def handed {α : Type} (f : BuilderCall → List α) (cs : List BuilderCall) : List α :=
  (cs.filter fits).flatMap f

section Handed

variable {α : Type} {f : BuilderCall → List α} {c : BuilderCall} {cs : List BuilderCall}

theorem handed_append (cs' : List BuilderCall) :
    handed f (cs ++ cs') = handed f cs ++ handed f cs' := by
  rw [handed, List.filter_append, List.flatMap_append]
  rfl

theorem handed_fits (h : c.fits = true) : handed f [c] = f c := by
  rw [handed, List.filter_cons_of_pos h]
  simp

theorem handed_unfit (h : c.fits = false) : handed f [c] = [] := by
  simp [handed, h]

/-- Calls of other builders hand over nothing. -/
theorem handed_of_builder {b : Builder} (hf : ∀ c, c.builder ≠ b → f c = []) :
    handed f (cs.filter fun c => c.builder = b) = handed f cs := by
  have hnone : ∀ c ∈ cs.filter fits, c.builder ≠ b → f c = [] := fun c _ => hf c
  rw [handed, handed, List.filter_comm]
  generalize cs.filter fits = done at hnone
  induction done with
  | nil => rfl
  | cons c cs ih =>
    have hrest := ih fun d hd => hnone d (List.mem_cons_of_mem c hd)
    by_cases hb : c.builder = b
    · rw [List.filter_cons_of_pos (by simpa using hb), List.flatMap_cons, List.flatMap_cons, hrest]
    · rw [List.filter_cons_of_neg (by simpa using hb), List.flatMap_cons, hf c hb, hrest]
      rfl

end Handed

end BuilderCall

namespace Description

open BuilderCall

def call (d : Description) : BuilderCall → Except Error Description
  | .filter args => d.filter args
  | .sort args => d.sort args
  | .fields args => d.select args
  | .skip n => d.skip n
  | .limit n => d.limit n

/-- The description in use after a call: one that is refused leaves it. -/
def afterCall (d : Description) (c : BuilderCall) : Description :=
  match d.call c with
  | .ok e => e
  | .error _ => d

def afterCalls (d : Description) (cs : List BuilderCall) : Description := cs.foldl afterCall d

/-- A description with all that the calls hand over after what it has. -/
def gathered (d : Description) (cs : List BuilderCall) : Description where
  filterStack := (d.filters ++ handed filtersOf cs).reverse
  sortStack := (d.sorts ++ handed sortsOf cs).reverse
  fields := (handed fieldsOf cs).foldl addField d.fields
  skipped := (handed skipsOf cs).getLast?.getD d.skipped
  limited := (handed limitsOf cs).getLast?.getD d.limited

section Calls

variable {α β : Type} {read : Value → Option α} {args : List Value}
variable {d : Description} {c : BuilderCall} {cs : List BuilderCall}

/-- What is pushed one after the other stands last where the stack is read in reverse. -/
theorem foldl_push (as stack : List α) : as.foldl push stack = (stack.reverse ++ as).reverse := by
  induction as generalizing stack with
  | nil => simp
  | cons a as ih => simp [ih, push]

theorem takeIn_eq (what : String) (add : β → α → β) (b : β) :
    takeIn what read add b args = (readAll what read args).map fun as => as.foldl add b := by
  induction args generalizing b with
  | nil => rfl
  | cons v vs ih =>
    rw [takeIn, readAll]
    cases read v with
    | none => rfl
    | some a =>
      dsimp only
      rw [ih]
      cases readAll what read vs <;> rfl

theorem readAll_all (what : String) (h : args.all (fun v => (read v).isSome) = true) :
    readAll what read args = .ok (args.filterMap read) := by
  induction args with
  | nil => rfl
  | cons v vs ih =>
    rw [List.all_cons, Bool.and_eq_true] at h
    obtain ⟨a, ha⟩ := Option.isSome_iff_exists.mp h.1
    rw [readAll, ha, List.filterMap_cons_some ha, ih h.2]

theorem readAll_some (what : String) (h : args.all (fun v => (read v).isSome) = false) :
    ∃ v ∈ args, read v = none ∧
      readAll what read args = .error (.invalid (.expected what v.typeName)) := by
  induction args with
  | nil => cases h
  | cons v vs ih =>
    cases hv : read v with
    | none => exact ⟨v, by simp, hv, by rw [readAll, hv]⟩
    | some a =>
      have hrest : vs.all (fun v => (read v).isSome) = false := by simpa [hv] using h
      obtain ⟨w, hw, hnone, herror⟩ := ih hrest
      exact ⟨w, by simp [hw], hnone, by rw [readAll, hv, herror]⟩

/-- A call whose arguments fit adds them. -/
theorem call_fits (h : c.fits = true) : d.call c = .ok (d.gathered [c]) := by
  simp only [gathered, handed_fits h, filters, sorts]
  cases c with
  | filter args =>
    rw [call, Description.filter, readAll_all _ h]
    simp [foldl_push, filtersOf, sortsOf, fieldsOf, skipsOf, limitsOf]
  | sort args =>
    rw [call, sort, takeIn_eq, readAll_all _ h]
    simp [Except.map, foldl_push, filtersOf, sortsOf, fieldsOf, skipsOf, limitsOf]
  | fields args =>
    rw [call, select, takeIn_eq, readAll_all _ h]
    simp [Except.map, filtersOf, sortsOf, fieldsOf, skipsOf, limitsOf]
  | skip n =>
    cases n with
    | int n =>
      have hn : ¬ n < 0 := by simpa [fits] using h
      simp [call, skip, count, hn, filtersOf, sortsOf, fieldsOf, skipsOf, limitsOf]
    | _ => cases h
  | limit n =>
    cases n with
    | int n =>
      have hn : ¬ n < 0 := by simpa [fits] using h
      simp [call, limit, count, hn, filtersOf, sortsOf, fieldsOf, skipsOf, limitsOf]
    | _ => cases h

/-- A call whose arguments do not fit is refused as invalid. -/
theorem call_unfit (h : c.fits = false) : ∃ cause, d.call c = .error (.invalid cause) := by
  cases c with
  | filter args =>
    obtain ⟨v, _, _, hv⟩ := readAll_some "Filter" h
    exact ⟨_, by rw [call, Description.filter, hv]⟩
  | sort args =>
    obtain ⟨v, _, _, hv⟩ := readAll_some "SortSpec" h
    exact ⟨_, by rw [call, sort, takeIn_eq, hv]; rfl⟩
  | fields args =>
    obtain ⟨v, _, _, hv⟩ := readAll_some "Field" h
    exact ⟨_, by rw [call, select, takeIn_eq, hv]; rfl⟩
  | skip n =>
    cases n with
    | int n =>
      have hn : n < 0 := by simpa [fits] using h
      exact ⟨_, by rw [call, skip, count, if_pos hn]⟩
    | _ => exact ⟨_, rfl⟩
  | limit n =>
    cases n with
    | int n =>
      have hn : n < 0 := by simpa [fits] using h
      exact ⟨_, by rw [call, limit, count, if_pos hn]⟩
    | _ => exact ⟨_, rfl⟩

theorem call_ok_iff : (∃ e, d.call c = .ok e) ↔ c.fits = true := by
  constructor
  · rintro ⟨e, he⟩
    by_contra hc
    obtain ⟨cause, herror⟩ := call_unfit (d := d) (Bool.not_eq_true _ ▸ hc)
    rw [he] at herror
    cases herror
  · intro h
    exact ⟨_, call_fits h⟩

theorem gathered_nil : d.gathered [] = d := by simp [gathered, handed, filters, sorts]

theorem gathered_append (cs' : List BuilderCall) :
    d.gathered (cs ++ cs') = (d.gathered cs).gathered cs' := by
  simp only [gathered, filters, sorts, List.reverse_reverse, handed_append, List.append_assoc,
    List.foldl_append, List.getLast?_append, Option.getD_or]

/-- One call: what it hands over, which is nothing where it is refused. -/
theorem afterCall_eq : d.afterCall c = d.gathered [c] := by
  cases hc : c.fits with
  | true => rw [afterCall, call_fits hc]
  | false =>
    obtain ⟨cause, herror⟩ := call_unfit (d := d) hc
    rw [afterCall, herror]
    simp [gathered, handed_unfit hc, filters, sorts]

/-- A run of calls, by induction with the step above. -/
theorem afterCalls_eq : d.afterCalls cs = d.gathered cs := by
  induction cs generalizing d with
  | nil => rw [gathered_nil, afterCalls, List.foldl_nil]
  | cons c cs ih =>
    have hcons : d.afterCalls (c :: cs) = (d.afterCall c).afterCalls cs := rfl
    rw [hcons, ih, afterCall_eq, ← gathered_append, List.singleton_append]

theorem afterCalls_append (cs' : List BuilderCall) :
    d.afterCalls (cs ++ cs') = (d.afterCalls cs).afterCalls cs' := List.foldl_append

end Calls

section Splitting

variable {α : Type} {read : Value → Option α} {d e : Description} {cs : List BuilderCall}
variable {mk : List Value → BuilderCall} {parts : List (List Value)}

/-- Calls one on the result of the other, up to the first that is refused. -/
def chain (d : Description) (cs : List BuilderCall) : Except Error Description := cs.foldlM call d

theorem chain_cons (c : BuilderCall) :
    d.chain (c :: cs) = (d.call c).bind fun e => e.chain cs := rfl

/-- The calls that take any number of arguments. -/
def variadic : List (List Value → BuilderCall) := [.filter, .sort, .fields]

theorem readAll_append (what : String) (as bs : List Value) :
    readAll what read (as ++ bs) =
      (readAll what read as).bind fun xs => (readAll what read bs).map (xs ++ ·) := by
  induction as with
  | nil =>
    rw [List.nil_append, readAll]
    cases readAll what read bs <;> rfl
  | cons v vs ih =>
    rw [List.cons_append, readAll, readAll]
    cases read v with
    | none => rfl
    | some a =>
      rw [ih]
      cases readAll what read vs with
      | error e => rfl
      | ok xs => cases readAll what read bs <;> rfl

/-- A builder that reads its arguments and adds what they stand for. -/
structure Adder (α : Type) (mk : List Value → BuilderCall) where
  what : String
  read : Value → Option α
  add : Description → List α → Description
  call_eq : ∀ d args, call d (mk args) = (readAll what read args).map (add d)
  add_nil : ∀ d, add d [] = d
  add_append : ∀ d as bs, add d (as ++ bs) = add (add d as) bs

def filterAdder : Adder Filter .filter where
  what := "Filter"
  read := filterOf?
  add d fs := { d with filterStack := fs.foldl push d.filterStack }
  call_eq d args := by
    rw [call, Description.filter]
    cases readAll "Filter" filterOf? args <;> rfl
  add_nil _ := rfl
  add_append d as bs := by simp

def sortAdder : Adder SortSpec .sort where
  what := "SortSpec"
  read := SortSpec.ofRecord?
  add d ss := { d with sortStack := ss.foldl push d.sortStack }
  call_eq d args := by
    rw [call, sort, takeIn_eq]
    cases readAll "SortSpec" SortSpec.ofRecord? args <;> rfl
  add_nil _ := rfl
  add_append d as bs := by simp

def fieldsAdder : Adder Field .fields where
  what := "Field"
  read := Field.ofRecord?
  add d fs := { d with fields := fs.foldl addField d.fields }
  call_eq d args := by
    rw [call, select, takeIn_eq]
    cases readAll "Field" Field.ofRecord? args <;> rfl
  add_nil _ := rfl
  add_append d as bs := by simp

theorem Adder.call_nil (a : Adder α mk) : d.call (mk []) = .ok d := by
  rw [a.call_eq, readAll]
  exact congrArg Except.ok (a.add_nil d)

theorem Adder.call_append (a : Adder α mk) (as bs : List Value) :
    d.call (mk (as ++ bs)) = (d.call (mk as)).bind fun e => e.call (mk bs) := by
  simp only [a.call_eq, readAll_append]
  cases readAll a.what a.read as with
  | error e => rfl
  | ok xs =>
    cases readAll a.what a.read bs with
    | error e => rfl
    | ok ys => exact congrArg Except.ok (a.add_append d xs ys)

theorem Adder.chain_split (a : Adder α mk) :
    d.chain (parts.map mk) = d.call (mk parts.flatten) := by
  induction parts generalizing d with
  | nil => exact a.call_nil.symm
  | cons part parts ih =>
    rw [List.map_cons, chain_cons, List.flatten_cons, a.call_append]
    cases d.call (mk part) with
    | error e => rfl
    | ok e => exact ih

/-- Arguments may be handed over in several calls. -/
theorem chain_split (hmk : mk ∈ variadic) : d.chain (parts.map mk) = d.call (mk parts.flatten) := by
  simp only [variadic, List.mem_cons, List.not_mem_nil, or_false] at hmk
  rcases hmk with rfl | rfl | rfl
  · exact filterAdder.chain_split
  · exact sortAdder.chain_split
  · exact fieldsAdder.chain_split

theorem afterCalls_of_chain (h : d.chain cs = .ok e) : d.afterCalls cs = e := by
  induction cs generalizing d with
  | nil => exact Except.ok.inj h
  | cons c cs ih =>
    rw [chain_cons] at h
    cases hc : d.call c with
    | error f =>
      rw [hc] at h
      cases h
    | ok m =>
      rw [hc] at h
      have hstep : d.afterCall c = m := by rw [afterCall, hc]
      have hcons : d.afterCalls (c :: cs) = (d.afterCall c).afterCalls cs := rfl
      rw [hcons, hstep]
      exact ih h

theorem afterCalls_split (hmk : mk ∈ variadic) (h : (mk parts.flatten).fits = true) :
    d.afterCalls (parts.map mk) = d.afterCalls [mk parts.flatten] := by
  refine afterCalls_of_chain ?_
  rw [chain_split hmk, call_fits h, afterCalls_eq]

end Splitting

section Reordering

variable {d : Description} {cs cs' : List BuilderCall}

/-- Only the order of the calls of one builder matters. -/
theorem afterCalls_reorder
    (h : ∀ b, cs.filter (fun c => c.builder = b) = cs'.filter (fun c => c.builder = b)) :
    d.afterCalls cs = d.afterCalls cs' := by
  have hhanded {α : Type} {f : BuilderCall → List α} (b : Builder)
      (hf : ∀ c, c.builder ≠ b → f c = []) : handed f cs = handed f cs' := by
    rw [← handed_of_builder hf, h b, handed_of_builder hf]
  have hfilters : handed filtersOf cs = handed filtersOf cs' :=
    hhanded .filter fun c hc => by cases c <;> first | rfl | exact absurd rfl hc
  have hsorts : handed sortsOf cs = handed sortsOf cs' :=
    hhanded .sort fun c hc => by cases c <;> first | rfl | exact absurd rfl hc
  have hfields : handed fieldsOf cs = handed fieldsOf cs' :=
    hhanded .fields fun c hc => by cases c <;> first | rfl | exact absurd rfl hc
  have hskips : handed skipsOf cs = handed skipsOf cs' :=
    hhanded .skip fun c hc => by cases c <;> first | rfl | exact absurd rfl hc
  have hlimits : handed limitsOf cs = handed limitsOf cs' :=
    hhanded .limit fun c hc => by cases c <;> first | rfl | exact absurd rfl hc
  rw [afterCalls_eq, afterCalls_eq, gathered, gathered, hfilters, hsorts, hfields, hskips, hlimits]

end Reordering

section Fields

/-- The fields of a list, of each name the first. -/
def firstOfEach : List Field → List Field
  | [] => []
  | f :: fs => f :: (firstOfEach fs).filter fun g => g.name ≠ f.name

theorem addField_eq (fs : List Field) (f : Field) :
    addField fs f = if f.name ∈ fs.map Field.name then fs else fs ++ [f] := by
  simp [addField]

theorem foldl_addField (fs gs : List Field) :
    fs.foldl addField gs = gs ++ (firstOfEach fs).filter fun f => f.name ∉ gs.map Field.name := by
  induction fs generalizing gs with
  | nil => simp [firstOfEach]
  | cons f fs ih =>
    rw [List.foldl_cons, ih, firstOfEach, addField_eq]
    by_cases hf : f.name ∈ gs.map Field.name
    · rw [if_pos hf, List.filter_cons_of_neg (by simpa using hf), List.filter_filter]
      congr 1
      refine List.filter_congr fun g _ => ?_
      by_cases hg : g.name = f.name
      · simp [hg, hf]
      · simp [hg]
    · rw [if_neg hf, List.filter_cons_of_pos (by simpa using hf), List.filter_filter,
        List.append_assoc, List.singleton_append]
      congr 2
      refine List.filter_congr fun g _ => ?_
      by_cases hg : g.name = f.name
      · simp [hg]
      · simp [hg]

theorem firstOfEach_distinct (fs : List Field) :
    (firstOfEach fs).Pairwise fun f g => f.name ≠ g.name := by
  induction fs with
  | nil => exact .nil
  | cons f fs ih =>
    refine List.pairwise_cons.mpr ⟨fun g hg => ?_, ih.filter _⟩
    have hne : g.name ≠ f.name := by simpa using (List.mem_filter.mp hg).2
    exact hne.symm

end Fields

/-- What is described after a run of calls, from nothing on. -/
structure Built (cs : List BuilderCall) (d : Description) : Prop where
  filters : d.filters = handed filtersOf cs
  sorts : d.sorts = handed sortsOf cs
  fields : d.fields = firstOfEach (handed fieldsOf cs)
  skipped : d.skipped = (handed skipsOf cs).getLast?.getD 0
  limited : d.limited = (handed limitsOf cs).getLast?.getD 0

theorem built_afterCalls (cs : List BuilderCall) : Built cs (everything.afterCalls cs) := by
  have heq : everything.afterCalls cs = everything.gathered cs := afterCalls_eq
  rw [heq]
  refine ⟨List.reverse_reverse _, List.reverse_reverse _, ?_, rfl, rfl⟩
  have hfold := foldl_addField (handed fieldsOf cs) []
  have hall : (firstOfEach (handed fieldsOf cs)).filter (fun f => f.name ∉ ([] : List String)) =
      firstOfEach (handed fieldsOf cs) := List.filter_eq_self.mpr fun f _ => by simp
  rw [List.nil_append, List.map_nil, hall] at hfold
  exact hfold

end Description

namespace Plan

variable {s : Schema} {fields : List Field}

/-- The names to read: those of the fields, and that of the class where it is none of them. -/
def namesRead (s : Schema) (names : List String) : List String :=
  if s.classField ∈ names then names else names ++ [s.classField]

/-- Names, each to be read. -/
def reads (names : List String) : Entries := names.map fun n => (str n, bool true)

theorem reads_keyed {names : List String} (h : names.Nodup) : (reads names).Keyed := by
  refine ⟨fun p hp => ?_, List.pairwise_map.mpr (h.imp fun hne he => hne (str.inj he))⟩
  obtain ⟨n, _, rfl⟩ := List.mem_map.mp hp
  exact ⟨n, rfl⟩

/-- A projection of fields of different names has exactly these names and that of the class. -/
theorem projectionOf_distinct (h : fields.Pairwise fun f g => f.name ≠ g.name) :
    projectionOf s fields =
      if fields = [] then null else dict (reads (namesRead s (fields.map Field.name))) := by
  by_cases hf : fields = []
  · rw [projectionOf, if_pos hf, hf]
    rfl
  · have hkeyed := reads_keyed (List.pairwise_map.mpr h)
    have hlist : Entries.ofList (reads (fields.map Field.name)) = reads (fields.map Field.name) :=
      Entries.merge_of_disjoint hkeyed fun _ _ p hp => by cases hp
    have hmap : (fields.map fun f : Field => (str f.name, Value.bool true)) =
        reads (fields.map Field.name) := by
      simp [reads]
    rw [projectionOf, if_neg (by simpa using hf), if_neg hf, hmap, hlist, namesRead]
    by_cases hc : s.classField ∈ fields.map Field.name
    · have hin : (str s.classField, bool true) ∈ reads (fields.map Field.name) :=
        List.mem_map_of_mem hc
      rw [if_pos hc, Entries.put_same (hkeyed.get?_of_mem hin)]
    · have hout : Entries.get? (str s.classField) (reads (fields.map Field.name)) = none := by
        refine Entries.get?_eq_none_iff.mpr fun p hp he => hc ?_
        obtain ⟨n, hn, rfl⟩ := List.mem_map.mp hp
        rwa [← str.inj he]
      rw [if_neg hc, Entries.put_of_absent _ hout]
      simp [reads]

end Plan

namespace Description

open BuilderCall

/-- The keys to sort by that the calls that succeed name, if all can be read. -/
def keysOf (cs : List BuilderCall) : Except Error (List (Value × Int)) :=
  (handed sortsOf cs).mapM SortSpec.key

/-- The fields of the calls that succeed, to be read with the name of the class. -/
def projectedBy (s : Schema) (cs : List BuilderCall) : Value :=
  let fields := firstOfEach (handed fieldsOf cs)
  if fields = [] then null else dict (Plan.reads (Plan.namesRead s (fields.map Field.name)))

/-- The plan for what some calls hand over, once there are a query document for the filters and
keys to sort by. -/
def planned (s : Schema) (cs : List BuilderCall) (query : Entries) (keys : List (Value × Int)) :
    Plan where
  query := dict query
  projection := projectedBy s cs
  sort := Plan.sortOf keys
  skip := int ((handed skipsOf cs).getLast?.getD 0 : Nat)
  limit := int ((handed limitsOf cs).getLast?.getD 0 : Nat)

/-- Planning what some calls hand over: the filters are compiled, and then the keys are read. -/
def plannedBy (cat : Catalog) (s : Schema) (depth : Value) (cs : List BuilderCall) :
    Naming Plan := do
  let query ← Filter.compileAll cat s depth [] (handed filtersOf cs)
  let keys ← liftExcept (keysOf cs)
  pure (planned s cs query keys)

theorem Built.plan {cs : List BuilderCall} {d : Description} (h : Built cs d) (cat : Catalog)
    (s : Schema) (depth : Value) :
    Plan.ofDescription cat s depth d = plannedBy cat s depth cs := by
  have hprojection := Plan.projectionOf_distinct (s := s) (firstOfEach_distinct (handed fieldsOf cs))
  rw [Plan.ofDescription, h.filters, h.sorts, h.fields, h.skipped, h.limited, hprojection]
  rfl

theorem key_field (f : Field) {d : Value} {n : Int} (h : d.toInteger = .ok n) :
    SortSpec.key ⟨f.toValue, d⟩ = .ok (str f.name, n) := by
  rw [SortSpec.key, h]
  rfl

/-- Keys of fields are read, in the order in which they were handed over. -/
theorem keysOf_fields {cs : List BuilderCall} {given : List (Field × Value × Int)}
    (hgiven : handed sortsOf cs = given.map fun g => ⟨g.1.toValue, g.2.1⟩)
    (h : ∀ g ∈ given, g.2.1.toInteger = .ok g.2.2) :
    keysOf cs = .ok (given.map fun g => (str g.1.name, g.2.2)) := by
  rw [keysOf, hgiven]
  clear hgiven
  induction given with
  | nil => rfl
  | cons g given ih =>
    obtain ⟨hg, hrest⟩ := List.forall_mem_cons.mp h
    rw [List.map_cons, List.mapM_cons, key_field g.1 hg, ih hrest]
    rfl

/-- The first key that cannot be read is the fault. -/
theorem keysOf_fault {cs : List BuilderCall} {before after : List SortSpec} {k : SortSpec}
    {e : Error} (hhanded : handed sortsOf cs = before ++ k :: after)
    (hbefore : ∀ b ∈ before, ∃ n, b.key = .ok n) (hk : k.key = .error e) :
    keysOf cs = .error e := by
  rw [keysOf, hhanded]
  clear hhanded
  induction before with
  | nil =>
    rw [List.nil_append, List.mapM_cons, hk]
    rfl
  | cons b before ih =>
    obtain ⟨⟨n, hn⟩, hrest⟩ := List.forall_mem_cons.mp hbefore
    rw [List.cons_append, List.mapM_cons, hn, ih hrest]
    rfl

/-- Where the first sort key tells two documents apart, it decides. -/
theorem sortDocuments_primary {keys : List (String × Int)} {documents : List Value}
    (h : Sortable keys documents) :
    ∃ places : List (Fin documents.length), places.Perm (List.finRange documents.length) ∧
      sortDocuments documents (keys.map keyOf) = .ok (places.map documents.get) ∧
      ∀ k, keys.head? = some k → ∀ i j,
        orderBy [k] (documents.get i) (documents.get j) = .lt → places.idxOf i < places.idxOf j := by
  obtain ⟨places, hperm, hrun, hbefore⟩ := sortDocuments_run h
  refine ⟨places, hperm, hrun, fun k hk i j hlt => ?_⟩
  obtain ⟨rest, hkeys⟩ := List.head?_eq_some_iff.mp hk
  have hsplit : orderBy keys (documents.get i) (documents.get j) =
      (orderBy [k] (documents.get i) (documents.get j)).then
        (orderBy rest (documents.get i) (documents.get j)) := by
    rw [hkeys]
    simp [orderBy]
  refine (hbefore i j).mpr (.inl ?_)
  rw [hsplit, hlt]
  rfl

/-- A key whose name is a text, as it is read. -/
def named (k : String × Int) : Value × Int := (str k.1, k.2)

theorem name_named : fieldNameFault? "name" = none := rfl

theorem age_named : fieldNameFault? "age" = none := rfl

def nameField : Field := ⟨"name", .object, name_named⟩

def ageField : Field := ⟨"age", .object, age_named⟩

/-- Calls for the runners, two of them refused. -/
def runnerCalls : List BuilderCall :=
  [.sort [ageField.descending.toValue], .fields [nameField.toValue], .filter [int 1],
    .sort [SortSpec.toValue ⟨nameField.toValue, int 1⟩], .limit (int 3),
    .fields [ageField.toValue, nameField.toValue], .limit (int (-1))]

theorem keysOf_runnerCalls : keysOf runnerCalls = .ok (ageThenName.map named) := rfl

end Description

end DocStore
