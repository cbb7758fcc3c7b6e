import DocStore.Proofs.Codec.Definite
import DocStore.Proofs.Filter.Dictionary
import DocStore.Proofs.Filter.Refusals

/-! Queries for what an object has. A path of attributes that leads through embedded objects, and
through lists of them, finds the object's document by the value at its end. -/

namespace DocStore

open Value

/-- The identifier has a name of its own in the header. -/
def Schema.KeepsId (s : Schema) : Prop := s.classField ≠ s.idField ∧ s.revisionField ≠ s.idField

instance (s : Schema) : Decidable s.KeepsId :=
  inferInstanceAs (Decidable (s.classField ≠ s.idField ∧ s.revisionField ≠ s.idField))

namespace Codec

variable {cat : Catalog} {s : Schema} {c n : String} {fs : Entries} {u v w : Value}
  {r t : Registry}

/-- What a record has under the name that it is written under: a field under its own, the
identifier under the schema's name for it, if no field is written there. -/
inductive Attribute (cat : Catalog) (s : Schema) (c : String) (fs : Entries) :
    String → Value → Prop
  | field {n : String} {v : Value} (hn : isIdentity cat c (str n) = false)
      (hv : Entries.get? (str n) fs = some v) : Attribute cat s c fs n v
  | id {i : Uuid} (hi : (cat.class? c).any ClassSpec.identifiable = true)
      (hv : Entries.get? (str "id") fs = some (uuid i)) (hfree : Unwritten cat c fs s.idField) :
      Attribute cat s c fs s.idField (uuid i)

/-- A value itself, or an item of it if it is a list or a tuple. -/
inductive Picks : Value → Value → Prop
  | self (v : Value) : Picks v v
  | item {xs : List Value} {x : Value} (hx : x ∈ xs) : Picks (list xs) x
  | member {xs : List Value} {x : Value} (hx : x ∈ xs) : Picks (tuple xs) x

/-- A path of attributes leads from a record to a value. Each attribute but the last holds a record,
or a list or tuple from which a record is picked. -/
inductive Leads (cat : Catalog) (s : Schema) : List String → Value → Value → Prop
  | last {c n : String} {fs : Entries} {v : Value} (hfs : fs.Keyed)
      (hv : Attribute cat s c fs n v) : Leads cat s [n] (.record c fs) v
  | further {c n : String} {fs : Entries} {u x v : Value} {rest : List String} (hfs : fs.Keyed)
      (hu : Attribute cat s c fs n u) (hx : Picks u x) (h : Leads cat s rest x v) :
      Leads cat s (n :: rest) (.record c fs) v

theorem Attribute.written (ha : Attribute cat s c fs n v) (hfs : fs.Keyed)
    (hid : n = s.idField → s.KeepsId) (h : toValue cat s (.record c fs) r = (.ok w, t)) :
    ∃ es x, w = dict es ∧ Entries.get? (str n) es = some x ∧ WrittenWithin cat s r t v x := by
  cases ha with
  | field hn hv => exact record_field hfs h hv hn
  | @id i hi hv hfree =>
    obtain ⟨start, _, es, hstart, _, rfl, hget⟩ := record_header hfree h
    obtain ⟨hclass, hrevision⟩ := hid rfl
    have hstored := header_id hi hclass hrevision hv hstart
    exact ⟨es, uuid i, rfl, hget.trans hstored, t, t, (toValue_steady cat s _).grows h, rfl,
      .refl cat t⟩

/-- A record that is picked is written as a dictionary, which paths reach from what the whole is
written as. -/
theorem Picks.written (hx : Picks u (.record c fs)) (h : toValue cat s u r = (.ok w, t)) :
    ∃ ps, WrittenWithin cat s r t (.record c fs) (dict ps) ∧
      ∀ n rest b, isIndex n = false → Reaches (n :: rest) (dict ps) b → Reaches (n :: rest) w b := by
  have hitems {xs ys : List Value} (hx : record c fs ∈ xs)
      (hys : toValues cat s xs r = (.ok ys, t)) :
      ∃ ps, WrittenWithin cat s r t (.record c fs) (dict ps) ∧ ∀ n rest b, isIndex n = false →
        Reaches (n :: rest) (dict ps) b → Reaches (n :: rest) (list ys) b := by
    obtain ⟨y, hy, r', t', hr, hw, ht⟩ := toValues_mem hys hx
    obtain ⟨start, _, gs, _, _, rfl⟩ := toValue_record hw
    exact ⟨_, ⟨r', t', hr, hw, ht⟩, fun n rest b hn hb => .across hn hy hb⟩
  cases hx with
  | self =>
    obtain ⟨start, _, gs, _, _, rfl⟩ := toValue_record h
    exact ⟨_, .of_run h, fun n rest b _ hb => hb⟩
  | item hx =>
    rw [toValue] at h
    obtain ⟨ys, _, hys, h⟩ := bind_eq_ok_iff.mp h
    cases h
    exact hitems hx hys
  | member hx =>
    rw [toValue] at h
    obtain ⟨ys, _, hys, h⟩ := bind_eq_ok_iff.mp h
    cases h
    exact hitems hx hys

theorem Leads.from_record {path : List String} (h : Leads cat s path u v) :
    ∃ n rest c fs, path = n :: rest ∧ u = .record c fs := by
  cases h with
  | last => exact ⟨_, _, _, _, rfl, rfl⟩
  | further => exact ⟨_, _, _, _, rfl, rfl⟩

/-- The path reaches, in what the record is written as, what the value is written as. -/
theorem Leads.written {path : List String} (h : Leads cat s path u v)
    (hnames : ∀ n ∈ path, isIndex n = false) (hid : s.idField ∈ path → s.KeepsId) :
    ∀ {r t w}, toValue cat s u r = (.ok w, t) →
      ∃ b, Reaches path w b ∧ WrittenWithin cat s r t v b := by
  induction h with
  | last hfs hv =>
    intro r t w hw
    obtain ⟨es, x, rfl, hget, hx⟩ := hv.written hfs (fun hn => hid (by simp [hn])) hw
    exact ⟨x, .entry hget (.here x), hx⟩
  | further hfs hu hx hrest ih =>
    intro r t w hw
    obtain ⟨es, y, rfl, hget, r₁, t₁, hr₁, hy, ht₁⟩ :=
      hu.written hfs (fun hn => hid (by simp [hn])) hw
    obtain ⟨m, rest, c, fs, rfl, rfl⟩ := hrest.from_record
    obtain ⟨ps, ⟨r₂, t₂, hr₂, hps, ht₂⟩, hreach⟩ := hx.written hy
    obtain ⟨b, hb, hv⟩ := ih (fun k hk => hnames k (List.mem_cons_of_mem _ hk))
      (fun hk => hid (List.mem_cons_of_mem _ hk)) hps
    have hm : isIndex m = false := hnames m (by simp)
    exact ⟨b, .entry hget (hreach m rest b hm hb), (hv.wider hr₂ ht₂).wider hr₁ ht₁⟩

end Codec

namespace Filter

variable {cat : Catalog} {s : Schema} {m : Int} {fields : List Field} {f : Field} {g : Filter}
  {op : Operator} {v : Value}

/-- A filter inside the documents that are embedded in fields, one in another. -/
def beneath (fields : List Field) (g : Filter) : Filter := fields.foldr sub g

/-- The path under which such a filter stands. -/
def scopeOf (path : String) (fields : List Field) : String :=
  fields.foldl (fun p f => p ++ f.name ++ ".") path

theorem segments_scopeOf (hfields : ∀ f ∈ fields, '.' ∉ f.name.toList) {n : String}
    (hn : '.' ∉ n.toList) (p : String) :
    segments (scopeOf (p ++ ".") fields ++ n) = segments p ++ fields.map Field.name ++ [n] := by
  induction fields generalizing p with
  | nil => rw [scopeOf, List.foldl_nil, segments_append_dot, segments_of_no_dot hn]; simp
  | cons f fields ih =>
    obtain ⟨hf, hfields⟩ := List.forall_mem_cons.mp hfields
    have hp := ih hfields (p ++ "." ++ f.name)
    rw [segments_append_dot, segments_of_no_dot hf] at hp
    simpa [scopeOf] using hp

/-- The path of a field that is embedded in others consists of their names. -/
theorem segments_embedded (hfields : ∀ f ∈ fields, '.' ∉ f.name.toList) {n : String}
    (hn : '.' ∉ n.toList) :
    segments (scopeOf "" fields ++ n) = fields.map Field.name ++ [n] := by
  cases fields with
  | nil => simpa [scopeOf] using segments_of_no_dot hn
  | cons f fields =>
    obtain ⟨hf, hfields⟩ := List.forall_mem_cons.mp hfields
    have hp := segments_scopeOf hfields hn f.name
    rw [segments_of_no_dot hf] at hp
    simpa [scopeOf] using hp

theorem beneath_wellFormed (hfields : ∀ f ∈ fields, Readable f.name) (hg : g.WellFormed) :
    (beneath fields g).WellFormed := by
  induction fields with
  | nil => exact hg
  | cons f fields ih =>
    obtain ⟨hf, hfields⟩ := List.forall_mem_cons.mp hfields
    exact .of_sub hf (ih hfields)

theorem holds_beneath {stored : Value → Value} {d : Value} {path : String} :
    (beneath fields g).Holds stored d path ↔ g.Holds stored d (scopeOf path fields) := by
  induction fields generalizing path with
  | nil => rfl
  | cons f fields ih =>
    rw [beneath, List.foldr_cons, Holds]
    exact ih

theorem balks_beneath {stored : Value → Value} {d : Value} {path : String} :
    (beneath fields g).Balks stored d path ↔ g.Balks stored d (scopeOf path fields) := by
  induction fields generalizing path with
  | nil => rfl
  | cons f fields ih =>
    rw [beneath, List.foldr_cons, Balks]
    exact ih

theorem checkDepth_ok {depth : Nat} (h : (depth : Int) ≤ m) : checkDepth (int m) depth = .ok () := by
  have hdeep : failure? (checkDepth (int m) depth) = none := by
    rw [checkDepth_failure, deep?, if_neg (by omega)]
  obtain ⟨⟨⟩, hok⟩ := failure?_eq_none_iff.mp hdeep
  exact hok

theorem compileAt_beneath {depth : Nat} {path : String} (h : (depth : Int) + fields.length ≤ m) :
    compileAt cat s (int m) depth path (beneath fields g) =
      compileAt cat s (int m) (depth + fields.length) (scopeOf path fields) g := by
  induction fields generalizing depth path with
  | nil => rfl
  | cons f fields ih =>
    rw [List.length_cons] at h
    have hdepth : checkDepth (int m) depth = .ok () := checkDepth_ok (by omega)
    have hinner : ((depth + 1 : Nat) : Int) + fields.length ≤ m := by
      push_cast at h ⊢
      omega
    have hlength : depth + (f :: fields).length = depth + 1 + fields.length := by
      rw [List.length_cons]
      omega
    rw [beneath, List.foldr_cons, compileAt, hdepth, hlength]
    exact ih hinner

/-- A comparison that is embedded not too deep compiles as its operand is written. -/
theorem compile_beneath {word : String} (hop : op.condition? = some word) (hre : op ≠ .regex)
    (h : (fields.length : Int) + 1 ≤ m) :
    compile cat s (int m) "" (beneath fields (field f op v)) = (do
      let w ← Codec.toValue cat s v
      pure (dict [(str (scopeOf "" fields ++ f.name), dict [(str word, w)])])) := by
  have hdepth : checkDepth (int m) (1 + fields.length) = .ok () := checkDepth_ok (by omega)
  rw [compile, compileAt_beneath (by omega), compileAt, hdepth, compileField, hop,
    operand_eq hre]
  rfl

theorem checkValues_object (hf : f.type = .object) (vs : List Value) : checkValues f vs = .ok () := by
  have hsame : f.untyped = f := by rw [Field.untyped, ← hf]
  exact hsame ▸ checkValues_untyped f vs

theorem compare_untyped (hf : f.type = .object) (hop : op = .equal ∨ op = .notEqual) :
    compare f op v = .ok (field f op v) := by
  rcases hop with rfl | rfl
  · simp [compare, checkValues_object hf, Except.map]
  · simp [compare, checkValues_object hf, Except.map]

theorem compare_untyped_oneOf {xs : List Value} (hf : f.type = .object)
    (hv : members? v = some xs) :
    compare f .oneOf v = .ok (field f .oneOf (tuple xs)) := by
  simp [compare, hv, checkValues_object hf, Except.map]

/-- A filter can be compiled, and a document answers what it compiles to. -/
def Selects (cat : Catalog) (s : Schema) (m : Int) (r : Registry) (d : Value) (g : Filter)
    (b : Bool) : Prop :=
  ∃ q t, compile cat s (int m) "" g r = (.ok q, t) ∧ matchesQuery d q = .ok b

/-- A comparison at a path of plain names says of a document what its operator says of the values
that the names lead to. -/
theorem selects_beneath {r t : Registry} {d w : Value} {word : String} {b : Bool}
    (hnames : ∀ n ∈ (fields ++ [f]).map Field.name, '.' ∉ n.toList ∧ isIndex n = false)
    (hdepth : (fields.length : Int) + 1 ≤ m) (hop : op.condition? = some word) (hre : op ≠ .regex)
    (hmade : compare f op v = .ok (field f op v)) (hw : Codec.toValue cat s v r = (.ok w, t))
    (hb : b = true ↔ op.HoldsAt d (scopeOf "" fields ++ f.name) w) :
    Selects cat s m r d (beneath fields (field f op v)) b := by
  have hreadable : ∀ g ∈ fields ++ [f], Readable g.name := by
    intro g hg n hn hi
    obtain ⟨hdot, hindex⟩ := hnames g.name (List.mem_map_of_mem hg)
    rw [segments_of_no_dot hdot, List.mem_singleton] at hn
    simp [hn, hindex] at hi
  have hformed : (beneath fields (field f op v)).WellFormed :=
    beneath_wellFormed (fun g hg => hreadable g (by simp [hg]))
      (.of_field hmade (hreadable f (by simp)))
  have hcompiled : compile cat s (int m) "" (beneath fields (field f op v)) r =
      (.ok (dict [(str (scopeOf "" fields ++ f.name), dict [(str word, w)])]), t) := by
    rw [compile_beneath hop hre hdepth, bind_of_ok hw]
    rfl
  have hfails : ¬ (beneath fields (field f op v)).Balks (Codec.stored cat s r) d "" := by
    rw [balks_beneath, Balks]
    exact Operator.not_balksAt hre
  obtain ⟨b', hanswer, hholds⟩ :=
    (compileAt_replies _ (.refl cat r) .top .top hformed hcompiled).answered hfails
  rw [holds_beneath, Holds, Codec.stored_of_run hw] at hholds
  exact ⟨_, t, hcompiled, hanswer.trans (congrArg Except.ok
    (Bool.eq_iff_iff.mpr (hholds.trans hb.symm)))⟩

/-- What is written for the value at the end of a path of attributes, under any registry that has
grown from a common one, stands in the document at the path of the fields' names. -/
theorem equalAt_own {obj d : Value} {r₀ r t u : Registry} (hr : Registry.Grown cat r₀ r)
    (hu : Registry.Grown cat r₀ u) (hwritten : Codec.toDocument cat s obj r = (.ok d, t))
    (hleads : Codec.Leads cat s ((fields ++ [f]).map Field.name) obj v) (hv : definite v = true)
    (hnames : ∀ n ∈ (fields ++ [f]).map Field.name, '.' ∉ n.toList ∧ isIndex n = false)
    (hid : s.idField ∈ (fields ++ [f]).map Field.name → s.KeepsId) :
    ∃ w u', Codec.toValue cat s v u = (.ok w, u') ∧
      EqualAt d (scopeOf "" fields ++ f.name) w := by
  have hwhole : Codec.toValue cat s obj r = (.ok d, t) := by
    obtain ⟨_, _, c, fs, _, rfl⟩ := hleads.from_record
    exact hwritten
  obtain ⟨w, hreach, r', t', hr', hw, _⟩ := hleads.written (fun n hn => (hnames n hn).2) hid hwhole
  have hsteady := Codec.toValue_steady cat s v
  obtain ⟨t₀, hw₀, _⟩ := hsteady.back (hr.trans hr') hw
  obtain ⟨u', hwu, _⟩ := hsteady.onward hu hw₀
  have hsegments : segments (scopeOf "" fields ++ f.name) = (fields ++ [f]).map Field.name := by
    rw [List.map_append]
    exact segments_embedded (fun g hg => (hnames g.name (List.mem_map_of_mem (by simp [hg]))).1)
      (hnames f.name (by simp)).1
  have hself : strictEqual w w = true := by
    rw [strictEqual, beq_self_eq_true, Bool.true_and]
    exact equal_self w (Codec.toValue_definite v hw hv)
  exact ⟨w, u', hwu, .inr ⟨w, ⟨w, hsegments ▸ hreach, .inl rfl⟩, hself⟩⟩

/-- An object's own value finds the object's document: a path of attributes that leads to the value
is equal to it and not unequal, and is among any values with this one that can be written. Where
some cannot be, the query fails as writing them does. -/
theorem own_value_found (m : Int) (fields : List Field) (f : Field) {obj d : Value}
    {r₀ r t u : Registry}
    (hr : Registry.Grown cat r₀ r) (hu : Registry.Grown cat r₀ u)
    (hwritten : Codec.toDocument cat s obj r = (.ok d, t))
    (hleads : Codec.Leads cat s ((fields ++ [f]).map Field.name) obj v)
    (hv : definite v = true)
    (hnames : ∀ n ∈ (fields ++ [f]).map Field.name, '.' ∉ n.toList ∧ isIndex n = false)
    (hid : s.idField ∈ (fields ++ [f]).map Field.name → s.KeepsId)
    (hf : f.type = .object) (hdepth : (fields.length : Int) + 1 ≤ m) :
    (∃ g, compare f .equal v = .ok g ∧ Selects cat s m u d (beneath fields g) true) ∧
    (∃ g, compare f .notEqual v = .ok g ∧ Selects cat s m u d (beneath fields g) false) ∧
    ∀ vs xs, members? vs = some xs → v ∈ xs → ∃ g, compare f .oneOf vs = .ok g ∧
      (∀ ys u', Codec.toValues cat s xs u = (.ok ys, u') →
        Selects cat s m u d (beneath fields g) true) ∧
      ∀ e u', Codec.toValues cat s xs u = (.error e, u') →
        compile cat s (int m) "" (beneath fields g) u = (.error e, u') := by
  obtain ⟨w, u', hw, hequal⟩ := equalAt_own hr hu hwritten hleads hv hnames hid
  refine ⟨⟨_, compare_untyped hf (.inl rfl), ?_⟩, ⟨_, compare_untyped hf (.inr rfl), ?_⟩,
    fun vs xs hvs hmem => ⟨_, compare_untyped_oneOf hf hvs, fun ys u'' hys => ?_,
      fun e u'' he => ?_⟩⟩
  · exact selects_beneath hnames hdepth rfl (by decide) (compare_untyped hf (.inl rfl)) hw
      (iff_of_true rfl hequal)
  · exact selects_beneath hnames hdepth rfl (by decide) (compare_untyped hf (.inr rfl)) hw
      (iff_of_false Bool.false_ne_true (fun hne => hne hequal))
  · have hlist : Codec.toValue cat s (tuple xs) u = (.ok (list ys), u'') := by
      rw [Codec.toValue, bind_of_ok hys]
      rfl
    obtain ⟨y, hy, u₁, t₁, hu₁, hyv, _⟩ := Codec.toValues_mem hys hmem
    -- the item is written as the value of the object is, though other items came before it
    have hyw : y = w := (Codec.toValue_steady cat s v).agree (hu.trans hu₁) hu hyv hw
    exact selects_beneath hnames hdepth rfl (by decide) (compare_untyped_oneOf hf rfl) hlist
      (iff_of_true rfl ⟨ys, rfl, w, hyw ▸ hy, hequal⟩)
  · have hop : Operator.oneOf.condition? = some "$in" := rfl
    rw [compile_beneath hop (by decide) hdepth, Codec.toValue]
    exact bind_of_error (bind_of_error he)

/-! A task with points and a person -/

def adaOnly : Entries := [(str "id", uuid (Uuid.ofNat 1)), (str "name", str "Ada")]

def pointAt (x y : Int) : Entries := [(str "x", int x), (str "y", int y)]

def points : Value := list [.record "Point" (pointAt 1 2), .record "Point" (pointAt 3 4)]

def voyage : Entries :=
  [(str "id", uuid (Uuid.ofNat 2)), (str "title", str "voyage"), (str "priority", Models.low),
    (str "points", points), (str "data", .record "Person" adaOnly)]

def pointsField : Field := ⟨"points", .object, by decide⟩

def xField : Field := ⟨"x", .object, by decide⟩

def dataField : Field := ⟨"data", .object, by decide⟩

def idField : Field := ⟨"_id", .object, by decide⟩

theorem adaOnly_keyed : adaOnly.Keyed := ⟨by simp [adaOnly], by simp [adaOnly]⟩

theorem pointAt_keyed (x y : Int) : (pointAt x y).Keyed := ⟨by simp [pointAt], by simp [pointAt]⟩

theorem voyage_keyed : voyage.Keyed := ⟨by simp [voyage], by simp [voyage]⟩

theorem adaOnly_id {s : Schema} (hs : s.idField ≠ "name") :
    Codec.Attribute Models.catalog s "Person" adaOnly s.idField (uuid (Uuid.ofNat 1)) := by
  refine .id rfl rfl fun p hp => ?_
  have hname : Codec.ownFields Models.catalog "Person" adaOnly = [(str "name", str "Ada")] := rfl
  rw [hname, List.mem_singleton] at hp
  rw [hp]
  exact fun he => hs (str.inj he).symm

theorem voyage_found : ∃ d t,
    Codec.toDocument Models.catalog .standard (.record "Task" voyage) .empty = (.ok d, t) ∧
    (∃ g, compare xField .equal (int 3) = .ok g ∧
      Selects Models.catalog .standard 2 t d (beneath [pointsField] g) true) ∧
    (∃ g, compare idField .notEqual (uuid (Uuid.ofNat 1)) = .ok g ∧
      Selects Models.catalog .standard 2 t d (beneath [dataField] g) false) ∧
    ∃ g, compare xField .oneOf (list [Models.junior, int 3]) = .ok g ∧
      Selects Models.catalog .standard 2 .empty d (beneath [pointsField] g) true := by
  obtain ⟨d, t, hwritten⟩ : ∃ d t,
    Codec.toDocument Models.catalog .standard (.record "Task" voyage) .empty = (.ok d, t) :=
    ⟨_, _, rfl⟩
  have hgrown := (Codec.toDocument_steady Models.catalog .standard _).grows hwritten
  have hpicked : Codec.Picks points (.record "Point" (pointAt 3 4)) := .item (by simp)
  have hx : Codec.Leads Models.catalog .standard ["points", "x"] (.record "Task" voyage) (int 3) :=
    .further voyage_keyed (.field rfl rfl) hpicked (.last (pointAt_keyed 3 4) (.field rfl rfl))
  have hi : Codec.Leads Models.catalog .standard ["data", "_id"] (.record "Task" voyage)
      (uuid (Uuid.ofNat 1)) :=
    .further voyage_keyed (.field rfl rfl) (.self _) (.last adaOnly_keyed (adaOnly_id (by decide)))
  obtain ⟨heq, _⟩ := own_value_found 2 [pointsField] xField (.refl _ _) hgrown hwritten hx rfl
    (by decide) (by decide) rfl (by decide)
  obtain ⟨_, hne, _⟩ := own_value_found 2 [dataField] idField (.refl _ _) hgrown hwritten hi rfl
    (by decide) (fun _ => by decide) rfl (by decide)
  obtain ⟨_, _, hin⟩ := own_value_found 2 [pointsField] xField (.refl _ _) (.refl _ _) hwritten hx
    rfl (by decide) (by decide) rfl (by decide)
  obtain ⟨g, hg, hselects, _⟩ := hin (list [Models.junior, int 3]) _ rfl (by simp)
  exact ⟨d, t, hwritten, heq, hne, g, hg, hselects _ _ rfl⟩

/-- An identifier that stands where the header has the name of the class, or under a name with a
dot, is not found. Among values of which one cannot be written nothing is looked for. -/
theorem own_value_missed :
    (∀ s ∈ [Schema.mk "class" "class" "revision", Schema.mk "a.b" "class" "revision"],
      ∃ f : Field, f.name = s.idField ∧ f.type = .object ∧
        Codec.Leads Models.catalog s [f.name] (.record "Person" adaOnly) (uuid (Uuid.ofNat 1)) ∧
        ∃ d t, Codec.toDocument Models.catalog s (.record "Person" adaOnly) .empty = (.ok d, t) ∧
          ∃ g, compare f .equal (uuid (Uuid.ofNat 1)) = .ok g ∧
            Selects Models.catalog s 32 t d g false) ∧
    ∃ r, Registry.empty.register Models.catalog (.cls (.entity "Address")) (some "Person") = .ok r ∧
      Codec.Leads Models.catalog .standard ["x"] (.record "Point" (pointAt 1 2)) (int 1) ∧
      ∃ d t, Codec.toDocument Models.catalog .standard (.record "Point" (pointAt 1 2)) r =
        (.ok d, t) ∧
        ∃ g e t', compare xField .oneOf (list [int 1, .record "Person" adaOnly]) = .ok g ∧
          compile Models.catalog .standard (int 32) "" g t = (.error e, t') := by
  have hleads {s : Schema} (hs : s.idField ≠ "name") :
      Codec.Leads Models.catalog s [s.idField] (.record "Person" adaOnly) (uuid (Uuid.ofNat 1)) :=
    .last adaOnly_keyed (adaOnly_id hs)
  constructor
  · intro s hs
    rcases List.mem_pair.mp hs with rfl | rfl
    · exact ⟨⟨"class", .object, by decide⟩, rfl, rfl, hleads (by decide), _, _, rfl, _, rfl, _, _,
        rfl, rfl⟩
    · exact ⟨⟨"a.b", .object, by decide⟩, rfl, rfl, hleads (by decide), _, _, rfl, _, rfl, _, _,
        rfl, rfl⟩
  · exact ⟨_, rfl, .last (pointAt_keyed 1 2) (.field rfl rfl), _, _, rfl, _, _, _, rfl, rfl⟩

end Filter

end DocStore
