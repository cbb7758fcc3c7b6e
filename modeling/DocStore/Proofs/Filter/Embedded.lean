import DocStore.Catalog.Models
import DocStore.Proofs.Document.Joined
import DocStore.Proofs.Filter.Compile
import DocStore.Proofs.Query.Match

/-! Filters inside embedded documents. A compiled filter sees of a document only what its paths
find there; under the name of a field it sees the document embedded there and nothing else. -/

namespace DocStore

open Value

/-- A path leads out of a document without crossing an array: it comes to an entry that is missing,
or to a value that is neither a dictionary nor an array. -/
inductive LeadsOut : List String → Value → Prop
  | bare {segs : List String} {v : Value} (hd : ∀ ps, v ≠ dict ps) (hl : ∀ xs, v ≠ list xs) :
      LeadsOut segs v
  | missing {s : String} {rest : List String} {ps : Entries} (h : Entries.get? (str s) ps = none) :
      LeadsOut (s :: rest) (dict ps)
  | entry {s : String} {rest : List String} {ps : Entries} {v : Value}
      (hv : Entries.get? (str s) ps = some v) (h : LeadsOut rest v) :
      LeadsOut (s :: rest) (dict ps)

theorem LeadsOut.lookup {segs : List String} {d : Value} (h : LeadsOut segs d) (s : String)
    (rest : List String) : lookup (segs ++ s :: rest) d = .ok [] := by
  induction h with
  | @bare segs v hd hl =>
    cases segs with
    | nil => exact lookup_bare hd hl s rest
    | cons t segs => exact lookup_bare hd hl t _
  | missing h => rw [List.cons_append, Value.lookup, lookupEntry_eq, h]
  | entry hv _ ih =>
    rw [List.cons_append, Value.lookup, lookupEntry_eq, hv]
    exact ih

/-- Two documents look alike, each under a path of its own: every name finds the same in both. -/
def Alike (d : Value) (path : String) (e : Value) (path' : String) : Prop :=
  ∀ n, lookupPath d (path ++ n) = lookupPath e (path' ++ n)

section Alike

variable {d e : Value} {path path' n : String}

theorem Alike.of_getPath (h : getPath (segments n) d = some e) : Alike d (n ++ ".") e "" := by
  intro m
  rw [lookupPath, lookupPath, segments_append_dot, lookup_past h, String.empty_append]

theorem Alike.of_leadsOut (h : LeadsOut (segments n) d) : Alike d (n ++ ".") (dict []) "" := by
  intro m
  obtain ⟨s, rest, hm⟩ : ∃ s rest, segments m = s :: rest :=
    List.exists_cons_of_ne_nil (by simpa [segments] using splitDots_ne_nil m.toList)
  rw [lookupPath, lookupPath, segments_append_dot, String.empty_append, hm, h.lookup,
    Value.lookup, lookupEntry]

theorem Alike.inside (h : Alike d path e path') (n : String) :
    Alike d (path ++ n ++ ".") e (path' ++ n ++ ".") := by
  intro m
  simpa only [String.append_assoc] using h (n ++ "." ++ m)

theorem matchesField_alike (h : Alike d path e path') (n : String) (condition : Value) :
    matchesField d (path ++ n) condition = matchesField e (path' ++ n) condition := by
  rw [matchesField, matchesField, h n]

theorem matchesQuery_field_alike (h : Alike d path e path') (hscope : Scope path)
    (hscope' : Scope path') (hn : fieldNameFault? n = none) (condition : Value) :
    matchesQuery d (dict [(str (path ++ n), condition)]) =
      matchesQuery e (dict [(str (path' ++ n), condition)]) := by
  rw [matchesQuery_single, matchesQuery_single,
    matchesEntry_of_name (FieldPath.no_operator ⟨path, n, hscope, hn, rfl⟩),
    matchesEntry_of_name (FieldPath.no_operator ⟨path', n, hscope', hn, rfl⟩),
    matchesField_alike h n condition]

theorem matchesQuery_group_alike {word : String} {qs qs' : List Value}
    (hw : word = "$and" ∨ word = "$or") (hnil : qs = [] ↔ qs' = [])
    (hall : matchesAll d qs = matchesAll e qs') (hsome : matchesSome d qs = matchesSome e qs') :
    matchesQuery d (dict [(str word, list qs)]) = matchesQuery e (dict [(str word, list qs')]) := by
  by_cases hq : qs = []
  · have hq' := hnil.mp hq
    subst hq hq'
    rcases hw with rfl | rfl <;> rfl
  · have hq' : qs' ≠ [] := fun h => hq (hnil.mpr h)
    rcases hw with rfl | rfl
    · rw [matchesQuery_all hq, matchesQuery_all hq', hall]
    · rw [matchesQuery_some hq, matchesQuery_some hq', hsome]

end Alike

namespace Filter

section Compiled

variable {cat : Catalog} {s : Schema} {limit : Value} {r₀ : Registry} {d e : Value}

mutual

theorem compileAt_alike (f : Filter) : ∀ {depth depth' path path' r r' t t' q q'},
    f.Genuine → Registry.Grown cat r₀ r → Registry.Grown cat r₀ r' → Scope path → Scope path' →
    Alike d path e path' → compileAt cat s limit depth path f r = (.ok q, t) →
    compileAt cat s limit depth' path' f r' = (.ok q', t') →
    matchesQuery d q = matchesQuery e q' := by
  intro depth depth' path path' r r' t t' q q' hf hg hg' hscope hscope' halike h h'
  cases f with
  | field fld op v =>
    obtain ⟨word, w, hop, hw, rfl⟩ := compileAt_field h
    obtain ⟨word', w', hop', hw', rfl⟩ := compileAt_field h'
    rw [Option.some.inj (hop'.symm.trans hop), (operand_steady cat s op v).agree hg' hg hw' hw]
    exact matchesQuery_field_alike halike hscope hscope' fld.named _
  | sub fld c =>
    exact compileAt_alike c (hf.of_within (.sub fld)) hg hg' (hscope.inside fld.named)
      (hscope'.inside fld.named)
      (halike.inside fld.name) (compileAt_sub h) (compileAt_sub h')
  | group op cs =>
    obtain ⟨word, qs, hop, hq, rfl⟩ := compileAt_group h
    obtain ⟨word', qs', hop', hq', rfl⟩ := compileAt_group h'
    obtain ⟨hnil, hall, hsome⟩ := compileEach_alike cs
      (fun c hc => hf.of_within (.group op hc)) hg hg' hscope hscope' halike hq hq'
    rw [Option.some.inj (hop'.symm.trans hop)]
    exact matchesQuery_group_alike (Operator.word_of_group hop) hnil hall hsome
  | posing k v tagged cs => exact absurd (.here _) hf.not_posing
  | foreign v untagged => exact absurd h not_compileAt_foreign
termination_by structural f

theorem compileEach_alike (cs : List Filter) : ∀ {depth depth' path path' r r' t t' qs qs'},
    (∀ c ∈ cs, c.Genuine) → Registry.Grown cat r₀ r → Registry.Grown cat r₀ r' → Scope path →
    Scope path' → Alike d path e path' → compileEach cat s limit depth path cs r = (.ok qs, t) →
    compileEach cat s limit depth' path' cs r' = (.ok qs', t') →
    (qs = [] ↔ qs' = []) ∧ matchesAll d qs = matchesAll e qs' ∧
      matchesSome d qs = matchesSome e qs' := by
  intro depth depth' path path' r r' t t' qs qs' hf hg hg' hscope hscope' halike h h'
  cases cs with
  | nil =>
    cases h
    cases h'
    exact ⟨.rfl, rfl, rfl⟩
  | cons c cs =>
    obtain ⟨q, rest, u, hq, hrest, rfl⟩ := compileEach_cons h
    obtain ⟨q', rest', u', hq', hrest', rfl⟩ := compileEach_cons h'
    have hu := hg.trans ((compileAt_steady cat s limit c depth path).grows hq)
    have hu' := hg'.trans ((compileAt_steady cat s limit c depth' path').grows hq')
    have hfirst := compileAt_alike c (hf c (by simp)) hg hg' hscope hscope' halike hq hq'
    obtain ⟨_, hall, hsome⟩ := compileEach_alike cs (fun g hm => hf g (by simp [hm])) hu hu'
      hscope hscope' halike hrest hrest'
    refine ⟨by simp, ?_, ?_⟩
    · rw [matchesAll, matchesAll, hfirst, hall]
    · rw [matchesSome, matchesSome, hfirst, hsome]
termination_by structural cs

end

end Compiled

variable {cat : Catalog} {s : Schema} {limit : Value} {r₀ r r' t t' : Registry} {f : Field}
  {g : Filter} {q q' : Value}

/-- A filter, in which only filters stand for filters, says under the name of a field of a document
what it says of the document embedded there, be it a yes, a no or an error. Where the name leads out
of the document, it says what it says of the empty one. -/
theorem matchesQuery_sub (hgenuine : g.Genuine) (hg : Registry.Grown cat r₀ r)
    (hg' : Registry.Grown cat r₀ r')
    (h : compile cat s limit "" (sub f g) r = (.ok q, t))
    (h' : compile cat s limit "" g r' = (.ok q', t')) (d : Value) :
    (∀ ps, getPath (segments f.name) d = some (dict ps) →
      matchesQuery d q = matchesQuery (dict ps) q') ∧
    (LeadsOut (segments f.name) d → matchesQuery d q = matchesQuery (dict []) q') := by
  have hscope : Scope ("" ++ f.name ++ ".") := .inside .top f.named
  have hsub := compileAt_sub h
  rw [String.empty_append] at hscope hsub
  exact ⟨fun ps hp => compileAt_alike g hgenuine hg hg' hscope .top (.of_getPath hp) hsub h',
    fun hl => compileAt_alike g hgenuine hg hg' hscope .top (.of_leadsOut hl) hsub h'⟩

/-- A home that is not in Rome or has no known code, with a street. -/
def elsewhere : Filter :=
  .group .all [
    .group .any [
      .field ⟨"town", .object, by decide⟩ .notEqual (str "Rome"),
      .sub ⟨"post", .object, by decide⟩ (.field ⟨"code", .object, by decide⟩ .equal null)],
    .field ⟨"street", .object, by decide⟩ .present (bool true)]

theorem elsewhere_genuine : elsewhere.Genuine := by
  refine .group _ fun c hc => ?_
  simp only [List.mem_cons, List.not_mem_nil, or_false] at hc
  rcases hc with rfl | rfl
  · refine .group _ fun c hc => ?_
    simp only [List.mem_cons, List.not_mem_nil, or_false] at hc
    rcases hc with rfl | rfl
    · exact .field ..
    · exact .sub _ (.field ..)
  · exact .field ..

def homeField : Field := ⟨"owner.home", .object, by decide⟩

def romanHome : Entries := [(str "town", str "Rome"), (str "street", str "Via Appia")]

def ownerOf (home : Value) : Value := dict [(str "owner", dict [(str "home", home)])]

theorem matchesQuery_elsewhere : ∃ q t q' t',
    compile Models.catalog Schema.standard (int 32) "" (sub homeField elsewhere) .empty =
      (.ok q, t) ∧
    compile Models.catalog Schema.standard (int 32) "" elsewhere .empty = (.ok q', t') ∧
    getPath (segments homeField.name) (ownerOf (dict romanHome)) = some (dict romanHome) ∧
    matchesQuery (ownerOf (dict romanHome)) q = matchesQuery (dict romanHome) q' ∧
    LeadsOut (segments homeField.name) (ownerOf null) ∧
    matchesQuery (ownerOf null) q = matchesQuery (dict []) q' := by
  obtain ⟨q, t, hq⟩ : ∃ q t, compile Models.catalog Schema.standard (int 32) ""
    (sub homeField elsewhere) .empty = (.ok q, t) := ⟨_, _, rfl⟩
  obtain ⟨q', t', hq'⟩ : ∃ q t, compile Models.catalog Schema.standard (int 32) ""
    elsewhere .empty = (.ok q, t) := ⟨_, _, rfl⟩
  have hs : segments homeField.name = ["owner", "home"] := rfl
  have hp : getPath (segments homeField.name) (ownerOf (dict romanHome)) =
      some (dict romanHome) := by
    rw [hs]
    rfl
  have hl : LeadsOut (segments homeField.name) (ownerOf null) := by
    rw [hs]
    exact .entry rfl (.entry rfl (.bare (by simp) (by simp)))
  have hsub :=
    matchesQuery_sub elsewhere_genuine (.refl Models.catalog _) (.refl Models.catalog _) hq hq'
  exact ⟨q, t, q', t', hq, hq', hp, (hsub _).1 _ hp, hl, (hsub _).2 hl⟩

end Filter

end DocStore
