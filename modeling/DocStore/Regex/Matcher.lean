import DocStore.Regex.Basic

/-! Matching by backtracking. An expression is run with what has to follow it; repetitions try one
more round first, or last if they are reluctant, and never repeat a round that took nothing. -/

namespace DocStore

namespace Regex

structure Spot where
  pos : Nat
  groups : List (Nat × Nat × Nat)

abbrev Follow := Spot → Option Spot

def wordBefore (ascii : Bool) (text : Array Char) (pos : Nat) : Bool :=
  if pos = 0 then false else text[pos - 1]?.any (CharClass.word.accepts ascii)

def wordAt (ascii : Bool) (text : Array Char) (pos : Nat) : Bool :=
  text[pos]?.any (CharClass.word.accepts ascii)

def Anchor.holds (text : Array Char) (pos : Nat) : Anchor → Bool
  | .textStart => pos == 0
  | .textEnd => pos == text.size
  | .lineStart => pos == 0 || text[pos - 1]? == some '\n'
  | .lineEnd => pos == text.size || text[pos]? == some '\n'
  | .finalEnd => pos == text.size || (pos + 1 == text.size && text[pos]? == some '\n')
  | .boundary ascii negated =>
    text.size != 0 && ((wordBefore ascii text pos != wordAt ascii text pos) != negated)

def repeats (fold : Fold) (text : Array Char) (start stop pos : Nat) : Bool :=
  pos + (stop - start) ≤ text.size && (List.range (stop - start)).all fun i =>
    text[start + i]?.map fold.lower == text[pos + i]?.map fold.lower

/-- More rounds before what follows; `last` is where the round before began. -/
def rounds (step : Follow → Follow) (lo : Nat) (hi : Option Nat) (k : Follow) :
    Nat → Nat → Option Nat → Follow
  | 0, _, _, s => k s
  | fuel + 1, count, last, s =>
    if count < lo then step (rounds step lo hi k fuel (count + 1) last) s
    else if hi.all (count < ·) && last != some s.pos then
      match step (rounds step lo hi k fuel (count + 1) (some s.pos)) s with
      | some r => some r
      | none => k s
    else k s

def reluctantRounds (step : Follow → Follow) (lo : Nat) (hi : Option Nat) (k : Follow) :
    Nat → Nat → Option Nat → Follow
  | 0, _, _, s => k s
  | fuel + 1, count, last, s =>
    if count < lo then step (reluctantRounds step lo hi k fuel (count + 1) last) s
    else
      match k s with
      | some r => some r
      | none =>
        if hi.all (count < ·) && last != some s.pos then
          step (reluctantRounds step lo hi k fuel (count + 1) (some s.pos)) s
        else none

def Expr.run (text : Array Char) : Expr → Follow → Follow
  | .empty, k, s => k s
  | .one t, k, s =>
    match text[s.pos]? with
    | some c => if t.accepts c then k { s with pos := s.pos + 1 } else none
    | none => none
  | .seq a b, k, s => a.run text (b.run text k) s
  | .alt a b, k, s =>
    match a.run text k s with
    | some r => some r
    | none => b.run text k s
  | .iter lo hi .greedy body, k, s =>
    rounds (body.run text) lo hi k (lo + text.size + 2) 0 none s
  | .iter lo hi .reluctant body, k, s =>
    reluctantRounds (body.run text) lo hi k (lo + text.size + 2) 0 none s
  | .iter lo hi .possessive body, k, s =>
    (rounds (body.run text) lo hi some (lo + text.size + 2) 0 none s).bind k
  | .group i body, k, s =>
    body.run text (fun t => k { t with groups := (i, s.pos, t.pos) :: t.groups }) s
  | .backref i fold, k, s =>
    match s.groups.lookup i with
    | some (start, stop) =>
      if repeats fold text start stop s.pos then k { s with pos := s.pos + (stop - start) }
      else none
    | none => none
  | .anchor a, k, s => if a.holds text s.pos then k s else none
  | .ahead false body, k, s =>
    match body.run text some s with
    | some t => k { s with groups := t.groups }
    | none => none
  | .ahead true body, k, s =>
    match body.run text some s with
    | some _ => none
    | none => k s
  | .behind negated width body, k, s =>
    match if width ≤ s.pos then body.run text some { s with pos := s.pos - width } else none with
    | some t => if negated then none else k { s with groups := t.groups }
    | none => if negated then k s else none
  | .atomic body, k, s => (body.run text some s).bind k
  | .ifGroup i yes no, k, s =>
    if (s.groups.lookup i).isSome then yes.run text k s else no.run text k s

def Expr.found (e : Expr) (text : Array Char) : Bool :=
  (List.range (text.size + 1)).any fun i => (e.run text some ⟨i, []⟩).isSome

end Regex

end DocStore
