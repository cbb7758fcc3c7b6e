import DocStore.Text.Alphanumeric
import DocStore.Text.Blank
import DocStore.Text.Case
import DocStore.Text.Digit

/-! Regular expressions: tests of one character, and expressions built from them. -/

namespace DocStore

namespace Regex

/-- How letters are compared: as they are, by seven-bit case, or by the case of every script. -/
inductive Fold
  | exact
  | ascii
  | full
  deriving DecidableEq

inductive CharClass
  | digit
  | space
  | word
  deriving DecidableEq

inductive SetItem
  | range (lo hi : Nat)
  | cls (negated : Bool) (kind : CharClass)
  deriving DecidableEq

inductive CharTest
  | any (newline : Bool)
  | set (negated : Bool) (fold : Fold) (ascii : Bool) (items : List SetItem)
  deriving DecidableEq

inductive Anchor
  | textStart
  | textEnd
  | lineStart
  | lineEnd
  | finalEnd
  | boundary (ascii negated : Bool)
  deriving DecidableEq

inductive Greed
  | greedy
  | reluctant
  | possessive
  deriving DecidableEq

inductive Expr
  | empty
  | one (test : CharTest)
  | seq (first second : Expr)
  | alt (first second : Expr)
  | iter (lo : Nat) (hi : Option Nat) (greed : Greed) (body : Expr)
  | group (index : Nat) (body : Expr)
  | backref (index : Nat) (fold : Fold)
  | anchor (at_ : Anchor)
  | ahead (negated : Bool) (body : Expr)
  | behind (negated : Bool) (width : Nat) (body : Expr)
  | atomic (body : Expr)
  | ifGroup (index : Nat) (yes no : Expr)
  deriving Inhabited

def lowerAscii (n : Nat) : Nat := if 65 ≤ n && n ≤ 90 then n + 32 else n

def Fold.lower (f : Fold) (c : Char) : Char :=
  match f with
  | .exact => c
  | .ascii => Char.ofNat (lowerAscii c.toNat)
  | .full => toLower c

def Fold.variants (f : Fold) (c : Char) : List Nat :=
  match f with
  | .exact => [c.toNat]
  | .ascii =>
    let l := lowerAscii c.toNat
    if 97 ≤ l && l ≤ 122 then [l, l - 32] else [l]
  | .full =>
    let l := (toLower c).toNat
    let lowers := (lowerClasses.find? fun k => k.contains l).getD [l]
    lowers.flatMap fun l => l :: upperForms l

def CharClass.accepts (k : CharClass) (ascii : Bool) (c : Char) : Bool :=
  match k with
  | .digit => if ascii then c.isDigit else isDecimal c
  | .space =>
    if ascii then c == ' ' || (9 ≤ c.toNat && c.toNat ≤ 13) else isBlank c
  | .word => if ascii then c.isAlphanum || c == '_' else isWordChar c

def SetItem.accepts (fold : Fold) (ascii : Bool) (c : Char) : SetItem → Bool
  | .range lo hi => (fold.variants c).any fun n => lo ≤ n && n ≤ hi
  | .cls negated kind => kind.accepts ascii (fold.lower c) != negated

def CharTest.accepts (c : Char) : CharTest → Bool
  | .any newline => newline || c != '\n'
  | .set negated fold ascii items => items.any (·.accepts fold ascii c) != negated

/-- Least and greatest number of characters that an expression can take; `none` is no bound. -/
structure Width where
  lo : Nat
  hi : Option Nat
  deriving DecidableEq, Inhabited

namespace Width

def add (a b : Width) : Width := ⟨a.lo + b.lo, a.hi.bind fun x => b.hi.map (x + ·)⟩

def union (a b : Width) : Width := ⟨min a.lo b.lo, a.hi.bind fun x => b.hi.map (max x ·)⟩

def iter (lo : Nat) (hi : Option Nat) (w : Width) : Width :=
  ⟨lo * w.lo, if w.hi = some 0 then some 0 else hi.bind fun n => w.hi.map (n * ·)⟩

end Width

def Expr.width (groups : List (Nat × Width)) : Expr → Width
  | .empty => ⟨0, some 0⟩
  | .one _ => ⟨1, some 1⟩
  | .seq a b => (a.width groups).add (b.width groups)
  | .alt a b => (a.width groups).union (b.width groups)
  | .iter lo hi _ body => (body.width groups).iter lo hi
  | .group _ body => body.width groups
  | .backref i _ => (groups.lookup i).getD ⟨0, some 0⟩
  | .anchor _ => ⟨0, some 0⟩
  | .ahead _ _ => ⟨0, some 0⟩
  | .behind _ _ _ => ⟨0, some 0⟩
  | .atomic body => body.width groups
  | .ifGroup _ yes no => (yes.width groups).union (no.width groups)

end Regex

end DocStore
