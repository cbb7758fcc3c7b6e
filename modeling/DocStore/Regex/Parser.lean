import DocStore.Regex.Basic
import DocStore.Text.Identifier
import DocStore.Text.Integer

/-! Reading the text of a regular expression. Global options may stand at its start only, others
hold for the group they open; a look-behind needs an expression of one fixed width. Characters by
name are left out, so a text with one cannot be read. An expression over bytes is read as the text
with a character for each byte; it is never run, since only texts are searched. -/

namespace DocStore

namespace Regex

structure Options where
  ignoreCase : Bool
  multiline : Bool
  dotAll : Bool
  verbose : Bool
  ascii : Bool
  /-- Letters are those of the locale, as only an expression over bytes may ask for. -/
  locale : Bool
  /-- No repetitions are allowed. -/
  template : Bool
  debug : Bool
  deriving DecidableEq, Inhabited

namespace Options

def none : Options := ⟨false, false, false, false, false, false, false, false⟩

def set (o : Options) (value : Bool) (letter : Char) : Option Options :=
  if letter = 'i' then some { o with ignoreCase := value }
  else if letter = 'm' then some { o with multiline := value }
  else if letter = 's' then some { o with dotAll := value }
  else if letter = 'x' then some { o with verbose := value }
  else if letter = 'a' then some { o with ascii := value }
  else if letter = 'L' then some { o with locale := value }
  else if letter = 't' then some { o with template := value }
  else if letter = 'u' then some o
  else Option.none

def fold (o : Options) : Fold :=
  if o.ignoreCase then if o.ascii then .ascii else .full else .exact

end Options

/-- What an expression is written in. -/
inductive Source
  | text (s : String)
  | bytes (bs : List UInt8)
  deriving DecidableEq, Inhabited

namespace Source

def overBytes : Source → Bool
  | text _ => false
  | bytes _ => true

def characters : Source → List Char
  | text s => s.toList
  | bytes bs => bs.map fun b => Char.ofNat b.toNat

end Source

/-- Why there is no expression: it cannot be read, its options exclude one another, or a number of
rounds is too large. -/
inductive Fault
  | unreadable
  | options
  | tooLarge
  deriving DecidableEq

instance : MonadLift Option (Except Fault) where
  monadLift
    | some a => .ok a
    | none => .error .unreadable

inductive Token
  | plain (c : Char)
  | escaped (c : Char)
  /-- A backslash with nothing after it. -/
  | dangling
  deriving DecidableEq

def tokens : List Char → List Token
  | [] => []
  | '\\' :: c :: rest => .escaped c :: tokens rest
  | '\\' :: [] => [.dangling]
  | c :: rest => .plain c :: tokens rest

structure State where
  rest : List Token
  options : Options
  groups : Nat
  closed : List (Nat × Width)
  names : List (String × Nat)
  awaited : List Nat
  /-- How many groups there were when the outermost look-behind around here began. -/
  behindFrom : Option Nat
  bytes : Bool
  /-- Whether the text asks for the letters of every script. -/
  unicode : Bool
  /-- Whether there was a look-behind of no fixed width. -/
  loose : Bool

namespace State

def take (s : State) (c : Char) : Option State :=
  match s.rest with
  | .plain d :: rest => if d = c then some { s with rest := rest } else none
  | _ => none

def sees (s : State) (c : Char) : Bool := s.rest.head? == some (.plain c)

/-- Plain characters from the front, at most `n`, while they pass the test. -/
def takeWhile (s : State) (p : Char → Bool) : Nat → List Char × State
  | 0 => ([], s)
  | n + 1 =>
    match s.rest with
    | .plain c :: rest =>
      if p c then
        let (cs, s') := ({ s with rest := rest } : State).takeWhile p n
        (c :: cs, s')
      else ([], s)
    | _ => ([], s)

def takeUntil (close : Char) (s : State) : Option (List Char × State) :=
  let cs := s.rest.takeWhile (· ≠ .plain close)
  match s.rest.dropWhile (· ≠ .plain close) with
  | [] => none
  | _ :: rest =>
    let chars := cs.flatMap fun
      | .plain c => [c]
      | .escaped c => ['\\', c]
      | .dangling => []
    some (chars, { s with rest := rest })

def isClosed (s : State) (i : Nat) : Bool := (s.closed.lookup i).isSome

/-- Inside a look-behind only groups closed before it may be referred to. -/
def mayRefer (s : State) (i : Nat) : Bool :=
  match s.behindFrom with
  | none => true
  | some n => s.isClosed i && decide (i < n)

end State

def isHex (c : Char) : Bool := (Integer.digitIn? 16 c).isSome && c.toNat < 128

def isOctal (c : Char) : Bool := '0' ≤ c && c ≤ '7'

def isDecimalAscii (c : Char) : Bool := '0' ≤ c && c ≤ '9'

def valueIn (base : Nat) (cs : List Char) : Nat :=
  cs.foldl (fun n c => base * n + (Integer.digitIn? base c).getD 0) 0

def controlEscape? (c : Char) : Option Nat :=
  if c = 'a' then some 7
  else if c = 'b' then some 8
  else if c = 'f' then some 12
  else if c = 'n' then some 10
  else if c = 'r' then some 13
  else if c = 't' then some 9
  else if c = 'v' then some 11
  else if c = '\\' then some 92
  else none

def classEscape? (c : Char) : Option SetItem :=
  if c = 'd' then some (.cls false .digit)
  else if c = 'D' then some (.cls true .digit)
  else if c = 's' then some (.cls false .space)
  else if c = 'S' then some (.cls true .space)
  else if c = 'w' then some (.cls false .word)
  else if c = 'W' then some (.cls true .word)
  else none

def hexEscape (n : Nat) (s : State) : Option (Nat × State) :=
  let (cs, s) := s.takeWhile isHex n
  if cs.length = n then some (valueIn 16 cs, s) else none

/-- An escape that stands for one code point, in a set or outside. -/
def numberEscape? (c : Char) (s : State) : Option (Option (Nat × State)) :=
  if c = 'x' then some (hexEscape 2 s)
  else if c = 'u' && !s.bytes then some (hexEscape 4 s)
  else if c = 'U' && !s.bytes then some ((hexEscape 8 s).filter fun r => r.1 < 0x110000)
  else none

def octalValue (cs : List Char) : Option Nat :=
  let n := valueIn 8 cs
  if n ≤ 0o377 then some n else none

def single (n : Nat) : SetItem := .range n n

def oneOf (o : Options) (negated : Bool) (items : List SetItem) : Expr :=
  .one (.set negated o.fold o.ascii items)

def literal (o : Options) (n : Nat) : Expr := oneOf o false [single n]

def setEscape (c : Char) (s : State) : Option (SetItem × State) :=
  match controlEscape? c with
  | some n => some (single n, s)
  | none =>
    match classEscape? c with
    | some item => some (item, s)
    | none =>
      match numberEscape? c s with
      | some r => r.map fun (n, s) => (single n, s)
      | none =>
        if isOctal c then
          let (cs, s) := s.takeWhile isOctal 2
          (octalValue (c :: cs)).map fun n => (single n, s)
        else if c.isAlphanum then none
        else some (single c.toNat, s)

def setItem (s : State) : Option (SetItem × State) :=
  match s.rest with
  | [] => none
  | .plain c :: rest => some (single c.toNat, { s with rest := rest })
  | .escaped c :: rest => setEscape c { s with rest := rest }
  | .dangling :: _ => none

def singleValue? : SetItem → Option Nat
  | .range lo hi => if lo = hi then some lo else none
  | .cls _ _ => none

/-- The items of a set up to its closing bracket, which may come first as an item. -/
def setItems : Nat → List SetItem → State → Option (List SetItem × State)
  | 0, _, _ => none
  | fuel + 1, items, s =>
    match if items.isEmpty then none else s.take ']' with
    | some s => some (items.reverse, s)
    | none => do
      let (first, s) ← setItem s
      match s.take '-' with
      | none => setItems fuel (first :: items) s
      | some s =>
        match s.take ']' with
        | some s => some ((single 45 :: first :: items).reverse, s)
        | none =>
          let (second, s) ← setItem s
          let lo ← singleValue? first
          let hi ← singleValue? second
          if hi < lo then none else setItems fuel (.range lo hi :: items) s

def backreference (o : Options) (i : Nat) (s : State) : Option (Expr × State) :=
  if s.isClosed i && s.mayRefer i then some (.backref i o.fold, s) else none

/-- Octal with three digits, else the number of a group. -/
def digitEscape (o : Options) (c : Char) (s : State) : Option (Expr × State) :=
  if c = '0' then
    let (cs, s) := s.takeWhile isOctal 2
    (octalValue (c :: cs)).map fun n => (literal o n, s)
  else
    match s.takeWhile isDecimalAscii 1 with
    | ([d], s) =>
      match if isOctal c && isOctal d then s.takeWhile isOctal 1 else ([], s) with
      | ([e], s) => (octalValue [c, d, e]).map fun n => (literal o n, s)
      | (_, s) => backreference o (valueIn 10 [c, d]) s
    | (_, s) => backreference o (valueIn 10 [c]) s

def escapeExpr (o : Options) (c : Char) (s : State) : Option (Expr × Bool × State) :=
  if c = 'A' then some (.anchor .textStart, true, s)
  else if c = 'Z' then some (.anchor .textEnd, true, s)
  else if c = 'b' then some (.anchor (.boundary o.ascii false), true, s)
  else if c = 'B' then some (.anchor (.boundary o.ascii true), true, s)
  else
    match classEscape? c with
    | some item => some (oneOf o false [item], false, s)
    | none =>
      match controlEscape? c with
      | some n => some (literal o n, false, s)
      | none =>
        match numberEscape? c s with
        | some r => r.map fun (n, s) => (literal o n, false, s)
        | none =>
          if isDecimalAscii c then (digitEscape o c s).map fun (e, s) => (e, false, s)
          else if c.isAlphanum then none
          else some (literal o c.toNat, false, s)

/-- The bounds of a repetition in braces; none if the brace is an ordinary character here. -/
def braces (s : State) : Option ((Nat × Option Nat) × State) :=
  if s.sees '\x7d' then none
  else
    let (lo, s) := s.takeWhile isDecimalAscii s.rest.length
    let (hi, s) := match s.take ',' with
      | some s => s.takeWhile isDecimalAscii s.rest.length
      | none => (lo, s)
    (s.take '\x7d').map fun s =>
      ((valueIn 10 lo, if hi.isEmpty then none else some (valueIn 10 hi)), s)

def repeatLimit : Nat := 4294967295

def boundsFault? (lo : Nat) (hi : Option Nat) : Option Fault :=
  if repeatLimit ≤ lo || hi.any (repeatLimit ≤ ·) then some .tooLarge
  else if hi.all (lo ≤ ·) then none
  else some .unreadable

/-- Whether a letter may turn an option on or off. Letters of the locale need bytes, those of every
script need text, and neither of them is turned off. -/
def permits (bytes value : Bool) (c : Char) : Bool :=
  c ≠ (if bytes then 'u' else 'L') && (value || (c ≠ 'a' && c ≠ 'u' && c ≠ 'L' && c ≠ 't'))

/-- Option letters turned on; a group of them may turn others off after a hyphen. -/
def optionLetters (bytes value : Bool) (o : Options) (seen : List Char) :
    List Token → Options × List Char × List Token
  | .plain c :: rest =>
    match if permits bytes value c then o.set value c else none with
    | some o' => optionLetters bytes value o' (c :: seen) rest
    | none => (o, seen, .plain c :: rest)
  | rest => (o, seen, rest)

inductive OptionGroup
  | whole (options : Options)
  | scoped (options : Options)

/-- Options of a group of its own, in which one choice of letters takes the place of another. -/
def scopedOptions (on : Options) (seen : List Char) : Options :=
  if seen.contains 'a' then { on with locale := false }
  else if seen.contains 'u' || seen.contains 'L' then { on with ascii := false }
  else on

def optionGroup (s : State) (o : Options) : Option (OptionGroup × State) :=
  let (on, seen, rest) := optionLetters s.bytes true o [] s.rest
  if seen.contains 'a' && (seen.contains 'u' || seen.contains 'L') then none
  else
    match rest with
    | .plain ')' :: rest =>
      if seen.isEmpty then none
      else some (.whole on, { s with rest := rest, unicode := s.unicode || seen.contains 'u' })
    | .plain ':' :: rest =>
      if seen.isEmpty || seen.contains 't' then none
      else some (.scoped (scopedOptions on seen), { s with rest := rest })
    | .plain '-' :: rest =>
      let (off, unseen, rest) := optionLetters s.bytes false (scopedOptions on seen) [] rest
      match rest with
      | .plain ':' :: rest =>
        if unseen.isEmpty || unseen.any seen.contains || seen.contains 't' then none
        else some (.scoped off, { s with rest := rest })
      | _ => none
    | _ => none

inductive Last
  | nothing
  | anchor
  | repeated
  | item

def dropComment : List Token → List Token
  | [] => []
  | .plain '\n' :: rest => rest
  | .dangling :: rest => .dangling :: rest
  | _ :: rest => dropComment rest

def isLayout (c : Char) : Bool :=
  c == ' ' || c == '\t' || c == '\n' || c == '\r' || c == '\x0b' || c == '\x0c'

def bounds? (c : Char) (s : State) : Option (Option ((Nat × Option Nat) × State)) :=
  if c = '*' then some (some ((0, none), s))
  else if c = '+' then some (some ((1, none), s))
  else if c = '?' then some (some ((0, some 1), s))
  else if c = '\x7b' then some (braces s)
  else none

def greed (s : State) : Greed × State :=
  match s.take '?' with
  | some s => (.reluctant, s)
  | none =>
    match s.take '+' with
    | some s => (.possessive, s)
    | none => (.greedy, s)

def sequence : List Expr → Expr
  | [] => .empty
  | [e] => e
  | e :: es => .seq e (sequence es)

def openGroup (name : Option String) (s : State) : Option (Nat × State) :=
  let i := s.groups + 1
  match name with
  | none => some (i, { s with groups := i })
  | some n =>
    if (s.names.lookup n).isSome then none
    else some (i, { s with groups := i, names := (n, i) :: s.names })

def closeGroup (i : Nat) (body : Expr) (s : State) : State :=
  { s with closed := (i, body.width s.closed) :: s.closed }

def conditionGroup (cs : List Char) (s : State) : Option (Nat × State) := do
  if isName cs then
    let i ← s.names.lookup (String.ofList cs)
    if s.mayRefer i then some (i, s) else none
  else
    let n ← Integer.read? 10 cs
    if n ≤ 0 then none
    else if s.mayRefer n.toNat then
      some (n.toNat, { s with awaited := n.toNat :: s.awaited })
    else none

mutual

def alternatives : Nat → Bool → Options → State → Except Fault (Expr × Options × State)
  | 0, _, _, _ => .error .unreadable
  | fuel + 1, top, o, s => do
    let (first, o', s) ← items fuel top o .nothing [] s
    match s.take '|' with
    | none => .ok (first, o', s)
    | some s =>
      let (others, _, s) ← alternatives fuel false o' s
      .ok (.alt first others, o', s)

/-- Items of one alternative, the newest first; `top` holds at the start of the whole text. -/
def items : Nat → Bool → Options → Last → List Expr → State → Except Fault (Expr × Options × State)
  | 0, _, _, _, _, _ => .error .unreadable
  | fuel + 1, top, o, last, done, s =>
    match s.rest with
    | [] => .ok (sequence done.reverse, o, s)
    | .dangling :: _ => .error .unreadable
    | .escaped c :: rest => do
      let (e, isAnchor, s) ← escapeExpr o c { s with rest := rest }
      items fuel false o (if isAnchor then .anchor else .item) (e :: done) s
    | .plain c :: rest =>
      if c = '|' ∨ c = ')' then .ok (sequence done.reverse, o, s)
      else
        let s' := { s with rest := rest }
        if o.verbose && isLayout c then items fuel top o last done s'
        else if o.verbose && c == '#' then
          items fuel top o last done { s with rest := dropComment rest }
        else if c = '[' then do
          let (negated, s') := match s'.take '^' with
            | some s => (true, s)
            | none => (false, s')
          let (members, s') ← setItems (s'.rest.length + 1) [] s'
          items fuel false o .item (oneOf o negated members :: done) s'
        else if c = '.' then items fuel false o .item (.one (.any o.dotAll) :: done) s'
        else if c = '^' then
          items fuel false o .anchor
            (.anchor (if o.multiline then .lineStart else .textStart) :: done) s'
        else if c = '$' then
          items fuel false o .anchor
            (.anchor (if o.multiline then .lineEnd else .finalEnd) :: done) s'
        else if c = '(' then
          match s'.take '?' with
          | none => do
            let (i, s') ← openGroup none s'
            captured fuel i o done s'
          | some s' => extension fuel top o last done s'
        else
          match bounds? c s' with
          | some none => items fuel false o .item (literal o c.toNat :: done) s'
          | some (some ((lo, hi), s')) =>
            match boundsFault? lo hi with
            | some f => .error (if s'.rest.head? == some .dangling then .unreadable else f)
            | none =>
              match last, done with
              | .item, e :: done =>
                let (g, s') := greed s'
                items fuel false o .repeated (.iter lo hi g e :: done) s'
              | _, _ => .error .unreadable
          | none => items fuel false o .item (literal o c.toNat :: done) s'

def captured : Nat → Nat → Options → List Expr → State → Except Fault (Expr × Options × State)
  | 0, _, _, _, _ => .error .unreadable
  | fuel + 1, i, o, done, s => do
    let (body, _, s) ← alternatives fuel false o s
    let s ← s.take ')'
    items fuel false o .item (.group i body :: done) (closeGroup i body s)

def extension : Nat → Bool → Options → Last → List Expr → State →
    Except Fault (Expr × Options × State)
  | 0, _, _, _, _, _ => .error .unreadable
  | fuel + 1, top, o, last, done, s =>
    match s.rest with
    | .plain 'P' :: .plain '<' :: rest => do
      let (name, s) ← { s with rest := rest }.takeUntil '>'
      if isName name then
        let (i, s) ← openGroup (some (String.ofList name)) s
        captured fuel i o done s
      else .error .unreadable
    | .plain 'P' :: .plain '=' :: rest => do
      let (name, s) ← { s with rest := rest }.takeUntil ')'
      let i ← s.names.lookup (String.ofList name)
      let (e, s) ← backreference o i s
      items fuel false o .item (e :: done) s
    | .plain ':' :: rest => do
      let (body, _, s) ← alternatives fuel false o { s with rest := rest }
      let s ← s.take ')'
      items fuel false o .item (body :: done) s
    | .plain '>' :: rest => do
      let (body, _, s) ← alternatives fuel false o { s with rest := rest }
      let s ← s.take ')'
      items fuel false o .item (.atomic body :: done) s
    | .plain '#' :: rest => do
      let (_, s) ← { s with rest := rest }.takeUntil ')'
      items fuel top o last done s
    | .plain '=' :: rest => do
      let (body, _, s) ← alternatives fuel false o { s with rest := rest }
      let s ← s.take ')'
      items fuel false o .item (.ahead false body :: done) s
    | .plain '!' :: rest => do
      let (body, _, s) ← alternatives fuel false o { s with rest := rest }
      let s ← s.take ')'
      items fuel false o .item (.ahead true body :: done) s
    | .plain '<' :: .plain c :: rest =>
      if c = '=' ∨ c = '!' then do
        let outer := s.behindFrom
        let (body, _, s) ← alternatives fuel false o
          { s with rest := rest, behindFrom := some (outer.getD (s.groups + 1)) }
        let s ← s.take ')'
        let w := body.width s.closed
        items fuel false o .item (.behind (c == '!') w.lo body :: done)
          { s with behindFrom := outer, loose := s.loose || w.hi ≠ some w.lo }
      else .error .unreadable
    | .plain '(' :: rest => do
      let (name, s) ← { s with rest := rest }.takeUntil ')'
      let (i, s) ← conditionGroup name s
      let (yes, _, s) ← items fuel false o .nothing [] s
      let (no, s) ← match s.take '|' with
        | none => .ok (Expr.empty, s)
        | some s => (items fuel false o .nothing [] s).map fun r => (r.1, r.2.2)
      let s ← s.take ')'
      items fuel false o .item (.ifGroup i yes no :: done) s
    | _ =>
      match optionGroup s o with
      | some (.whole on, s) =>
        if top then items fuel true on last done { s with options := on } else .error .unreadable
      | some (.scoped on, s) => do
        let (body, _, s) ← alternatives fuel false on s
        let s ← s.take ')'
        items fuel false o .item (body :: done) s
      | none => .error .unreadable

end

/-- Whether an expression repeats some part. -/
def Expr.repeats : Expr → Bool
  | .iter _ _ _ _ => true
  | .seq a b => a.repeats || b.repeats
  | .alt a b => a.repeats || b.repeats
  | .group _ body => body.repeats
  | .ahead _ body => body.repeats
  | .behind _ _ body => body.repeats
  | .atomic body => body.repeats
  | .ifGroup _ yes no => yes.repeats || no.repeats
  | _ => false

/-- Whether the options of the whole text exclude one another. -/
def State.clashes (s : State) : Bool :=
  if s.bytes then s.options.locale && s.options.ascii
  else s.options.locale || (s.options.ascii && s.unicode)

def State.ended (s : State) : Bool :=
  s.rest.isEmpty && s.awaited.all (· ≤ s.groups) && !s.loose

/-- A readable text as its expression and the options that hold for all of it. -/
def parse (o : Options) (source : Source) : Except Fault (Expr × Options) := do
  let ts := tokens source.characters
  let start : State := ⟨ts, o, 0, [], [], [], none, source.overBytes, false, false⟩
  let (e, _, s) ← alternatives (4 * ts.length + 4) true o start
  if s.clashes then .error .options
  else if s.ended && !(s.options.template && e.repeats) then .ok (e, s.options)
  else .error .unreadable

end Regex

end DocStore
