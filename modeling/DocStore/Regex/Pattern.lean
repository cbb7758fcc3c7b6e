import DocStore.Regex.Matcher
import DocStore.Regex.Parser
import DocStore.Text.Quoted

/-! Compiled patterns: a text, or bytes, that read as an expression, with the options that hold for
it. Two patterns are the same if source and options are. -/

namespace DocStore

open Regex

structure Pattern where
  source : Source
  options : Options
  deriving DecidableEq

namespace Pattern

/-- Letters of the options, in the order they are written after a pattern. -/
def letterOptions : List (Char × (Options → Bool)) :=
  [('i', Options.ignoreCase), ('m', Options.multiline), ('s', Options.dotAll),
    ('x', Options.verbose)]

def letters (p : Pattern) : String :=
  String.ofList ((letterOptions.filter fun l => l.2 p.options).map Prod.fst)

def optionsOf (letters : List Char) : Options :=
  letters.foldl (fun o c => if letterOptions.any (·.1 == c) then (o.set true c).getD o else o)
    Options.none

def compile (options : Options) (source : Source) : Except Fault Pattern :=
  (parse options source).map fun r => ⟨source, r.2⟩

def overBytes (p : Pattern) : Bool := p.source.overBytes

def optionNames : List (String × (Options → Bool)) :=
  [("re.TEMPLATE", Options.template), ("re.IGNORECASE", Options.ignoreCase),
    ("re.LOCALE", Options.locale), ("re.MULTILINE", Options.multiline),
    ("re.DOTALL", Options.dotAll), ("re.VERBOSE", Options.verbose), ("re.DEBUG", Options.debug),
    ("re.ASCII", Options.ascii)]

/-- A pattern in full: its quoted source, cut to 200 characters, and the names of its options. -/
def text (p : Pattern) : String :=
  let quoted := match p.source with
    | .text s => Quoted.encode s.toList
    | .bytes bs => Quoted.encodeBytes bs
  let body := String.ofList (quoted.take 200)
  match (optionNames.filter fun n => n.2 p.options).map Prod.fst with
  | [] => s!"re.compile({body})"
  | names => "re.compile(" ++ body ++ ", " ++ String.intercalate "|" names ++ ")"

/-- Whether a text holds what a pattern over text describes. -/
def found (p : Pattern) (text : String) : Bool :=
  match parse p.options p.source with
  | .ok (e, _) => e.found text.toList.toArray
  | .error _ => false

/-- The options as the bits of a number; the sixth is that of a pattern over text of all scripts. -/
def optionBits (p : Pattern) : Nat :=
  let bit (b : Bool) (n : Nat) := if b then n else 0
  bit p.options.template 1 + bit p.options.ignoreCase 2 + bit p.options.locale 4 +
    bit p.options.multiline 8 + bit p.options.dotAll 16 +
    bit (!p.options.ascii && !p.overBytes) 32 + bit p.options.verbose 64 +
    bit p.options.debug 128 + bit p.options.ascii 256

def optionsOfBits (n : Nat) : Options where
  ignoreCase := n.testBit 1
  multiline := n.testBit 3
  dotAll := n.testBit 4
  verbose := n.testBit 6
  ascii := n.testBit 8
  locale := n.testBit 2
  template := n.testBit 0
  debug := n.testBit 7

end Pattern

end DocStore
