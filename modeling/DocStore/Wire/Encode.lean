import DocStore.Error

/-! Documents as bytes: every value begins with a head that tells its kind and length, in the
shortest form there is. Identifiers, dates and patterns travel as extensions with a code. -/

namespace DocStore

namespace Wire

def uuidCode : Int := 1

def datetimeCode : Int := 2

def dateCode : Int := 3

def patternCode : Int := 4

def timestampCode : Int := -1

/-- How many values may stand inside one another. -/
def maxDepth : Nat := 512

/-- The widths that a number can take, each with the byte that announces it. -/
abbrev Widths := List (Nat × UInt8)

def naturalWidths : Widths := [(1, 0xcc), (2, 0xcd), (4, 0xce), (8, 0xcf)]

def negativeWidths : Widths := [(1, 0xd0), (2, 0xd1), (4, 0xd2), (8, 0xd3)]

def textWidths : Widths := [(1, 0xd9), (2, 0xda), (4, 0xdb)]

def bytesWidths : Widths := [(1, 0xc4), (2, 0xc5), (4, 0xc6)]

def arrayWidths : Widths := [(2, 0xdc), (4, 0xdd)]

def mapWidths : Widths := [(2, 0xde), (4, 0xdf)]

def extWidths : Widths := [(1, 0xc7), (2, 0xc8), (4, 0xc9)]

def inWidth (widths : Widths) (n : Nat) : Option (List UInt8) :=
  (widths.find? fun w => n < Nat.pow 256 w.1).map fun w => w.2 :: BigEndian.bytes w.1 n

/-- A number below the limit goes into the first byte. -/
def head (base limit : Nat) (widths : Widths) (n : Nat) : Option (List UInt8) :=
  if n < limit then some [UInt8.ofNat (base + n)] else inWidth widths n

def packNegative (n : Int) : Option (List UInt8) :=
  if -32 ≤ n then some [UInt8.ofNat (256 + n).toNat]
  else
    (negativeWidths.find? fun w => -(Nat.pow 256 w.1 : Int) ≤ 2 * n).map fun w =>
      w.2 :: BigEndian.bytes w.1 (Nat.pow 256 w.1 + n).toNat

def packInt (n : Int) : Option (List UInt8) :=
  if 0 ≤ n then head 0 128 naturalWidths n.toNat else packNegative n

/-- Extensions of some lengths have a head of their own. -/
def fixedExt : Widths := [(1, 0xd4), (2, 0xd5), (4, 0xd6), (8, 0xd7), (16, 0xd8)]

def packExt (code : Int) (data : List UInt8) : Option (List UInt8) :=
  let start := match fixedExt.lookup data.length with
    | some b => some [b]
    | none => inWidth extWidths data.length
  start.map fun h => h ++ UInt8.ofNat (code % 256).toNat :: data

def utf8 (s : String) : List UInt8 := s.toUTF8.data.toList

def packText (s : String) : Option (List UInt8) :=
  let bs := utf8 s
  (head 0xa0 32 textWidths bs.length).map (· ++ bs)

def packBytes (bs : List UInt8) : Option (List UInt8) :=
  (inWidth bytesWidths bs.length).map (· ++ bs)

def packSource : Regex.Source → Option (List UInt8)
  | .text s => packText s
  | .bytes bs => packBytes bs

/-- The options of a pattern and its source, as a sequence of two. -/
def packPattern (p : Pattern) : Option (List UInt8) :=
  match packInt p.optionBits, packSource p.source with
  | some o, some s => packExt patternCode (0x92 :: (o ++ s))
  | _, _ => none

/-- A point in time takes the least of three forms. -/
def packTimestamp (seconds : Int) (nanos : Nat) : Option (List UInt8) :=
  if 0 ≤ seconds ∧ seconds < Nat.pow 2 34 then
    let word := nanos * Nat.pow 2 34 + seconds.toNat
    packExt timestampCode (BigEndian.bytes (if word < Nat.pow 2 32 then 4 else 8) word)
  else
    packExt timestampCode
      (BigEndian.bytes 4 nanos ++ BigEndian.bytes 8 (seconds % Nat.pow 2 64).toNat)

def packScalar (v : Value) : Option (List UInt8) :=
  match v with
  | .null => some [0xc0]
  | .bool b => some [if b then 0xc3 else 0xc2]
  | .int n => packInt n
  | .float x => some (0xcb :: BigEndian.bytes 8 x.bits.toNat)
  | .str s => packText s
  | .bytes bs => packBytes bs
  | .uuid u => packExt uuidCode u.bytes
  | .datetime t => packExt datetimeCode (utf8 t.iso)
  | .date d => packExt dateCode (utf8 d.iso)
  | .pattern p => packPattern p
  | .ext code data => packExt code data
  | .timestamp seconds nanos => packTimestamp seconds nanos
  | _ => none

def unpackable (v : Value) : Error := .unserializable (.pack (.kind v.typeName))

def withHead (v : Value) (start : Option (List UInt8)) (body : Except Error (List UInt8)) :
    Except Error (List UInt8) :=
  match start with
  | none => .error (unpackable v)
  | some h => body.map (h ++ ·)

/-- Two parts, the first of which decides if both fail. -/
def followedBy (a b : Except Error (List UInt8)) : Except Error (List UInt8) :=
  match a with
  | .error e => .error e
  | .ok x => b.map (x ++ ·)

mutual

/-- Packs a value that may hold values within values as often as there are levels. -/
def packAt (levels : Nat) : Value → Except Error (List UInt8)
  | .list xs =>
    if levels = 0 then .error (.unserializable (.pack .depth))
    else withHead (.list xs) (head 0x90 16 arrayWidths xs.length) (packItems (levels - 1) xs)
  | .tuple xs =>
    if levels = 0 then .error (.unserializable (.pack .depth))
    else withHead (.tuple xs) (head 0x90 16 arrayWidths xs.length) (packItems (levels - 1) xs)
  | .dict ps =>
    if levels = 0 then .error (.unserializable (.pack .depth))
    else withHead (.dict ps) (head 0x80 16 mapWidths ps.length) (packEntries (levels - 1) ps)
  | v =>
    if levels = 0 then .error (.unserializable (.pack .depth))
    else withHead v (packScalar v) (.ok [])
termination_by structural x => x

def packItems (levels : Nat) : List Value → Except Error (List UInt8)
  | [] => .ok []
  | x :: xs => followedBy (packAt levels x) (packItems levels xs)
termination_by structural x => x

def packEntries (levels : Nat) : Entries → Except Error (List UInt8)
  | [] => .ok []
  | p :: ps => followedBy (packEntry levels p) (packEntries levels ps)
termination_by structural x => x

def packEntry (levels : Nat) : Value × Value → Except Error (List UInt8)
  | (k, v) => followedBy (packAt levels k) (packAt levels v)
termination_by structural x => x

end

def pack (v : Value) : Except Error (List UInt8) := packAt maxDepth v

end Wire

end DocStore
