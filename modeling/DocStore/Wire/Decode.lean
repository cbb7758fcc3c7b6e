import DocStore.Document.Entries
import DocStore.Wire.Encode

/-! Bytes as documents. A head may take any of its widths; what follows a value, keys that are
neither text nor bytes, and bytes that end too early are refused. -/

namespace DocStore

namespace Wire

/-- What the head of a value announces; lengths count bytes, items or entries. -/
inductive Head
  | value (v : Value)
  | text (length : Nat)
  | bytes (length : Nat)
  | ext (length : Nat)
  | array (length : Nat)
  | map (length : Nat)

def split : Nat → List UInt8 → Option (List UInt8 × List UInt8)
  | 0, bs => some ([], bs)
  | _ + 1, [] => none
  | n + 1, b :: bs => (split n bs).map fun r => (b :: r.1, r.2)

def word (width : Nat) (use : Nat → Head) (bs : List UInt8) : Option (Head × List UInt8) :=
  (split width bs).map fun r => (use (BigEndian.value r.1), r.2)

def integer (v : Int) : Head := .value (.int v)

/-- Heads that a width follows, or nothing. -/
def wideHead (b : Nat) (bs : List UInt8) : Option (Head × List UInt8) :=
  match b with
  | 0xc0 => some (.value .null, bs)
  | 0xc2 => some (.value (.bool false), bs)
  | 0xc3 => some (.value (.bool true), bs)
  | 0xc4 => word 1 .bytes bs
  | 0xc5 => word 2 .bytes bs
  | 0xc6 => word 4 .bytes bs
  | 0xc7 => word 1 .ext bs
  | 0xc8 => word 2 .ext bs
  | 0xc9 => word 4 .ext bs
  | 0xca => word 4 (fun n => .value (.float (Binary64.ofSingle n))) bs
  | 0xcb => word 8 (fun n => .value (.float ⟨UInt64.ofNat n⟩)) bs
  | 0xcc => word 1 (fun n => integer n) bs
  | 0xcd => word 2 (fun n => integer n) bs
  | 0xce => word 4 (fun n => integer n) bs
  | 0xcf => word 8 (fun n => integer n) bs
  | 0xd0 => word 1 (fun n => integer (BigEndian.signed 1 n)) bs
  | 0xd1 => word 2 (fun n => integer (BigEndian.signed 2 n)) bs
  | 0xd2 => word 4 (fun n => integer (BigEndian.signed 4 n)) bs
  | 0xd3 => word 8 (fun n => integer (BigEndian.signed 8 n)) bs
  | 0xd4 => some (.ext 1, bs)
  | 0xd5 => some (.ext 2, bs)
  | 0xd6 => some (.ext 4, bs)
  | 0xd7 => some (.ext 8, bs)
  | 0xd8 => some (.ext 16, bs)
  | 0xd9 => word 1 .text bs
  | 0xda => word 2 .text bs
  | 0xdb => word 4 .text bs
  | 0xdc => word 2 .array bs
  | 0xdd => word 4 .array bs
  | 0xde => word 2 .map bs
  | 0xdf => word 4 .map bs
  | _ => none

def headOf (b : Nat) (bs : List UInt8) : Option (Head × List UInt8) :=
  if b < 0x80 then some (integer b, bs)
  else if b < 0x90 then some (.map (b - 0x80), bs)
  else if b < 0xa0 then some (.array (b - 0x90), bs)
  else if b < 0xc0 then some (.text (b - 0xa0), bs)
  else if 0xe0 ≤ b then some (integer (b - 256), bs)
  else wideHead b bs

def unreadable (reason : String) : Error := .unserializable (.unpack reason)

def truncated : Error := unreadable "the bytes end too early"

def textOf? (bs : List UInt8) : Option String := String.fromUTF8? ⟨bs.toArray⟩

/-- How many containers may stand inside one another. -/
def maxLevels : Nat := 1024

/-- A step of a reader: a value, and the bytes after it. -/
abbrev Step (α : Type) := Except Error (α × List UInt8)

def readText (n : Nat) (bs : List UInt8) : Step Value :=
  match split n bs with
  | none => .error truncated
  | some (data, rest) =>
    match textOf? data with
    | some s => .ok (.str s, rest)
    | none => .error (unreadable "the text is not UTF-8")

def readBytes (n : Nat) (bs : List UInt8) : Step Value :=
  match split n bs with
  | none => .error truncated
  | some (data, rest) => .ok (.bytes data, rest)

def readExt (meaning : Int → List UInt8 → Except Error Value) (n : Nat) (bs : List UInt8) :
    Step Value :=
  match split (n + 1) bs with
  | some (code :: data, rest) =>
    (meaning (BigEndian.signed 1 code.toNat) data).map fun v => (v, rest)
  | _ => .error truncated

def readItems (read : List UInt8 → Step Value) : Nat → List UInt8 → Step (List Value)
  | 0, bs => .ok ([], bs)
  | n + 1, bs =>
    match read bs with
    | .error e => .error e
    | .ok (x, rest) => (readItems read n rest).map fun r => (x :: r.1, r.2)

def isKey : Value → Bool
  | .str _ => true
  | .bytes _ => true
  | _ => false

/-- Reads entries after those that are there; a key that comes again replaces its value. -/
def readEntries (read : List UInt8 → Step Value) : Nat → Entries → List UInt8 → Step Entries
  | 0, ps, bs => .ok (ps, bs)
  | n + 1, ps, bs =>
    match read bs with
    | .error e => .error e
    | .ok (k, rest) =>
      match read rest with
      | .error e => .error e
      | .ok (v, rest) =>
        if isKey k then readEntries read n (Entries.put k v ps) rest
        else .error (unreadable "a key is neither text nor bytes")

/-- Reads one value; `size` is the number of all bytes, which bounds the items of containers. -/
def read (meaning : Int → List UInt8 → Except Error Value) (size : Nat) :
    Nat → List UInt8 → Step Value
  | _, [] => .error truncated
  | levels, b :: bs =>
    match headOf b.toNat bs with
    | none => .error (unreadable "no value begins like this")
    | some (.value v, rest) => .ok (v, rest)
    | some (.text n, rest) => readText n rest
    | some (.bytes n, rest) => readBytes n rest
    | some (.ext n, rest) => readExt meaning n rest
    | some (.array n, rest) =>
      match levels with
      | 0 => .error (unreadable "nested too deeply")
      | levels + 1 =>
        if size < n then .error truncated
        else (readItems (read meaning size levels) n rest).map fun r => (.list r.1, r.2)
    | some (.map n, rest) =>
      match levels with
      | 0 => .error (unreadable "nested too deeply")
      | levels + 1 =>
        if size / 2 < n then .error truncated
        else (readEntries (read meaning size levels) n [] rest).map fun r => (.dict r.1, r.2)

def readAll (meaning : Int → List UInt8 → Except Error Value) (bs : List UInt8) :
    Except Error Value :=
  match read meaning bs.length maxLevels bs with
  | .error e => .error e
  | .ok (v, []) => .ok v
  | .ok (_, _ :: _) => .error (unreadable "bytes follow the value")

def timestampOf? (data : List UInt8) : Option Value :=
  let made (seconds : Int) (nanos : Nat) :=
    if nanos < 1000000000 then some (Value.timestamp seconds nanos) else none
  match data.length with
  | 4 => made (BigEndian.value data) 0
  | 8 =>
    let n := BigEndian.value data
    made (n % Nat.pow 2 34 : Nat) (n / Nat.pow 2 34)
  | 12 => made (BigEndian.signed 8 (BigEndian.value (data.drop 4))) (BigEndian.value (data.take 4))
  | _ => none

def orUnreadable (v : Option Value) : Except Error Value :=
  match v with
  | some v => .ok v
  | none => .error (unreadable "an extension that cannot be read")

def plainExt (code : Int) (data : List UInt8) : Except Error Value :=
  if code = timestampCode then orUnreadable (timestampOf? data)
  else if 0 ≤ code then .ok (.ext code data)
  else .error (unreadable "an extension code below zero")

def optionsNumber? : Value → Option Int
  | .int n => some n
  | .bool b => some (if b then 1 else 0)
  | _ => none

def patternFrom (options source : Value) : Except Error Value :=
  match optionsNumber? options with
  | none => .error .kind
  | some n =>
    match source.source? with
    | none => .error .kind
    | some source =>
      match Pattern.compile (Pattern.optionsOfBits (n % 512).toNat) source with
      | .ok p => .ok (.pattern p)
      | .error .unreadable => .error .pattern
      | .error .tooLarge => .error .overflow
      | .error .options => .error (unreadable "a pattern whose options exclude one another")

def readPattern (data : List UInt8) : Except Error Value :=
  match readAll plainExt data with
  | .error e => .error e
  | .ok v =>
    match v.iterate? with
    | none => .error .kind
    | some [options, source] => patternFrom options source
    | some _ => .error (unreadable "a pattern has options and a source")

def meaning (code : Int) (data : List UInt8) : Except Error Value :=
  if code = uuidCode then orUnreadable ((Uuid.ofBytes? data).map .uuid)
  else if code = datetimeCode then
    orUnreadable (((textOf? data).bind DateTime.ofIso?).map .datetime)
  else if code = dateCode then orUnreadable (((textOf? data).bind Date.ofIso?).map .date)
  else if code = patternCode then readPattern data
  else plainExt code data

def unpack (bs : List UInt8) : Except Error Value := readAll meaning bs

end Wire

end DocStore
