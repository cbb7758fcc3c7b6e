import DocStore.Wire.Decode

/-! Snapshots: the content of a store under a version. -/

namespace DocStore

namespace Snapshot

open Value

def version : Int := 1

def pack (collections : Value) : Except Error (List UInt8) :=
  Wire.pack (dict [(str "version", int version), (str "collections", collections)])

def content (snapshot : Value) : Except Error Value :=
  match snapshot with
  | dict ps =>
    match Entries.get? (str "collections") ps with
    | none => .error (.unserializable .notSnapshot)
    | some collections =>
      let found := (Entries.get? (str "version") ps).getD null
      if equal found (int version) then .ok collections
      else .error (.unserializable (.snapshotVersion found))
  | _ => .error (.unserializable .notSnapshot)

def unpack (bs : List UInt8) : Except Error Value := (Wire.unpack bs).bind content

end Snapshot

end DocStore
