import DocStore.Error

/-! Work that may fail and may take new identifiers on the way. Identifiers are counted, and what
was taken before a failure stays taken. -/

namespace DocStore

abbrev Fresh := ExceptT Error (StateM Nat)

/-- The next identifier; the state is how many were handed out. -/
def Fresh.id : Fresh Uuid := fun n => (.ok (Uuid.generated (n + 1)), n + 1)

end DocStore
