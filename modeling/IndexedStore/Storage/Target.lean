import IndexedStore.Error

/-!
Names under which storage keeps byte strings.
-/
namespace IndexedStore.Storage

def targetLimit : Nat := 128

def isTarget (name : String) : Bool :=
  !name.isEmpty && name.utf8ByteSize ≤ targetLimit &&
    name.toList.all (fun c => c.isAlphanum || c == '_' || c == '-' || c == '.') &&
    name.toList.head? != some '.'

end IndexedStore.Storage
