import PagedMap.Storage.Basic

/-!
# Files

A file is a storage that does not fail by itself, except for reading past its end. Its lock can be
poisoned: then it cannot be taken until the file is opened again.
-/

namespace PagedMap

/-- An open file. -/
structure File where
  content : Content
  poisoned : Bool := false

namespace File

def empty : File := { content := .empty }

/-- The file with its lock left behind by a holder that did not finish. -/
def poison (file : File) : File := { file with poisoned := true }

def reopen (file : File) : File := { file with poisoned := false }

instance : Storage File where
  readAt offset length := do
    match (← get).content.readAt? offset length with
    | some bytes => return bytes
    | none => throw .pastEnd
  writeAt offset data :=
    modify fun file => { file with content := file.content.writeAt offset data }
  size := return (← get).content.size
  sync := return ()
  truncate length := modify fun file => { file with content := file.content.resize length }
  lock := do
    if (← get).poisoned then throw .lockPoisoned

end File

end PagedMap
