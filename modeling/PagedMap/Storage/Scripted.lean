import PagedMap.Storage.Basic

/-!
# Scripted storage

A storage in memory that fails where it is told to, and that keeps a log of what it was made to do.
It shows how a program behaves whose device fails, and in which order it writes.
-/

namespace PagedMap

/-- The operations of a storage by name. -/
inductive StorageCall where
  | read
  | write
  | size
  | sync
  | truncate
  | lock
deriving DecidableEq, Repr

/-- The name of an operation. -/
def StorageCall.name : StorageCall → String
  | read => "read"
  | write => "write"
  | size => "size"
  | sync => "sync"
  | truncate => "truncate"
  | lock => "lock"

/-- All operations. -/
def StorageCall.all : List StorageCall := [read, write, size, sync, truncate, lock]

/-- The operation with a name. -/
def StorageCall.ofName? (name : String) : Option StorageCall :=
  all.find? fun call => call.name = name

/-- An operation that succeeded and that leaves a mark. -/
inductive StorageRecord where
  | lock
  | write (offset length : Nat)
  | sync
  | truncate (length : Nat)
deriving DecidableEq, Repr

/-- A record as a line of the log. -/
def StorageRecord.text : StorageRecord → String
  | lock => "lock"
  | write offset length => s!"write {offset} {length}"
  | sync => "sync"
  | truncate length => s!"truncate {length}"

/-- A storage in memory with a script of failures and a log. -/
structure Scripted where
  content : Content
  /-- The operations that fail. -/
  failing : List StorageCall := []
  /-- What was done since the log was last cleared, the earliest first. -/
  log : List StorageRecord := []

namespace Scripted

/-- Fails if the script says so: a lock is found poisoned, any other operation reports its name. -/
def follow (call : StorageCall) : EStateM StorageError Scripted Unit := do
  if (← get).failing.contains call then
    match call with
    | .lock => throw .lockPoisoned
    | _ => throw (.io s!"{call.name} failed")

/-- Adds a line to the log. -/
def record (entry : StorageRecord) : EStateM StorageError Scripted Unit :=
  modify fun storage => { storage with log := storage.log ++ [entry] }

instance : Storage Scripted where
  readAt offset length := do
    follow .read
    match (← get).content.readAt? offset length with
    | some bytes => return bytes
    | none => throw .pastEnd
  writeAt offset data := do
    follow .write
    modify fun storage => { storage with content := storage.content.writeAt offset data }
    record (.write offset data.length)
  size := do
    follow .size
    return (← get).content.size
  sync := do
    follow .sync
    record .sync
  truncate length := do
    follow .truncate
    modify fun storage => { storage with content := storage.content.resize length }
    record (.truncate length)
  lock := do
    follow .lock
    record .lock

end Scripted

end PagedMap
