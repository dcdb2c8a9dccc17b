import DocumentShare.Error
import DocumentShare.Storage.Contents
import DocumentShare.Work

/-!
# Backends

A key-value backend holds contents, counts the operations that reach them, and can be out of order:
an outage lets an operation succeed some more times and then fails it until it is lifted.
-/

namespace DocumentShare

/-- What can be asked of a backend. A scan asks once for every item. -/
inductive Operation
  | get
  | set
  | delete
  | scan
deriving DecidableEq, Repr

/-- An operation that works `after` more times and then fails. -/
structure Outage where
  error : StorageError
  after : Nat
deriving DecidableEq

structure Counts where
  reads : Nat
  writes : Nat
  deletes : Nat
  scans : Nat
deriving DecidableEq, Inhabited

structure Backend where
  contents : Contents
  counts : Counts
  outages : Operation → Option Outage

namespace Backend

def empty : Backend := ⟨.empty, ⟨0, 0, 0, 0⟩, fun _ => none⟩

instance : Inhabited Backend := ⟨empty⟩

/-- The backend with an outage of an operation begun or lifted. -/
def setOutage (b : Backend) (op : Operation) (outage : Option Outage) : Backend :=
  { b with outages := fun o => if o = op then outage else b.outages o }

end Backend

abbrev BackendWork (α : Type) := Work Backend StorageError α

namespace Backend

/-- Asks for an operation: fails if it is out of order, and otherwise uses up one success. -/
def ask (op : Operation) : BackendWork Unit :=
  .ofStep fun b =>
    match b.outages op with
    | none => (.ok (), b)
    | some ⟨error, 0⟩ => (.error error, b)
    | some ⟨error, n + 1⟩ => (.ok (), b.setOutage op (some ⟨error, n⟩))

def get (key : Bytes) : BackendWork (Option Bytes) := do
  ask .get
  .ofStep fun b =>
    (.ok (b.contents.get? key), { b with counts.reads := b.counts.reads + 1 })

def set (key value : Bytes) : BackendWork Unit := do
  ask .set
  .ofStep fun b =>
    (.ok (), { b with
      contents := b.contents.insert key value, counts.writes := b.counts.writes + 1 })

def delete (key : Bytes) : BackendWork Bool := do
  ask .delete
  .ofStep fun b =>
    (.ok (b.contents.get? key).isSome, { b with
      contents := b.contents.erase key, counts.deletes := b.counts.deletes + 1 })

end Backend

end DocumentShare
