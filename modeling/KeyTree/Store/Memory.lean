import KeyTree.Program.Run
import KeyTree.Store.Contents

/-!
A store held in memory. Its listings are snapshots: the entries are taken when the
listing starts, and a cursor holds those that are still to come. Every object that
is written carries the same time; objects that were there before may carry others.
-/
namespace KeyTree

structure Memory where
  contents : Contents
  /-- The times of objects that were not written through the store. -/
  times : Std.ExtTreeMap Key Int compare

namespace Memory

/-- The time of everything that is written. -/
def writeTimeMs : Int := 1000

/-- The entries of a listing that are still to come. -/
structure Cursor where
  entries : List Listed
  pageSize : Nat

/-- The first of the pages into which the entries are cut. -/
def page (entries : List Listed) (pageSize : Nat) : Store.Page Cursor where
  objects := Listed.objects (entries.take pageSize)
  groups := Listed.groups (entries.take pageSize)
  next :=
    let later := entries.drop pageSize
    if later.isEmpty then none else some ⟨later, pageSize⟩

/-- The first page of a listing; a page size that is not positive leaves one empty
page. -/
def firstPage (entries : List Listed) (pageSize : Int) : Store.Page Cursor :=
  if 0 < pageSize then page entries pageSize.toNat else {}

def status (memory : Memory) (key : Key) : Option Store.Status :=
  (memory.contents[key]?).map fun content =>
    ⟨content.length, (memory.times[key]?).getD writeTimeMs⟩

def insert (memory : Memory) (key : Key) (content : Content) : Memory where
  contents := memory.contents.insert key content
  times := memory.times.erase key

def erase (memory : Memory) (key : Key) : Memory where
  contents := memory.contents.erase key
  times := memory.times.erase key

def serve : Handler (Store.interface Cursor) Memory
  | .status key, memory => (.ok (memory.status key), memory)
  | .createEmpty key, memory => (.ok true, memory.insert key [])
  | .copy source destination, memory =>
    match memory.contents[source]? with
    | none => (.ok false, memory)
    | some content => (.ok true, memory.insert destination content)
  | .delete key, memory => (.ok true, memory.erase key)
  | .list stem recursive pageSize, memory =>
    (.ok (some (firstPage (memory.contents.entries stem !recursive) pageSize)), memory)
  | .more cursor, memory => (.ok (some (page cursor.entries cursor.pageSize)), memory)
  | .openUpload _, memory => (.ok (), memory)
  | .store key content, memory => (.ok (), memory.insert key content)

section run
variable (memory : Memory)

@[simp] theorem run_status (key : Key) :
    (Store.status key).run serve memory =
      ⟨.ok (memory.status key), [], [⟨.status key, .ok (memory.status key)⟩], memory⟩ := rfl

@[simp] theorem run_createEmpty (key : Key) :
    (Store.createEmpty key).run serve memory =
      ⟨.ok true, [], [⟨.createEmpty key, .ok true⟩], memory.insert key []⟩ := rfl

@[simp] theorem run_delete (key : Key) :
    (Store.delete key).run serve memory =
      ⟨.ok true, [], [⟨.delete key, .ok true⟩], memory.erase key⟩ := rfl

theorem run_copy_present {source : Key} (destination : Key) {content : Content}
    (present : memory.contents[source]? = some content) :
    (Store.copy source destination).run serve memory =
      ⟨.ok true, [], [⟨.copy source destination, .ok true⟩],
        memory.insert destination content⟩ := by
  rw [Store.copy, Program.run_request]
  simp only [serve, present]

theorem run_copy_absent {source : Key} (destination : Key)
    (absent : memory.contents[source]? = none) :
    (Store.copy source destination).run serve memory =
      ⟨.ok false, [], [⟨.copy source destination, .ok false⟩], memory⟩ := by
  rw [Store.copy, Program.run_request]
  simp only [serve, absent]

@[simp] theorem run_store (key : Key) (content : Content) :
    (Store.store key content).run serve memory =
      ⟨.ok (), [], [⟨.store key content, .ok ()⟩], memory.insert key content⟩ := rfl

end run
end Memory
end KeyTree
