import KeyTree.Program

/-!
What a flat object store is asked. Single objects answer by a value: `none` for a
key that is absent, `false` for a change that was not made. A listing comes in
pages, and each page but the last carries a cursor to the next. How a cursor looks
is the store's own affair.
-/
namespace KeyTree

/-- The bytes of an object. -/
abbrev Content := List UInt8

namespace Store

structure Status where
  sizeBytes : Int
  lastModifiedMs : Int
  deriving DecidableEq, Repr

/-- One page of a listing: whole keys, and the common starts of the keys that a
separator groups. -/
structure Page (Cursor : Type) where
  objects : List Key := []
  groups : List Key := []
  next : Option Cursor := none

inductive Request (Cursor : Type) where
  | status (key : Key)
  | createEmpty (key : Key)
  | copy (source destination : Key)
  | delete (key : Key)
  | list (stem : Key) (recursive : Bool) (pageSize : Int)
  | more (cursor : Cursor)
  | openUpload (key : Key)
  | store (key : Key) (content : Content)

abbrev Request.Answer {Cursor : Type} : Request Cursor → Type
  | status _ => Option Status
  | createEmpty _ | copy _ _ | delete _ => Bool
  | list _ _ _ | more _ => Option (Page Cursor)
  | openUpload _ | store _ _ => Unit

abbrev interface (Cursor : Type) : Interface := ⟨Request Cursor, Request.Answer⟩

/-- A program over a store. -/
abbrev Action (Cursor α : Type) := Program (interface Cursor) α

variable {Cursor : Type}

def status (key : Key) : Action Cursor (Option Status) :=
  Program.request (I := interface Cursor) (.status key)

def createEmpty (key : Key) : Action Cursor Bool :=
  Program.request (I := interface Cursor) (.createEmpty key)

def copy (source destination : Key) : Action Cursor Bool :=
  Program.request (I := interface Cursor) (.copy source destination)

def delete (key : Key) : Action Cursor Bool :=
  Program.request (I := interface Cursor) (.delete key)

/-- Starts a listing of the keys with a stem; unless it is recursive, the keys with
a separator behind the stem are grouped. -/
def list (stem : Key) (recursive : Bool) (pageSize : Int) :
    Action Cursor (Option (Page Cursor)) :=
  Program.request (I := interface Cursor) (.list stem recursive pageSize)

def more (cursor : Cursor) : Action Cursor (Option (Page Cursor)) :=
  Program.request (I := interface Cursor) (.more cursor)

def openUpload (key : Key) : Action Cursor Unit :=
  Program.request (I := interface Cursor) (.openUpload key)

def store (key : Key) (content : Content) : Action Cursor Unit :=
  Program.request (I := interface Cursor) (.store key content)

end Store
end KeyTree
