import KeyTree.Number.Numeral

/-!
Settings of a file system. The length of a listing may be given as any scalar, and is
read whenever a listing is about to start. The page size lies between 1 and 1000,
whatever length was asked for.
-/
namespace KeyTree

structure Settings where
  listingLength : Scalar := .integer 1000
  blockSizeBytes : Int := 512 * 1024 * 1024
  deriving DecidableEq, Repr

namespace Settings

def longestListing : Nat := 1000

/-- Brings a length into the range that stores accept. -/
def capListingLength (length : Int) : Nat :=
  (min (max length 1) longestListing).toNat

/-- Reads a length and brings it into range. -/
def readListingLength (length : Scalar) : Except Defect Nat :=
  length.toInt.map capListingLength

def pageSize (settings : Settings) : Except Defect Nat :=
  readListingLength settings.listingLength

theorem capListingLength_bounds (length : Int) :
    1 ≤ capListingLength length ∧ capListingLength length ≤ longestListing := by
  unfold capListingLength longestListing
  omega

theorem pageSize_integer {settings : Settings} {length : Int}
    (given : settings.listingLength = .integer length) :
    settings.pageSize = .ok (capListingLength length) := by
  rw [pageSize, given]
  rfl

end Settings

/-- How far a program follows a listing and a tree before it gives up. -/
structure Limits where
  /-- The most pages that one walk visits. -/
  pages : Nat := 1000000000
  /-- The most nested directories that one rename moves. -/
  depth : Nat := 1000000000
  deriving DecidableEq, Repr

end KeyTree
