import Argennon.Core.Primitives
import Argennon.Util.OrderedStaticMap

/- Access declarations of a request (`core/info.h`): access types and what they
   deny, which types collide, access blocks, chunk bounds. -/
namespace Argennon

/-- `AccessBlockInfo::Access::Type`, in the order of the enumeration. -/
inductive Access where
  | check_only | writable | read_only | int_additive
  deriving DecidableEq, Repr

/-- `AccessBlockInfo::Access::Operation` -/
inductive Operation where
  | check | int_add | read | write
  deriving DecidableEq, Repr

namespace Access

/-- The value of the enumerator, by which `operator<` compares. -/
def toNat : Access → Nat
  | .check_only => 0
  | .writable => 1
  | .read_only => 2
  | .int_additive => 3

def isAdditive (a : Access) : Bool := a == .int_additive

def mayWrite (a : Access) : Bool := a != .read_only && a != .check_only

/-- Whether a block of this type denies the operation. `int_add` is denied on a
writable block because of how it is implemented. -/
def denies (a : Access) (op : Operation) : Bool :=
  match a with
  | .check_only => op != .check
  | .int_additive => !(op == .check || op == .int_add)
  | .read_only => !(op == .check || op == .read)
  | .writable => !(op == .write || op == .check || op == .read)

/-- Whether overlapping blocks of the two types may not run in parallel. -/
def collides (a other : Access) : Bool :=
  match a with
  | .check_only => false
  | .int_additive => !(other == .check_only)
  | .read_only => !(other == .check_only || other == .read_only)
  | .writable => !(other == .check_only)

theorem collides_comm (a b : Access) : a.collides b = b.collides a := by
  cases a <;> cases b <;> rfl

end Access

/-- `AccessBlockInfo`: the size field may be any 32-bit integer, and for a size
block its sign tells expanding from shrinking. -/
structure AccessBlockInfo where
  size : Int
  accessType : Access
  requestID : Nat
  deriving DecidableEq, Repr

/-- `AccessBlockInfo::operator<` -/
def AccessBlockInfo.lt (a b : AccessBlockInfo) : Bool :=
  a.accessType.toNat < b.accessType.toNat ||
    (a.accessType == b.accessType && a.requestID < b.requestID)

/-- `ChunkBoundsInfo`: the bounds a proposer declares for a chunk that is resized. -/
structure ChunkBoundsInfo where
  sizeUpperBound : Int
  sizeLowerBound : Int
  upper_range : IsInt32 sizeUpperBound := by decide
  lower_range : IsInt32 sizeLowerBound := by decide
  deriving DecidableEq, Repr

/-- The access blocks of one chunk, by offset. -/
abbrev BlockMap := OrderedStaticMap Int AccessBlockInfo

/-- `AppRequestInfo::AccessMapType`: applications, their chunks, their blocks. -/
abbrev AccessMapType := OrderedStaticMap LongID (OrderedStaticMap LongLongID BlockMap)

end Argennon
