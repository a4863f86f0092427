import Argennon.Core.Info
import Argennon.Util.MergeInsert

/- The cluster-product verifier: `VerifierCluster`, `canMerge` and
   `RequestScheduler::findCollisionCliques` (`validator/RequestScheduler.h`).

   The source keeps three parallel vectors (offsets, blocks, clusters); here they
   are one vector of slots. Indices are checked: an access outside the vector is
   the exception `undefined`. A request id is a natural number. -/
namespace Argennon

/-- `isAdjacent(u, v)`: whether the dag has the edge from `u` to `v`. -/
abbrev Dag := Nat → Nat → Bool

/-- A cluster of requests that declared one access block. -/
structure VerifierCluster where
  type : Access := .check_only
  members : List Nat := []
  deriving DecidableEq, Repr

namespace VerifierCluster

def registerAdjacency (dag : Dag) (u v : Nat) : Except Exn Unit :=
  if dag u v then .ok ()
  else .error (.invalidArgument
    ("missing edge:\x7b" ++ toString u ++ "," ++ toString v ++ "\x7d in the dependency graph"))

/-- The static `addDependency(dag, u, v)`. -/
def addDependencyBetween (dag : Dag) (u v : Nat) : Except Exn Unit :=
  if u < v then registerAdjacency dag u v else registerAdjacency dag v u

def merge (self c : VerifierCluster) : Except Exn VerifierCluster :=
  if c.type = .writable then do
    let members ← mergeInsert self.members c.members
    .ok { self with members }
  else .ok { self with members := self.members ++ c.members }

def insert (self : VerifierCluster) (requestID : Nat) (accessType : Access) :
    Except Exn VerifierCluster :=
  if accessType = .writable then do
    let members ← mergeInsert self.members [requestID]
    .ok { type := accessType, members }
  else .ok { type := accessType, members := self.members ++ [requestID] }

/-- The edges between consecutive members of a clique. -/
def registerChain (dag : Dag) : List Nat → Except Exn Unit
  | u :: v :: rest => do
    registerAdjacency dag u v
    registerChain dag (v :: rest)
  | _ => .ok ()

def finalize (self : VerifierCluster) (dag : Dag) : Except Exn Unit :=
  if self.type = .writable then registerChain dag self.members else .ok ()

/-- `addDependency(u)`: of a clique only the neighbours of `u` are asked for. -/
def addDependency (self : VerifierCluster) (dag : Dag) (u : Nat) : Except Exn Unit :=
  if self.type = .writable then
    -- `std::upper_bound`
    let next := (self.members.takeWhile (· ≤ u)).length
    if next = self.members.length then do
      registerAdjacency dag (← vecGet self.members (next - 1)) u
    else if next = 0 then do
      registerAdjacency dag u (← vecGet self.members next)
    else do
      registerAdjacency dag (← vecGet self.members (next - 1)) u
      registerAdjacency dag u (← vecGet self.members next)
  else forEach (fun member => addDependencyBetween dag member u) self.members

end VerifierCluster

/-- One entry of `sortedOffsets` and `accessBlocks`. -/
structure PlacedBlock where
  offset : Int
  info : AccessBlockInfo
  deriving DecidableEq, Repr

/-- The end the block has as the later block of a pair: `offset + size`, also for
size blocks. The source adds two `int32`; that the sum is one too is a condition on the
declared blocks (`WellFormedBlocks.fits`), and the ends of the run are ends of declared
blocks. -/
def PlacedBlock.collidingEnd (b : PlacedBlock) : Int := b.offset + b.info.size

/-- The end the block has as the earlier block of a pair, the same sum but for a size block. -/
def PlacedBlock.stop (b : PlacedBlock) : Int :=
  if b.offset = -1 ∨ b.offset = -2 then 0 else b.offset + b.info.size

/-- A block and the cluster at its index. -/
structure Slot extends PlacedBlock where
  cluster : VerifierCluster := {}
  deriving DecidableEq, Repr

/-- `RequestScheduler::canMerge` -/
def canMerge (left right : PlacedBlock) : Bool :=
  left.info.accessType == right.info.accessType &&
    (!left.info.accessType.isAdditive ||
      (left.info.accessType.isAdditive && left.offset == right.offset &&
        left.info.size == right.info.size))

namespace RequestScheduler

/-- `std::lower_bound` for `value` from index `first` on. -/
def lowerBound (slots : List Slot) (first : Nat) (value : Int) : Nat :=
  first + ((slots.drop first).takeWhile fun s => s.offset < value).length

/-- The shift of a split: entries from `k` on that start before `stop` move one
index down. Returns the index of the first entry that stays. -/
def shiftDown (stop : Int) : Nat → Nat → List Slot → Except Exn (List Slot × Nat)
  | 0, _, _ => .error .outOfFuel
  | fuel + 1, k, slots => do
    let s ← vecGet slots k
    if s.offset < stop ∧ k < slots.length then
      shiftDown stop fuel (k + 1) (← vecSet slots (k - 1) s)
    else .ok (slots, k)

/-- The split of the block at `j` at `stop`: its first part moves to `j - 1`, its
second part takes the freed place and starts with an empty cluster. -/
def split (slots : List Slot) (i j : Nat) (stop : Int) : Except Exn (List Slot) := do
  let (slots, k) ← shiftDown stop slots.length (i + 1) slots
  let left ← vecGet slots (j - 1)
  let size := stop - left.offset
  let slots ← vecSet slots (k - 1)
    { offset := stop, info := { left.info with size := left.info.size - size } }
  vecSet slots (j - 1) { left with info := { left.info with size } }

/-- What the inner loop asks of a block it does not merge. `canMerge` holds of the
same additive block, so additive blocks that do not collide are never asked for. -/
def checkDependency (dag : Dag) (x y : Slot) : Except Exn Unit :=
  if x.info.accessType.collides y.info.accessType then
    x.cluster.addDependency dag y.info.requestID
  else .ok ()

/-- The inner loop from index `j` on, `n` indices being left. Tells whether the
cluster at `i` was merged into a later one, and whether `i` is processed again. -/
def scan (dag : Dag) (i : Nat) (x : Slot) (stop : Int) :
    Nat → Nat → List Slot → Except Exn (List Slot × Bool × Bool)
  | 0, _, slots => .ok (slots, false, false)
  | n + 1, j, slots => do
    let y ← vecGet slots j
    if y.offset < stop then
      if !canMerge x.toPlacedBlock y.toPlacedBlock || y.collidingEnd < stop then do
        checkDependency dag x y
        scan dag i x stop n (j + 1) slots
      else
        let slots ← vecSet slots j { y with cluster := ← y.cluster.merge x.cluster }
        if stop < y.collidingEnd then
          let lower := lowerBound slots (i + 1) stop
          if (slots[lower]?).any fun s => s.offset < y.collidingEnd then
            .ok (← split slots i j stop, true, true)
          else .ok (slots, true, false)
        else .ok (slots, true, false)
    else .ok (slots, false, false)

/-- One turn of the outer loop at index `i`; returns the next index. -/
def cliqueStep (dag : Dag) (slots : List Slot) (i : Nat) : Except Exn (List Slot × Nat) := do
  let x ← vecGet slots i
  if x.offset = -3 ∨ x.info.accessType = .check_only then .ok (slots, i + 1)
  else
    let x := { x with cluster := ← x.cluster.insert x.info.requestID x.info.accessType }
    let slots ← vecSet slots i x
    let (slots, skipped, again) ← scan dag i x x.stop (slots.length - (i + 1)) (i + 1) slots
    if skipped then .ok () else x.cluster.finalize dag
    .ok (slots, if again then i else i + 1)

/-- The outer loop. -/
def cliqueLoop (dag : Dag) : Nat → List Slot → Nat → Except Exn Unit
  | 0, slots, i => if i < slots.length then .error .outOfFuel else .ok ()
  | fuel + 1, slots, i =>
    if i < slots.length then do
      let (slots, i) ← cliqueStep dag slots i
      cliqueLoop dag fuel slots i
    else .ok ()

/-- An upper bound of every offset and every end, at least zero. -/
def horizon : List Slot → Int
  | [] => 0
  | s :: rest => max (horizon rest) (max s.offset s.collidingEnd)

/-- The turns that `findCollisionCliques` can take: `cliqueLoop_terminates`. -/
def turns (top : Int) (slots : List Slot) : Nat :=
  (slots.map fun s => (top - s.offset).toNat + 1).sum

/-- `findCollisionCliques` -/
def findCollisionCliques (dag : Dag) (blocks : List PlacedBlock) : Except Exn Unit :=
  let slots := blocks.map fun b => ({ b with } : Slot)
  cliqueLoop dag (turns (horizon slots) slots) slots 0

end RequestScheduler
end Argennon
