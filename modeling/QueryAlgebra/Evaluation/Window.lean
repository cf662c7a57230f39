import QueryAlgebra.Evaluation.Arrange

/-!
# Window frames

* `slice`: the items between two positions; positions below zero count from the end.
* `explicitFrame`: the rows of a frame with given ends.
* `peerFrame`: the rows up to the last one that ties with the current row.
* `frameAt`: the rows that a window looks at from a row of its sorted partition.
-/

namespace QueryAlgebra.Evaluation

/-! ### Slices -/

/-- The position in a list of a given length that a number denotes: its fraction is cut off, numbers
below zero count from the end, and positions outside are moved to the nearer end. -/
def slicePosition (length : Nat) : Number → Nat
  | .nan        => 0
  | .infinite n => if n then 0 else length
  | n           =>
    let i := (n.toInt?).getD 0
    if i < 0 then (length + i).toNat else min i.toNat length

/-- The items from one position up to another. -/
def slice {α : Type} (as : List α) (start stop : Number) : List α :=
  (as.take (slicePosition as.length stop)).drop (slicePosition as.length start)

/-! ### Frames -/

/-- The greater of zero and a number. -/
def atLeastZero (n : Number) : Number := if n.lt (.ofNat 0) then .ofNat 0 else n

/-- The lesser of a number and another one. -/
def atMost (limit n : Number) : Number := if limit.lt n then limit else n

/-- The place of a frame's end, seen from the row at a position. -/
def boundPlace (position : Nat) (unbounded : Number) : FrameEnd → Number
  | .unbounded => unbounded
  | .current   => .ofNat position
  | .offset n  => (Number.ofNat position).add n

/-- The rows between the ends of a frame. -/
def explicitFrame (sorted : List Nat) (position : Nat) (frame : Frame) : List Nat :=
  let last := (Number.ofNat sorted.length).sub (.ofNat 1)
  let start := atLeastZero (boundPlace position (.ofNat 0) frame.start)
  let stop := atMost last (boundPlace position last frame.stop)
  slice sorted start (stop.add (.ofNat 1))

/-- Whether two rows tie on all sorting keys. -/
def arePeers : List SortKey → Nat → Nat → Except Fault Bool
  | [],             _, _ => .ok true
  | (values, _) :: r, a, b => do
    if (← valueOrder (Dataset.item values a) (Dataset.item values b)) = .equal then
      arePeers r a b
    else return false

/-- The rows at the head of a list that tie with a row. -/
def leadingPeers (keys : List SortKey) (row : Nat) : List Nat → Except Fault (List Nat)
  | []     => .ok []
  | a :: r => do
    if ← arePeers keys row a then return a :: (← leadingPeers keys row r) else return []

/-- The rows up to and including the last one that ties with the row at a position. -/
def peerFrame (keys : List SortKey) (sorted : List Nat) (position : Nat) :
    Except Fault (List Nat) := do
  match sorted.drop position with
  | []          => return sorted
  | row :: rest => return sorted.take (position + 1) ++ (← leadingPeers keys row rest)

/-- The rows that a window looks at. Without a frame it is the whole partition, or, where the
partition is ordered, its part up to the last peer of the row. -/
def frameAt (keys : List SortKey) (frame : Option Frame) (sorted : List Nat)
    (position : Nat) : Except Fault (List Nat) :=
  match frame with
  | some f => .ok (explicitFrame sorted position f)
  | none   => if keys.isEmpty then .ok sorted else peerFrame keys sorted position

end QueryAlgebra.Evaluation
