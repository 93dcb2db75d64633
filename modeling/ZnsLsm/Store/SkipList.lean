import ZnsLsm.SortedMap
import ZnsLsm.Store.Value

/-!
# The memtable

`SkipList` keeps its entries in the bottom row, in ascending order of the keys; the
upper rows hold copies of some of its nodes and only shorten the searches, so the
model keeps the bottom row.  The list has a head exactly when it has a node.
-/

namespace ZnsLsm.Store

structure SkipList where
  size : Nat
  nodes : List (Nat × Str)
  timeStamp : Nat
  minKey : Nat
  maxKey : Nat
  memory : Nat

namespace SkipList

/-- The constructor. -/
def new : SkipList where
  size := 0
  nodes := []
  timeStamp := 0
  minKey := int64Max
  maxKey := 0
  memory := initialSize

/-- `SkipList::get`. -/
def get (list : SkipList) (key : Nat) : Str :=
  if list.size = 0 then .empty else (SortedMap.find key list.nodes).getD .empty

/-- `SkipList::put`. -/
def put (list : SkipList) (key : Nat) (value : Str) : SkipList :=
  { list with
    minKey := if key < list.minKey then key else list.minKey
    maxKey := if list.maxKey < key then key else list.maxKey
    nodes := SortedMap.assign key value list.nodes
    size := if (SortedMap.find key list.nodes).isSome then list.size else list.size + 1 }

/-- `GetFirstNode`: the row after the head, if there is a head. -/
def getFirstNode (list : SkipList) : Option (List (Nat × Str)) :=
  match list.nodes with
  | [] => none
  | node :: rest => some (node :: rest)

/-- `getTimeStamp`, which advances the time stamp. -/
def getTimeStamp (list : SkipList) : Nat × SkipList :=
  (list.timeStamp, { list with timeStamp := list.timeStamp + 1 })

/-- `getMinMaxKey`. -/
def getMinMaxKey (list : SkipList) : Nat × Nat :=
  (list.minKey, list.maxKey)

/-- `SkipList::clear`, which does nothing to a list without a head. -/
def clear (list : SkipList) : SkipList :=
  match list.nodes with
  | [] => list
  | _ :: _ =>
      { list with
        nodes := []
        size := 0
        memory := 10272
        minKey := int64Max
        maxKey := int64Min }

end SkipList

end ZnsLsm.Store
