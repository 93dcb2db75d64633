import ZnsLsm.Store.Memtable

/-!
# The skip list with its towers

`SkipList` keeps the bottom row only.  Here the nodes lie in memory, linked to the right and
downwards, every key has a copy in each row that its tower reaches, and the outcomes of
`rand` decide on the height of a tower.  A function returns nothing if it dereferences a
pointer without a node; the number of addresses given out so far bounds every loop.
-/

namespace ZnsLsm.Store

structure Node where
  right : Option Nat
  down : Option Nat
  key : Nat
  val : Str

/-- `UINT64_MAX`, the key of a node without one. -/
def uint64Max : Nat := 2 ^ 64 - 1

/-- `Node()`. -/
def Node.blank : Node := ⟨none, none, uint64Max, .empty⟩

/-- The nodes by their addresses. -/
abbrev Heap := Nat → Option Node

/-- `SkipList`. -/
structure Towers where
  size : Nat
  head : Option Nat
  timeStamp : Nat
  minKey : Nat
  maxKey : Nat
  memory : Nat
  heap : Heap
  /-- The next address of `new`. -/
  next : Nat

namespace Towers

/-- The constructor. -/
def new : Towers where
  size := 0
  head := none
  timeStamp := 0
  minKey := int64Max
  maxKey := 0
  memory := initialSize
  heap _ := none
  next := 0

/-! ## Searching -/

/-- `while (p->right && …) p = p->right`, where `go` is the test of the key to the right. -/
def walk (heap : Heap) (go : Nat → Bool) : Nat → Nat → Option Nat
  | 0, _ => none
  | fuel + 1, p => do
      let node ← heap p
      match node.right with
      | none => some p
      | some q => do
          let next ← heap q
          if go next.key then walk heap go fuel q else some p

/-- The loop of `get`. -/
def getLoop (heap : Heap) (bound key : Nat) : Nat → Option Nat → Option Str
  | _, none => some .empty
  | 0, some _ => none
  | fuel + 1, some p => do
      let p ← walk heap (· < key) bound p
      let node ← heap p
      match node.right with
      | none => getLoop heap bound key fuel node.down
      | some q => do
          let next ← heap q
          if next.key = key then some next.val else getLoop heap bound key fuel node.down

/-- `SkipList::get`. -/
def get (list : Towers) (key : Nat) : Option Str :=
  if list.size = 0 then some .empty
  else getLoop list.heap list.next key list.next list.head

/-! ## Inserting -/

/-- The loop of `put` that records the path; the last node of `pathList` comes first. -/
def pathLoop (heap : Heap) (bound key : Nat) : Nat → Option Nat → List Nat → Option (List Nat)
  | _, none, pathList => some pathList
  | 0, some _, _ => none
  | fuel + 1, some p, pathList => do
      let p ← walk heap (· ≤ key) bound p
      let node ← heap p
      pathLoop heap bound key fuel node.down (p :: pathList)

/-- `!pathList.empty() && pathList.back()->key == key`. -/
def endsAt (heap : Heap) (key : Nat) : List Nat → Option Bool
  | [] => some false
  | p :: _ => (heap p).map fun node => decide (node.key = key)

/-- The loop of `put` that replaces the value in all copies. -/
def replaceLoop (key : Nat) (value : Str) : List Nat → Heap → Option Heap
  | [], heap => some heap
  | p :: pathList, heap => do
      let node ← heap p
      if node.key = key then
        replaceLoop key value pathList (Function.update heap p (some { node with val := value }))
      else
        some heap

/-- What the loop that inserts copies leaves behind. -/
structure Inserted where
  heap : Heap
  next : Nat
  downNode : Option Nat
  insertUp : Bool

/-- The loop of `put` that inserts copies from the bottom up; `coin i` is the outcome of the
`i`-th call of `rand`. -/
def insertLoop (key : Nat) (value : Str) (coin : Nat → Bool) :
    List Nat → Nat → Option Nat → Heap → Nat → Option Inserted
  | [], _, downNode, heap, next => some ⟨heap, next, downNode, true⟩
  | insert :: pathList, i, downNode, heap, next => do
      let node ← heap insert
      let heap := Function.update heap next (some ⟨node.right, downNode, key, value⟩)
      let heap := Function.update heap insert (some { node with right := some next })
      if coin i then insertLoop key value coin pathList (i + 1) (some next) heap (next + 1)
      else some ⟨heap, next + 1, some next, false⟩

/-- Add a row on top that holds one copy. -/
def addRow (list : Towers) (key : Nat) (value : Str) (downNode : Option Nat) : Towers :=
  { list with
    heap :=
      Function.update
        (Function.update list.heap list.next
          (some { Node.blank with right := some (list.next + 1), down := list.head }))
        (list.next + 1) (some ⟨none, downNode, key, value⟩)
    head := some list.next
    next := list.next + 2 }

/-- `SkipList::put`. -/
def put (list : Towers) (key : Nat) (value : Str) (coin : Nat → Bool) : Option Towers := do
  let list :=
    { list with
      minKey := if key < list.minKey then key else list.minKey
      maxKey := if list.maxKey < key then key else list.maxKey }
  let pathList ← pathLoop list.heap list.next key list.next list.head []
  let found ← endsAt list.heap key pathList
  if found then do
    let heap ← replaceLoop key value pathList list.heap
    pure { list with heap := heap }
  else do
    let inserted ← insertLoop key value coin pathList 0 none list.heap list.next
    let list := { list with size := list.size + 1, heap := inserted.heap, next := inserted.next }
    pure (if inserted.insertUp then list.addRow key value inserted.downNode else list)

/-! ## The bottom row -/

/-- The loop of `GetFirstNode`. -/
def firstLoop (heap : Heap) : Nat → Option Nat → Option Nat → Option (Option Nat)
  | _, none, q => some q
  | 0, some _, _ => none
  | fuel + 1, some p, _ => do
      let node ← heap p
      firstLoop heap fuel node.down (some p)

/-- `SkipList::GetFirstNode`, which may be null. -/
def getFirstNode (list : Towers) : Option (Option Nat) :=
  firstLoop list.heap list.next list.head none

/-- The keys and values from a node on. -/
def rowLoop (heap : Heap) : Nat → Option Nat → Option (List (Nat × Str))
  | _, none => some []
  | 0, some _ => none
  | fuel + 1, some p => do
      let node ← heap p
      let row ← rowLoop heap fuel node.right
      pure ((node.key, node.val) :: row)

/-- What is reached from `GetFirstNode()->right`, if there is a first node. -/
def bottomRow (list : Towers) : Option (List (Nat × Str)) := do
  match ← list.getFirstNode with
  | none => some []
  | some first => do
      let node ← list.heap first
      rowLoop list.heap list.next node.right

/-! ## Clearing -/

/-- The inner loop of `clear`, which deletes a row. -/
def deleteRow : Nat → Nat → Heap → Option Heap
  | 0, _, _ => none
  | fuel + 1, p, heap => do
      let node ← heap p
      let heap := Function.update heap p none
      match node.right with
      | none => some heap
      | some q => deleteRow fuel q heap

/-- The outer loop of `clear`. -/
def deleteRows (bound : Nat) : Nat → Nat → Heap → Option Heap
  | 0, _, _ => none
  | fuel + 1, p, heap => do
      let node ← heap p
      let heap ← deleteRow bound p heap
      match node.down with
      | none => some heap
      | some down => deleteRows bound fuel down heap

/-- `SkipList::clear`. -/
def clear (list : Towers) : Option Towers :=
  match list.head with
  | none => some list
  | some p => do
      let heap ← deleteRows list.next list.next p list.heap
      pure
        { list with
          head := none
          size := 0
          memory := 10272
          minKey := int64Max
          maxKey := int64Min
          heap := heap }

/-! ## Runs -/

inductive Call
  | put (key : Nat) (value : Str) (coin : Nat → Bool)
  | get (key : Nat)
  | clear

/-- Keys have 64 bits. -/
def Call.Valid : Call → Prop
  | .put key _ _ => key ≤ uint64Max
  | .get key => key ≤ uint64Max
  | .clear => True

def exec (list : Towers) : Call → Option Towers
  | .put key value coin => list.put key value coin
  | .get key => (list.get key).map fun _ => list
  | .clear => list.clear

/-- The list after some calls, newest first. -/
def run : List Call → Option Towers
  | [] => some new
  | call :: calls => (run calls).bind fun list => list.exec call

/-- The value of the last `put` of a key since the last `clear`. -/
def latest (key : Nat) : List Call → Option Str
  | [] => none
  | .put other value _ :: calls => if other = key then some value else latest key calls
  | .get _ :: calls => latest key calls
  | .clear :: _ => none

end Towers

end ZnsLsm.Store
