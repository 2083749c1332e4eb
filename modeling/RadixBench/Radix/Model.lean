import RadixBench.Foundation.Execution
import RadixBench.Foundation.LinkedTree

namespace RadixBench.Radix

open Foundation

/-- `CUradixNode`, with `child[0]` and `child[1]` under `false` and `true`. -/
@[ext]
structure CUradixNode (N : Type) where
  next : Option N
  prev : Option N
  child : Bool → Option N
  parentToSelfPtr : Option (Slot N)
  parent : Option N
  key : BitVec 64

/-- `CUradixTree`, together with all nodes in memory. -/
@[ext]
structure CUradixTree (N : Type) where
  root : Option N
  keyBits : BitVec 32
  node : N → CUradixNode N

variable {N : Type} [DecidableEq N]

namespace CUradixTree

variable (t : CUradixTree N)

def load : Slot N → Option N
  | .root => t.root
  | .child n i => (t.node n).child i

def setNode (n : N) (x : CUradixNode N) : CUradixTree N :=
  { t with node := Function.update t.node n x }

def setNext (n : N) (p : Option N) : CUradixTree N := t.setNode n { t.node n with next := p }

def setPrev (n : N) (p : Option N) : CUradixTree N := t.setNode n { t.node n with prev := p }

def setParentToSelfPtr (n : N) (p : Option (Slot N)) : CUradixTree N :=
  t.setNode n { t.node n with parentToSelfPtr := p }

def setParent (n : N) (p : Option N) : CUradixTree N := t.setNode n { t.node n with parent := p }

/-- `*s = p`. -/
def store : Slot N → Option N → CUradixTree N
  | .root, p => { t with root := p }
  | .child n i, p =>
    t.setNode n { t.node n with child := Function.update (t.node n).child i p }

/-- `n->child[i] = p`, and the two links back of the child if there is one. -/
def setChild (n : N) (i : Bool) (p : Option N) : CUradixTree N :=
  let t := t.store (.child n i) p
  match p with
  | none => t
  | some c => (t.setParentToSelfPtr c (some (.child n i))).setParent c (some n)

end CUradixTree

variable (t : CUradixTree N)

def radixTreeGetSmallerChild (node : N) : Option N :=
  match (t.node node).child false with
  | some c => some c
  | none => (t.node node).child true

def radixTreeGetSmallerNode (firstNode : N) : Option N → N
  | none => firstNode
  | some potentialSecondNode =>
    if (t.node firstNode).key < (t.node potentialSecondNode).key then firstNode
    else potentialSecondNode

/-- The bit index is the number of positions to shift a 64-bit value by. -/
def radixTreeIsBitSet (key : BitVec 64) (keyBit : ℕ) : Exec Bool :=
  if keyBit < 64 then .ok (key &&& 1#64 <<< keyBit ≠ 0#64) else .error .shiftOutOfRange

def radixListInit (node : N) : CUradixTree N :=
  (t.setNext node (some node)).setPrev node (some node)

def radixListInsert (node head : N) : Exec (CUradixTree N) := do
  let prev ← deref (t.node head).prev
  let t := t.setNext prev (some node)
  let t := t.setPrev node (some prev)
  let t := t.setPrev head (some node)
  .ok (t.setNext node (some head))

def radixListRemove (node : N) : Exec (CUradixTree N) := do
  let next ← deref (t.node node).next
  let prev ← deref (t.node node).prev
  let t := t.setPrev next (some prev)
  .ok (t.setNext prev (some next))

def radixListEmpty (node : N) : Bool := (t.node node).next = some node

def radixTreeInit (nodes : N → CUradixNode N) (keyBits : BitVec 32) : Exec (CUradixTree N) := do
  check (0#32 < keyBits)
  .ok ⟨none, keyBits, nodes⟩

def radixTreeEmpty : Bool := t.root.isNone

def radixTreeReplaceNode (orig repl : N) : Exec (CUradixTree N) := do
  check ((t.node repl).child false = none)
  check ((t.node repl).child true = none)
  check ((t.node repl).parent = none)
  check ((t.node repl).parentToSelfPtr = none)
  let t := t.setParentToSelfPtr repl (t.node orig).parentToSelfPtr
  let t := t.setParent repl (t.node orig).parent
  let t := t.setChild repl false ((t.node orig).child false)
  let t := t.setChild repl true ((t.node orig).child true)
  let parentToSelfPtr ← deref (t.node repl).parentToSelfPtr
  .ok (t.store parentToSelfPtr (some repl))

def radixTreeSwapParentWithChild (oldParent oldChild : N) : Exec (CUradixTree N) := do
  check ((t.node oldChild).parent = some oldParent)
  let childNumber : Bool := (t.node oldParent).child true = some oldChild
  let swapParentToSelfPtr := (t.node oldParent).parentToSelfPtr
  let oldChildChild := (t.node oldChild).child
  let t := t.setParentToSelfPtr oldParent (some (.child oldChild childNumber))
  let t := t.store (.child oldChild childNumber) (some oldParent)
  let t := t.setChild oldChild (!childNumber) ((t.node oldParent).child !childNumber)
  let t := t.setParentToSelfPtr oldChild swapParentToSelfPtr
  let slot ← deref swapParentToSelfPtr
  let t := t.store slot (some oldChild)
  let swapParent := (t.node oldParent).parent
  let t := t.setParent oldParent (some oldChild)
  let t := t.setParent oldChild swapParent
  let t := t.setChild oldParent false (oldChildChild false)
  .ok (t.setChild oldParent true (oldChildChild true))

/-- The body of `if (node->key < cur->key)`, after which `node` and `cur` are swapped. -/
def swapNode (cur node : N) : Exec (CUradixTree N × N × N) := do
  if (t.node node).key < (t.node cur).key then
    let t ← radixTreeReplaceNode t cur node
    let t := (t.store (.child cur false) none).store (.child cur true) none
    let t := (t.setParent cur none).setParentToSelfPtr cur none
    .ok (t, node, cur)
  else .ok (t, cur, node)

/-- The loop of `radixTreeInsert` from the bit `curKeyBit` on, and what follows it. -/
def insertFrom (key : BitVec 64) (curKeyBit : ℕ) (t : CUradixTree N) (node : N)
    (parent : Option N) (parentToSelfPtr : Slot N) : Exec (CUradixTree N) :=
  match t.load parentToSelfPtr with
  | none =>
    let t := t.setParentToSelfPtr node (some parentToSelfPtr)
    let t := t.store parentToSelfPtr (some node)
    .ok (t.setParent node parent)
  | some cur =>
    if (t.node cur).key = key then radixListInsert t node cur
    else do
      let (t, cur, node) ← swapNode t cur node
      match curKeyBit with
      | 0 => .error .assertionFailed
      | curKeyBit + 1 => do
        let childToTake ← radixTreeIsBitSet (t.node node).key curKeyBit
        insertFrom key curKeyBit t node (some cur) (.child cur childToTake)

def radixTreeInsert (node : N) (key : BitVec 64) : Exec (CUradixTree N) := do
  if t.keyBits ≠ 64 then
    if 64 ≤ t.keyBits.toNat then .error .shiftOutOfRange
    check (~~~(1#64 <<< t.keyBits.toNat - 1#64) &&& key = 0#64)
  let t := t.setNode node ⟨none, none, fun _ ↦ none, none, none, key⟩
  let t := radixListInit t node
  insertFrom key t.keyBits.toNat t node none .root

/-- The loop of `radixTreeFindGEQ` from the bit `curKeyBit` on, and what follows it. When
`curKeyBit` is 0, decrementing it wraps around. -/
def findGEQFrom (key : BitVec 64) (curKeyBit : ℕ) (node found gtTree : Option N) :
    Exec (Option N) :=
  match node with
  | none => .ok (if found = none then gtTree else found)
  | some node =>
    if (t.node node).key = key then .ok (some node)
    else
      let found := if key < (t.node node).key then some (radixTreeGetSmallerNode t node found)
        else found
      match curKeyBit with
      | 0 => .error .shiftOutOfRange
      | curKeyBit + 1 => do
        let childToTake ← radixTreeIsBitSet key curKeyBit
        let gtTree := if childToTake = false ∧ (t.node node).child true ≠ none
          then (t.node node).child true else gtTree
        findGEQFrom key curKeyBit ((t.node node).child childToTake) found gtTree

def radixTreeFindGEQ (key : BitVec 64) : Exec (Option N) :=
  findGEQFrom t key t.keyBits.toNat t.root none none

/-- `fuel` bounds the number of calls. -/
def radixTreeRemove : ℕ → CUradixTree N → N → Exec (CUradixTree N)
  | 0, _, _ => .error .outOfFuel
  | fuel + 1, t, node =>
    if radixListEmpty t node then
      match radixTreeGetSmallerChild t node with
      | none => do
        let parentToSelfPtr ← deref (t.node node).parentToSelfPtr
        .ok (t.store parentToSelfPtr none)
      | some leastChild => do
        let t ← radixTreeSwapParentWithChild t node leastChild
        radixTreeRemove fuel t node
    else if (t.node node).parentToSelfPtr = none then radixListRemove t node
    else do
      let next ← deref (t.node node).next
      let t ← radixTreeReplaceNode t node next
      radixListRemove (t.setParentToSelfPtr node none) node

end RadixBench.Radix
