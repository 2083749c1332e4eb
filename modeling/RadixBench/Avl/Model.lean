import RadixBench.Foundation.Execution
import RadixBench.Foundation.LinkedTree

namespace RadixBench.Avl

open Foundation

/-- `CUavlTreeNode`, with `left` and `right` under `false` and `true`. -/
structure CUavlTreeNode (N K V : Type) where
  child : Bool → Option N
  key : K
  value : V
  parent : Option N
  height : ℤ

/-- `CUavlTree`, together with all nodes in memory. -/
structure CUavlTree (N K V : Type) where
  compare : K → K → ℤ
  root : Option N
  node : N → CUavlTreeNode N K V

inductive CUavlTreeStatus
  | success
  | keyExists
  deriving DecidableEq, Repr

variable {N K V : Type} [DecidableEq N]

namespace CUavlTree

variable (t : CUavlTree N K V)

def left (n : N) : Option N := (t.node n).child false

def right (n : N) : Option N := (t.node n).child true

def load : Slot N → Option N
  | .root => t.root
  | .child n i => (t.node n).child i

def setNode (n : N) (x : CUavlTreeNode N K V) : CUavlTree N K V :=
  { t with node := Function.update t.node n x }

/-- `*s = p`. -/
def store : Slot N → Option N → CUavlTree N K V
  | .root, p => { t with root := p }
  | .child n i, p =>
    t.setNode n { t.node n with child := Function.update (t.node n).child i p }

def setParent (n : N) (p : Option N) : CUavlTree N K V := t.setNode n { t.node n with parent := p }

/-- `if (p) p->parent = q`. -/
def setParentOf (p q : Option N) : CUavlTree N K V :=
  match p with
  | none => t
  | some n => t.setParent n q

def setHeight (n : N) (h : ℤ) : CUavlTree N K V := t.setNode n { t.node n with height := h }

end CUavlTree

variable (t : CUavlTree N K V)

def cuAvlTreeNodeGetHeight : Option N → ℤ
  | some node => (t.node node).height
  | none => 0

def cuAvlTreeNodeGetBalance (node : Option N) : Exec ℤ := do
  let balance := match node with
    | some node => cuAvlTreeNodeGetHeight t (t.left node) - cuAvlTreeNodeGetHeight t (t.right node)
    | none => 0
  check (balance ≤ 2)
  .ok balance

def cuAvlTreeNodeRecalculateHeight (node : N) : CUavlTree N K V :=
  t.setHeight node
    (1 + max (cuAvlTreeNodeGetHeight t (t.left node)) (cuAvlTreeNodeGetHeight t (t.right node)))

def cuAvlTreeNodeGetChild (node : N) (compare : ℤ) : Exec (Option N) := do
  check (compare ≠ 0)
  .ok (if 0 > compare then t.left node else t.right node)

def cuAvlTreeNodeGetLinkPointer (node : N) : Exec (Slot N) :=
  match (t.node node).parent with
  | some parent =>
    if t.left parent = some node then .ok (.child parent false)
    else if t.right parent = some node then .ok (.child parent true)
    else .error .assertionFailed
  | none => .ok .root

def cuAvlTreeNodeGetChildLinkPointer (node : N) (compare : ℤ) : Exec (Slot N) := do
  check (compare ≠ 0)
  .ok (if compare < 0 then .child node false else .child node true)

/-- The checks on the child of `node` on the side `side`. `recurse` is the recursive call. -/
def assertValidChild (recurse : N → Exec ℤ) (node : N) (side : Bool) : Exec ℤ :=
  match (t.node node).child side with
  | some child => do
    let compare := t.compare (t.node child).key (t.node node).key
    let expected ← cuAvlTreeNodeGetChild t node compare
    check (some child = expected)
    check (some node = (t.node child).parent)
    recurse child
  | none => .ok 0

def cuAvlTreeAssertValidRecursive : ℕ → Option N → Exec ℤ
  | _, none => .ok (max 0 0 + 1)
  | 0, some _ => .error .outOfFuel
  | fuel + 1, some node => do
    let balance ← cuAvlTreeNodeGetBalance t (some node)
    check (-2 < balance ∧ 2 > balance)
    let recurse := fun child ↦ cuAvlTreeAssertValidRecursive fuel (some child)
    let lefth ← assertValidChild t recurse node false
    let righth ← assertValidChild t recurse node true
    let height := max lefth righth + 1
    check (height = (t.node node).height)
    .ok height

def cuAvlTreeAssertValid (fuel : ℕ) : Exec Unit := do
  let _ ← cuAvlTreeAssertValidRecursive t fuel t.root
  .ok ()

/-- Both rotations: the child on the side `side` comes up. -/
def rotate (side : Bool) (node : N) : Exec (CUavlTree N K V × N) := do
  let child := (t.node node).child side
  let link ← cuAvlTreeNodeGetLinkPointer t node
  let t := t.store link child
  let child ← deref child
  let t := t.setParent child (t.node node).parent
  let t := t.store (.child node side) ((t.node child).child !side)
  let t := t.setParentOf ((t.node node).child side) (some node)
  let t := t.store (.child child !side) (some node)
  let t := t.setParent node (some child)
  let t := cuAvlTreeNodeRecalculateHeight t node
  .ok (cuAvlTreeNodeRecalculateHeight t child, child)

def cuAvlTreeNodeRotateRight (node : N) : Exec (CUavlTree N K V × N) := rotate t false node

def cuAvlTreeNodeRotateLeft (node : N) : Exec (CUavlTree N K V × N) := rotate t true node

def rebalanceNode (isDelete : Bool) (node : N) : Exec (CUavlTree N K V × N) := do
  let balance ← cuAvlTreeNodeGetBalance t (some node)
  if balance = -2 then do
    let rightBalance ← cuAvlTreeNodeGetBalance t (t.right node)
    if rightBalance = -1 then cuAvlTreeNodeRotateLeft t node
    else if rightBalance = 0 ∧ isDelete then cuAvlTreeNodeRotateLeft t node
    else if rightBalance = 1 then do
      let right ← deref (t.right node)
      let (t, _) ← cuAvlTreeNodeRotateRight t right
      cuAvlTreeNodeRotateLeft t node
    else .ok (t, node)
  else if balance = 2 then do
    let leftBalance ← cuAvlTreeNodeGetBalance t (t.left node)
    if leftBalance = 1 then cuAvlTreeNodeRotateRight t node
    else if leftBalance = 0 ∧ isDelete then cuAvlTreeNodeRotateRight t node
    else if leftBalance = -1 then do
      let left ← deref (t.left node)
      let (t, _) ← cuAvlTreeNodeRotateLeft t left
      cuAvlTreeNodeRotateRight t node
    else .ok (t, node)
  else .ok (t, node)

/-- `fuel` bounds the number of iterations, here and in the other loops. -/
def cuAvlTreeNodeRebalance (isDelete : Bool) :
    ℕ → CUavlTree N K V → Option N → Exec (CUavlTree N K V)
  | _, t, none => .ok t
  | 0, _, some _ => .error .outOfFuel
  | fuel + 1, t, some node => do
    let (t, node) ← rebalanceNode t isDelete node
    let t := cuAvlTreeNodeRecalculateHeight t node
    cuAvlTreeNodeRebalance isDelete fuel t (t.node node).parent

/-- A tree in memory with arbitrary contents. -/
def cuAvlTreeInitialize (nodes : N → CUavlTreeNode N K V) (compare : K → K → ℤ) :
    CUavlTree N K V := ⟨compare, none, nodes⟩

/-- The loop of `cuAvlTreeNodeFindWithNodeComparator`. -/
def findNodeFrom (comparator : K → N → ℤ) (key : K) : ℕ → Option N → Exec (Option N)
  | _, none => .ok none
  | 0, some _ => .error .outOfFuel
  | fuel + 1, some node => do
    let compare := comparator key node
    if compare = 0 then .ok (some node)
    else do
      let child ← cuAvlTreeNodeGetChild t node compare
      findNodeFrom comparator key fuel child

def cuAvlTreeNodeFindWithNodeComparator (fuel : ℕ) (key : K) (comparator : K → N → ℤ) :
    Exec (Option N) := findNodeFrom t comparator key fuel t.root

/-- The loop of `cuAvlTreeNodeFindWithComparator`. -/
def findFrom (comparator : K → K → ℤ) (key : K) : ℕ → Option N → Exec (Option N)
  | _, none => .ok none
  | 0, some _ => .error .outOfFuel
  | fuel + 1, some node => do
    let compare := comparator key (t.node node).key
    if compare = 0 then .ok (some node)
    else do
      let child ← cuAvlTreeNodeGetChild t node compare
      findFrom comparator key fuel child

def cuAvlTreeNodeFindWithComparator (fuel : ℕ) (key : K) (comparator : K → K → ℤ) :
    Exec (Option N) := findFrom t comparator key fuel t.root

def cuAvlTreeNodeFind (fuel : ℕ) (key : K) : Exec (Option N) :=
  cuAvlTreeNodeFindWithComparator t fuel key t.compare

/-- The loop of the searches for the nearest key. A node whose comparison is one of those that
`accept` takes is the best so far. -/
def findBest (accept : ℤ → Bool) (key : K) : ℕ → Option N → Option N → Exec (Option N)
  | _, none, best => .ok best
  | 0, some _, _ => .error .outOfFuel
  | fuel + 1, some node, best => do
    let compare := t.compare key (t.node node).key
    let best := if accept compare then some node else best
    if compare = 0 then .ok (some node)
    else do
      let child ← cuAvlTreeNodeGetChild t node compare
      findBest accept key fuel child best

def cuAvlTreeNodeFindGEQ (fuel : ℕ) (key : K) : Exec (Option N) :=
  findBest t (fun compare ↦ 0 ≥ compare) key fuel t.root none

def cuAvlTreeNodeFindLEQ (fuel : ℕ) (key : K) : Exec (Option N) :=
  findBest t (fun compare ↦ 0 ≤ compare) key fuel t.root none

inductive Place (N : Type)
  | existing (node : N)
  | below (parent : Option N) (childLink : Slot N)

def findPlace (key : K) : ℕ → Option N → Slot N → Exec (Place N)
  | _, none, childLink => .ok (.below none childLink)
  | 0, some _, _ => .error .outOfFuel
  | fuel + 1, some parent, _ => do
    let compare := t.compare key (t.node parent).key
    if compare = 0 then .ok (.existing parent)
    else do
      let childLink ← cuAvlTreeNodeGetChildLinkPointer parent compare
      match t.load childLink with
      | none => .ok (.below (some parent) childLink)
      | some child => findPlace key fuel (some child) childLink

def newNode (key : K) (value : V) : CUavlTreeNode N K V := ⟨fun _ ↦ none, key, value, none, 1⟩

def cuAvlTreeNodeInsertOrReturnExisting (fuel : ℕ) (node : N) (key : K) (value : V) :
    Exec (Option N × CUavlTree N K V) := do
  let t := t.setNode node (newNode key value)
  match ← findPlace t key fuel t.root .root with
  | .existing parent => .ok (some parent, t)
  | .below parent childLink => do
    let t := (t.store childLink (some node)).setParent node parent
    let t ← cuAvlTreeNodeRebalance false fuel t parent
    .ok (none, t)

def cuAvlTreeNodeInsert (fuel : ℕ) (node : N) (key : K) (value : V) :
    Exec (CUavlTreeStatus × CUavlTree N K V) := do
  let (existing, t) ← cuAvlTreeNodeInsertOrReturnExisting t fuel node key value
  .ok (if existing ≠ none then .keyExists else .success, t)

def leftMost : ℕ → N → Exec N
  | fuel, successor =>
    match t.left successor with
    | none => .ok successor
    | some left =>
      match fuel with
      | 0 => .error .outOfFuel
      | fuel + 1 => leftMost fuel left

/-- `node`, which `link` points to, is replaced with its successor. The second result
is the node to rebalance from. -/
def replaceWithSuccessor (fuel : ℕ) (node right : N) (link : Slot N) :
    Exec (CUavlTree N K V × Option N) := do
  let successor ← leftMost t fuel right
  let successorLink ← cuAvlTreeNodeGetLinkPointer t successor
  let t := t.store successorLink (t.right successor)
  let t := t.setParentOf (t.right successor) (t.node successor).parent
  let rebalance := if some node ≠ (t.node successor).parent then (t.node successor).parent
    else some successor
  let t := t.store link (some successor)
  let t := t.setParent successor (t.node node).parent
  let t := t.store (.child successor false) (t.left node)
  let left ← deref (t.left successor)
  let t := t.setParent left (some successor)
  let t := t.store (.child successor true) (t.right node)
  .ok (t.setParentOf (t.right successor) (some successor), rebalance)

def replaceWithChild (node : N) (side : Bool) (link : Slot N) :
    Exec (CUavlTree N K V × Option N) := do
  let t := t.store link ((t.node node).child side)
  let child ← deref ((t.node node).child side)
  .ok (t.setParent child (t.node node).parent, (t.node node).child side)

/-- The cases of `cuAvlTreeNodeRemove`. -/
def unlinkNode (fuel : ℕ) (node : N) (link : Slot N) : Exec (CUavlTree N K V × Option N) :=
  match t.left node, t.right node with
  | some _, some right => replaceWithSuccessor t fuel node right link
  | some _, none => replaceWithChild t node false link
  | none, some _ => replaceWithChild t node true link
  | none, none => .ok (t.store link none, (t.node node).parent)

def cuAvlTreeNodeRemove (fuel : ℕ) (node : N) : Exec (CUavlTree N K V) := do
  let link ← cuAvlTreeNodeGetLinkPointer t node
  let (t, rebalance) ← unlinkNode t fuel node link
  let t := t.setNode node { t.node node with child := fun _ ↦ none, parent := none }
  cuAvlTreeNodeRebalance true fuel t rebalance

def outermost (side : Bool) : ℕ → N → Exec N
  | fuel, node =>
    match (t.node node).child side with
    | none => .ok node
    | some next =>
      match fuel with
      | 0 => .error .outOfFuel
      | fuel + 1 => outermost side fuel next

def climb (side : Bool) : ℕ → Option N → Exec (Option N)
  | _, none => .ok none
  | 0, some _ => .error .outOfFuel
  | fuel + 1, some node =>
    match (t.node node).parent with
    | some parent =>
      if (t.node parent).child side = some node then .ok (some parent)
      else climb side fuel (some parent)
    | none => climb side fuel none

/-- Both walks along the order of the keys, away from the side `side`. -/
def inOrderNeighbor (side : Bool) (fuel : ℕ) (node : N) : Exec (Option N) :=
  match (t.node node).child !side with
  | some child => do
    let neighbor ← outermost t side fuel child
    .ok (some neighbor)
  | none => if (t.node node).parent ≠ none then climb t side fuel (some node) else .ok none

def cuAvlTreeNodeInOrderPredecessor (fuel : ℕ) (node : N) : Exec (Option N) :=
  inOrderNeighbor t true fuel node

def cuAvlTreeNodeInOrderSuccessor (fuel : ℕ) (node : N) : Exec (Option N) :=
  inOrderNeighbor t false fuel node

end RadixBench.Avl
