import RadixBench.Art.Model
import RadixBench.Foundation.Ownership

namespace RadixBench.Art.Heap

open Foundation Memory

variable {V : Type}

/-- A pointer to a node. `IS_LEAF` looks at bit 0, which `LEAF_RAW` takes away. -/
inductive Ref
  | leaf (a : ℕ)
  | inner (a : ℕ)
  deriving DecidableEq, Repr

/-- What lies at the start of a region. -/
inductive Cell (V : Type)
  | blank
  | leaf (l : ArtLeaf V)
  | inner (n : ArtHeader) (children : Children Ref)

instance : Zero (Cell V) := ⟨.blank⟩

structure HeapTree where
  root : Option Ref
  size : BitVec 64

def artTreeInit : HeapTree := ⟨none, 0⟩

def Cell.getLeaf : Cell V → Exec (ArtLeaf V)
  | .leaf l => .ok l
  | _ => .error .uninitializedRead

def Cell.getNode : Cell V → Exec (ArtHeader × Children Ref)
  | .inner n children => .ok (n, children)
  | _ => .error .uninitializedRead

def readLeaf (m : Memory (Cell V)) (a : ℕ) : Exec (ArtLeaf V) := m.read a >>= Cell.getLeaf

def readNode (m : Memory (Cell V)) (a : ℕ) : Exec (ArtHeader × Children Ref) :=
  m.read a >>= Cell.getNode

/-- `sizeof` the structure of a layout. -/
def nodeSize {C : Type} : Children C → ℕ
  | .node4 _ => 56
  | .node16 _ => 160
  | .node48 _ _ _ => 656
  | .node256 _ _ => 2064

/-- A new node with what the caller writes to it. -/
def allocNode (A : Allocator) (m : Memory (Cell V)) (n : ArtHeader) (children : Children Ref) :
    Exec (ℕ × Memory (Cell V)) := do
  let (a, m) ← m.allocate A (nodeSize children)
  return (a, m.write a (.inner n children))

def makeLeaf (A : Allocator) (m : Memory (Cell V)) (key : List (BitVec 8)) (value : Option V) :
    Exec (ℕ × Memory (Cell V)) := do
  let (a, m) ← m.allocate A (16 + key.length)
  return (a, m.write a (.leaf ⟨value, key⟩))

/-- The loop of `art_search` from a node on. -/
def artSearchFrom (m : Memory (Cell V)) :
    ℕ → Option Ref → List (BitVec 8) → ℕ → Exec (Option V)
  | _, none, _, _ => .ok none
  | _, some (.leaf a), key, _ => do
    let l ← readLeaf m a
    return if leafMatches l key then l.value else none
  | 0, some (.inner _), _, _ => .error .outOfFuel
  | fuel + 1, some (.inner a), key, depth => do
    let (n, children) ← readNode m a
    if n.partialLen ≠ 0 then
      let prefixLen ← checkPrefix n key depth
      if prefixLen ≠ min maxPrefixLen n.partialLen then
        return none
    let depth := depth + n.partialLen
    let c ← readByte key depth
    artSearchFrom m fuel ((children.findChild c).bind children.child) key (depth + 1)

def artSearch (m : Memory (Cell V)) (t : HeapTree) (key : List (BitVec 8)) : Exec (Option V) :=
  artSearchFrom m (key.length + 1) t.root key 0

def minimum (m : Memory (Cell V)) : ℕ → Option Ref → Exec (Option ℕ)
  | _, none => .ok none
  | _, some (.leaf a) => .ok (some a)
  | 0, some (.inner _) => .error .outOfFuel
  | fuel + 1, some (.inner a) => do
    let (_, children) ← readNode m a
    let x ← children.firstChild
    minimum m fuel x

/-- The leaf at which `minimum` ends. -/
def minimumLeaf (m : Memory (Cell V)) (fuel a : ℕ) : Exec (ArtLeaf V) := do
  let b ← minimum m fuel (some (.inner a))
  let b ← deref b
  readLeaf m b

def prefixMismatch (m : Memory (Cell V)) (fuel a : ℕ) (n : ArtHeader) (key : List (BitVec 8))
    (depth : ℕ) : Exec ℕ := do
  let maxCmp := min (min maxPrefixLen n.partialLen) (key.length - depth)
  let idx ← mismatch n.partialBytes 0 key depth 0 maxCmp
  if idx < maxCmp then
    return idx
  if n.partialLen > maxPrefixLen then
    let l ← minimumLeaf m fuel a
    mismatch l.key depth key depth idx (min l.key.length key.length - depth - idx)
  else
    return idx

def splitLeaf (A : Allocator) (arch : Arch) (m : Memory (Cell V)) (a : ℕ) (l : ArtLeaf V)
    (key : List (BitVec 8)) (value : Option V) (depth : ℕ) : Exec (Ref × Memory (Cell V)) := do
  let (p, m) ← m.allocate A (nodeSize (C := Ref) (.node4 []))
  let (b, m) ← makeLeaf A m key value
  let l₂ ← readLeaf m b
  let longestPrefix ← longestCommonPrefix l l₂ depth
  let partialBytes ← readBytes key depth (min maxPrefixLen longestPrefix)
  let c ← readByte l.bytes (depth + longestPrefix)
  let children ← Children.addChild arch (.node4 []) c (.leaf a)
  let d ← readByte l₂.bytes (depth + longestPrefix)
  let children ← children.addChild arch d (.leaf b)
  return (.inner p, m.write p (.inner ⟨longestPrefix, partialBytes⟩ children))

def cutPrefix (m : Memory (Cell V)) (fuel a : ℕ) (n : ArtHeader) (depth prefixDiff : ℕ) :
    Exec (BitVec 8 × ArtHeader) :=
  let partialLen := n.partialLen - (prefixDiff + 1)
  if n.partialLen ≤ maxPrefixLen then do
    let c ← readByte n.partialBytes prefixDiff
    let rest ← readBytes n.partialBytes (prefixDiff + 1) (min maxPrefixLen partialLen)
    return (c, ⟨partialLen, rest⟩)
  else do
    let l ← minimumLeaf m fuel a
    let c ← readByte l.bytes (depth + prefixDiff)
    let rest ← readBytes l.bytes (depth + prefixDiff + 1) (min maxPrefixLen partialLen)
    return (c, ⟨partialLen, rest⟩)

def splitPrefix (A : Allocator) (arch : Arch) (m : Memory (Cell V)) (fuel a : ℕ) (n : ArtHeader)
    (children : Children Ref) (key : List (BitVec 8)) (value : Option V) (depth prefixDiff : ℕ) :
    Exec (Ref × Memory (Cell V)) := do
  let (p, m) ← m.allocate A (nodeSize (C := Ref) (.node4 []))
  let partialBytes ← readBytes n.partialBytes 0 (min maxPrefixLen prefixDiff)
  let (c, header) ← cutPrefix m fuel a n depth prefixDiff
  let slots ← Children.addChild arch (.node4 []) c (.inner a)
  let m := m.write a (.inner header children)
  let (b, m) ← makeLeaf A m key value
  let d ← readByte key (depth + prefixDiff)
  let slots ← slots.addChild arch d (.leaf b)
  return (.inner p, m.write p (.inner ⟨prefixDiff, partialBytes⟩ slots))

/-- A node after a change of its children. One that has another layout now is a new node, for
which the old one is freed. -/
def changeNode (A : Allocator) (m : Memory (Cell V)) (a : ℕ) (n : ArtHeader)
    (old new : Children Ref) : Exec (Ref × Memory (Cell V)) :=
  if nodeSize new = nodeSize old then .ok (.inner a, m.write a (.inner n new))
  else do
    let (b, m) ← allocNode A m n new
    let m ← m.release a
    return (.inner b, m)

/-- From `RECURSE_SEARCH` on, with the recursive call as an argument. -/
def insertBelow (A : Allocator) (arch : Arch) (m : Memory (Cell V))
    (insert : Option Ref → ℕ → Exec (Ref × Memory (Cell V) × Option V × Bool)) (a : ℕ)
    (n : ArtHeader) (children : Children Ref) (key : List (BitVec 8)) (value : Option V)
    (depth : ℕ) : Exec (Ref × Memory (Cell V) × Option V × Bool) := do
  let c ← readByte key depth
  match children.findChild c with
  | some s =>
    let (x, m, oldVal, old) ← insert (children.child s) (depth + 1)
    return (.inner a, m.write a (.inner n (children.setChild s x)), oldVal, old)
  | none =>
    let (b, m) ← makeLeaf A m key value
    let children' ← children.addChild arch c (.leaf b)
    let (x, m) ← changeNode A m a n children children'
    return (x, m, none, false)

/-- What `*ref` becomes, the memory, the result, and `*old`. -/
def recursiveInsert (A : Allocator) (arch : Arch) (m : Memory (Cell V)) (key : List (BitVec 8))
    (value : Option V) (replace : Bool) :
    ℕ → Option Ref → ℕ → Exec (Ref × Memory (Cell V) × Option V × Bool)
  | _, none, _ => do
    let (a, m) ← makeLeaf A m key value
    return (.leaf a, m, none, false)
  | _, some (.leaf a), depth => do
    let l ← readLeaf m a
    if leafMatches l key then
      return (.leaf a, if replace then m.write a (.leaf { l with value := value }) else m,
        l.value, true)
    else
      let (x, m) ← splitLeaf A arch m a l key value depth
      return (x, m, none, false)
  | 0, some (.inner _), _ => .error .outOfFuel
  | fuel + 1, some (.inner a), depth => do
    let (n, children) ← readNode m a
    if n.partialLen ≠ 0 then
      let prefixDiff ← prefixMismatch m (fuel + 1) a n key depth
      if prefixDiff < n.partialLen then
        let (x, m) ← splitPrefix A arch m (fuel + 1) a n children key value depth prefixDiff
        return (x, m, none, false)
    insertBelow A arch m (recursiveInsert A arch m key value replace fuel) a n children key value
      (depth + n.partialLen)

def insertWith (replace : Bool) (A : Allocator) (arch : Arch) (fuel : ℕ) (m : Memory (Cell V))
    (t : HeapTree) (key : List (BitVec 8)) (value : Option V) :
    Exec (HeapTree × Memory (Cell V) × Option V) := do
  let (root, m, oldVal, old) ← recursiveInsert A arch m key value replace fuel t.root 0
  return (⟨some root, if old then t.size else t.size + 1⟩, m, oldVal)

def artInsert : Allocator → Arch → ℕ → Memory (Cell V) → HeapTree → List (BitVec 8) → Option V →
    Exec (HeapTree × Memory (Cell V) × Option V) :=
  insertWith true

def artInsertNoReplace : Allocator → Arch → ℕ → Memory (Cell V) → HeapTree → List (BitVec 8) →
    Option V → Exec (HeapTree × Memory (Cell V) × Option V) :=
  insertWith false

/-- The last remaining child takes the place of its node, which is freed. -/
def removeChild4 (m : Memory (Cell V)) (a : ℕ) (n : ArtHeader) (slots : List (BitVec 8 × Ref))
    (pos : ℕ) : Exec (Ref × Memory (Cell V)) :=
  match slots.eraseIdx pos with
  | [(_, .leaf b)] => do
    let m ← m.release a
    return (.leaf b, m)
  | [(c, .inner b)] => do
    let (child, children) ← readNode m b
    let header ← concatenatePrefixes n c child
    let m ← (m.write b (.inner header children)).release a
    return (.inner b, m)
  | slots => .ok (.inner a, m.write a (.inner n (.node4 slots)))

def removeChild (A : Allocator) (m : Memory (Cell V)) (a : ℕ) (n : ArtHeader)
    (children : Children Ref) (c : BitVec 8) (l : Slot) : Exec (Ref × Memory (Cell V)) :=
  match children, l with
  | .node4 slots, .index pos => removeChild4 m a n slots pos
  | .node16 slots, .index pos =>
    changeNode A m a n (.node16 slots) (Children.removeChild16 slots pos)
  | .node48 num keys places, _ => do
    let children ← Children.removeChild48 num keys places c
    changeNode A m a n (.node48 num keys places) children
  | .node256 num places, _ => do
    let children ← Children.removeChild256 num places c
    changeNode A m a n (.node256 num places) children
  | _, _ => .error .indexOutOfRange

/-- What `*ref` becomes, the memory, and the leaf that was taken out. -/
def recursiveDelete (A : Allocator) (m : Memory (Cell V)) (key : List (BitVec 8)) :
    ℕ → Option Ref → ℕ → Exec (Option Ref × Memory (Cell V) × Option ℕ)
  | _, none, _ => .ok (none, m, none)
  | _, some (.leaf a), _ => do
    let l ← readLeaf m a
    return if leafMatches l key then (none, m, some a) else (some (.leaf a), m, none)
  | 0, some (.inner _), _ => .error .outOfFuel
  | fuel + 1, some (.inner a), depth => do
    let (n, children) ← readNode m a
    if n.partialLen ≠ 0 then
      let prefixLen ← checkPrefix n key depth
      if prefixLen ≠ min maxPrefixLen n.partialLen then
        return (some (.inner a), m, none)
    let depth := depth + n.partialLen
    let c ← readByte key depth
    match children.findChild c with
    | none => return (some (.inner a), m, none)
    | some s =>
      match children.child s with
      | some (.leaf b) =>
        let l ← readLeaf m b
        if leafMatches l key then
          let (x, m) ← removeChild A m a n children c s
          return (some x, m, some b)
        else return (some (.inner a), m, none)
      | x =>
        let (x, m, l) ← recursiveDelete A m key fuel x (depth + 1)
        let children' := x.elim children (children.setChild s)
        return (some (.inner a), m.write a (.inner n children'), l)

def artDelete (A : Allocator) (m : Memory (Cell V)) (t : HeapTree) (key : List (BitVec 8)) :
    Exec (HeapTree × Memory (Cell V) × Option V) := do
  let (root, m, l) ← recursiveDelete A m key (key.length + 1) t.root 0
  match l with
  | some a => do
    let l ← readLeaf m a
    let m ← m.release a
    return (⟨root, t.size - 1⟩, m, l.value)
  | none => return (⟨root, t.size⟩, m, none)

/-- The loops over the children, which look at the node again in each round. -/
def destroyChildren (destroy : Memory (Cell V) → Option Ref → Exec (Memory (Cell V))) (a : ℕ) :
    List (BitVec 8 × Ref) → Memory (Cell V) → Exec (Memory (Cell V))
  | [], m => .ok m
  | (_, x) :: slots, m => do
    let _ ← readNode m a
    let m ← destroy m (some x)
    destroyChildren destroy a slots m

def destroyNode : ℕ → Memory (Cell V) → Option Ref → Exec (Memory (Cell V))
  | _, m, none => .ok m
  | _, m, some (.leaf a) => m.release a
  | 0, _, some (.inner _) => .error .outOfFuel
  | fuel + 1, m, some (.inner a) => do
    let (_, children) ← readNode m a
    let m ← destroyChildren (destroyNode fuel) a children.inorder m
    m.release a

def artTreeDestroy (fuel : ℕ) (m : Memory (Cell V)) (t : HeapTree) : Exec (Memory (Cell V)) :=
  destroyNode fuel m t.root

end RadixBench.Art.Heap
