import RadixBench.Foundation.Digits
import RadixBench.Foundation.Execution
import RadixBench.Foundation.Mask
import RadixBench.Foundation.Memory

namespace RadixBench.WideRadix

open Foundation Memory

structure WideRadixNode where
  childMask : Mask
  children : BitVec 8 → Option ℕ
  value : BitVec 64
  isLeaf : Bool

instance : Zero WideRadixNode := ⟨⟨fun _ ↦ 0#64, fun _ ↦ none, 0#64, false⟩⟩

structure WideRadixTree where
  root : Option ℕ
  keyBits : BitVec 32

def sizeofWideRadixNode : ℕ := 2096

def extractByte (key : BitVec 64) (level : ℕ) : BitVec 8 :=
  ((key >>> ((7 - level) * 8)) &&& 0xFF#64).setWidth 8

def maskGetBit (mask : Mask) (bit : BitVec 8) : Bool :=
  mask (Fin.ofNat 4 (bit.toNat / 64)) &&& 1#64 <<< (bit.toNat % 64) ≠ 0#64

def maskSetBit (mask : Mask) (bit : BitVec 8) : Mask :=
  let i := Fin.ofNat 4 (bit.toNat / 64)
  Function.update mask i (mask i ||| 1#64 <<< (bit.toNat % 64))

def maskClearBit (mask : Mask) (bit : BitVec 8) : Mask :=
  let i := Fin.ofNat 4 (bit.toNat / 64)
  Function.update mask i (mask i &&& ~~~(1#64 <<< (bit.toNat % 64)))

variable (A : Allocator) (m : Memory WideRadixNode)

def createNode (isLeaf : Bool) : Option ℕ × Memory WideRadixNode :=
  match m.calloc A sizeofWideRadixNode with
  | (none, m) => (none, m)
  | (some node, m) => (some node, m.write node { m.cell node with isLeaf := isLeaf, value := 0#64 })

def wideRadixInit (keyBits : BitVec 32) : WideRadixTree × Memory WideRadixNode :=
  let (root, m) := createNode A m false
  (⟨root, keyBits⟩, m)

/-- `mask_set_bit(&current->child_mask, byte); current->children[byte] = node`. -/
def setChild (current : ℕ) (byte : BitVec 8) (node : ℕ) : Memory WideRadixNode :=
  let n := m.cell current
  m.write current { n with
    childMask := maskSetBit n.childMask byte
    children := Function.update n.children byte (some node) }

/-- The loop of `wide_radix_insert` from level `7 - rem` on, and what follows it. -/
def insertFrom (key value : BitVec 64) :
    ℕ → Memory WideRadixNode → ℕ → Exec (Bool × Memory WideRadixNode)
  | 0, m, current => do
    let finalByte := extractByte key 7
    if maskGetBit (m.cell current).childMask finalByte then
      let leaf ← deref ((m.cell current).children finalByte)
      check ((m.cell leaf).isLeaf = true)
      .ok (true, m.write leaf { m.cell leaf with value := value })
    else
      match createNode A m true with
      | (none, m) => .ok (false, m)
      | (some leaf, m) =>
        let m := m.write leaf { m.cell leaf with value := value }
        .ok (true, setChild m current finalByte leaf)
  | rem + 1, m, current => do
    let byte := extractByte key (7 - (rem + 1))
    if maskGetBit (m.cell current).childMask byte then
      let next ← require ((m.cell current).children byte)
      insertFrom key value rem m next
    else
      match createNode A m false with
      | (none, m) => .ok (false, m)
      | (some newNode, m) => insertFrom key value rem (setChild m current byte newNode) newNode

def wideRadixInsert (tree : WideRadixTree) (key value : BitVec 64) :
    Exec (Bool × Memory WideRadixNode) := do
  let root ← require tree.root
  insertFrom A key value 7 m root

/-- The loop of `wide_radix_delete` from level `7 - rem` on, and what follows it. -/
def deleteFrom (key : BitVec 64) :
    ℕ → Memory WideRadixNode → ℕ → Exec (Bool × Memory WideRadixNode)
  | 0, m, current => do
    let finalByte := extractByte key 7
    if maskGetBit (m.cell current).childMask finalByte then
      let leaf ← deref ((m.cell current).children finalByte)
      check ((m.cell leaf).isLeaf = true)
      let m := m.free leaf
      let n := m.cell current
      .ok (true, m.write current { n with
        children := Function.update n.children finalByte none
        childMask := maskClearBit n.childMask finalByte })
    else .ok (false, m)
  | rem + 1, m, current => do
    let byte := extractByte key (7 - (rem + 1))
    if maskGetBit (m.cell current).childMask byte then
      let next ← require ((m.cell current).children byte)
      deleteFrom key rem m next
    else .ok (false, m)

def wideRadixDelete (tree : WideRadixTree) (key : BitVec 64) :
    Exec (Bool × Memory WideRadixNode) := do
  let root ← require tree.root
  deleteFrom key 7 m root

/-- The loop of `wide_radix_lookup` from level `7 - rem` on. The result `&leaf->value`
is given as the leaf. -/
def lookupFrom (key : BitVec 64) : ℕ → ℕ → Exec (Option ℕ)
  | 0, current => do
    let byte := extractByte key 7
    if maskGetBit (m.cell current).childMask byte then
      let leaf ← require ((m.cell current).children byte)
      check ((m.cell leaf).isLeaf = true)
      .ok (some leaf)
    else .ok none
  | rem + 1, current => do
    let byte := extractByte key (7 - (rem + 1))
    if maskGetBit (m.cell current).childMask byte then
      let next ← require ((m.cell current).children byte)
      lookupFrom key rem next
    else .ok none

def wideRadixLookup (tree : WideRadixTree) (key : BitVec 64) : Exec (Option ℕ) := do
  let root ← require tree.root
  lookupFrom m key 7 root

/-- The loops over `next_byte`, `child_byte` and, in `wide_radix_empty`, `i`, with `n` bytes
to go. -/
def nextByte (mask : Mask) : ℕ → ℕ → Option (BitVec 8)
  | 0, _ => none
  | n + 1, byte =>
    if maskGetBit mask (BitVec.ofNat 8 byte) then some (BitVec.ofNat 8 byte)
    else nextByte mask n (byte + 1)

/-- The loop over `remaining_level`, with `rem` levels to go. A node without children
is not left, and the loop goes on with the next level. -/
def leftmostFrom : ℕ → ℕ → Exec ℕ
  | 0, current => .ok current
  | rem + 1, current =>
    match nextByte (m.cell current).childMask 256 0 with
    | none => leftmostFrom rem current
    | some childByte => do
      let next ← require ((m.cell current).children childByte)
      leftmostFrom rem next

/-- What `wide_radix_find_geq` does at level `7 - rem` when the byte of the key has no
child. The key of the leaf is built there too, but not used. -/
def findNext (key : BitVec 64) (rem : ℕ) (current : ℕ) : Exec (Option ℕ) :=
  let byte := extractByte key (7 - rem)
  match nextByte (m.cell current).childMask (256 - (byte.toNat + 1)) (byte.toNat + 1) with
  | none => .ok none
  | some next => do
    let current ← require ((m.cell current).children next)
    let current ← leftmostFrom m rem current
    .ok (if (m.cell current).isLeaf then some current else none)

/-- The loop of `wide_radix_find_geq` from level `7 - rem` on. -/
def findGeqFrom (key : BitVec 64) : ℕ → ℕ → Exec (Option ℕ)
  | 0, current => do
    let byte := extractByte key 7
    if maskGetBit (m.cell current).childMask byte then
      let leaf ← require ((m.cell current).children byte)
      check ((m.cell leaf).isLeaf = true)
      .ok (some leaf)
    else findNext m key 0 current
  | rem + 1, current => do
    let byte := extractByte key (7 - (rem + 1))
    if maskGetBit (m.cell current).childMask byte then
      let next ← require ((m.cell current).children byte)
      findGeqFrom key rem next
    else findNext m key (rem + 1) current

def wideRadixFindGeq (tree : WideRadixTree) (key : BitVec 64) : Exec (Option ℕ) := do
  let root ← require tree.root
  findGeqFrom m key 7 root

def wideRadixEmpty (tree : WideRadixTree) : Bool :=
  match tree.root with
  | none => true
  | some root => (nextByte (m.cell root).childMask 256 0).isNone

end RadixBench.WideRadix
