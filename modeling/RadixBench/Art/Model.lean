import RadixBench.Foundation.Execution
import RadixBench.Foundation.Table

namespace RadixBench.Art

open Foundation Function

variable {C V σ : Type}

/-- The machines for which `art.c` is compiled: with or without the instructions of x86. -/
inductive Arch
  | x86
  | portable
  deriving DecidableEq, Repr

/-- The comparison in `add_child16`. `_mm_cmplt_epi8` takes bytes as signed numbers. -/
def Arch.less : Arch → BitVec 8 → BitVec 8 → Bool
  | .x86, c, d => c.slt d
  | .portable, c, d => c.ult d

def bytes : List (BitVec 8) := (List.finRange 256).map BitVec.ofFin

/-- The child pointers of an inner node. The arrays `keys` and `children` of the two small
layouts are one list of as many slots as there are children. In `node48`, `keys` has the index
of a child for each byte, where the source stores the index plus one, and 0 for no child. -/
inductive Children (C : Type)
  | node4 (slots : List (BitVec 8 × C))
  | node16 (slots : List (BitVec 8 × C))
  | node48 (numChildren : BitVec 8) (keys : BitVec 8 → Option (Fin 48))
      (children : Fin 48 → Option C)
  | node256 (numChildren : BitVec 8) (children : BitVec 8 → Option C)

inductive Slot
  | index (i : ℕ)
  | place (i : Fin 48)
  | byte (c : BitVec 8)

/-- The bits of the slots whose byte passes a comparison, those before slot `i` being `bits`. -/
def bitfield (cmp : BitVec 8 → Bool) : ℕ → BitVec 32 → List (BitVec 8 × C) → BitVec 32
  | _, bits, [] => bits
  | i, bits, (d, _) :: slots =>
    bitfield cmp (i + 1) (if cmp d then bits ||| (1#32 <<< i) else bits) slots

namespace Children

def inorder : Children C → List (BitVec 8 × C)
  | .node4 slots => slots
  | .node16 slots => slots
  | .node48 _ keys children => table bytes fun c ↦ (keys c).bind children
  | .node256 _ children => table bytes children

def findChild (n : Children C) (c : BitVec 8) : Option Slot :=
  match n with
  | .node4 slots => (slots.findIdx? fun e ↦ e.1 == c).map .index
  | .node16 slots =>
    if bitfield (· == c) 0 0 slots ≠ 0 then
      some (.index (bitfield (· == c) 0 0 slots).ctz.toNat)
    else none
  | .node48 _ keys _ => (keys c).map .place
  | .node256 _ children => if (children c).isSome then some (.byte c) else none

def child : Children C → Slot → Option C
  | .node4 slots, .index i => slots[i]?.map Prod.snd
  | .node16 slots, .index i => slots[i]?.map Prod.snd
  | .node48 _ _ children, .place i => children i
  | .node256 _ children, .byte c => children c
  | _, _ => none

def setChild : Children C → Slot → C → Children C
  | .node4 slots, .index i, x => .node4 (slots.modify i fun e ↦ (e.1, x))
  | .node16 slots, .index i, x => .node16 (slots.modify i fun e ↦ (e.1, x))
  | .node48 num keys children, .place i, x => .node48 num keys (update children i (some x))
  | .node256 num children, .byte c, x => .node256 num (update children c (some x))
  | n, _, _ => n

/-- The child that `minimum` descends to. The two large layouts are searched without a bound. -/
def firstChild : Children C → Exec (Option C)
  | .node4 slots => .ok (slots.head?.map Prod.snd)
  | .node16 slots => .ok (slots.head?.map Prod.snd)
  | .node48 _ keys children =>
    match (bytes.filterMap keys).head? with
    | some i => .ok (children i)
    | none => .error .indexOutOfRange
  | .node256 _ children =>
    match (bytes.filterMap children).head? with
    | some x => .ok (some x)
    | none => .error .indexOutOfRange

def lastChild : Children C → Exec (Option C)
  | .node4 slots => .ok (slots.getLast?.map Prod.snd)
  | .node16 slots => .ok (slots.getLast?.map Prod.snd)
  | .node48 _ keys children =>
    match (bytes.filterMap keys).getLast? with
    | some i => .ok (children i)
    | none => .error .indexOutOfRange
  | .node256 _ children =>
    match (bytes.filterMap children).getLast? with
    | some x => .ok (some x)
    | none => .error .indexOutOfRange

def addChild256 (numChildren : BitVec 8) (children : BitVec 8 → Option C) (c : BitVec 8) (x : C) :
    Children C :=
  .node256 (numChildren + 1) (update children c (some x))

def addChild48 (numChildren : BitVec 8) (keys : BitVec 8 → Option (Fin 48))
    (children : Fin 48 → Option C) (c : BitVec 8) (x : C) : Exec (Children C) :=
  if numChildren < 48 then
    match (List.finRange 48).find? fun i ↦ (children i).isNone with
    | some pos =>
      .ok (.node48 (numChildren + 1) (update keys c (some pos)) (update children pos (some x)))
    | none => .error .indexOutOfRange
  else .ok (addChild256 numChildren (fun i ↦ (keys i).bind children) c x)

def fillPlaces : List (BitVec 8 × C) → ℕ → (BitVec 8 → Option (Fin 48)) → (Fin 48 → Option C) →
    Exec ((BitVec 8 → Option (Fin 48)) × (Fin 48 → Option C))
  | [], _, keys, children => .ok (keys, children)
  | (c, x) :: slots, pos, keys, children =>
    if h : pos < 48 then
      fillPlaces slots (pos + 1) (update keys c (some ⟨pos, h⟩)) (update children ⟨pos, h⟩ (some x))
    else .error .indexOutOfRange

def addChild16 (arch : Arch) (slots : List (BitVec 8 × C)) (c : BitVec 8) (x : C) :
    Exec (Children C) :=
  if slots.length < 16 then
    let bits := bitfield (arch.less c) 0 0 slots
    let idx := if bits ≠ 0 then bits.ctz.toNat else slots.length
    .ok (.node16 (slots.insertIdx idx (c, x)))
  else do
    let (keys, children) ← fillPlaces slots 0 (fun _ ↦ none) (fun _ ↦ none)
    addChild48 (BitVec.ofNat 8 slots.length) keys children c x

def addChild4 (arch : Arch) (slots : List (BitVec 8 × C)) (c : BitVec 8) (x : C) :
    Exec (Children C) :=
  if slots.length < 4 then
    .ok (.node4 (slots.insertIdx (slots.findIdx fun e ↦ c.ult e.1) (c, x)))
  else addChild16 arch slots c x

def addChild (arch : Arch) (n : Children C) (c : BitVec 8) (x : C) : Exec (Children C) :=
  match n with
  | .node4 slots => addChild4 arch slots c x
  | .node16 slots => addChild16 arch slots c x
  | .node48 num keys children => addChild48 num keys children c x
  | .node256 num children => .ok (addChild256 num children c x)

def removeChild256 (numChildren : BitVec 8) (children : BitVec 8 → Option C) (c : BitVec 8) :
    Exec (Children C) :=
  if numChildren - 1 = 37 then do
    let (keys, places) ← fillPlaces (table bytes (update children c none)) 0 (fun _ ↦ none)
      (fun _ ↦ none)
    .ok (.node48 (numChildren - 1) keys places)
  else .ok (.node256 (numChildren - 1) (update children c none))

def removeChild48 (numChildren : BitVec 8) (keys : BitVec 8 → Option (Fin 48))
    (children : Fin 48 → Option C) (c : BitVec 8) : Exec (Children C) :=
  match keys c with
  | none => .error .indexOutOfRange
  | some pos =>
    let n := .node48 (numChildren - 1) (update keys c none) (update children pos none)
    .ok (if numChildren - 1 = 12 then .node16 n.inorder else n)

def removeChild16 (slots : List (BitVec 8 × C)) (pos : ℕ) : Children C :=
  if (slots.eraseIdx pos).length = 3 then .node4 (slots.eraseIdx pos)
  else .node16 (slots.eraseIdx pos)

end Children

def maxPrefixLen : ℕ := 10

/-- The fields of `art_node` that the layouts share. `partialBytes` has the bytes of the array
`partial` that were written. -/
structure ArtHeader where
  partialLen : ℕ
  partialBytes : List (BitVec 8)
  deriving DecidableEq, Repr

/-- A leaf. A value is a pointer, `none` for `NULL`. -/
structure ArtLeaf (V : Type) where
  value : Option V
  key : List (BitVec 8)

/-- What can be read at `key` in a leaf. `key` starts at byte 12 of the 16 of `art_leaf` itself, so
that four bytes follow the key, which `calloc` has set to zero. -/
def ArtLeaf.bytes (l : ArtLeaf V) : List (BitVec 8) := l.key ++ List.replicate 4 0

inductive ArtNode (V : Type)
  | leaf (l : ArtLeaf V)
  | inner (n : ArtHeader) (children : Children (ArtNode V))

structure ArtTree (V : Type) where
  root : Option (ArtNode V)
  size : BitVec 64

def artTreeInit : ArtTree V := ⟨none, 0⟩

def readByte (key : List (BitVec 8)) (i : ℕ) : Exec (BitVec 8) :=
  match key[i]? with
  | some c => .ok c
  | none => .error .indexOutOfRange

/-- The source of a `memcpy` of `len` bytes. -/
def readBytes (key : List (BitVec 8)) (i len : ℕ) : Exec (List (BitVec 8)) :=
  if i + len ≤ key.length then .ok ((key.drop i).take len) else .error .indexOutOfRange

/-- The loops that compare bytes at `i + idx` and `j + idx` until they differ, at most `left`
times. -/
def mismatch (u : List (BitVec 8)) (i : ℕ) (w : List (BitVec 8)) (j : ℕ) : ℕ → ℕ → Exec ℕ
  | idx, 0 => .ok idx
  | idx, left + 1 => do
    let c ← readByte u (i + idx)
    let d ← readByte w (j + idx)
    if c ≠ d then .ok idx else mismatch u i w j (idx + 1) left

def checkPrefix (n : ArtHeader) (key : List (BitVec 8)) (depth : ℕ) : Exec ℕ :=
  mismatch n.partialBytes 0 key depth 0 (min (min n.partialLen maxPrefixLen) (key.length - depth))

def leafMatches (n : ArtLeaf V) (key : List (BitVec 8)) : Bool :=
  n.key.length == key.length && n.key == key

/-- The loop of `art_search` from a node on. -/
def artSearchFrom : ℕ → Option (ArtNode V) → List (BitVec 8) → ℕ → Exec (Option V)
  | _, none, _, _ => .ok none
  | _, some (.leaf l), key, _ => .ok (if leafMatches l key then l.value else none)
  | 0, some (.inner _ _), _, _ => .error .outOfFuel
  | fuel + 1, some (.inner n children), key, depth => do
    if n.partialLen ≠ 0 then
      let prefixLen ← checkPrefix n key depth
      if prefixLen ≠ min maxPrefixLen n.partialLen then
        return none
    let depth := depth + n.partialLen
    let c ← readByte key depth
    artSearchFrom fuel ((children.findChild c).bind children.child) key (depth + 1)

/-- Each round reads a further byte of the key. -/
def artSearch (t : ArtTree V) (key : List (BitVec 8)) : Exec (Option V) :=
  artSearchFrom (key.length + 1) t.root key 0

def minimum : ℕ → Option (ArtNode V) → Exec (Option (ArtLeaf V))
  | _, none => .ok none
  | _, some (.leaf l) => .ok (some l)
  | 0, some (.inner _ _) => .error .outOfFuel
  | fuel + 1, some (.inner _ children) => children.firstChild >>= minimum fuel

def maximum : ℕ → Option (ArtNode V) → Exec (Option (ArtLeaf V))
  | _, none => .ok none
  | _, some (.leaf l) => .ok (some l)
  | 0, some (.inner _ _) => .error .outOfFuel
  | fuel + 1, some (.inner _ children) => children.lastChild >>= maximum fuel

def artMinimum (fuel : ℕ) (t : ArtTree V) : Exec (Option (ArtLeaf V)) := minimum fuel t.root

def artMaximum (fuel : ℕ) (t : ArtTree V) : Exec (Option (ArtLeaf V)) := maximum fuel t.root

/-- Memory for leaves and nodes is taken to be there. `Heap.makeLeaf` asks for it, and writes to
what it gets without a look. -/
def makeLeaf (key : List (BitVec 8)) (value : Option V) : ArtLeaf V := ⟨value, key⟩

def longestCommonPrefix (l₁ l₂ : ArtLeaf V) (depth : ℕ) : Exec ℕ :=
  mismatch l₁.key depth l₂.key depth 0 (min l₁.key.length l₂.key.length - depth)

/-- The first loop stops at `maxCmp` when it finds no difference. -/
def prefixMismatch (fuel : ℕ) (n : ArtHeader) (children : Children (ArtNode V))
    (key : List (BitVec 8)) (depth : ℕ) : Exec ℕ := do
  let maxCmp := min (min maxPrefixLen n.partialLen) (key.length - depth)
  let idx ← mismatch n.partialBytes 0 key depth 0 maxCmp
  if idx < maxCmp then
    return idx
  if n.partialLen > maxPrefixLen then
    let l ← minimum fuel (some (.inner n children)) >>= deref
    mismatch l.key depth key depth idx (min l.key.length key.length - depth - idx)
  else
    return idx

def splitLeaf (arch : Arch) (l : ArtLeaf V) (key : List (BitVec 8)) (value : Option V)
    (depth : ℕ) : Exec (ArtNode V) := do
  let l₂ := makeLeaf key value
  let longestPrefix ← longestCommonPrefix l l₂ depth
  let partialBytes ← readBytes key depth (min maxPrefixLen longestPrefix)
  let c ← readByte l.bytes (depth + longestPrefix)
  let children ← Children.addChild arch (.node4 []) c (.leaf l)
  let d ← readByte l₂.bytes (depth + longestPrefix)
  let children ← children.addChild arch d (.leaf l₂)
  return .inner ⟨longestPrefix, partialBytes⟩ children

/-- The old node below a new `node4`: the byte that leads to it, and what is left of its prefix.
The bytes that the node itself does not have are those of a leaf. -/
def cutPrefix (fuel : ℕ) (n : ArtHeader) (children : Children (ArtNode V)) (depth prefixDiff : ℕ) :
    Exec (BitVec 8 × ArtHeader) :=
  let partialLen := n.partialLen - (prefixDiff + 1)
  if n.partialLen ≤ maxPrefixLen then do
    let c ← readByte n.partialBytes prefixDiff
    let rest ← readBytes n.partialBytes (prefixDiff + 1) (min maxPrefixLen partialLen)
    return (c, ⟨partialLen, rest⟩)
  else do
    let l ← minimum fuel (some (.inner n children)) >>= deref
    let c ← readByte l.bytes (depth + prefixDiff)
    let rest ← readBytes l.bytes (depth + prefixDiff + 1) (min maxPrefixLen partialLen)
    return (c, ⟨partialLen, rest⟩)

def splitPrefix (arch : Arch) (fuel : ℕ) (n : ArtHeader) (children : Children (ArtNode V))
    (key : List (BitVec 8)) (value : Option V) (depth prefixDiff : ℕ) : Exec (ArtNode V) := do
  let partialBytes ← readBytes n.partialBytes 0 (min maxPrefixLen prefixDiff)
  let (c, header) ← cutPrefix fuel n children depth prefixDiff
  let slots ← Children.addChild arch (.node4 []) c (.inner header children)
  let d ← readByte key (depth + prefixDiff)
  let slots ← slots.addChild arch d (.leaf (makeLeaf key value))
  return .inner ⟨prefixDiff, partialBytes⟩ slots

/-- From `RECURSE_SEARCH` on, with the recursive call as an argument. -/
def insertBelow (arch : Arch)
    (insert : Option (ArtNode V) → ℕ → Exec (ArtNode V × Option V × Bool)) (n : ArtHeader)
    (children : Children (ArtNode V)) (key : List (BitVec 8)) (value : Option V) (depth : ℕ) :
    Exec (ArtNode V × Option V × Bool) := do
  let c ← readByte key depth
  match children.findChild c with
  | some s =>
    let (x, oldVal, old) ← insert (children.child s) (depth + 1)
    return (.inner n (children.setChild s x), oldVal, old)
  | none =>
    let children ← children.addChild arch c (.leaf (makeLeaf key value))
    return (.inner n children, none, false)

/-- What `*ref` becomes, the result, and `*old`. -/
def recursiveInsert (arch : Arch) (key : List (BitVec 8)) (value : Option V) (replace : Bool) :
    ℕ → Option (ArtNode V) → ℕ → Exec (ArtNode V × Option V × Bool)
  | _, none, _ => .ok (.leaf (makeLeaf key value), none, false)
  | _, some (.leaf l), depth =>
    if leafMatches l key then
      .ok (.leaf (if replace then { l with value := value } else l), l.value, true)
    else do
      let n ← splitLeaf arch l key value depth
      return (n, none, false)
  | 0, some (.inner _ _), _ => .error .outOfFuel
  | fuel + 1, some (.inner n children), depth => do
    if n.partialLen ≠ 0 then
      let prefixDiff ← prefixMismatch (fuel + 1) n children key depth
      if prefixDiff < n.partialLen then
        let n ← splitPrefix arch (fuel + 1) n children key value depth prefixDiff
        return (n, none, false)
    insertBelow arch (recursiveInsert arch key value replace fuel) n children key value
      (depth + n.partialLen)

def insertWith (replace : Bool) (arch : Arch) (fuel : ℕ) (t : ArtTree V) (key : List (BitVec 8))
    (value : Option V) : Exec (ArtTree V × Option V) := do
  let (root, oldVal, old) ← recursiveInsert arch key value replace fuel t.root 0
  return (⟨some root, if old then t.size else t.size + 1⟩, oldVal)

def artInsert : Arch → ℕ → ArtTree V → List (BitVec 8) → Option V → Exec (ArtTree V × Option V) :=
  insertWith true

def artInsertNoReplace :
    Arch → ℕ → ArtTree V → List (BitVec 8) → Option V → Exec (ArtTree V × Option V) :=
  insertWith false

/-- The prefix of a node with its last remaining child, for that child. -/
def concatenatePrefixes (n : ArtHeader) (c : BitVec 8) (child : ArtHeader) : Exec ArtHeader := do
  let (stored, prefixLen) :=
    if n.partialLen < maxPrefixLen then (n.partialBytes.take n.partialLen ++ [c], n.partialLen + 1)
    else (n.partialBytes, n.partialLen)
  let (stored, prefixLen) ←
    if prefixLen < maxPrefixLen then do
      let subPrefix := min child.partialLen (maxPrefixLen - prefixLen)
      let sub ← readBytes child.partialBytes 0 subPrefix
      pure (stored.take prefixLen ++ sub, prefixLen + subPrefix)
    else pure (stored, prefixLen)
  let partialBytes ← readBytes stored 0 (min prefixLen maxPrefixLen)
  return ⟨child.partialLen + (n.partialLen + 1), partialBytes⟩

def removeChild4 (n : ArtHeader) (slots : List (BitVec 8 × ArtNode V)) (pos : ℕ) :
    Exec (ArtNode V) :=
  match slots.eraseIdx pos with
  | [(_, .leaf l)] => .ok (.leaf l)
  | [(c, .inner child children)] => do
    let header ← concatenatePrefixes n c child
    return .inner header children
  | slots => .ok (.inner n (.node4 slots))

def removeChild (n : ArtHeader) (children : Children (ArtNode V)) (c : BitVec 8) (l : Slot) :
    Exec (ArtNode V) :=
  match children, l with
  | .node4 slots, .index pos => removeChild4 n slots pos
  | .node16 slots, .index pos => .ok (.inner n (Children.removeChild16 slots pos))
  | .node48 num keys children, _ => do
    let children ← Children.removeChild48 num keys children c
    return .inner n children
  | .node256 num children, _ => do
    let children ← Children.removeChild256 num children c
    return .inner n children
  | _, _ => .error .indexOutOfRange

/-- What `*ref` becomes, and the leaf that was taken out. -/
def recursiveDelete (key : List (BitVec 8)) :
    ℕ → Option (ArtNode V) → ℕ → Exec (Option (ArtNode V) × Option (ArtLeaf V))
  | _, none, _ => .ok (none, none)
  | _, some (.leaf l), _ =>
    .ok (if leafMatches l key then (none, some l) else (some (.leaf l), none))
  | 0, some (.inner _ _), _ => .error .outOfFuel
  | fuel + 1, some (.inner n children), depth => do
    if n.partialLen ≠ 0 then
      let prefixLen ← checkPrefix n key depth
      if prefixLen ≠ min maxPrefixLen n.partialLen then
        return (some (.inner n children), none)
    let depth := depth + n.partialLen
    let c ← readByte key depth
    match children.findChild c with
    | none => return (some (.inner n children), none)
    | some s =>
      match children.child s with
      | some (.leaf l) =>
        if leafMatches l key then
          let n ← removeChild n children c s
          return (some n, some l)
        else return (some (.inner n children), none)
      | x =>
        let (x, l) ← recursiveDelete key fuel x (depth + 1)
        return (some (.inner n (x.elim children (children.setChild s))), l)

def artDelete (t : ArtTree V) (key : List (BitVec 8)) : Exec (ArtTree V × Option V) := do
  let (root, l) ← recursiveDelete key (key.length + 1) t.root 0
  match l with
  | some l => return (⟨root, t.size - 1⟩, l.value)
  | none => return (⟨root, t.size⟩, none)

/-- A callback of the iteration: it gets the data, a key and its value, and gives an integer and
the changed data. -/
abbrev ArtCallback (σ V : Type) := σ → List (BitVec 8) → Option V → ℤ × σ

def iterChildren (visit : C → σ → Exec (ℤ × σ)) : List (BitVec 8 × C) → σ → Exec (ℤ × σ)
  | [], data => .ok (0, data)
  | (_, x) :: slots, data => do
    let (res, data) ← visit x data
    if res ≠ 0 then return (res, data)
    iterChildren visit slots data

def recursiveIter (cb : ArtCallback σ V) : ℕ → ArtNode V → σ → Exec (ℤ × σ)
  | _, .leaf l, data => .ok (cb data l.key l.value)
  | 0, .inner _ _, _ => .error .outOfFuel
  | fuel + 1, .inner _ children, data =>
    iterChildren (recursiveIter cb fuel) children.inorder data

def artIter (fuel : ℕ) (t : ArtTree V) (cb : ArtCallback σ V) (data : σ) : Exec (ℤ × σ) :=
  match t.root with
  | none => .ok (0, data)
  | some n => recursiveIter cb fuel n data

def leafPrefixMatches (n : ArtLeaf V) (key : List (BitVec 8)) : Bool :=
  key.length ≤ n.key.length && n.key.take key.length == key

def artIterPrefixFrom (cb : ArtCallback σ V) (key : List (BitVec 8)) :
    ℕ → Option (ArtNode V) → ℕ → σ → Exec (ℤ × σ)
  | _, none, _, data => .ok (0, data)
  | _, some (.leaf l), _, data =>
    .ok (if leafPrefixMatches l key then cb data l.key l.value else (0, data))
  | 0, some (.inner _ _), _, _ => .error .outOfFuel
  | fuel + 1, some (.inner n children), depth, data => do
    if depth = key.length then
      let l ← minimum (fuel + 1) (some (.inner n children)) >>= deref
      if leafPrefixMatches l key then
        return ← recursiveIter cb (fuel + 1) (.inner n children) data
      return (0, data)
    if n.partialLen ≠ 0 then
      let prefixLen ← prefixMismatch (fuel + 1) n children key depth
      let prefixLen := min prefixLen n.partialLen
      if prefixLen = 0 then
        return (0, data)
      else if depth + prefixLen = key.length then
        return ← recursiveIter cb (fuel + 1) (.inner n children) data
    let depth := depth + n.partialLen
    let c ← readByte key depth
    artIterPrefixFrom cb key fuel ((children.findChild c).bind children.child) (depth + 1) data

def artIterPrefix (fuel : ℕ) (t : ArtTree V) (key : List (BitVec 8)) (cb : ArtCallback σ V)
    (data : σ) : Exec (ℤ × σ) :=
  artIterPrefixFrom cb key fuel t.root 0 data

end RadixBench.Art
