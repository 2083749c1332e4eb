import RadixBench.WideRadix.LowerBound
import RadixBench.WideRadix.Runs

namespace RadixBench.WideRadix

open Foundation Memory

structure BareState where
  tree : WideRadixTree
  memory : Memory WideRadixNode

def bareStep (A : Allocator) (s : BareState) : WideOp → Exec BareState
  | .insert key value => do
    let (_, memory) ← wideRadixInsert A s.memory s.tree key value
    .ok { s with memory := memory }
  | .delete key => do
    let (_, memory) ← wideRadixDelete s.memory s.tree key
    .ok { s with memory := memory }

def BareInitial (A : Allocator) (s : BareState) : Prop :=
  ∃ m keyBits, wideRadixInit A m keyBits = (s.tree, s.memory) ∧ s.tree.root ≠ none

/-- Calls in any order, whose allocations may fail at will. -/
abbrev BareReachable (A : Allocator) :=
  Reachable (BareInitial A) (fun _ _ ↦ True) (bareStep A)

def BareState.Sound (s : BareState) : Prop :=
  ∃ root, s.tree.root = some root ∧ WideRadix.Sound s.memory root

namespace BareState.Sound

variable {A : Allocator} {s : BareState}

theorem insert (h : s.Sound) (key value : BitVec 64) : ∃ r m',
    wideRadixInsert A s.memory s.tree key value = .ok (r, m') ∧
      BareState.Sound { s with memory := m' } := by
  obtain ⟨root, hroot, hs⟩ := h
  have hrun : wideRadixInsert A s.memory s.tree key value =
      insertFrom A key value 7 s.memory root := by
    rw [wideRadixInsert, hroot, require_some, ok_bind]
  rw [hrun]
  obtain ⟨m', heq, hs', -, -⟩ | ⟨m', heq, hs', -⟩ := insertFrom_cases A key value 7 hs at_nil rfl
  · exact ⟨false, m', heq, root, hroot, hs'⟩
  · exact ⟨true, m', heq, root, hroot, hs'⟩

theorem delete (h : s.Sound) (key : BitVec 64) : ∃ r m',
    wideRadixDelete s.memory s.tree key = .ok (r, m') ∧
      BareState.Sound { s with memory := m' } := by
  obtain ⟨root, hroot, hs⟩ := h
  obtain ⟨m', heq, hs', -, -⟩ := deleteFrom_deleted key 7 hs at_nil rfl
  have hrun : wideRadixDelete s.memory s.tree key = deleteFrom key 7 s.memory root := by
    rw [wideRadixDelete, hroot, require_some, ok_bind]
  exact ⟨_, m', hrun.trans heq, root, hroot, hs'⟩

theorem lookup (h : s.Sound) (key : BitVec 64) :
    ∃ r, wideRadixLookup s.memory s.tree key = .ok r := by
  obtain ⟨root, hroot, hs⟩ := h
  rw [wideRadixLookup, hroot, require_some, ok_bind]
  exact ⟨_, lookupFrom_walk key 7 hs at_nil rfl⟩

theorem findGeq (h : s.Sound) (key : BitVec 64) :
    ∃ r, wideRadixFindGeq s.memory s.tree key = .ok r := by
  obtain ⟨root, hroot, hs⟩ := h
  rw [wideRadixFindGeq, hroot, require_some, ok_bind]
  obtain ⟨leaf, hrun, -⟩ | ⟨q, d, hrun, -⟩ | ⟨q, d, e, t, w, hrun, -⟩ := findGeqFrom_outcome hs key
  · exact ⟨_, hrun⟩
  · exact ⟨_, hrun⟩
  · exact ⟨_, hrun⟩

end BareState.Sound

theorem bareStep_sound (A : Allocator) {s : BareState} (h : s.Sound) (op : WideOp) :
    ∃ s', bareStep A s op = .ok s' ∧ s'.Sound := by
  cases op with
  | insert key value =>
    obtain ⟨r, m', heq, hs'⟩ := h.insert (A := A) key value
    exact ⟨_, by rw [bareStep, heq, ok_bind], hs'⟩
  | delete key =>
    obtain ⟨r, m', heq, hs'⟩ := h.delete key
    exact ⟨_, by rw [bareStep, heq, ok_bind], hs'⟩

theorem BareInitial.sound {A : Allocator} {s : BareState} (h : BareInitial A s) : s.Sound := by
  obtain ⟨m, keyBits, hinit, hroot⟩ := h
  obtain ⟨root, hs⟩ := wideRadixInit_stores A (s := ⟨s.tree, s.memory, fun _ ↦ none, []⟩)
    ⟨m, keyBits, hinit, hroot, rfl, rfl⟩
  exact ⟨root, hs.root_eq, hs.sound⟩

theorem BareReachable.sound {A : Allocator} {s : BareState} (h : BareReachable A s) : s.Sound :=
  Reachable.invariant_of_returns (I := fun s ↦ s.Sound) (fun _ hinit ↦ hinit.sound)
    (fun _ op hs _ ↦ bareStep_sound A hs op) h

theorem Sound.at_of_walk {m : Memory WideRadixNode} {root : ℕ} (h : WideRadix.Sound m root)
    {p : List (BitVec 8)} {x : ℕ} (hx : walk (next m) root p = some x) : At m root p x := by
  refine ⟨?_, hx⟩
  induction p using List.reverseRecOn generalizing x with
  | nil => exact Nat.zero_le _
  | append_singleton p d ih =>
    rw [walk_snoc] at hx
    obtain ⟨y, hy, hd⟩ := Option.bind_eq_some_iff.mp hx
    have hle := ih hy
    have hne : p.length ≠ 8 := fun hlen ↦ by
      rw [next, h.leaf_end ⟨hle, hy⟩ hlen d] at hd
      cases hd
    rw [List.length_append, List.length_singleton]
    omega

/-- Whatever allocations fail, the leaves are at depth 8 and nowhere else, the masks say which
children there are, and no call fails an assertion. -/
theorem wideRadix_safe (A : Allocator) {s : BareState} (h : BareReachable A s) :
    (∃ root, s.tree.root = some root ∧ ∀ p x, walk (next s.memory) root p = some x →
      p.length ≤ 8 ∧ ((s.memory.cell x).isLeaf = true ↔ p.length = 8) ∧
      ∀ d, maskGetBit (s.memory.cell x).childMask d = true ↔
        (s.memory.cell x).children d ≠ none) ∧
    ∀ key, (∀ value, ∃ r m', wideRadixInsert A s.memory s.tree key value = .ok (r, m')) ∧
      (∃ r m', wideRadixDelete s.memory s.tree key = .ok (r, m')) ∧
      (∃ r, wideRadixLookup s.memory s.tree key = .ok r) ∧
      ∃ r, wideRadixFindGeq s.memory s.tree key = .ok r := by
  have hs := h.sound
  refine ⟨?_, fun key ↦ ⟨fun value ↦ ?_, ?_, hs.lookup key, hs.findGeq key⟩⟩
  · obtain ⟨root, hroot, hsound⟩ := hs
    refine ⟨root, hroot, fun p x hwalk ↦ ?_⟩
    have hx := Sound.at_of_walk hsound hwalk
    refine ⟨hx.1, hsound.leaf_iff hx, fun d ↦ ?_⟩
    rw [maskGetBit_eq]
    exact hsound.mask_iff hx d
  · obtain ⟨r, m', heq, -⟩ := hs.insert (A := A) key value
    exact ⟨r, m', heq⟩
  · obtain ⟨r, m', heq, -⟩ := hs.delete key
    exact ⟨r, m', heq⟩

def cramped : BareState :=
  let (tree, m) := wideRadixInit (bumpAllocator.failFrom 3) Memory.empty 64
  ⟨tree, m⟩

def broken : BareState :=
  (bareStep (bumpAllocator.failFrom 3) cramped (.insert 5 7)).toOption.getD cramped

theorem broken_reachable : BareReachable (bumpAllocator.failFrom 3) broken := by
  have hcramped : BareReachable (bumpAllocator.failFrom 3) cramped :=
    .init ⟨Memory.empty, 64, rfl, by decide +kernel⟩
  obtain ⟨s', hstep, -⟩ := bareStep_sound _ hcramped.sound (.insert 5 7)
  have hbroken : broken = s' := by rw [broken, hstep]; rfl
  exact hbroken ▸ .step hcramped trivial hstep

theorem wideRadix_safe_broken : ∃ r, wideRadixFindGeq broken.memory broken.tree 0 = .ok r :=
  ((wideRadix_safe _ broken_reachable).2 0).2.2.2

end RadixBench.WideRadix
