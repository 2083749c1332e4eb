import RadixBench.WideRadix.Operations

namespace RadixBench.WideRadix

open Foundation Memory

inductive WideOp
  | insert (key value : BitVec 64)
  | delete (key : BitVec 64)

/-- A tree together with the map that it is meant to hold, and the keys that were ever
inserted. -/
structure WideState where
  tree : WideRadixTree
  memory : Memory WideRadixNode
  map : BitVec 64 → Option (BitVec 64)
  inserted : List (BitVec 64)

def wideStep (A : Allocator) (s : WideState) : WideOp → Exec WideState
  | .insert key value => do
    let (_, memory) ← wideRadixInsert A s.memory s.tree key value
    .ok { s with
      memory := memory
      map := Function.update s.map key (some value)
      inserted := key :: s.inserted }
  | .delete key => do
    let (_, memory) ← wideRadixDelete s.memory s.tree key
    .ok { s with memory := memory, map := Function.update s.map key none }

def WideLegal (A : Allocator) (s : WideState) : WideOp → Prop
  | .insert key value => ∀ r m', wideRadixInsert A s.memory s.tree key value = .ok (r, m') →
      m'.failures = s.memory.failures
  | .delete _ => True

/-- What `wide_radix_init` leaves behind when its allocation succeeds. -/
def WideInitial (A : Allocator) (s : WideState) : Prop :=
  ∃ m keyBits, wideRadixInit A m keyBits = (s.tree, s.memory) ∧ s.tree.root ≠ none ∧
    s.map = (fun _ ↦ none) ∧ s.inserted = []

abbrev WideReachable (A : Allocator) := Reachable (WideInitial A) (WideLegal A) (wideStep A)

/-- The tree stores the map, and its inner nodes are the prefixes of the keys ever
inserted. -/
structure Stores (s : WideState) (root : ℕ) : Prop where
  root_eq : s.tree.root = some root
  sound : Sound s.memory root
  stored : ∀ key, stored s.memory root (digits key 8) = s.map key
  hasNode : ∀ p, p.length < 8 →
    (HasNode s.memory root p ↔ p = [] ∨ ∃ key ∈ s.inserted, p <+: digits key 8)

theorem digits_eq_iff {key key' : BitVec 64} : digits key 8 = digits key' 8 ↔ key = key' :=
  ⟨digits_injective (n := 8) key.isLt key'.isLt, fun h ↦ by rw [h]⟩

theorem wideRadixInit_stores (A : Allocator) {s : WideState} (h : WideInitial A s) :
    ∃ root, Stores s root := by
  obtain ⟨m, keyBits, hinit, hroot, hmap, hins⟩ := h
  obtain ⟨m', heq, -⟩ | ⟨a, m', heq, ha⟩ := createNode_cases A m false
  · simp only [wideRadixInit, heq, Prod.mk.injEq] at hinit
    exact absurd (by rw [← hinit.1]) hroot
  · simp only [wideRadixInit, heq, Prod.mk.injEq] at hinit
    obtain ⟨htree, rfl⟩ := hinit
    have hat : ∀ {p x}, At s.memory a p x → p = [] ∧ x = a := by
      rintro p x ⟨-, hw⟩
      cases p with
      | nil => exact ⟨rfl, (Option.some.inj hw).symm⟩
      | cons d p =>
        rw [walk, next, ha.cell] at hw
        cases hw
    have hnone : ∀ q d, walk (next s.memory) a (d :: q) = none := by
      intro q d
      rw [walk, next, ha.cell]
      rfl
    refine ⟨a, by rw [← htree], ⟨?_, ⟨?_, ?_⟩, ?_, ?_, ?_⟩, fun key ↦ ?_, fun p hp ↦ ?_⟩
    · intro p x hx
      obtain ⟨-, rfl⟩ := hat hx
      rw [ha.live]
      exact List.mem_cons_self
    · intro p x d hp hx hroot
      obtain ⟨-, rfl⟩ := hat ⟨hp.le, hx⟩
      rw [next, ha.cell] at hroot
      cases hroot
    · intro p q x y d e z hp _ hx _ hd _
      obtain ⟨-, rfl⟩ := hat ⟨hp.le, hx⟩
      rw [next, ha.cell] at hd
      cases hd
    · intro p x hx d
      obtain ⟨-, rfl⟩ := hat hx
      rw [ha.cell]
      simp
    · intro p x hx
      obtain ⟨rfl, rfl⟩ := hat hx
      rw [ha.cell]
      simp
    · intro p x hx hlen
      obtain ⟨rfl, rfl⟩ := hat hx
      cases hlen
    · rw [hmap, stored, digits, hnone]
      rfl
    · rw [hins]
      simp only [List.not_mem_nil, false_and, exists_false, or_false]
      constructor
      · rintro ⟨x, hx⟩
        exact (hat hx).1
      · rintro rfl
        exact ⟨a, at_nil⟩

theorem wideStep_stores (A : Allocator) {s : WideState} {root : ℕ} (h : Stores s root)
    (op : WideOp) (hl : WideLegal A s op) :
    ∃ s', wideStep A s op = .ok s' ∧ Stores s' root := by
  have hpath : ∀ key, [] ++ digits key (7 + 1) = digits key 8 := fun _ ↦ rfl
  cases op with
  | insert key value =>
    have hrun : wideRadixInsert A s.memory s.tree key value =
        insertFrom A key value 7 s.memory root := by
      rw [wideRadixInsert, h.root_eq, require_some, ok_bind]
    obtain ⟨m', heq, -, -, hlt⟩ | ⟨m', heq, hs, hins⟩ :=
      insertFrom_cases A key value 7 h.sound at_nil rfl
    · exact absurd (hl _ _ (hrun.trans heq)) hlt.ne'
    · rw [hpath] at hins
      refine ⟨⟨s.tree, m', Function.update s.map key (some value), key :: s.inserted⟩,
        by rw [wideStep, hrun, heq]; rfl, h.root_eq, hs, fun key' ↦ ?_, fun p hp ↦ ?_⟩
      · rw [hins.stored _ (length_digits _ _), h.stored]
        simp only [digits_eq_iff, Function.update_apply]
      · rw [hins.hasNode, h.hasNode p hp]
        simp only [List.mem_cons, exists_eq_or_imp]
        rw [or_assoc, or_comm (b := p <+: digits key 8)]
  | delete key =>
    have hrun : wideRadixDelete s.memory s.tree key = deleteFrom key 7 s.memory root := by
      rw [wideRadixDelete, h.root_eq, require_some, ok_bind]
    obtain ⟨m', heq, hs, hdel, -⟩ := deleteFrom_deleted key 7 h.sound at_nil rfl
    rw [hpath] at hdel
    refine ⟨⟨s.tree, m', Function.update s.map key none, s.inserted⟩,
      by rw [wideStep, hrun, heq]; rfl, h.root_eq, hs, fun key' ↦ ?_, fun p hp ↦ ?_⟩
    · rw [hdel.stored _ (length_digits _ _), h.stored]
      simp only [digits_eq_iff, Function.update_apply]
    · rw [hdel.hasNode, h.hasNode p hp]
      refine and_iff_left ?_
      rintro rfl
      rw [length_digits] at hp
      omega

theorem WideReachable.stores {A : Allocator} {s : WideState} (h : WideReachable A s) :
    ∃ root, Stores s root := by
  refine Reachable.invariant_of_returns (I := fun s ↦ ∃ root, Stores s root)
    (fun s hinit ↦ wideRadixInit_stores A hinit) (fun s op hs hl ↦ ?_) h
  obtain ⟨root, hs⟩ := hs
  obtain ⟨s', hstep, hs'⟩ := wideStep_stores A hs op hl
  exact ⟨s', hstep, root, hs'⟩

theorem Stores.lookup {s : WideState} {root : ℕ} (h : Stores s root) (key : BitVec 64) :
    wideRadixLookup s.memory s.tree key = .ok (walk (next s.memory) root (digits key 8)) := by
  rw [wideRadixLookup, h.root_eq, require_some, ok_bind,
    lookupFrom_walk key 7 h.sound at_nil rfl, List.nil_append]

/-- What `*wide_radix_lookup(tree, key)` reads, `none` when the pointer is `NULL`. -/
def lookupValue (m : Memory WideRadixNode) (tree : WideRadixTree) (key : BitVec 64) :
    Exec (Option (BitVec 64)) := do
  let leaf ← wideRadixLookup m tree key
  .ok (leaf.map fun leaf ↦ (m.cell leaf).value)

/-- Over every run the tree is a map, whose calls never fail an assertion. -/
theorem wideRadix_refines_map (A : Allocator) {s : WideState} (h : WideReachable A s)
    (key : BitVec 64) :
    lookupValue s.memory s.tree key = .ok (s.map key) ∧
      (∃ m', wideRadixDelete s.memory s.tree key = .ok ((s.map key).isSome, m')) ∧
      ∀ value, ∃ r m', wideRadixInsert A s.memory s.tree key value = .ok (r, m') ∧
        (r = true ↔ m'.failures = s.memory.failures) := by
  obtain ⟨root, hs⟩ := WideReachable.stores h
  refine ⟨?_, ?_, fun value ↦ ?_⟩
  · rw [lookupValue, hs.lookup, ok_bind, ← hs.stored]
    rfl
  · obtain ⟨m', heq, -, -, -⟩ := deleteFrom_deleted key 7 hs.sound at_nil rfl
    rw [List.nil_append, hs.stored] at heq
    refine ⟨m', ?_⟩
    rw [wideRadixDelete, hs.root_eq, require_some, ok_bind, heq]
  · have hrun : wideRadixInsert A s.memory s.tree key value =
        insertFrom A key value 7 s.memory root := by
      rw [wideRadixInsert, hs.root_eq, require_some, ok_bind]
    rw [hrun]
    obtain ⟨m', heq, -, -, hlt⟩ | ⟨m', heq, -, hins⟩ :=
      insertFrom_cases A key value 7 hs.sound at_nil rfl
    · exact ⟨false, m', heq, iff_of_false Bool.false_ne_true hlt.ne'⟩
    · exact ⟨true, m', heq, iff_of_true rfl hins.failures⟩

def afterInsert (A : Allocator) (s : WideState) (key value : BitVec 64) : WideState :=
  (wideStep A s (.insert key value)).toOption.getD s

theorem afterInsert_step {A : Allocator} {s : WideState} {key value : BitVec 64}
    (hok : (wideStep A s (.insert key value)).toOption.isSome = true)
    (hf : (afterInsert A s key value).memory.failures = s.memory.failures) :
    WideLegal A s (.insert key value) ∧
      wideStep A s (.insert key value) = .ok (afterInsert A s key value) := by
  have hstep : wideStep A s (.insert key value) = .ok (afterInsert A s key value) := by
    rw [afterInsert]
    cases hrun : wideStep A s (.insert key value) with
    | ok s' => rfl
    | error e =>
      rw [hrun] at hok
      cases hok
  refine ⟨fun r m' heq ↦ ?_, hstep⟩
  rw [wideStep, heq] at hstep
  rw [← hf, ← Except.ok.inj hstep]

theorem WideReachable.afterInsert {A : Allocator} {s : WideState} (h : WideReachable A s)
    {key value : BitVec 64} (hok : (wideStep A s (.insert key value)).toOption.isSome = true)
    (hf : (afterInsert A s key value).memory.failures = s.memory.failures) :
    WideReachable A (afterInsert A s key value) := by
  obtain ⟨hlegal, hstep⟩ := afterInsert_step hok hf
  exact .step h hlegal hstep

def afterDelete (A : Allocator) (s : WideState) (key : BitVec 64) : WideState :=
  (wideStep A s (.delete key)).toOption.getD s

theorem WideReachable.afterDelete {A : Allocator} {s : WideState} (h : WideReachable A s)
    (key : BitVec 64) : WideReachable A (afterDelete A s key) := by
  obtain ⟨root, hs⟩ := h.stores
  obtain ⟨s', hstep, -⟩ := wideStep_stores A hs (.delete key) trivial
  have heq : WideRadix.afterDelete A s key = s' := by
    rw [WideRadix.afterDelete, hstep]
    rfl
  rw [heq]
  exact .step h (l := .delete key) trivial hstep

def fresh : WideState :=
  let (tree, m) := wideRadixInit bumpAllocator Memory.empty 64
  ⟨tree, m, fun _ ↦ none, []⟩

def single : WideState := afterInsert bumpAllocator fresh 5 7

theorem single_reachable : WideReachable bumpAllocator single := by
  have hfresh : WideReachable bumpAllocator fresh :=
    .init ⟨Memory.empty, 64, rfl, by decide +kernel, rfl, rfl⟩
  exact hfresh.afterInsert (by decide +kernel) (by decide +kernel)

def rewritten : WideState :=
  afterDelete bumpAllocator
    (afterInsert bumpAllocator (afterInsert bumpAllocator single 6 8) 5 9) 6

theorem rewritten_reachable : WideReachable bumpAllocator rewritten := by
  have hsecond : WideReachable bumpAllocator (afterInsert bumpAllocator single 6 8) :=
    single_reachable.afterInsert (by decide +kernel) (by decide +kernel)
  exact (hsecond.afterInsert (by decide +kernel) (by decide +kernel)).afterDelete 6

theorem wideRadix_refines_map_rewritten :
    lookupValue rewritten.memory rewritten.tree 5 = .ok (some 9) ∧
      lookupValue rewritten.memory rewritten.tree 6 = .ok none ∧
      (∃ m', wideRadixDelete rewritten.memory rewritten.tree 5 = .ok (true, m')) ∧
      ∃ r m', wideRadixInsert bumpAllocator rewritten.memory rewritten.tree 6 1 = .ok (r, m') ∧
        (r = true ↔ m'.failures = rewritten.memory.failures) := by
  have hmap : rewritten.map 5 = some 9 ∧ rewritten.map 6 = none := by decide +kernel
  obtain ⟨hlookup, hdelete, -⟩ := wideRadix_refines_map bumpAllocator rewritten_reachable 5
  obtain ⟨habsent, -, hinsert⟩ := wideRadix_refines_map bumpAllocator rewritten_reachable 6
  rw [hmap.1] at hlookup hdelete
  rw [hmap.2] at habsent
  exact ⟨hlookup, habsent, hdelete, hinsert 1⟩

end RadixBench.WideRadix
