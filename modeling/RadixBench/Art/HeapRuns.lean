import RadixBench.Art.Reclaiming
import RadixBench.Art.Refinement

namespace RadixBench.Art.Heap

open Foundation Memory Function

variable {V : Type} {A : Allocator} {arch : Arch} {m : Memory (Cell V)} {t : HeapTree}
  {T : ArtTree V} {map : ArtMap V} {old : List Region} {fuel : ℕ}

/-- The memory holds the tree, and `old` is what is live beside the nodes. -/
structure Realizes (m : Memory (Cell V)) (t : HeapTree) (T : ArtTree V) (old : List Region) :
    Prop where
  size_eq : t.size = T.size
  root : ∃ S, RootStored m t.root T.root S ∧ Owns m S old

namespace Realizes

theorem insertWith_lockstep (hr : Realizes m t T old) (hholds : Holds T.root map) (replace : Bool)
    (arch : Arch) (fuel : ℕ) (key : List (BitVec 8)) (value : Option V) :
    Lockstep (Refuses A (largest key) 2 m.calls m.live)
      (fun x y ↦ Realizes x.2.1 x.1 y.1 old ∧ x.2.2 = y.2)
      (insertWith replace A arch fuel m t key value)
      (Art.insertWith replace arch fuel T key value) := by
  obtain ⟨S, hroot, howns⟩ := hr.root
  have hrun : Lockstep (Refuses A (largest key) 2 m.calls m.live) (Inserted m [] old)
      (recursiveInsert A arch m key value replace fuel t.root 0)
      (Art.recursiveInsert arch key value replace fuel T.root 0) := by
    generalize T.root = root' at hroot hholds
    generalize t.root = root at hroot
    cases hroot with
    | none =>
      rw [recursiveInsert, Art.recursiveInsert]
      refine lockstep_makeLeaf .succ fun a μ hmakes ↦ ?_
      exact .returns ⟨⟨_, .leaf hmakes.leaf, hmakes.owns howns, hmakes.keeps howns⟩, rfl⟩
    | some hst =>
      exact recursiveInsert_lockstep hholds.1 hst ((List.append_nil S).symm ▸ howns) arch key value
        replace fuel 0
  rw [insertWith, Art.insertWith]
  refine hrun.bind ?_
  rintro ⟨x, μ, oldVal, isOld⟩ ⟨y, oldVal', isOld'⟩ ⟨⟨S', hst, howns', -⟩, ⟨⟩⟩
  refine .returns ⟨⟨?_, S', .some hst, List.append_nil S' ▸ howns'⟩, rfl⟩
  cases isOld with
  | true => exact hr.size_eq
  | false => exact congrArg (· + 1) hr.size_eq

theorem artDelete_lockstep (hr : Realizes m t T old) (hholds : Holds T.root map)
    (key : List (BitVec 8)) :
    Lockstep (Refuses A 2064 1 m.calls m.live)
      (fun x y ↦ Realizes x.2.1 x.1 y.1 old ∧ x.2.2 = y.2)
      (artDelete A m t key) (Art.artDelete T key) := by
  obtain ⟨S, hroot, howns⟩ := hr.root
  have hrun : Lockstep (Refuses A 2064 1 m.calls m.live)
      (fun x y ↦ ∃ S L, RootStored x.2.1 x.1 y.1 S ∧ Taken x.2.1 x.2.2 y.2 L ∧
        Owns x.2.1 (S ++ L) old)
      (recursiveDelete A m key (key.length + 1) t.root 0)
      (Art.recursiveDelete key (key.length + 1) T.root 0) := by
    generalize T.root = root' at hroot hholds
    generalize t.root = root at hroot
    cases hroot with
    | none =>
      rw [recursiveDelete, Art.recursiveDelete]
      exact .returns ⟨[], [], .none, .none, howns⟩
    | some hst =>
      refine (recursiveDelete_lockstep hholds.1 hst ((List.append_nil S).symm ▸ howns) key
        (key.length + 1) 0).mono id ?_
      rintro x y ⟨⟨S', L, hroot, htaken, howns'⟩, -, -⟩
      exact ⟨S', L, hroot, htaken, List.append_nil L ▸ howns'⟩
  rw [artDelete, Art.artDelete]
  refine hrun.bind ?_
  rintro ⟨x, μ, taken⟩ ⟨y, leaf⟩ ⟨S', L, hroot, htaken, howns'⟩
  cases htaken with
  | none => exact .returns ⟨⟨hr.size_eq, S', hroot, List.append_nil S' ▸ howns'⟩, rfl⟩
  | @some a l ha =>
    have hfree := howns'.perm List.perm_append_comm
    have hlive : μ.IsLive a := hfree.isLive List.mem_cons_self
    dsimp only
    rw [readLeaf_eq ha hlive, ok_bind, release_of_live hlive]
    refine .returns ⟨⟨congrArg (· - 1) hr.size_eq, S', ?_, hfree.free⟩, rfl⟩
    cases hroot with
    | none => exact .none
    | some hst => exact .some (hst.congr fun _ _ ↦ rfl)

theorem destroy_frees (hr : Realizes m t T old) (hholds : Holds T.root map)
    (hfuel : ∀ k, map k ≠ none → k.length < fuel) :
    ∃ m', artTreeDestroy fuel m t = .ok m' ∧ m'.live = old ∧ m'.cell = m.cell := by
  obtain ⟨S, hroot, howns⟩ := hr.root
  rw [artTreeDestroy]
  generalize T.root = root' at hroot hholds
  generalize t.root = root at hroot
  cases hroot with
  | none =>
    rw [destroyNode]
    exact ⟨m, rfl, howns.live_eq, rfl⟩
  | some hst =>
    obtain ⟨hwf, hhas⟩ := hholds
    have hshort : Shorter _ (([] : List (BitVec 8)).length + fuel) := fun k v hk ↦ by
      rw [List.length_nil, Nat.zero_add]
      exact hfuel k ((stored_iff hhas).mpr ⟨v, hk⟩)
    obtain ⟨m', hrun, howns', hcell⟩ := destroyNode_frees hwf hst
      ((List.append_nil S).symm ▸ howns) hshort
    exact ⟨m', hrun, howns'.live_eq, hcell⟩

end Realizes

structure HeapState (V : Type) where
  memory : Memory (Cell V)
  tree : HeapTree
  map : ArtMap V

def heapStep (A : Allocator) (arch : Arch) (s : HeapState V) : ArtOp V → Exec (HeapState V)
  | .insert fuel key value => do
    let (tree, memory, _) ← artInsert A arch fuel s.memory s.tree key value
    return ⟨memory, tree, insertMap true s.map key value⟩
  | .insertNoReplace fuel key value => do
    let (tree, memory, _) ← artInsertNoReplace A arch fuel s.memory s.tree key value
    return ⟨memory, tree, insertMap false s.map key value⟩
  | .delete key => do
    let (tree, memory, _) ← artDelete A s.memory s.tree key
    return ⟨memory, tree, update s.map key none⟩

/-- What is asked of the calls is asked of the map, whatever the tree is. -/
def HeapLegal (s : HeapState V) (op : ArtOp V) : Prop := ∀ T, ArtLegal ⟨T, s.map⟩ op

/-- The runs of a tree that was set up when the memory was `m₀`. -/
def HeapReachable (A : Allocator) (arch : Arch) (m₀ : Memory (Cell V)) : HeapState V → Prop :=
  Reachable (fun s ↦ s = ⟨m₀, artTreeInit, fun _ ↦ none⟩) HeapLegal (heapStep A arch)

section Runs

variable {s s' : HeapState V} {m₀ : Memory (Cell V)} {key : List (BitVec 8)} {value : Option V}

/-- A state of a run in memory is one of a run on trees. -/
def Backed (arch : Arch) (old : List Region) (s : HeapState V) : Prop :=
  ∃ T, ArtReachable arch ⟨T, s.map⟩ ∧ Realizes s.memory s.tree T old

theorem heapStep_backed {op : ArtOp V} (hs : Backed arch old s) (hl : HeapLegal s op)
    (hstep : heapStep A arch s op = .ok s') : Backed arch old s' := by
  obtain ⟨T, hreach, hr⟩ := hs
  have hholds : Holds T.root s.map := hreach.sound.holds
  cases op with
  | insert fuel key value =>
    obtain ⟨⟨t, m, o⟩, hrun, ⟨⟩⟩ := bind_eq_ok.mp hstep
    have hlock := hr.insertWith_lockstep (A := A) hholds true arch fuel key value
    rw [show insertWith true A arch fuel s.memory s.tree key value = _ from hrun] at hlock
    obtain ⟨⟨T', o'⟩, hmodel, hr', -⟩ := hlock.ok_inv
    exact ⟨T', hreach.step (hl T) (by rw [artStep, Art.artInsert, hmodel]; rfl), hr'⟩
  | insertNoReplace fuel key value =>
    obtain ⟨⟨t, m, o⟩, hrun, ⟨⟩⟩ := bind_eq_ok.mp hstep
    have hlock := hr.insertWith_lockstep (A := A) hholds false arch fuel key value
    rw [show insertWith false A arch fuel s.memory s.tree key value = _ from hrun] at hlock
    obtain ⟨⟨T', o'⟩, hmodel, hr', -⟩ := hlock.ok_inv
    exact ⟨T', hreach.step (hl T) (by rw [artStep, Art.artInsertNoReplace, hmodel]; rfl), hr'⟩
  | delete key =>
    obtain ⟨⟨t, m, o⟩, hrun, ⟨⟩⟩ := bind_eq_ok.mp hstep
    have hlock := hr.artDelete_lockstep (A := A) hholds key
    rw [hrun] at hlock
    obtain ⟨⟨T', o'⟩, hmodel, hr', -⟩ := hlock.ok_inv
    exact ⟨T', hreach.step (hl T) (by rw [artStep, hmodel]; rfl), hr'⟩

theorem HeapReachable.backed (h : HeapReachable A arch m₀ s) : Backed arch m₀.live s := by
  refine Reachable.invariant ?_ (fun _ _ _ hs hl hstep ↦ heapStep_backed hs hl hstep) h
  rintro _ rfl
  exact ⟨Art.artTreeInit, .init rfl, rfl, [], .none, .nil m₀⟩

section Examples

variable {len : ℕ}

def heapAfter (A : Allocator) (arch : Arch) (s : HeapState V) (op : ArtOp V) : HeapState V :=
  (heapStep A arch s op).toOption.getD s

theorem HeapReachable.after (h : HeapReachable A arch m₀ s) {op : ArtOp V}
    (hl : HeapLegal s op) : HeapReachable A arch m₀ (heapAfter A arch s op) := by
  rw [heapAfter]
  cases hstep : heapStep A arch s op with
  | error e => exact h
  | ok s' => exact h.step hl hstep

theorem HeapReachable.fixed (h : HeapReachable A arch m₀ s)
    (hlen : ∀ k, s.map k ≠ none → k.length = len) : ∃ T, FixedSound len ⟨T, s.map⟩ := by
  obtain ⟨T, hreach, -⟩ := h.backed
  exact ⟨T, hreach.sound, hlen⟩

def heapOne : HeapState Unit :=
  heapAfter (bumpAllocator.failFrom 3) .x86 ⟨empty, artTreeInit, fun _ ↦ none⟩
    (.insert 3 [1, 2] (some ()))

def heapPair : HeapState Unit :=
  heapAfter (bumpAllocator.failFrom 3) .x86 heapOne (.insert 3 [1, 3] (some ()))

theorem heapOne_reachable : HeapReachable (bumpAllocator.failFrom 3) .x86 empty heapOne := by
  refine HeapReachable.after (.init rfl) fun T ↦ ⟨⟨by decide, ?_⟩, ?_⟩
  · exact fun k hk ↦ absurd rfl hk
  · exact fun k hk ↦ absurd rfl hk

theorem heapOne_length : ∀ k, heapOne.map k ≠ none → k.length = 2 := by
  have hempty : ∀ k, (fun _ ↦ none : ArtMap Unit) k ≠ none → k.length = 2 :=
    fun _ hk ↦ absurd rfl hk
  exact length_update hempty rfl

theorem heapPair_reachable : HeapReachable (bumpAllocator.failFrom 3) .x86 empty heapPair := by
  obtain ⟨T, hs⟩ := heapOne_reachable.fixed heapOne_length
  exact heapOne_reachable.after fun _ ↦ ⟨hs.fueled rfl (by decide), hs.separate rfl⟩

theorem heapPair_length : ∀ k, heapPair.map k ≠ none → k.length = 2 :=
  length_update heapOne_length rfl

end Examples

/-- In every run what is live is what was live before and the nodes, each once, and
`art_tree_destroy` leaves what was live before. -/
theorem artTreeDestroy_frees (h : HeapReachable A arch m₀ s)
    (hfuel : ∀ k, s.map k ≠ none → k.length < fuel) :
    (∃ T S, ArtReachable arch ⟨T, s.map⟩ ∧ RootStored s.memory s.tree.root T.root S ∧
      Owns s.memory S m₀.live) ∧
    ∃ m', artTreeDestroy fuel s.memory s.tree = .ok m' ∧ m'.live = m₀.live := by
  obtain ⟨T, hreach, hr⟩ := h.backed
  obtain ⟨S, hroot, howns⟩ := hr.root
  obtain ⟨m', hrun, hlive, -⟩ := hr.destroy_frees hreach.sound.holds hfuel
  exact ⟨⟨T, S, hreach, hroot, howns⟩, m', hrun, hlive⟩

theorem artTreeDestroy_frees_pair :
    (∃ T S, ArtReachable .x86 ⟨T, heapPair.map⟩ ∧
      RootStored heapPair.memory heapPair.tree.root T.root S ∧ Owns heapPair.memory S []) ∧
    ∃ m', artTreeDestroy 3 heapPair.memory heapPair.tree = .ok m' ∧ m'.live = [] :=
  artTreeDestroy_frees heapPair_reachable fun k hk ↦ by
    rw [heapPair_length k hk]
    decide

end Runs

end RadixBench.Art.Heap
