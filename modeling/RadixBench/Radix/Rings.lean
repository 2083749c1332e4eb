import RadixBench.Foundation.Ring
import RadixBench.Radix.Insertion

namespace RadixBench.Radix

open Foundation CUradixTree

variable {N : Type} [DecidableEq N] {t t' t'' : CUradixTree N}

def nextOf (t : CUradixTree N) (n : N) : Option N := (t.node n).next

def prevOf (t : CUradixTree N) (n : N) : Option N := (t.node n).prev

theorem nextOf_setNext (n : N) (p : Option N) :
    nextOf (t.setNext n p) = Function.update (nextOf t) n p := by
  funext m
  by_cases hm : m = n
  · rw [hm, nextOf, setNext, node_setNode_self, Function.update_self]
  · rw [nextOf, setNext, node_setNode_of_ne _ _ _ _ hm, Function.update_of_ne hm, nextOf]

@[simp] theorem nextOf_setPrev (n : N) (p : Option N) : nextOf (t.setPrev n p) = nextOf t := by
  funext m
  by_cases hm : m = n
  · rw [hm, nextOf, setPrev, node_setNode_self, nextOf]
  · rw [nextOf, setPrev, node_setNode_of_ne _ _ _ _ hm, nextOf]

theorem prevOf_setPrev (n : N) (p : Option N) :
    prevOf (t.setPrev n p) = Function.update (prevOf t) n p := by
  funext m
  by_cases hm : m = n
  · rw [hm, prevOf, setPrev, node_setNode_self, Function.update_self]
  · rw [prevOf, setPrev, node_setNode_of_ne _ _ _ _ hm, Function.update_of_ne hm, prevOf]

@[simp] theorem prevOf_setNext (n : N) (p : Option N) : prevOf (t.setNext n p) = prevOf t := by
  funext m
  by_cases hm : m = n
  · rw [hm, prevOf, setNext, node_setNode_self, prevOf]
  · rw [prevOf, setNext, node_setNode_of_ne _ _ _ _ hm, prevOf]

structure SameTree (t t' : CUradixTree N) : Prop where
  keyBits : t'.keyBits = t.keyBits
  load : t'.load = t.load
  ptr : ∀ n, (t'.node n).parentToSelfPtr = (t.node n).parentToSelfPtr
  parent : ∀ n, (t'.node n).parent = (t.node n).parent
  key : ∀ n, (t'.node n).key = (t.node n).key

namespace SameTree

omit [DecidableEq N] in
theorem trans (h : SameTree t t') (h' : SameTree t' t'') : SameTree t t'' :=
  ⟨h'.keyBits.trans h.keyBits, h'.load.trans h.load, fun n ↦ (h'.ptr n).trans (h.ptr n),
    fun n ↦ (h'.parent n).trans (h.parent n), fun n ↦ (h'.key n).trans (h.key n)⟩

theorem setNode {n : N} {x : CUradixNode N} (hchild : x.child = (t.node n).child)
    (hptr : x.parentToSelfPtr = (t.node n).parentToSelfPtr) (hparent : x.parent = (t.node n).parent)
    (hkey : x.key = (t.node n).key) : SameTree t (t.setNode n x) := by
  refine ⟨rfl, funext fun s ↦ t.load_setNode n hchild s, fun m ↦ ?_, fun m ↦ ?_, fun m ↦ ?_⟩ <;>
  · by_cases hm : m = n
    · subst hm
      rw [node_setNode_self]
      assumption
    · rw [node_setNode_of_ne _ _ _ _ hm]

theorem setNext (n : N) (p : Option N) : SameTree t (t.setNext n p) := setNode rfl rfl rfl rfl

theorem setPrev (n : N) (p : Option N) : SameTree t (t.setPrev n p) := setNode rfl rfl rfl rfl

omit [DecidableEq N] in
theorem links_eq (h : SameTree t t') : links t' = links t := by
  simp only [links, h.load, h.ptr, h.parent]

omit [DecidableEq N] in
theorem keyOf (h : SameTree t t') : keyOf t' = keyOf t := by
  funext n
  rw [Radix.keyOf, h.key, Radix.keyOf]

omit [DecidableEq N] in
theorem sameLinks (h : SameTree t t') (n : N) : SameLinks t t' n :=
  ⟨funext fun i ↦ congrFun h.load (.child n i), h.ptr n, h.parent n⟩

omit [DecidableEq N] in
theorem detached (h : SameTree t t') {n : N} (hn : Detached t n) : Detached t' n := by
  refine ⟨fun i ↦ ?_, (h.ptr n).trans hn.ptr, (h.parent n).trans hn.parent⟩
  exact (congrFun h.load (.child n i)).trans (hn.child i)

end SameTree

theorem radixListInsert_ring {head node : N} {r : List N}
    (h : Ring (nextOf t) (prevOf t) (head :: r)) (hnodup : (head :: r).Nodup)
    (hnode : node ∉ head :: r) :
    ∃ t', radixListInsert t node head = .ok t' ∧ SameTree t t' ∧
      Ring (nextOf t') (prevOf t') (head :: r ++ [node]) ∧
      ∀ m, m ∉ head :: r → m ≠ node → nextOf t' m = nextOf t m ∧ prevOf t' m = prevOf t m := by
  obtain ⟨z, hz, hprev, hring⟩ := h.insert hnodup hnode
  have hrun : (t.node head).prev = some z := hprev
  rw [radixListInsert, hrun, deref_some, ok_bind]
  set t' := (((t.setNext z (some node)).setPrev node (some z)).setPrev head (some node)).setNext
    node (some head) with ht'
  have hnext : nextOf t' = Function.update (Function.update (nextOf t) z (some node)) node
      (some head) := by
    rw [ht', nextOf_setNext, nextOf_setPrev, nextOf_setPrev, nextOf_setNext]
  have hprev' : prevOf t' = Function.update (Function.update (prevOf t) node (some z)) head
      (some node) := by
    rw [ht', prevOf_setNext, prevOf_setPrev, prevOf_setPrev, prevOf_setNext]
  refine ⟨t', rfl, ?_, by rwa [hnext, hprev'], fun m hm hmn ↦ ?_⟩
  · exact (SameTree.setNext _ _).trans ((SameTree.setPrev _ _).trans
      ((SameTree.setPrev _ _).trans (.setNext _ _)))
  · have hmz : m ≠ z := fun heq ↦ hm (heq ▸ hz)
    have hmh : m ≠ head := fun heq ↦ hm (heq ▸ List.mem_cons_self)
    rw [hnext, hprev', Function.update_of_ne hmn, Function.update_of_ne hmz,
      Function.update_of_ne hmh, Function.update_of_ne hmn]
    exact ⟨rfl, rfl⟩

theorem radixListRemove_ring {node b : N} {r : List N}
    (h : Ring (nextOf t) (prevOf t) (node :: b :: r)) (hnodup : (node :: b :: r).Nodup) :
    ∃ t', radixListRemove t node = .ok t' ∧ SameTree t t' ∧
      Ring (nextOf t') (prevOf t') (b :: r) ∧
      ∀ m, m ∉ b :: r → nextOf t' m = nextOf t m ∧ prevOf t' m = prevOf t m := by
  obtain ⟨z, hz, hnext, hprev, hring⟩ := h.remove hnodup
  have hn : (t.node node).next = some b := hnext
  have hp : (t.node node).prev = some z := hprev
  rw [radixListRemove, hn, hp, deref_some, deref_some, ok_bind, ok_bind]
  set t' := (t.setPrev b (some z)).setNext z (some b) with ht'
  have hnext' : nextOf t' = Function.update (nextOf t) z (some b) := by
    rw [ht', nextOf_setNext, nextOf_setPrev]
  have hprev' : prevOf t' = Function.update (prevOf t) b (some z) := by
    rw [ht', prevOf_setNext, prevOf_setPrev]
  refine ⟨t', rfl, (SameTree.setPrev _ _).trans (.setNext _ _), by rwa [hnext', hprev'],
    fun m hm ↦ ?_⟩
  have hmz : m ≠ z := fun heq ↦ hm (heq ▸ hz)
  have hmb : m ≠ b := fun heq ↦ hm (heq ▸ List.mem_cons_self)
  rw [hnext', hprev', Function.update_of_ne hmz, Function.update_of_ne hmb]
  exact ⟨rfl, rfl⟩

omit [DecidableEq N] in
theorem SameRings.ring (h : SameRings t t') {l : List N} (hring : Ring (nextOf t) (prevOf t) l) :
    Ring (nextOf t') (prevOf t') l := hring.frame (fun n _ ↦ h.next n) fun n _ ↦ h.prev n

end RadixBench.Radix
