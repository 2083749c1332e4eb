import RadixBench.Avl.Model

namespace RadixBench.Avl

open Foundation

variable {N K V : Type} [DecidableEq N]

namespace CUavlTree

variable (t : CUavlTree N K V) (n m : N)

@[simp] theorem node_setNode_self (x : CUavlTreeNode N K V) : (t.setNode n x).node n = x :=
  Function.update_self ..

theorem node_setNode_of_ne {n m : N} (x : CUavlTreeNode N K V) (h : m ≠ n) :
    (t.setNode n x).node m = t.node m := Function.update_of_ne h ..

theorem load_setNode {x : CUavlTreeNode N K V} (h : x.child = (t.node n).child) (s : Slot N) :
    (t.setNode n x).load s = t.load s := by
  cases s with
  | root => rfl
  | child m i =>
    by_cases hm : m = n
    · rw [hm, load, node_setNode_self, h, load]
    · rw [load, node_setNode_of_ne _ _ hm, load]

@[simp] theorem load_setParent (p : Option N) (s : Slot N) :
    (t.setParent n p).load s = t.load s := by
  rw [setParent, load_setNode]
  rfl

@[simp] theorem load_setHeight (h : ℤ) (s : Slot N) : (t.setHeight n h).load s = t.load s := by
  rw [setHeight, load_setNode]
  rfl

@[simp] theorem load_setParentOf (p q : Option N) (s : Slot N) :
    (t.setParentOf p q).load s = t.load s := by
  cases p with
  | none => rfl
  | some n => exact t.load_setParent n q s

theorem load_store (s s' : Slot N) (p : Option N) :
    (t.store s p).load s' = if s' = s then p else t.load s' := by
  cases s with
  | root => cases s' <;> simp [store, load]
  | child n i =>
    cases s' with
    | root => simp [store, load, setNode]
    | child m j =>
      rw [store, load, load]
      by_cases hm : m = n
      · subst hm
        simp [Function.update_apply]
      · rw [node_setNode_of_ne _ _ hm, if_neg fun h ↦ hm (Slot.child.inj h).1]

theorem store_fields (s : Slot N) (p : Option N) :
    ∃ c, (t.store s p).node m = { t.node m with child := c } := by
  cases s with
  | root => exact ⟨(t.node m).child, rfl⟩
  | child n i =>
    by_cases hm : m = n
    · subst hm
      rw [store, node_setNode_self]
      exact ⟨_, rfl⟩
    · rw [store, node_setNode_of_ne _ _ hm]
      exact ⟨_, rfl⟩

@[simp] theorem parent_store (s : Slot N) (p : Option N) :
    ((t.store s p).node m).parent = (t.node m).parent := by
  obtain ⟨c, hc⟩ := t.store_fields m s p
  rw [hc]

@[simp] theorem height_store (s : Slot N) (p : Option N) :
    ((t.store s p).node m).height = (t.node m).height := by
  obtain ⟨c, hc⟩ := t.store_fields m s p
  rw [hc]

theorem parent_setParent (p : Option N) :
    ((t.setParent n p).node m).parent = if m = n then p else (t.node m).parent := by
  by_cases hm : m = n
  · rw [hm, setParent, node_setNode_self, if_pos rfl]
  · rw [setParent, node_setNode_of_ne _ _ hm, if_neg hm]

theorem parent_setParentOf (p q : Option N) :
    ((t.setParentOf p q).node m).parent = if p = some m then q else (t.node m).parent := by
  cases p with
  | none => rw [if_neg (Option.some_ne_none m).symm, setParentOf]
  | some n =>
    rw [setParentOf, parent_setParent]
    simp only [Option.some_inj, eq_comm]

@[simp] theorem parent_setHeight (h : ℤ) :
    ((t.setHeight n h).node m).parent = (t.node m).parent := by
  by_cases hm : m = n
  · rw [hm, setHeight, node_setNode_self]
  · rw [setHeight, node_setNode_of_ne _ _ hm]

@[simp] theorem height_setParent (p : Option N) :
    ((t.setParent n p).node m).height = (t.node m).height := by
  by_cases hm : m = n
  · rw [hm, setParent, node_setNode_self]
  · rw [setParent, node_setNode_of_ne _ _ hm]

@[simp] theorem height_setParentOf (p q : Option N) :
    ((t.setParentOf p q).node m).height = (t.node m).height := by
  cases p with
  | none => rfl
  | some n => exact t.height_setParent n m q

theorem height_setHeight (h : ℤ) :
    ((t.setHeight n h).node m).height = if m = n then h else (t.node m).height := by
  by_cases hm : m = n
  · rw [hm, setHeight, node_setNode_self, if_pos rfl]
  · rw [setHeight, node_setNode_of_ne _ _ hm, if_neg hm]

theorem node_store_of_ne {s : Slot N} {m : N} (p : Option N) (h : s.owner ≠ some m) :
    (t.store s p).node m = t.node m := by
  cases s with
  | root => rfl
  | child n i =>
    rw [store, node_setNode_of_ne]
    exact fun heq ↦ h (congrArg some heq.symm)

theorem node_setParent_of_ne {n m : N} (p : Option N) (h : m ≠ n) :
    (t.setParent n p).node m = t.node m := node_setNode_of_ne _ _ h

theorem node_setParentOf_of_ne {m : N} {p : Option N} (q : Option N) (h : p ≠ some m) :
    (t.setParentOf p q).node m = t.node m := by
  cases p with
  | none => rfl
  | some n => exact t.node_setParent_of_ne q fun heq ↦ h (by rw [heq])

theorem node_setHeight_of_ne {n m : N} (k : ℤ) (h : m ≠ n) :
    (t.setHeight n k).node m = t.node m := node_setNode_of_ne _ _ h

end CUavlTree

structure SameData (t t' : CUavlTree N K V) : Prop where
  compare : t'.compare = t.compare
  key : ∀ n, (t'.node n).key = (t.node n).key
  value : ∀ n, (t'.node n).value = (t.node n).value

namespace SameData

variable {t t' t'' : CUavlTree N K V}

omit [DecidableEq N] in
theorem refl (t : CUavlTree N K V) : SameData t t := ⟨rfl, fun _ ↦ rfl, fun _ ↦ rfl⟩

omit [DecidableEq N] in
theorem trans (h : SameData t t') (h' : SameData t' t'') : SameData t t'' :=
  ⟨h'.compare.trans h.compare, fun n ↦ (h'.key n).trans (h.key n),
    fun n ↦ (h'.value n).trans (h.value n)⟩

theorem setNode {n : N} {x : CUavlTreeNode N K V} (hkey : x.key = (t.node n).key)
    (hvalue : x.value = (t.node n).value) : SameData t (t.setNode n x) := by
  refine ⟨rfl, fun m ↦ ?_, fun m ↦ ?_⟩ <;>
  · by_cases hm : m = n
    · subst hm
      rw [CUavlTree.node_setNode_self]
      assumption
    · rw [CUavlTree.node_setNode_of_ne _ _ hm]

theorem setParent (n : N) (p : Option N) : SameData t (t.setParent n p) := setNode rfl rfl

theorem setHeight (n : N) (h : ℤ) : SameData t (t.setHeight n h) := setNode rfl rfl

theorem setParentOf (p q : Option N) : SameData t (t.setParentOf p q) := by
  cases p with
  | none => exact refl t
  | some n => exact setParent n q

theorem store (s : Slot N) (p : Option N) : SameData t (t.store s p) := by
  cases s with
  | root => exact ⟨rfl, fun _ ↦ rfl, fun _ ↦ rfl⟩
  | child n i => exact setNode rfl rfl

end SameData

/-- The links of the tree: a node only knows the owner of the slot that it is in. -/
def links (t : CUavlTree N K V) : Links N where
  load := t.load
  held n s := (t.node n).parent = s.owner

def heightOf (t : CUavlTree N K V) (n : N) : ℤ := (t.node n).height

end RadixBench.Avl
