import RadixBench.Radix.Model

namespace RadixBench.Radix

open Foundation

variable {N : Type} [DecidableEq N]

namespace CUradixTree

variable (t : CUradixTree N) (n m : N)

@[simp] theorem node_setNode_self (x : CUradixNode N) : (t.setNode n x).node n = x :=
  Function.update_self ..

theorem node_setNode_of_ne (x : CUradixNode N) (h : m ≠ n) :
    (t.setNode n x).node m = t.node m := Function.update_of_ne h ..

theorem load_setNode {x : CUradixNode N} (h : x.child = (t.node n).child) (s : Slot N) :
    (t.setNode n x).load s = t.load s := by
  cases s with
  | root => rfl
  | child m i =>
    by_cases hm : m = n
    · rw [hm, load, node_setNode_self, h, load]
    · rw [load, node_setNode_of_ne _ _ _ _ hm, load]

@[simp] theorem load_setParentToSelfPtr (p : Option (Slot N)) (s : Slot N) :
    (t.setParentToSelfPtr n p).load s = t.load s := by
  rw [setParentToSelfPtr, load_setNode]
  rfl

@[simp] theorem load_setParent (p : Option N) (s : Slot N) :
    (t.setParent n p).load s = t.load s := by
  rw [setParent, load_setNode]
  rfl

theorem load_store (s s' : Slot N) (p : Option N) :
    (t.store s p).load s' = if s' = s then p else t.load s' := by
  cases s with
  | root => cases s' <;> simp [store, load]
  | child n i =>
    cases s' with
    | root => simp [store, load, setNode]
    | child m j =>
      rw [store, load, load]
      by_cases hm : m = n
      · subst hm
        simp [Function.update_apply]
      · rw [node_setNode_of_ne _ _ _ _ hm, if_neg fun h ↦ hm (Slot.child.inj h).1]

theorem ptr_setParentToSelfPtr (p : Option (Slot N)) :
    ((t.setParentToSelfPtr n p).node m).parentToSelfPtr =
      if m = n then p else (t.node m).parentToSelfPtr := by
  by_cases hm : m = n
  · rw [hm, setParentToSelfPtr, node_setNode_self, if_pos rfl]
  · rw [setParentToSelfPtr, node_setNode_of_ne _ _ _ _ hm, if_neg hm]

@[simp] theorem ptr_setParent (p : Option N) :
    ((t.setParent n p).node m).parentToSelfPtr = (t.node m).parentToSelfPtr := by
  by_cases hm : m = n
  · rw [hm, setParent, node_setNode_self]
  · rw [setParent, node_setNode_of_ne _ _ _ _ hm]

@[simp] theorem parent_setParentToSelfPtr (p : Option (Slot N)) :
    ((t.setParentToSelfPtr n p).node m).parent = (t.node m).parent := by
  by_cases hm : m = n
  · rw [hm, setParentToSelfPtr, node_setNode_self]
  · rw [setParentToSelfPtr, node_setNode_of_ne _ _ _ _ hm]

theorem parent_setParent (p : Option N) :
    ((t.setParent n p).node m).parent = if m = n then p else (t.node m).parent := by
  by_cases hm : m = n
  · rw [hm, setParent, node_setNode_self, if_pos rfl]
  · rw [setParent, node_setNode_of_ne _ _ _ _ hm, if_neg hm]

theorem store_fields (s : Slot N) (p : Option N) :
    ∃ c, (t.store s p).node m = { t.node m with child := c } := by
  cases s with
  | root => exact ⟨(t.node m).child, rfl⟩
  | child n i =>
    by_cases hm : m = n
    · subst hm
      rw [store, node_setNode_self]
      exact ⟨_, rfl⟩
    · rw [store, node_setNode_of_ne _ _ _ _ hm]
      exact ⟨_, rfl⟩

@[simp] theorem ptr_store (s : Slot N) (p : Option N) :
    ((t.store s p).node m).parentToSelfPtr = (t.node m).parentToSelfPtr := by
  obtain ⟨c, hc⟩ := t.store_fields m s p
  rw [hc]

@[simp] theorem parent_store (s : Slot N) (p : Option N) :
    ((t.store s p).node m).parent = (t.node m).parent := by
  obtain ⟨c, hc⟩ := t.store_fields m s p
  rw [hc]

theorem node_store_of_ne {s : Slot N} {m : N} (p : Option N) (h : s.owner ≠ some m) :
    (t.store s p).node m = t.node m := by
  cases s with
  | root => rfl
  | child n i =>
    rw [store, node_setNode_of_ne]
    exact fun heq ↦ h (congrArg some heq.symm)

theorem node_setParentToSelfPtr_of_ne {n m : N} (p : Option (Slot N)) (h : m ≠ n) :
    (t.setParentToSelfPtr n p).node m = t.node m := node_setNode_of_ne _ _ _ _ h

theorem node_setParent_of_ne {n m : N} (p : Option N) (h : m ≠ n) :
    (t.setParent n p).node m = t.node m := node_setNode_of_ne _ _ _ _ h

theorem load_setChild (i : Bool) (p : Option N) (s : Slot N) :
    (t.setChild n i p).load s = if s = .child n i then p else t.load s := by
  cases p with
  | none => rw [setChild, load_store]
  | some c => rw [setChild, load_setParent, load_setParentToSelfPtr, load_store]

theorem ptr_setChild (i : Bool) (p : Option N) :
    ((t.setChild n i p).node m).parentToSelfPtr =
      if p = some m then some (.child n i) else (t.node m).parentToSelfPtr := by
  cases p with
  | none => rw [setChild, ptr_store, if_neg (Option.some_ne_none m).symm]
  | some c =>
    rw [setChild, ptr_setParent, ptr_setParentToSelfPtr, ptr_store]
    simp only [Option.some_inj, eq_comm]

theorem parent_setChild (i : Bool) (p : Option N) :
    ((t.setChild n i p).node m).parent =
      if p = some m then some n else (t.node m).parent := by
  cases p with
  | none => rw [setChild, parent_store, if_neg (Option.some_ne_none m).symm]
  | some c =>
    rw [setChild, parent_setParent, parent_setParentToSelfPtr, parent_store]
    simp only [Option.some_inj, eq_comm]

theorem node_setChild_of_ne {n m : N} {i : Bool} {p : Option N} (hn : m ≠ n) (hp : p ≠ some m) :
    (t.setChild n i p).node m = t.node m := by
  have howner : (Slot.child n i).owner ≠ some m := fun h ↦ hn (Option.some.inj h).symm
  cases p with
  | none => rw [setChild, node_store_of_ne _ _ howner]
  | some c =>
    have hc : m ≠ c := fun heq ↦ hp (by rw [heq])
    rw [setChild, node_setParent_of_ne _ _ hc, node_setParentToSelfPtr_of_ne _ _ hc,
      node_store_of_ne _ _ howner]

end CUradixTree

structure SameRings (t t' : CUradixTree N) : Prop where
  keyBits : t'.keyBits = t.keyBits
  next : ∀ n, (t'.node n).next = (t.node n).next
  prev : ∀ n, (t'.node n).prev = (t.node n).prev
  key : ∀ n, (t'.node n).key = (t.node n).key

namespace SameRings

variable {t t' t'' : CUradixTree N}

omit [DecidableEq N] in
theorem trans (h : SameRings t t') (h' : SameRings t' t'') : SameRings t t'' :=
  ⟨h'.keyBits.trans h.keyBits, fun n ↦ (h'.next n).trans (h.next n),
    fun n ↦ (h'.prev n).trans (h.prev n), fun n ↦ (h'.key n).trans (h.key n)⟩

theorem setNode {n : N} {x : CUradixNode N} (hnext : x.next = (t.node n).next)
    (hprev : x.prev = (t.node n).prev) (hkey : x.key = (t.node n).key) :
    SameRings t (t.setNode n x) := by
  refine ⟨rfl, fun m ↦ ?_, fun m ↦ ?_, fun m ↦ ?_⟩ <;>
  · by_cases hm : m = n
    · subst hm
      rw [CUradixTree.node_setNode_self]
      assumption
    · rw [CUradixTree.node_setNode_of_ne _ _ _ _ hm]

theorem setParentToSelfPtr (n : N) (p : Option (Slot N)) :
    SameRings t (t.setParentToSelfPtr n p) := setNode rfl rfl rfl

theorem setParent (n : N) (p : Option N) : SameRings t (t.setParent n p) := setNode rfl rfl rfl

theorem store (s : Slot N) (p : Option N) : SameRings t (t.store s p) := by
  refine ⟨?_, fun m ↦ ?_, fun m ↦ ?_, fun m ↦ ?_⟩
  · cases s <;> rfl
  all_goals
    obtain ⟨c, hc⟩ := t.store_fields m s p
    rw [hc]

theorem setChild (n : N) (i : Bool) (p : Option N) : SameRings t (t.setChild n i p) := by
  cases p with
  | none =>
    rw [CUradixTree.setChild]
    exact store _ _
  | some c =>
    rw [CUradixTree.setChild]
    exact (store _ _).trans ((setParentToSelfPtr c _).trans (setParent c _))

end SameRings

def links (t : CUradixTree N) : Links N where
  load := t.load
  held n s := (t.node n).parentToSelfPtr = some s ∧ (t.node n).parent = s.owner

end RadixBench.Radix
