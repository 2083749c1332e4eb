import RadixBench.Avl.Pointers
import RadixBench.Foundation.HeightBalance

namespace RadixBench.Avl

open Foundation CUavlTree

variable {N K V : Type} [DecidableEq N] {t t' t'' : CUavlTree N K V} {c : Context N}

/-- The subtree `u` in the hole of `c` has been turned into `v`, with the same nodes in the same
order. -/
structure Reshaped (t t' : CUavlTree N K V) (c : Context N) (u v : BinaryTree N) : Prop where
  laid : Laid (links t') .root (plug c v)
  inorder_eq : inorder v = inorder u
  data : SameData t t'
  height : ∀ n, n ∉ inorder v → heightOf t' n = heightOf t n
  same : ∀ n, n ∉ inorder (plug c v) → t'.node n = t.node n

omit [DecidableEq N] in
theorem Reshaped.trans {u v w : BinaryTree N} (h : Reshaped t t' c u v)
    (h' : Reshaped t' t'' c v w) : Reshaped t t'' c u w := by
  refine ⟨h'.laid, h'.inorder_eq.trans h.inorder_eq, h.data.trans h'.data, fun n hn ↦ ?_, fun n hn ↦ ?_⟩
  · exact (h'.height n hn).trans (h.height n (h'.inorder_eq ▸ hn))
  · refine (h'.same n hn).trans (h.same n ?_)
    rwa [inorder_plug, ← h'.inorder_eq, ← inorder_plug]

omit [DecidableEq N] in
theorem inorder_fill_congr {f : Frame N} {u v : BinaryTree N} (h : inorder v = inorder u) :
    inorder (f.fill v) = inorder (f.fill u) := by
  obtain ⟨n, side, other⟩ := f
  cases side
  · simp only [Frame.fill, inorder_node, h]
  · simp only [Frame.fill, inorder_node, h]

omit [DecidableEq N] in
theorem Reshaped.fill {f : Frame N} {u v : BinaryTree N} (h : Reshaped t t' (f :: c) u v) :
    Reshaped t t' c (f.fill u) (f.fill v) := by
  refine ⟨h.laid, inorder_fill_congr h.inorder_eq, h.data, fun n hn ↦ h.height n fun hv ↦ hn ?_, h.same⟩
  exact mem_fill.mpr (.inr (.inr hv))

omit [DecidableEq N] in
theorem Reshaped.whole {u v : BinaryTree N} (h : Reshaped t t' c u v) :
    Reshaped t t' [] (plug c u) (plug c v) := by
  induction c generalizing u v with
  | nil => exact h
  | cons f c ih => exact ih h.fill

omit [DecidableEq N] in
theorem Reshaped.nodup {u v : BinaryTree N} (h : Reshaped t t' c u v)
    (hnodup : (inorder (plug c u)).Nodup) :
    (inorder (plug c v)).Nodup := by
  rwa [inorder_plug, h.inorder_eq, ← inorder_plug]

theorem linkPointer_eq {u : BinaryTree N} {n : N} (h : Laid (links t) .root (plug c u))
    (hnodup : (inorder (plug c u)).Nodup) (hn : rootOf u = some n) :
    cuAvlTreeNodeGetLinkPointer t n = .ok (hole c) := by
  obtain ⟨haround, hu⟩ := laid_plug.mp h
  have hparent : (t.node n).parent = (hole c).owner := (laid_iff.mp hu).2.1 n hn
  have hload : t.load (hole c) = some n := hu.load_eq.trans hn
  cases c with
  | nil => rw [cuAvlTreeNodeGetLinkPointer, hparent, hole, Slot.owner]
  | cons f c =>
    obtain ⟨p, side, other⟩ := f
    rw [cuAvlTreeNodeGetLinkPointer, hparent, hole, Slot.owner]
    dsimp only
    rw [hole] at hload
    cases side with
    | false =>
      have hleft : t.left p = some n := hload
      rw [if_pos hleft]
    | true =>
      have hother : t.left p = rootOf other := haround.2.2.1.load_eq
      have hnot : n ∉ inorder other := by
        obtain ⟨-, -, hapart⟩ := nodup_plug.mp hnodup
        exact fun hmem ↦ hapart n (rootOf_mem hn) (mem_around_cons.mpr (.inr (.inl hmem)))
      have hright : t.right p = some n := hload
      rw [hother, if_neg fun heq ↦ hnot (rootOf_mem heq), if_pos hright]

omit [DecidableEq N] in
theorem getHeight_congr {p : Option N} (h : ∀ n, p = some n → heightOf t' n = heightOf t n) :
    cuAvlTreeNodeGetHeight t' p = cuAvlTreeNodeGetHeight t p := by
  cases p with
  | none => rfl
  | some n => exact h n rfl

theorem recalculateHeight_eq (t : CUavlTree N K V) (n : N) (side : Bool) :
    cuAvlTreeNodeRecalculateHeight t n =
      t.setHeight n (1 + max (cuAvlTreeNodeGetHeight t (t.load (.child n !side)))
        (cuAvlTreeNodeGetHeight t (t.load (.child n side)))) := by
  cases side
  · rw [cuAvlTreeNodeRecalculateHeight, max_comm]
    rfl
  · rfl

theorem height_recalculateHeight_self (t : CUavlTree N K V) (n : N) (side : Bool) :
    heightOf (cuAvlTreeNodeRecalculateHeight t n) n =
      1 + max (cuAvlTreeNodeGetHeight t (t.load (.child n !side)))
        (cuAvlTreeNodeGetHeight t (t.load (.child n side))) := by
  rw [recalculateHeight_eq t n side, heightOf, height_setHeight, if_pos rfl]

theorem height_recalculateHeight_of_ne (t : CUavlTree N K V) {n m : N} (h : m ≠ n) :
    heightOf (cuAvlTreeNodeRecalculateHeight t n) m = heightOf t m := by
  rw [cuAvlTreeNodeRecalculateHeight, heightOf, height_setHeight, if_neg h, heightOf]

theorem links_recalculateHeight (t : CUavlTree N K V) (n : N) :
    links (cuAvlTreeNodeRecalculateHeight t n) = links t := by
  have hload : (cuAvlTreeNodeRecalculateHeight t n).load = t.load :=
    funext fun s ↦ t.load_setHeight n _ s
  have hparent : ∀ m, ((cuAvlTreeNodeRecalculateHeight t n).node m).parent =
      (t.node m).parent := fun m ↦ t.parent_setHeight n m _
  simp only [links, hload, hparent]

/-- The links after a rotation, where `link` holds `n`, `x` is the child of `n` that comes up and
`m` the child of `x` that changes over to `n`. -/
def relink (t : CUavlTree N K V) (link : Slot N) (side : Bool) (n x : N) (m : Option N) :
    CUavlTree N K V :=
  (((((t.store link (some x)).setParent x link.owner).store (.child n side) m).setParentOf m
    (some n)).store (.child x !side) (some n)).setParent n (some x)

section

variable (t) (link : Slot N) (side : Bool) (n x : N) (m : Option N)

theorem load_relink (s : Slot N) : (relink t link side n x m).load s =
    if s = .child x (!side) then some n else if s = .child n side then m
    else if s = link then some x else t.load s := by
  rw [relink, load_setParent, load_store, load_setParentOf, load_store, load_setParent, load_store]

theorem parent_relink (y : N) : ((relink t link side n x m).node y).parent =
    if y = n then some x else if m = some y then some n else if y = x then link.owner
    else (t.node y).parent := by
  rw [relink, parent_setParent, parent_store, parent_setParentOf, parent_store, parent_setParent,
    parent_store]

theorem height_relink (y : N) : heightOf (relink t link side n x m) y = heightOf t y := by
  rw [heightOf, relink, height_setParent, height_store, height_setParentOf, height_store,
    height_setParent, height_store, heightOf]

theorem relink_data : SameData t (relink t link side n x m) :=
  (SameData.store _ _).trans ((SameData.setParent _ _).trans ((SameData.store _ _).trans
    ((SameData.setParentOf _ _).trans ((SameData.store _ _).trans (.setParent _ _)))))

theorem node_relink_of_ne {y : N} (hlink : link.owner ≠ some y) (hn : y ≠ n) (hx : y ≠ x)
    (hm : m ≠ some y) : (relink t link side n x m).node y = t.node y := by
  have hchild : ∀ {z i}, y ≠ z → (Slot.child z i).owner ≠ some y := fun hz heq ↦
    hz (Option.some.inj heq).symm
  rw [relink, node_setParent_of_ne _ _ hn, node_store_of_ne _ _ (hchild hx),
    node_setParentOf_of_ne _ _ hm, node_store_of_ne _ _ (hchild hn), node_setParent_of_ne _ _ hx,
    node_store_of_ne _ _ hlink]

end

theorem rotate_eq {side : Bool} {n x : N} {link : Slot N} {m : Option N}
    (hlink : cuAvlTreeNodeGetLinkPointer t n = .ok link) (hx : t.load (.child n side) = some x)
    (hm : t.load (.child x !side) = m) (hparent : (t.node n).parent = link.owner)
    (hne : Slot.child x (!side) ≠ link) :
    rotate t side n = .ok (cuAvlTreeNodeRecalculateHeight
      (cuAvlTreeNodeRecalculateHeight (relink t link side n x m) n) x, x) := by
  have h₁ : (t.node n).child side = some x := hx
  have h₂ : ((t.store link (some x)).node n).parent = link.owner := by rw [parent_store, hparent]
  have h₃ : (((t.store link (some x)).setParent x link.owner).node x).child (!side) = m := by
    have hload : ((t.store link (some x)).setParent x link.owner).load (.child x !side) = m := by
      rw [load_setParent, load_store, if_neg hne, hm]
    exact hload
  have h₄ : ((((t.store link (some x)).setParent x link.owner).store (.child n side) m).node
      n).child side = m := by
    have hload : (((t.store link (some x)).setParent x link.owner).store (.child n side) m).load
        (.child n side) = m := by rw [load_store, if_pos rfl]
    exact hload
  rw [rotate, hlink, ok_bind, h₁, deref_some, ok_bind]
  simp only [h₂, h₃, h₄]
  rfl

theorem heights_recalculateHeight {n x : N} {side : Bool} {a m b : Option N} (hnx : n ≠ x)
    (hb : t.load (.child n !side) = b) (hm : t.load (.child n side) = m)
    (hn : t.load (.child x !side) = some n) (ha : t.load (.child x side) = a) (hna : a ≠ some n) :
    heightOf (cuAvlTreeNodeRecalculateHeight (cuAvlTreeNodeRecalculateHeight t n) x) n =
        1 + max (cuAvlTreeNodeGetHeight t b) (cuAvlTreeNodeGetHeight t m) ∧
      heightOf (cuAvlTreeNodeRecalculateHeight (cuAvlTreeNodeRecalculateHeight t n) x) x =
        1 + max
          (heightOf (cuAvlTreeNodeRecalculateHeight (cuAvlTreeNodeRecalculateHeight t n) x) n)
          (cuAvlTreeNodeGetHeight t a) ∧
      ∀ y, y ≠ n → y ≠ x →
        heightOf (cuAvlTreeNodeRecalculateHeight (cuAvlTreeNodeRecalculateHeight t n) x) y =
          heightOf t y := by
  set t₁ := cuAvlTreeNodeRecalculateHeight t n with ht₁
  have hn₁ : heightOf (cuAvlTreeNodeRecalculateHeight t₁ x) n = heightOf t₁ n :=
    height_recalculateHeight_of_ne t₁ hnx
  have hload : ∀ s, t₁.load s = t.load s := fun s ↦ by
    rw [ht₁, cuAvlTreeNodeRecalculateHeight, load_setHeight]
  have hother : ∀ y, y ≠ n → heightOf t₁ y = heightOf t y := fun y hy ↦
    height_recalculateHeight_of_ne t hy
  refine ⟨?_, ?_, fun y hyn hyx ↦
    (height_recalculateHeight_of_ne t₁ hyx).trans (hother y hyn)⟩
  · rw [hn₁, ht₁, height_recalculateHeight_self t n side, hb, hm]
  · have ha₁ : cuAvlTreeNodeGetHeight t₁ a = cuAvlTreeNodeGetHeight t a :=
      getHeight_congr fun y hy ↦ hother y fun heq ↦ hna (heq ▸ hy)
    rw [hn₁, height_recalculateHeight_self t₁ x side, hload, hload, hn, ha, ha₁]
    rfl

section

variable {n x : N} {side : Bool} {a m b : BinaryTree N}

theorem relink_laid
    (h : Laid (links t) .root (plug c (Frame.fill ⟨n, side, b⟩ (Frame.fill ⟨x, side, m⟩ a))))
    (hnodup : (inorder (plug c (Frame.fill ⟨n, side, b⟩ (Frame.fill ⟨x, side, m⟩ a)))).Nodup) :
    Laid (links (relink t (hole c) side n x (rootOf m))) .root
      (plug c (Frame.fill ⟨x, side, Frame.fill ⟨n, side, b⟩ m⟩ a)) := by
  obtain ⟨⟨hnx, -, hnm, -, hnc⟩, ⟨-, hxm, -, hxc⟩, -⟩ := nodup_fill_fill hnodup
  have hload := load_relink t (hole c) side n x (rootOf m)
  have hparent := parent_relink t (hole c) side n x (rootOf m)
  refine laid_rotate h hnodup ?_ ?_ ?_ (fun s hs hsx hsn ↦ ?_) ?_ ?_ (fun y hy ↦ ?_)
    fun y hyn hyx hym s hys ↦ ?_
  · refine (hload _).trans ?_
    rw [if_neg (child_ne_hole hxc).symm, if_neg (child_ne_hole hnc).symm, if_pos rfl]
  · exact (hload _).trans (if_pos rfl)
  · refine (hload (.child n side)).trans ?_
    rw [if_neg (by simp [hnx]), if_pos rfl]
  · refine (hload _).trans ?_
    rw [if_neg hsx, if_neg hsn, if_neg hs]
    rfl
  · refine (hparent x).trans ?_
    rw [if_neg (Ne.symm hnx), if_neg fun heq ↦ hxm (rootOf_mem heq), if_pos rfl]
  · exact (hparent n).trans (if_pos rfl)
  · refine (hparent y).trans ?_
    have hyn : y ≠ n := ne_of_mem_of_not_mem (rootOf_mem hy) hnm
    rw [if_neg hyn, if_pos hy]
    rfl
  · refine (hparent y).trans ?_
    rw [if_neg hyn, if_neg hym, if_neg hyx]
    exact hys

/-- The run of a rotation. The two nodes that change their places get new heights. -/
theorem rotate_reshaped
    (h : Laid (links t) .root (plug c (Frame.fill ⟨n, side, b⟩ (Frame.fill ⟨x, side, m⟩ a))))
    (hnodup : (inorder (plug c (Frame.fill ⟨n, side, b⟩ (Frame.fill ⟨x, side, m⟩ a)))).Nodup) :
    ∃ t', rotate t side n = .ok (t', x) ∧
      Reshaped t t' c (Frame.fill ⟨n, side, b⟩ (Frame.fill ⟨x, side, m⟩ a))
        (Frame.fill ⟨x, side, Frame.fill ⟨n, side, b⟩ m⟩ a) ∧
      heightOf t' n = 1 + max (cuAvlTreeNodeGetHeight t (rootOf b))
        (cuAvlTreeNodeGetHeight t (rootOf m)) ∧
      heightOf t' x = 1 + max (heightOf t' n) (cuAvlTreeNodeGetHeight t (rootOf a)) ∧
      ∀ y, y ≠ n → y ≠ x → heightOf t' y = heightOf t y := by
  obtain ⟨⟨hnx, -, -, hna, hnc⟩, ⟨-, -, -, hxc⟩, -⟩ := nodup_fill_fill hnodup
  obtain ⟨-, hfill⟩ := laid_plug.mp h
  obtain ⟨-, hparent, hb, hfill⟩ := laid_fill.mp hfill
  obtain ⟨hx, -, hm, ha⟩ := laid_fill.mp hfill
  have hroot : rootOf (Frame.fill ⟨n, side, b⟩ (Frame.fill ⟨x, side, m⟩ a)) = some n := by
    cases side <;> rfl
  have hrun := rotate_eq (linkPointer_eq h hnodup hroot) hx hm.load_eq hparent (child_ne_hole hxc)
  have hlaid := relink_laid h hnodup
  obtain ⟨-, hfill'⟩ := laid_plug.mp hlaid
  obtain ⟨-, -, hn', ha'⟩ := laid_fill.mp hfill'
  obtain ⟨-, -, hb', hm'⟩ := laid_fill.mp hn'
  have hload := load_relink t (hole c) side n x (rootOf m)
  have hbelow : ∀ {p : Option N}, cuAvlTreeNodeGetHeight (relink t (hole c) side n x (rootOf m)) p =
      cuAvlTreeNodeGetHeight t p :=
    getHeight_congr fun y _ ↦ height_relink t (hole c) side n x (rootOf m) y
  obtain ⟨hheightn, hheightx, hother⟩ := heights_recalculateHeight hnx hb'.load_eq hm'.load_eq
    ((hload _).trans (if_pos rfl)) ha'.load_eq fun heq ↦ hna (rootOf_mem heq)
  rw [hbelow, hbelow] at hheightn
  rw [hbelow] at hheightx
  have hother' := fun y hyn hyx ↦
    (hother y hyn hyx).trans (height_relink t (hole c) side n x (rootOf m) y)
  have hmem : ∀ y, y = n ∨ y = x →
      y ∈ inorder (Frame.fill ⟨x, side, Frame.fill ⟨n, side, b⟩ m⟩ a) := by
    intro y hy
    simp only [mem_fill]
    tauto
  refine ⟨_, hrun, ⟨?_, ?_, ?_, fun y hy ↦ ?_, fun y hy ↦ ?_⟩, hheightn, hheightx, hother'⟩
  · rw [links_recalculateHeight, links_recalculateHeight]
    exact hlaid
  · cases side <;> simp [Frame.fill]
  · exact (relink_data t (hole c) side n x (rootOf m)).trans
      ((SameData.setHeight _ _).trans (.setHeight _ _))
  · exact hother' y (fun heq ↦ hy (hmem y (.inl heq))) fun heq ↦ hy (hmem y (.inr heq))
  · have hyn : y ≠ n := fun heq ↦ hy (mem_plug.mpr (.inl (hmem y (.inl heq))))
    have hyx : y ≠ x := fun heq ↦ hy (mem_plug.mpr (.inl (hmem y (.inr heq))))
    have hym : rootOf m ≠ some y := fun heq ↦ hy (mem_plug.mpr (.inl (mem_fill.mpr
      (.inr (.inl (mem_fill.mpr (.inr (.inr (rootOf_mem heq)))))))))
    rw [cuAvlTreeNodeRecalculateHeight, node_setHeight_of_ne _ _ hyx,
      cuAvlTreeNodeRecalculateHeight, node_setHeight_of_ne _ _ hyn]
    exact node_relink_of_ne t (hole c) side n x (rootOf m)
      (fun heq ↦ hy (mem_plug.mpr (.inr (owner_hole heq)))) hyn hyx hym

end

end RadixBench.Avl
