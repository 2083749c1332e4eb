import RadixBench.Foundation.Relinking
import RadixBench.Radix.Pointers

namespace RadixBench.Radix

open Foundation CUradixTree

variable {N : Type} [DecidableEq N] {t t' : CUradixTree N} {c : Context N}

/-- `t'` has the tree `T`, and otherwise differs from `t` only in the links of the nodes in
`T` and of `n`. -/
structure Relinked (t t' : CUradixTree N) (T : BinaryTree N) (n : N) : Prop where
  laid : Laid (links t') .root T
  rings : SameRings t t'
  same : ∀ m, m ∉ inorder T → m ≠ n → t'.node m = t.node m

structure Detached (t : CUradixTree N) (n : N) : Prop where
  child : ∀ i, (t.node n).child i = none
  ptr : (t.node n).parentToSelfPtr = none
  parent : (t.node n).parent = none

omit [DecidableEq N] in
theorem Relinked.detached {T : BinaryTree N} {n m : N} (h : Relinked t t' T n)
    (hm : Detached t m) (hT : m ∉ inorder T) (hmn : m ≠ n) : Detached t' m := by
  have hsame := h.same m hT hmn
  exact ⟨hsame ▸ hm.child, hsame ▸ hm.ptr, hsame ▸ hm.parent⟩

omit [DecidableEq N] in
theorem Relinked.trans {t'' : CUradixTree N} {T T' : BinaryTree N} {n n' : N}
    (h : Relinked t t' T n) (h' : Relinked t' t'' T' n') (hn : n ∈ inorder T' ∨ n = n')
    (hsub : ∀ m ∈ inorder T, m ∈ inorder T' ∨ m = n') : Relinked t t'' T' n' := by
  refine ⟨h'.laid, h.rings.trans h'.rings, fun m hm hmn ↦ ?_⟩
  have hmT : m ∉ inorder T := fun hmem ↦ (hsub m hmem).elim hm hmn
  have hmn' : m ≠ n := by
    rintro rfl
    exact hn.elim hm hmn
  exact (h'.same m hm hmn).trans (h.same m hmT hmn')

omit [DecidableEq N] in
theorem Relinked.of_mem {T : BinaryTree N} {n n' : N} (h : Relinked t t' T n)
    (hn : n ∈ inorder T) : Relinked t t' T n' :=
  ⟨h.laid, h.rings, fun m hm _ ↦ h.same m hm fun heq ↦ hm (heq ▸ hn)⟩

structure SameLinks (t t' : CUradixTree N) (n : N) : Prop where
  child : (t'.node n).child = (t.node n).child
  ptr : (t'.node n).parentToSelfPtr = (t.node n).parentToSelfPtr
  parent : (t'.node n).parent = (t.node n).parent

omit [DecidableEq N] in
theorem SameLinks.trans {t'' : CUradixTree N} {n : N} (h : SameLinks t t' n)
    (h' : SameLinks t' t'' n) : SameLinks t t'' n :=
  ⟨h'.child.trans h.child, h'.ptr.trans h.ptr, h'.parent.trans h.parent⟩

omit [DecidableEq N] in
theorem SameLinks.of_node {n : N} (h : t'.node n = t.node n) : SameLinks t t' n :=
  ⟨congrArg CUradixNode.child h, congrArg CUradixNode.parentToSelfPtr h,
    congrArg CUradixNode.parent h⟩

def SameHeld (t t' : CUradixTree N) (n : N) : Prop :=
  (t'.node n).parentToSelfPtr = (t.node n).parentToSelfPtr ∧ (t'.node n).parent = (t.node n).parent

omit [DecidableEq N] in
theorem SameHeld.held {n : N} {s : Slot N} (h : SameHeld t t' n) (hn : (links t).held n s) :
    (links t').held n s := ⟨h.1.trans hn.1, h.2.trans hn.2⟩

omit [DecidableEq N] in
theorem not_rootOf {T : BinaryTree N} {n : N} (h : n ∉ inorder T) : rootOf T ≠ some n :=
  fun heq ↦ h (rootOf_mem heq)

theorem laid_setParentToSelfPtr {T : BinaryTree N} (h : Laid (links t) .root T) {n : N}
    (hn : n ∉ inorder T) (p : Option (Slot N)) :
    Laid (links (t.setParentToSelfPtr n p)) .root T := by
  have hload : ∀ s, (links (t.setParentToSelfPtr n p)).load s = (links t).load s :=
    t.load_setParentToSelfPtr n p
  refine h.frame (hload _) (fun m _ i ↦ hload _) fun m hm s ↦ SameHeld.held ?_
  have hsame := t.node_setParentToSelfPtr_of_ne p (ne_of_mem_of_not_mem hm hn)
  exact ⟨by rw [hsame], by rw [hsame]⟩

theorem link_relinked (h : Laid (links t) .root (plug c .nil))
    (hnodup : (inorder (plug c .nil)).Nodup) {n : N} (hn : n ∉ around c)
    (hchild : ∀ i, (t.node n).child i = none) :
    Relinked t (((t.setParentToSelfPtr n (some (hole c))).store (hole c) (some n)).setParent n
      (hole c).owner) (plug c (.node n .nil .nil)) n := by
  set t' := ((t.setParentToSelfPtr n (some (hole c))).store (hole c) (some n)).setParent n
    (hole c).owner with ht'
  have hload : ∀ s, t'.load s = if s = hole c then some n else t.load s := by
    intro s
    rw [ht', load_setParent, load_store, load_setParentToSelfPtr]
  have hptr : ∀ m, (t'.node m).parentToSelfPtr =
      if m = n then some (hole c) else (t.node m).parentToSelfPtr := by
    intro m
    rw [ht', ptr_setParent, ptr_store, ptr_setParentToSelfPtr]
  have hparent : ∀ m, (t'.node m).parent = if m = n then (hole c).owner else (t.node m).parent := by
    intro m
    rw [ht', parent_setParent, parent_store, parent_setParentToSelfPtr]
  have hempty : ∀ i, t'.load (.child n i) = none := by
    intro i
    rw [hload, if_neg (child_ne_hole hn)]
    exact hchild i
  refine ⟨h.plug hnodup (fun s hs _ ↦ (hload s).trans (if_neg hs)) (fun m hm s ↦ ?_)
    ⟨(hload _).trans (if_pos rfl), ⟨(hptr n).trans (if_pos rfl), (hparent n).trans (if_pos rfl)⟩,
      hempty false, hempty true⟩, ?_, fun m hm hmn ↦ ?_⟩
  · have hmn : m ≠ n := fun heq ↦ hn (heq ▸ hm)
    exact SameHeld.held ⟨(hptr m).trans (if_neg hmn), (hparent m).trans (if_neg hmn)⟩
  · exact (SameRings.setParentToSelfPtr _ _).trans ((SameRings.store _ _).trans (.setParent _ _))
  · rw [ht', node_setParent_of_ne _ _ hmn, node_store_of_ne, node_setParentToSelfPtr_of_ne _ _ hmn]
    exact fun heq ↦ hm (mem_plug.mpr (.inr (owner_hole heq)))

theorem cut_relinked {n : N} (h : Laid (links t) .root (plug c (.node n .nil .nil)))
    (hnodup : (inorder (plug c (.node n .nil .nil))).Nodup) :
    Relinked t (t.store (hole c) none) (plug c .nil) n := by
  refine ⟨h.plug hnodup (fun s hs _ ↦ (load_store ..).trans (if_neg hs)) (fun m hm s ↦ ?_)
    ((load_store ..).trans (if_pos rfl)), .store _ _, fun m hm hmn ↦ ?_⟩
  · exact SameHeld.held ⟨ptr_store .., parent_store ..⟩
  · exact node_store_of_ne _ _ fun heq ↦ hm (mem_plug.mpr (.inr (owner_hole heq)))

/-- The tree after the assignments of `radixTreeReplaceNode`, `slot` pointing to a node with
the children `l` and `r`. -/
def replaced (t : CUradixTree N) (slot : Slot N) (repl : N) (l r : Option N) : CUradixTree N :=
  let t := (t.setParentToSelfPtr repl (some slot)).setParent repl slot.owner
  let t := (t.setChild repl false l).setChild repl true r
  t.store slot (some repl)

section

variable {slot : Slot N} {orig repl : N} {l r : Option N}

theorem load_replaced (s : Slot N) : (replaced t slot repl l r).load s =
    if s = slot then some repl else if s = .child repl true then r
      else if s = .child repl false then l else t.load s := by
  rw [replaced, load_store, load_setChild, load_setChild, load_setParent, load_setParentToSelfPtr]

theorem ptr_replaced (m : N) : ((replaced t slot repl l r).node m).parentToSelfPtr =
    if r = some m then some (.child repl true) else if l = some m then some (.child repl false)
      else if m = repl then some slot else (t.node m).parentToSelfPtr := by
  rw [replaced, ptr_store, ptr_setChild, ptr_setChild, ptr_setParent, ptr_setParentToSelfPtr]

theorem parent_replaced (m : N) : ((replaced t slot repl l r).node m).parent =
    if r = some m then some repl else if l = some m then some repl
      else if m = repl then slot.owner else (t.node m).parent := by
  rw [replaced, parent_store, parent_setChild, parent_setChild, parent_setParent,
    parent_setParentToSelfPtr]

theorem sameRings_replaced : SameRings t (replaced t slot repl l r) :=
  (SameRings.setParentToSelfPtr _ _).trans ((SameRings.setParent _ _).trans
    ((SameRings.setChild ..).trans ((SameRings.setChild ..).trans (.store _ _))))

theorem node_replaced_of_ne {m : N} (hm : m ≠ repl) (hslot : slot.owner ≠ some m)
    (hl : l ≠ some m) (hr : r ≠ some m) : (replaced t slot repl l r).node m = t.node m := by
  rw [replaced, node_store_of_ne _ _ hslot, node_setChild_of_ne _ hm hr,
    node_setChild_of_ne _ hm hl, node_setParent_of_ne _ _ hm, node_setParentToSelfPtr_of_ne _ _ hm]

theorem radixTreeReplaceNode_eq (hd : Detached t repl) (horig : orig ≠ repl)
    (hptr : (t.node orig).parentToSelfPtr = some slot) (hparent : (t.node orig).parent = slot.owner)
    (hl : (t.node orig).child false = l) (hr : (t.node orig).child true = r)
    (hlorig : l ≠ some orig) (hlrepl : l ≠ some repl) (hrrepl : r ≠ some repl) :
    radixTreeReplaceNode t orig repl = .ok (replaced t slot repl l r) := by
  set t₂ := (t.setParentToSelfPtr repl (some slot)).setParent repl slot.owner with ht₂
  have hparent₁ : ((t.setParentToSelfPtr repl (some slot)).node orig).parent = slot.owner :=
    (parent_setParentToSelfPtr ..).trans hparent
  have horig₂ : t₂.node orig = t.node orig := by
    rw [ht₂, node_setParent_of_ne _ _ horig, node_setParentToSelfPtr_of_ne _ _ horig]
  have hl₂ : (t₂.node orig).child false = l := by rw [horig₂, hl]
  have hr₃ : ((t₂.setChild repl false l).node orig).child true = r := by
    rw [node_setChild_of_ne _ horig hlorig, horig₂, hr]
  have hptr₄ : (((t₂.setChild repl false l).setChild repl true r).node repl).parentToSelfPtr =
      some slot := by
    rw [ptr_setChild, if_neg hrrepl, ptr_setChild, if_neg hlrepl, ht₂, ptr_setParent,
      ptr_setParentToSelfPtr, if_pos rfl]
  rw [radixTreeReplaceNode, check_of (hd.child false), check_of (hd.child true),
    check_of hd.parent, check_of hd.ptr]
  simp only [ok_bind, hparent₁, hptr, ← ht₂, hl₂, hr₃, hptr₄, deref_some]
  rfl

end

/-- A detached node takes the place of `orig`, which keeps its own links. -/
theorem radixTreeReplaceNode_relinked {orig repl : N} {l r : BinaryTree N}
    (h : Laid (links t) .root (plug c (.node orig l r)))
    (hnodup : (inorder (plug c (.node orig l r))).Nodup)
    (hrepl : repl ∉ inorder (plug c (.node orig l r))) (hd : Detached t repl) :
    ∃ t', radixTreeReplaceNode t orig repl = .ok t' ∧
      Relinked t t' (plug c (.node repl l r)) repl := by
  obtain ⟨-, -, ⟨hptr₀, hparent₀⟩, hl, hr⟩ := laid_plug.mp h
  obtain ⟨hnode, -⟩ := nodup_plug.mp hnodup
  rw [inorder_node, List.nodup_append'] at hnode
  obtain ⟨-, -, hlr⟩ := hnode
  have hout := hrepl
  rw [mem_plug, inorder_node, List.mem_append, List.mem_cons, not_or, not_or, not_or] at hout
  obtain ⟨⟨hrl, hro, hrr⟩, hrc⟩ := hout
  have hlo : orig ∉ inorder l := fun hmem ↦ hlr hmem List.mem_cons_self
  set t' := replaced t (hole c) repl (rootOf l) (rootOf r) with ht'
  have hload : ∀ s, t'.load s = _ := fun s ↦ load_replaced s
  have hptr : ∀ m, (t'.node m).parentToSelfPtr = _ := fun m ↦ ptr_replaced m
  have hparent : ∀ m, (t'.node m).parent = _ := fun m ↦ parent_replaced m
  have hroots : ∀ y, rootOf l = some y → rootOf r ≠ some y := fun y hl hr ↦
    hlr (rootOf_mem hl) (List.mem_cons_of_mem orig (rootOf_mem hr))
  have hrun : radixTreeReplaceNode t orig repl = .ok t' :=
    radixTreeReplaceNode_eq hd (fun heq ↦ hro heq.symm) hptr₀ hparent₀ hl.load_eq hr.load_eq
      (not_rootOf hlo) (not_rootOf hrl) (not_rootOf hrr)
  refine ⟨t', hrun, ⟨?_, ?_, fun m hm hmr ↦ ?_⟩⟩
  · refine laid_replace h hnodup hrepl ((hload _).trans (if_pos rfl)) ⟨?_, ?_⟩ ?_ ?_
      (fun s hs hsr _ ↦ ?_) (fun y hy ↦ ⟨?_, ?_⟩) (fun y hy ↦ ⟨?_, ?_⟩)
      fun y hyr _ hyl hyr' s hys ↦ SameHeld.held ⟨?_, ?_⟩ hys
    · rw [hptr, if_neg (not_rootOf hrr), if_neg (not_rootOf hrl), if_pos rfl]
    · rw [hparent, if_neg (not_rootOf hrr), if_neg (not_rootOf hrl), if_pos rfl]
    · refine (hload (.child repl false)).trans ?_
      rw [if_neg (child_ne_hole hrc), if_neg (by simp), if_pos rfl]
    · refine (hload (.child repl true)).trans ?_
      rw [if_neg (child_ne_hole hrc), if_pos rfl]
    · have hchild : ∀ i, s ≠ .child repl i := fun i heq ↦ hsr (heq ▸ rfl)
      exact (hload s).trans (by rw [if_neg hs, if_neg (hchild true), if_neg (hchild false)]; rfl)
    · rw [hptr, if_neg (hroots y hy), if_pos hy]
    · rw [hparent, if_neg (hroots y hy), if_pos hy]
      rfl
    · rw [hptr, if_pos hy]
    · rw [hparent, if_pos hy]
      rfl
    · rw [hptr, if_neg hyr', if_neg hyl, if_neg hyr]
    · rw [hparent, if_neg hyr', if_neg hyl, if_neg hyr]
  · exact sameRings_replaced
  · rw [mem_plug, inorder_node, List.mem_append, List.mem_cons, not_or, not_or, not_or] at hm
    obtain ⟨⟨hml, -, hmr'⟩, hmc⟩ := hm
    exact node_replaced_of_ne hmr (fun heq ↦ hmc (owner_hole heq)) (not_rootOf hml)
      (not_rootOf hmr')

end RadixBench.Radix
