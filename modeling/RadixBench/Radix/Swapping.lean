import RadixBench.Foundation.BitTrie
import RadixBench.Foundation.Sided
import RadixBench.Radix.Relinking

namespace RadixBench.Radix

open Foundation CUradixTree

variable {N : Type} [DecidableEq N] {t : CUradixTree N} {c : Context N}

/-- The tree after the assignments of `radixTreeSwapParentWithChild`, for a node `p` that
`slot` points to and its child `x`. -/
def swapped (t : CUradixTree N) (slot : Slot N) (p x : N) (side : Bool) (other a b : Option N) :
    CUradixTree N :=
  let t := t.setParentToSelfPtr p (some (.child x side))
  let t := (t.store (.child x side) (some p)).setChild x (!side) other
  let t := (t.setParentToSelfPtr x (some slot)).store slot (some x)
  let t := (t.setParent p (some x)).setParent x slot.owner
  (t.setChild p false a).setChild p true b

variable {slot : Slot N} {p x : N} {side : Bool} {l a b : Option N}

theorem load_swapped (s : Slot N) : (swapped t slot p x side l a b).load s =
    if s = .child p true then b else if s = .child p false then a else if s = slot then some x
      else if s = .child x (!side) then l else if s = .child x side then some p else t.load s := by
  rw [swapped, load_setChild, load_setChild, load_setParent, load_setParent, load_store,
    load_setParentToSelfPtr, load_setChild, load_store, load_setParentToSelfPtr]

theorem ptr_swapped (m : N) : ((swapped t slot p x side l a b).node m).parentToSelfPtr =
    if b = some m then some (.child p true) else if a = some m then some (.child p false)
      else if m = x then some slot else if l = some m then some (.child x (!side))
      else if m = p then some (.child x side) else (t.node m).parentToSelfPtr := by
  rw [swapped, ptr_setChild, ptr_setChild, ptr_setParent, ptr_setParent, ptr_store,
    ptr_setParentToSelfPtr, ptr_setChild, ptr_store, ptr_setParentToSelfPtr]

theorem parent_swapped (m : N) : ((swapped t slot p x side l a b).node m).parent =
    if b = some m then some p else if a = some m then some p else if m = x then slot.owner
      else if m = p then some x else if l = some m then some x else (t.node m).parent := by
  rw [swapped, parent_setChild, parent_setChild, parent_setParent, parent_setParent, parent_store,
    parent_setParentToSelfPtr, parent_setChild, parent_store, parent_setParentToSelfPtr]

theorem sameRings_swapped : SameRings t (swapped t slot p x side l a b) :=
  (SameRings.setParentToSelfPtr _ _).trans ((SameRings.store _ _).trans
    ((SameRings.setChild ..).trans ((SameRings.setParentToSelfPtr _ _).trans
      ((SameRings.store _ _).trans ((SameRings.setParent _ _).trans
        ((SameRings.setParent _ _).trans ((SameRings.setChild ..).trans (.setChild ..))))))))

theorem node_swapped_of_ne {m : N} (hp : m ≠ p) (hx : m ≠ x) (hslot : slot.owner ≠ some m)
    (hl : l ≠ some m) (ha : a ≠ some m) (hb : b ≠ some m) :
    (swapped t slot p x side l a b).node m = t.node m := by
  have howner : (Slot.child x side).owner ≠ some m := fun heq ↦ hx (Option.some.inj heq).symm
  rw [swapped, node_setChild_of_ne _ hp hb, node_setChild_of_ne _ hp ha,
    node_setParent_of_ne _ _ hx, node_setParent_of_ne _ _ hp, node_store_of_ne _ _ hslot,
    node_setParentToSelfPtr_of_ne _ _ hx, node_setChild_of_ne _ hx hl,
    node_store_of_ne _ _ howner, node_setParentToSelfPtr_of_ne _ _ hp]

theorem radixTreeSwapParentWithChild_eq (hpx : p ≠ x) (hlp : l ≠ some p) (hlx : l ≠ some x)
    (hptr : (t.node p).parentToSelfPtr = some slot) (hparent : (t.node p).parent = slot.owner)
    (hxparent : (t.node x).parent = some p) (hside : (t.node p).child side = some x)
    (hother : (t.node p).child (!side) = l) (ha : (t.node x).child false = a)
    (hb : (t.node x).child true = b) :
    radixTreeSwapParentWithChild t p x = .ok (swapped t slot p x side l a b) := by
  have hnumber : decide ((t.node p).child true = some x) = side := by
    cases side
    · exact decide_eq_false fun heq ↦ hlx (hother.symm.trans heq)
    · exact decide_eq_true hside
  set t₂ := (t.setParentToSelfPtr p (some (.child x side))).store (.child x side) (some p) with ht₂
  set t₅ := ((t₂.setChild x (!side) l).setParentToSelfPtr x (some slot)).store slot (some x) with ht₅
  have hother₂ : (t₂.node p).child (!side) = l := by
    have hload : t₂.load (.child p !side) = t.load (.child p !side) := by
      rw [ht₂, load_store, if_neg (by simp [hpx]), load_setParentToSelfPtr]
    exact hload.trans hother
  have hparent₅ : (t₅.node p).parent = slot.owner := by
    rw [ht₅, parent_store, parent_setParentToSelfPtr, parent_setChild, if_neg hlp, ht₂,
      parent_store, parent_setParentToSelfPtr, hparent]
  rw [radixTreeSwapParentWithChild, check_of hxparent, ok_bind]
  simp only [hnumber, hptr, ha, hb, ← ht₂, hother₂, deref_some, ok_bind, ← ht₅, hparent₅]
  rfl

theorem swapped_laid {other a b : BinaryTree N}
    (h : Laid (links t) .root (plug c (Frame.fill ⟨p, side, other⟩ (.node x a b))))
    (hnodup : (inorder (plug c (Frame.fill ⟨p, side, other⟩ (.node x a b)))).Nodup) :
    Laid (links (swapped t (hole c) p x side (rootOf other) (rootOf a) (rootOf b))) .root
      (plug c (Frame.fill ⟨x, side, other⟩ (.node p a b))) := by
  have hnodup' : (inorder (plug c
      (Frame.fill ⟨p, side, other⟩ (Frame.fill ⟨x, false, b⟩ a)))).Nodup := hnodup
  obtain ⟨⟨hpx, hpo, hpb, hpa, hpc⟩, ⟨hxo, hxb, hxa, hxc⟩, -, ho, hb', -⟩ :=
    nodup_fill_fill hnodup'
  set t' := swapped t (hole c) p x side (rootOf other) (rootOf a) (rootOf b) with ht'
  have hload : ∀ s, t'.load s = _ := fun s ↦ load_swapped s
  have hptr : ∀ m, (t'.node m).parentToSelfPtr = _ := fun m ↦ ptr_swapped m
  have hparent : ∀ m, (t'.node m).parent = _ := fun m ↦ parent_swapped m
  have hchildx : ∀ i, Slot.child x i ≠ hole c ∧ ∀ i', Slot.child x i ≠ .child p i' :=
    fun i ↦ ⟨child_ne_hole hxc, fun i' ↦ by simp [hpx.symm]⟩
  refine laid_swap h hnodup ?_ ?_ ?_ ?_ ((hload (.child p true)).trans (if_pos rfl))
    (fun s hs hsp hsx ↦ ?_) ⟨?_, ?_⟩ ⟨?_, ?_⟩ (fun y hy ↦ ?_) (fun y hy ↦ ?_) (fun y hy ↦ ?_)
    fun y hyp hyx hyo hya hyb s hys ↦ SameHeld.held ⟨?_, ?_⟩ hys
  · refine (hload (hole c)).trans ?_
    rw [if_neg (child_ne_hole hpc).symm, if_neg (child_ne_hole hpc).symm, if_pos rfl]
  · refine (hload (.child x side)).trans ?_
    rw [if_neg ((hchildx _).2 _), if_neg ((hchildx _).2 _), if_neg (hchildx _).1,
      if_neg (by simp), if_pos rfl]
  · refine (hload (.child x !side)).trans ?_
    rw [if_neg ((hchildx _).2 _), if_neg ((hchildx _).2 _), if_neg (hchildx _).1, if_pos rfl]
  · refine (hload (.child p false)).trans ?_
    rw [if_neg (by simp), if_pos rfl]
  · have hpi : ∀ i, s ≠ .child p i := fun i heq ↦ hsp (heq ▸ rfl)
    have hxi : ∀ i, s ≠ .child x i := fun i heq ↦ hsx (heq ▸ rfl)
    refine (hload s).trans ?_
    rw [if_neg (hpi true), if_neg (hpi false), if_neg hs, if_neg (hxi _), if_neg (hxi _)]
    rfl
  · rw [hptr, if_neg (not_rootOf hxb), if_neg (not_rootOf hxa), if_pos rfl]
  · rw [hparent, if_neg (not_rootOf hxb), if_neg (not_rootOf hxa), if_pos rfl]
  · rw [hptr, if_neg (not_rootOf hpb), if_neg (not_rootOf hpa), if_neg hpx,
      if_neg (not_rootOf hpo), if_pos rfl]
  · rw [hparent, if_neg (not_rootOf hpb), if_neg (not_rootOf hpa), if_neg hpx, if_pos rfl]
    rfl
  · have hmem := rootOf_mem hy
    have hyx : y ≠ x := ne_of_mem_of_not_mem hmem hxo
    have hyp : y ≠ p := ne_of_mem_of_not_mem hmem hpo
    obtain ⟨hya, hyb, -⟩ := ho y hmem
    refine ⟨(hptr y).trans ?_, (hparent y).trans ?_⟩
    · rw [if_neg (not_rootOf hyb), if_neg (not_rootOf hya), if_neg hyx, if_pos hy]
    · rw [if_neg (not_rootOf hyb), if_neg (not_rootOf hya), if_neg hyx, if_neg hyp, if_pos hy]
      rfl
  · have hyb : rootOf b ≠ some y := fun heq ↦ (hb' y (rootOf_mem heq)).1 (rootOf_mem hy)
    refine ⟨(hptr y).trans ?_, (hparent y).trans ?_⟩
    · rw [if_neg hyb, if_pos hy]
    · rw [if_neg hyb, if_pos hy]
      rfl
  · refine ⟨(hptr y).trans (if_pos hy), (hparent y).trans ?_⟩
    rw [if_pos hy]
    rfl
  · rw [hptr, if_neg hyb, if_neg hya, if_neg hyx, if_neg hyo, if_neg hyp]
  · rw [hparent, if_neg hyb, if_neg hya, if_neg hyx, if_neg hyp, if_neg hyo]

theorem radixTreeSwapParentWithChild_relinked {other a b : BinaryTree N}
    (h : Laid (links t) .root (plug c (Frame.fill ⟨p, side, other⟩ (.node x a b))))
    (hnodup : (inorder (plug c (Frame.fill ⟨p, side, other⟩ (.node x a b)))).Nodup) :
    ∃ t', radixTreeSwapParentWithChild t p x = .ok t' ∧
      Relinked t t' (plug c (Frame.fill ⟨x, side, other⟩ (.node p a b))) p := by
  obtain ⟨-, hfill⟩ := laid_plug.mp h
  obtain ⟨-, ⟨hptr, hparent⟩, hother, hx, ⟨-, hxparent⟩, ha, hb⟩ := laid_fill.mp hfill
  have hnodup' : (inorder (plug c
      (Frame.fill ⟨p, side, other⟩ (Frame.fill ⟨x, false, b⟩ a)))).Nodup := hnodup
  obtain ⟨⟨hpx, hpo, -⟩, ⟨hxo, -⟩, -⟩ := nodup_fill_fill hnodup'
  have hrun := radixTreeSwapParentWithChild_eq hpx (not_rootOf hpo) (not_rootOf hxo) hptr hparent
    hxparent hx hother.load_eq ha.load_eq hb.load_eq
  refine ⟨_, hrun, swapped_laid h hnodup, sameRings_swapped, fun m hm hmp ↦ ?_⟩
  rw [mem_plug, (inorder_fill_perm _ _).mem_iff] at hm
  simp only [inorder_node, List.cons_append, List.mem_cons, List.mem_append, not_or] at hm
  obtain ⟨⟨hmx, hmo, hma, -, hmb⟩, hmc⟩ := hm
  exact node_swapped_of_ne hmp hmx (fun heq ↦ hmc (owner_hole heq)) (not_rootOf hmo)
    (not_rootOf hma) (not_rootOf hmb)

omit [DecidableEq N] in
theorem laid_nodup {T : BinaryTree N} (h : Laid (links t) .root T) : (inorder T).Nodup :=
  h.nodup fun _ _ _ hs hs' ↦ Option.some.inj (hs.1.symm.trans hs'.1)

omit [DecidableEq N] in
theorem exists_child {T : BinaryTree N} (h : Laid (links t) .root T) (hp : p ∈ inorder T)
    (hx : (t.node p).child side = some x) :
    ∃ c other a b, T = plug c (Frame.fill ⟨p, side, other⟩ (.node x a b)) := by
  obtain ⟨c, l, r, rfl⟩ := exists_plug hp
  obtain ⟨near, other, hfill, -⟩ := exists_sided_fill side p l r
  rw [hfill] at h
  obtain ⟨-, -, -, hnear⟩ := laid_fill.mp (laid_plug.mp h).2
  have hroot : rootOf near = some x := hnear.load_eq.symm.trans hx
  cases near with
  | nil => cases hroot
  | node y a b =>
    obtain rfl := Option.some.inj hroot
    exact ⟨c, other, a, b, congrArg _ hfill⟩

omit [DecidableEq N] in
/-- Memory is determined by the tree, the rings and the nodes outside. -/
theorem eq_of_laid {t t' : CUradixTree N} {T : BinaryTree N} (h : Laid (links t) .root T)
    (h' : Laid (links t') .root T) (hrings : SameRings t t')
    (hsame : ∀ m, m ∉ inorder T → t'.node m = t.node m) : t' = t := by
  have hroot : t'.root = t.root := h'.load_eq.trans h.load_eq.symm
  refine CUradixTree.ext hroot hrings.keyBits (funext fun m ↦ ?_)
  by_cases hm : m ∈ inorder T
  · obtain ⟨hchild, s, ⟨hptr, hparent⟩, hptr', hparent'⟩ := h.agree h' hm
    exact CUradixNode.ext (hrings.next m) (hrings.prev m) (funext hchild) (hptr'.trans hptr.symm)
      (hparent'.trans hparent.symm) (hrings.key m)
  · exact hsame m hm

/-- A node and its child trade places in the tree and nothing else moves, and the same again
brings everything back. -/
theorem radixTreeSwapParentWithChild_exchanges {T : BinaryTree N} (h : Laid (links t) .root T)
    (hp : p ∈ inorder T) (hx : (t.node p).child side = some x) :
    ∃ t', radixTreeSwapParentWithChild t p x = .ok t' ∧
      Laid (links t') .root (T.map (Equiv.swap p x)) ∧ SameRings t t' ∧
      (∀ m, m ∉ inorder T → t'.node m = t.node m) ∧
      radixTreeSwapParentWithChild t' x p = .ok t := by
  obtain ⟨c, other, a, b, rfl⟩ := exists_child h hp hx
  obtain ⟨t', hrun, hrelinked⟩ := radixTreeSwapParentWithChild_relinked h (laid_nodup h)
  obtain ⟨t'', hback, hrelinked'⟩ :=
    radixTreeSwapParentWithChild_relinked hrelinked.laid (laid_nodup hrelinked.laid)
  have hmem : ∀ m, m ∈ inorder (plug c (Frame.fill ⟨x, side, other⟩ (.node p a b))) ↔
      m ∈ inorder (plug c (Frame.fill ⟨p, side, other⟩ (.node x a b))) := fun m ↦
    (inorder_swap_perm c side other x p a b).mem_iff
  have hxmem : x ∈ inorder (plug c (Frame.fill ⟨p, side, other⟩ (.node x a b))) :=
    mem_plug.mpr (.inl (mem_fill.mpr (.inr (.inr (by simp)))))
  have hsame : ∀ m, m ∉ inorder (plug c (Frame.fill ⟨p, side, other⟩ (.node x a b))) →
      t'.node m = t.node m := fun m hm ↦
    hrelinked.same m (fun hm' ↦ hm ((hmem m).mp hm')) (ne_of_mem_of_not_mem hp hm).symm
  refine ⟨t', hrun, ?_, hrelinked.rings, hsame, ?_⟩
  · rw [map_swap (laid_nodup h)]
    exact hrelinked.laid
  · rw [hback]
    refine congrArg _ (eq_of_laid h hrelinked'.laid
      (hrelinked.rings.trans hrelinked'.rings) fun m hm ↦ ?_)
    rw [hrelinked'.same m hm (ne_of_mem_of_not_mem hxmem hm).symm, hsame m hm]

def family : CUradixTree ℕ where
  root := some 0
  keyBits := 64
  node
    | 0 => ⟨some 0, some 0, fun i ↦ bif i then some 2 else some 1, some .root, none, 1⟩
    | 1 => ⟨some 1, some 1, fun i ↦ bif i then none else some 3, some (.child 0 false), some 0, 2⟩
    | 2 => ⟨some 2, some 2, fun _ ↦ none, some (.child 0 true), some 0, 9⟩
    | _ => ⟨some 3, some 3, fun _ ↦ none, some (.child 1 false), some 1, 3⟩

def familyTree : BinaryTree ℕ := .node 0 (.node 1 (.node 3 .nil .nil) .nil) (.node 2 .nil .nil)

theorem family_laid : Laid (links family) .root familyTree :=
  ⟨rfl, ⟨rfl, rfl⟩, ⟨rfl, ⟨rfl, rfl⟩, ⟨rfl, ⟨rfl, rfl⟩, rfl, rfl⟩, rfl⟩,
    ⟨rfl, ⟨rfl, rfl⟩, rfl, rfl⟩⟩

theorem radixTreeSwapParentWithChild_exchanges_family : ∃ t',
    radixTreeSwapParentWithChild family 0 1 = .ok t' ∧
      Laid (links t') .root (.node 1 (.node 0 (.node 3 .nil .nil) .nil) (.node 2 .nil .nil)) ∧
      radixTreeSwapParentWithChild t' 1 0 = .ok family := by
  obtain ⟨t', hrun, hlaid, -, -, hback⟩ :=
    radixTreeSwapParentWithChild_exchanges family_laid (by decide)
      (rfl : (family.node 0).child false = some 1)
  exact ⟨t', hrun, hlaid, hback⟩

/-- A node without duplicates is pushed down to a leaf and cut off there. -/
theorem radixTreeRemove_pull {n : N} {l r : BinaryTree N} (fuel : ℕ)
    (h : Laid (links t) .root (plug c (.node n l r)))
    (hnodup : (inorder (plug c (.node n l r))).Nodup) (hnext : (t.node n).next = some n)
    (hfuel : (BinaryTree.node n l r).height ≤ fuel) :
    ∃ t', radixTreeRemove fuel t n = .ok t' ∧
      Relinked t t' (plug c (pull (.node n l r))) n := by
  induction fuel generalizing t c l r with
  | zero => exact absurd hfuel (by simp)
  | succ fuel ih =>
    obtain ⟨-, -, ⟨hptr, -⟩, hl, hr⟩ := laid_plug.mp h
    have hfalse : (t.node n).child false = rootOf l := hl.load_eq
    have htrue : (t.node n).child true = rootOf r := hr.load_eq
    have hempty : radixListEmpty t n = true := decide_eq_true hnext
    rw [radixTreeRemove, hempty, if_pos rfl, radixTreeGetSmallerChild, hfalse, htrue]
    -- The child `x` on the side `side` comes up, and `n` takes its place.
    have hstep : ∀ (x : N) (side : Bool) (other a b : BinaryTree N),
        Frame.fill ⟨n, side, other⟩ (.node x a b) = .node n l r →
        (BinaryTree.node n a b).height ≤ fuel →
        Frame.fill ⟨x, side, other⟩ (pull (.node n a b)) = pull (.node n l r) →
        ∃ t', (do radixTreeRemove fuel (← radixTreeSwapParentWithChild t n x) n) = .ok t' ∧
          Relinked t t' (plug c (pull (.node n l r))) n := by
      intro x side other a b hfill hheight hpull
      rw [← hfill] at h hnodup
      obtain ⟨t₁, hswap, hrel⟩ := radixTreeSwapParentWithChild_relinked h hnodup
      rw [← (inorder_swap_perm c side other x n a b).nodup_iff] at hnodup
      obtain ⟨t', hrun, hrel'⟩ := ih (c := ⟨x, side, other⟩ :: c) hrel.laid hnodup
        ((hrel.rings.next n).trans hnext) hheight
      rw [plug_cons, hpull] at hrel'
      refine ⟨t', by rw [hswap]; exact hrun, hrel.trans hrel' (.inr rfl) fun m hm ↦ ?_⟩
      rw [mem_plug, mem_fill, (pull_perm (t := .node n a b) rfl).mem_iff, List.mem_cons] at hm
      rw [← hpull, mem_plug, mem_fill]
      tauto
    cases l with
    | nil =>
      cases r with
      | nil =>
        dsimp only [rootOf]
        rw [hptr, deref_some, ok_bind]
        exact ⟨_, rfl, cut_relinked h hnodup⟩
      | node x a b =>
        refine hstep x true .nil a b rfl ?_ ?_
        · simpa using hfuel
        · rw [pull, pull_node n x, Frame.fill]
    | node x a b =>
      refine hstep x false r a b rfl ?_ ?_
      · simp at hfuel ⊢
        omega
      · rw [pull, pull_node n x, Frame.fill]

end RadixBench.Radix
