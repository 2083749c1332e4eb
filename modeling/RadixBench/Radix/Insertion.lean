import RadixBench.Foundation.BitTrie
import RadixBench.Foundation.Mask
import RadixBench.Radix.Relinking

namespace RadixBench.Radix

open Foundation CUradixTree

variable {N : Type} [DecidableEq N] {t t' : CUradixTree N} {c : Context N}

def keyOf (t : CUradixTree N) (n : N) : ℕ := (t.node n).key.toNat

omit [DecidableEq N] in
theorem SameRings.keyOf (h : SameRings t t') : keyOf t' = keyOf t := by
  funext n
  rw [Radix.keyOf, h.key, Radix.keyOf]

omit [DecidableEq N] in
theorem SameRings.refl (t : CUradixTree N) : SameRings t t :=
  ⟨rfl, fun _ ↦ rfl, fun _ ↦ rfl, fun _ ↦ rfl⟩

theorem radixTreeIsBitSet_of_lt (key : BitVec 64) {bit : ℕ} (h : bit < 64) :
    radixTreeIsBitSet key bit = .ok (key.toNat.testBit bit) := by
  rw [radixTreeIsBitSet, if_pos h]
  refine congrArg _ ?_
  rw [Bool.eq_iff_iff, decide_eq_true_iff, and_bit_ne_zero _ h, BitVec.testBit_toNat]

theorem clear_relinked {T : BinaryTree N} (h : Laid (links t) .root T) {n : N}
    (hn : n ∉ inorder T) :
    let t' := (((t.store (.child n false) none).store (.child n true) none).setParent n
      none).setParentToSelfPtr n none
    Relinked t t' T n ∧ Detached t' n := by
  intro t'
  have hload : ∀ s, t'.load s = if s = .child n true then none
      else if s = .child n false then none else t.load s := by
    intro s
    rw [load_setParentToSelfPtr, load_setParent, load_store, load_store]
  have hnode : ∀ m, m ≠ n → t'.node m = t.node m := by
    intro m hm
    have howner : ∀ i, (Slot.child n i).owner ≠ some m := fun i heq ↦ hm (Option.some.inj heq).symm
    rw [node_setParentToSelfPtr_of_ne _ _ hm, node_setParent_of_ne _ _ hm,
      node_store_of_ne _ _ (howner true), node_store_of_ne _ _ (howner false)]
  have hne : ∀ {m}, m ∈ inorder T → m ≠ n := fun hm heq ↦ hn (heq ▸ hm)
  refine ⟨⟨h.frame ?_ (fun m hm i ↦ ?_) fun m hm s ↦ ?_, ?_, fun m _ hmn ↦ hnode m hmn⟩, ?_, ?_, ?_⟩
  · exact (hload .root).trans (by rw [if_neg (by simp), if_neg (by simp)]; rfl)
  · refine (hload (.child m i)).trans ?_
    rw [if_neg (by simp [hne hm]), if_neg (by simp [hne hm])]
    rfl
  · have hsame := hnode m (hne hm)
    exact SameHeld.held ⟨by rw [hsame], by rw [hsame]⟩
  · exact (SameRings.store _ _).trans ((SameRings.store _ _).trans
      ((SameRings.setParent _ _).trans (.setParentToSelfPtr _ _)))
  · intro i
    have hchild := hload (.child n i)
    cases i
    · rwa [if_neg (by simp), if_pos rfl] at hchild
    · rwa [if_pos rfl] at hchild
  · exact (ptr_setParentToSelfPtr ..).trans (if_pos rfl)
  · rw [parent_setParentToSelfPtr, parent_setParent, if_pos rfl]

/-- The node with the smaller key is in the tree afterwards, the other one in no tree. -/
theorem swapNode_relinked {cur node : N} {l r : BinaryTree N}
    (h : Laid (links t) .root (plug c (.node cur l r)))
    (hnodup : (inorder (plug c (.node cur l r))).Nodup)
    (hnode : node ∉ inorder (plug c (.node cur l r))) (hd : Detached t node) :
    ∃ t', swapNode t cur node =
        .ok (t', upper (keyOf t) node cur, lower (keyOf t) node cur) ∧
      Relinked t t' (plug c (.node (upper (keyOf t) node cur) l r)) (lower (keyOf t) node cur) ∧
      Detached t' (lower (keyOf t) node cur) := by
  rw [swapNode]
  by_cases hlt : (t.node node).key < (t.node cur).key
  · have hlt' : keyOf t node < keyOf t cur := hlt
    have hup : upper (keyOf t) node cur = node := if_pos hlt'
    have hlow : lower (keyOf t) node cur = cur := if_pos hlt'
    obtain ⟨t₁, hrun, hrel⟩ := radixTreeReplaceNode_relinked h hnodup hnode hd
    have hcur := (nodup_plug_node hnodup hnode).2
    obtain ⟨hclear, hd'⟩ := clear_relinked hrel.laid hcur
    rw [if_pos hlt, hrun, ok_bind, hup, hlow]
    refine ⟨_, rfl, hrel.trans hclear (.inl (mem_plug.mpr (.inl (by simp)))) fun m hm ↦ .inl hm, hd'⟩
  · have hlt' : ¬ keyOf t node < keyOf t cur := hlt
    have hup : upper (keyOf t) node cur = cur := if_neg hlt'
    have hlow : lower (keyOf t) node cur = node := if_neg hlt'
    rw [if_neg hlt, hup, hlow]
    exact ⟨t, rfl, ⟨h, .refl t, fun _ _ _ ↦ rfl⟩, hd⟩

theorem insertFrom_empty (key : BitVec 64) (k : ℕ) {node : N}
    (h : Laid (links t) .root (plug c .nil)) (hnodup : (inorder (plug c .nil)).Nodup)
    (hnode : node ∉ inorder (plug c .nil)) (hd : Detached t node) :
    ∃ t', insertFrom key k t node (hole c).owner (hole c) = .ok t' ∧
      Relinked t t' (plug c (.node node .nil .nil)) node := by
  have hload : t.load (hole c) = none := (laid_plug.mp h).2.load_eq
  have hlinked := link_relinked h hnodup (fun hc ↦ hnode (mem_plug.mpr (.inr hc))) hd.child
  cases k <;>
  · rw [insertFrom, hload]
    exact ⟨_, rfl, hlinked⟩

omit [DecidableEq N] in
theorem upper_plug (key : N → ℕ) {node m : N} {l r : BinaryTree N}
    (hnodup : (inorder (plug c (.node m l r))).Nodup)
    (hnode : node ∉ inorder (plug c (.node m l r))) :
    (inorder (plug c (.node (upper key node m) l r))).Nodup ∧
      lower key node m ∉ inorder (plug c (.node (upper key node m) l r)) := by
  rcases upper_lower key node m with ⟨hup, hlow⟩ | ⟨hup, hlow⟩
  · rw [hup, hlow]
    exact nodup_plug_node hnodup hnode
  · rw [hup, hlow]
    exact ⟨hnodup, hnode⟩

omit [DecidableEq N] in
theorem Relinked.trans_insertTrie {t'' : CUradixTree N} {key : N → ℕ} {k : ℕ} {node m : N}
    {l r : BinaryTree N}
    (h : Relinked t t' (plug c (.node (upper key node m) l r)) (lower key node m))
    (h' : Relinked t' t'' (plug c (insertTrie key k node (.node m l r))) (lower key node m)) :
    Relinked t t'' (plug c (insertTrie key k node (.node m l r))) node := by
  have hmem : ∀ x, x ∈ inorder (plug c (insertTrie key k node (.node m l r))) ↔
      x = node ∨ x ∈ inorder (plug c (.node m l r)) := by
    intro x
    rw [mem_plug, mem_insertTrie, mem_plug, or_assoc]
  have hm : m ∈ inorder (plug c (.node m l r)) := mem_plug.mpr (.inl (by simp))
  have hboth : upper key node m ∈ inorder (plug c (insertTrie key k node (.node m l r))) ∧
      lower key node m ∈ inorder (plug c (insertTrie key k node (.node m l r))) := by
    rcases upper_lower key node m with ⟨hup, hlow⟩ | ⟨hup, hlow⟩
    · rw [hup, hlow]
      exact ⟨(hmem node).mpr (.inl rfl), (hmem m).mpr (.inr hm)⟩
    · rw [hup, hlow]
      exact ⟨(hmem m).mpr (.inr hm), (hmem node).mpr (.inl rfl)⟩
  refine (h.trans h' (.inr rfl) fun x hx ↦ .inl ?_).of_mem hboth.2
  rw [(inorder_plug_node_perm c _ l r).mem_iff, List.mem_cons] at hx
  rcases hx with rfl | hx
  · exact hboth.1
  · refine (hmem x).mpr (.inr ((inorder_plug_node_perm c m l r).mem_iff.mpr ?_))
    exact List.mem_cons_of_mem m hx

theorem insertFrom_new (key : BitVec 64) {k v : ℕ} {T : BinaryTree N} {node : N}
    (h : Laid (links t) .root (plug c T)) (hnodup : (inorder (plug c T)).Nodup)
    (hnode : node ∉ inorder (plug c T)) (hd : Detached t node) (htrie : Trie (keyOf t) k v T)
    (hv : keyOf t node / 2 ^ k = v) (hfresh : ∀ x ∈ inorder T, keyOf t x ≠ keyOf t node)
    (hkey : ∀ x ∈ inorder T, (t.node x).key ≠ key) (hk : k ≤ 64) :
    ∃ t', insertFrom key k t node (hole c).owner (hole c) = .ok t' ∧
      Relinked t t' (plug c (insertTrie (keyOf t) k node T)) node := by
  induction k generalizing t c v T node with
  | zero =>
    cases T with
    | nil => exact insertFrom_empty key 0 h hnodup hnode hd
    | node m l r =>
      rw [pow_zero, Nat.div_one] at hv
      exact absurd ((trie_zero.mp htrie).1.trans hv.symm) (hfresh m (by simp))
  | succ k ih =>
    cases T with
    | nil => exact insertFrom_empty key (k + 1) h hnodup hnode hd
    | node m l r =>
      have hload : t.load (hole c) = some m := (laid_plug.mp h).2.load_eq
      obtain ⟨t₁, hrun, hrel, hd₁⟩ := swapNode_relinked h hnodup hnode hd
      have hmeet := htrie.meeting hv hfresh
      obtain ⟨-, -, -, hl, hr⟩ := trie_succ.mp htrie
      have hplug := upper_plug (keyOf t) hnodup hnode
      have hsame := hrel.rings.keyOf
      set low := lower (keyOf t) node m with hlow
      have hbit : radixTreeIsBitSet (t₁.node low).key k = .ok ((keyOf t low).testBit k) := by
        rw [radixTreeIsBitSet_of_lt _ (by omega), ← hsame]
        rfl
      -- The lower node goes on to the subtree `T'`, on the side of its next bit.
      have hstep : ∀ (b : Bool) (other T' : BinaryTree N),
          Frame.fill ⟨upper (keyOf t) node m, b, other⟩ T' =
            .node (upper (keyOf t) node m) l r → (keyOf t low).testBit k = b →
          Trie (keyOf t) k (2 * v + b.toNat) T' → (∀ x ∈ inorder T', keyOf t x ≠ keyOf t low) →
          (∀ x ∈ inorder T', x ∈ inorder (.node m l r)) →
          Frame.fill ⟨upper (keyOf t) node m, b, other⟩ (insertTrie (keyOf t) k low T') =
            insertTrie (keyOf t) (k + 1) node (.node m l r) →
          ∃ t', insertFrom key k t₁ low (some (upper (keyOf t) node m))
              (.child (upper (keyOf t) node m) b) = .ok t' ∧
            Relinked t t' (plug c (insertTrie (keyOf t) (k + 1) node (.node m l r))) node := by
        intro b other T' hfill hb hT' hne hsub hins
        have hlow' := hmeet.lower_div
        rw [← hlow, hb] at hlow'
        obtain ⟨t', hrun', hrel'⟩ := ih (t := t₁) (c := ⟨_, b, other⟩ :: c) (T := T')
          (by rw [plug_cons, hfill]; exact hrel.laid) (by rw [plug_cons, hfill]; exact hplug.1)
          (by rw [plug_cons, hfill]; exact hplug.2) hd₁ (by rwa [hsame]) (by rwa [hsame])
          (by rwa [hsame]) (fun x hx ↦ by rw [hrel.rings.key]; exact hkey x (hsub x hx)) (by omega)
        rw [hsame, plug_cons, hins] at hrel'
        exact ⟨t', hrun', hrel.trans_insertTrie hrel'⟩
      rw [insertFrom, hload]
      dsimp only
      rw [if_neg (hkey m (by simp)), hrun, ok_bind]
      dsimp only
      rw [hbit, ok_bind]
      cases hb : (keyOf t low).testBit k with
      | false =>
        refine hstep false r l rfl hb hl hmeet.left_ne (fun x hx ↦ by simp [hx]) ?_
        rw [insertTrie, Nat.add_sub_cancel, if_neg (by rw [hb]; simp)]
        rfl
      | true =>
        refine hstep true l r rfl hb hr hmeet.right_ne (fun x hx ↦ by simp [hx]) ?_
        rw [insertTrie, Nat.add_sub_cancel, if_pos hb]
        rfl

theorem insertFrom_old {key : BitVec 64} {k v : ℕ} {T : BinaryTree N} {s : Slot N} {node head : N}
    {parent : Option N} (h : Laid (links t) s T) (htrie : Trie (keyOf t) k v T)
    (hnode : (t.node node).key = key) (hhead : head ∈ inorder T) (hkey : (t.node head).key = key)
    (hk : k ≤ 64) : insertFrom key k t node parent s = radixListInsert t node head := by
  have hsame : keyOf t node = keyOf t head := by rw [keyOf, keyOf, hnode, hkey]
  induction k generalizing v T s parent with
  | zero =>
    cases T with
    | nil => cases hhead
    | node m l r =>
      obtain ⟨-, rfl, rfl⟩ := trie_zero.mp htrie
      obtain rfl : head = m := by simpa using hhead
      have hload : t.load s = some head := h.load_eq
      rw [insertFrom, hload]
      exact if_pos hkey
  | succ k ih =>
    cases T with
    | nil => cases hhead
    | node m l r =>
      have hload : t.load s = some m := h.load_eq
      obtain ⟨-, -, hleft, hright⟩ := h
      obtain ⟨-, hml, hmr, hl, hr⟩ := trie_succ.mp htrie
      rw [insertFrom, hload]
      dsimp only
      by_cases hm : (t.node m).key = key
      · have heq : keyOf t m = keyOf t head := by rw [keyOf, keyOf, hm, hkey]
        rw [if_pos hm, htrie.key_injective (x := m) (by simp) hhead heq]
      · have hne : head ≠ m := by
          rintro rfl
          exact hm hkey
        have hsub : head ∈ inorder l ∨ head ∈ inorder r := by
          rw [inorder_node, List.mem_append, List.mem_cons] at hhead
          exact hhead.imp_right fun hr ↦ hr.resolve_left hne
        have hlt : ¬ (t.node node).key < (t.node m).key := by
          have hmh : keyOf t m < keyOf t head := hsub.elim (hml head) (hmr head)
          have hmn : keyOf t m < keyOf t node := hsame ▸ hmh
          rw [BitVec.lt_def]
          exact Nat.lt_asymm hmn
        have hbit : radixTreeIsBitSet (t.node node).key k = .ok ((keyOf t head).testBit k) := by
          rw [radixTreeIsBitSet_of_lt _ (by omega), ← hsame]
          rfl
        rw [if_neg hm, swapNode, if_neg hlt, ok_bind]
        dsimp only
        rw [hbit, ok_bind]
        rcases hsub with hhl | hhr
        · rw [testBit_of_div_eq (b := false) (hl.div_eq hhl)]
          exact ih hleft hl hhl (by omega)
        · rw [testBit_of_div_eq (b := true) (hr.div_eq hhr)]
          exact ih hright hr hhr (by omega)

end RadixBench.Radix
