import RadixBench.Foundation.Mask
import RadixBench.Radix.Invariant

namespace RadixBench.Radix

open Foundation CUradixTree

variable {N : Type} [DecidableEq N] {s : RadixState N} {T : BinaryTree N}

/-- The node after `memset` and `radixListInit`. -/
def fresh (node : N) (key : BitVec 64) : CUradixNode N :=
  ⟨some node, some node, fun _ ↦ none, none, none, key⟩

theorem radixTreeInsert_eq (t : CUradixTree N) (node : N) {key : BitVec 64}
    (hle : t.keyBits.toNat ≤ 64) (hkey : key.toNat < 2 ^ t.keyBits.toNat) :
    radixTreeInsert t node key =
      insertFrom key t.keyBits.toNat (t.setNode node (fresh node key)) node none .root := by
  have hinit : radixListInit (t.setNode node ⟨none, none, fun _ ↦ none, none, none, key⟩) node =
      t.setNode node (fresh node key) := by
    simp [radixListInit, setNext, setPrev, setNode, fresh]
  rw [radixTreeInsert]
  by_cases hbits : t.keyBits = 64
  · have hcond : ¬ t.keyBits ≠ 64 := not_not_intro hbits
    simp only [hcond, if_false, hinit]
    rfl
  · have hlt : t.keyBits.toNat < 64 := by
      refine hle.lt_of_ne fun heq ↦ hbits ?_
      exact BitVec.eq_of_toNat_eq heq
    have hcheck := check_of ((not_mask_and_eq_zero hlt key).mpr hkey)
    simp only [ne_eq, hbits, not_false_eq_true, if_true, Nat.not_le.mpr hlt, if_false, hcheck, hinit]
    rfl

theorem Sound.insert_new (h : Sound s T) {node : N} {key : BitVec 64} (hnode : node ∉ s.live)
    (hbound : key.toNat < 2 ^ s.tree.keyBits.toNat) (hd : Detached s.tree node)
    (hkey : (s.tree.node node).key = key) (hself : Ring (nextOf s.tree) (prevOf s.tree) [node])
    (hdups : dups s key = []) :
    ∃ t', insertFrom key s.tree.keyBits.toNat s.tree node none .root = .ok t' ∧
      Sound (s.insert t' node key)
        (insertTrie (keyOf s.tree) s.tree.keyBits.toNat node T) ∧
      t'.keyBits = s.tree.keyBits ∧ ∀ m, m ∉ s.live → m ≠ node → SameLinks s.tree t' m := by
  have hT : node ∉ inorder T := fun hmem ↦ hnode (h.live_of_mem hmem)
  have hkeyOf : keyOf s.tree node = key.toNat := congrArg BitVec.toNat hkey
  have hfresh : ∀ x ∈ inorder T, (s.tree.node x).key ≠ key := by
    intro x hx heq
    have hlive := h.live_of_mem hx
    have hmem : x ∈ dups s key := mem_dups.mpr ⟨hlive, (h.key_eq x hlive).symm.trans heq⟩
    rw [hdups] at hmem
    cases hmem
  have hfresh' : ∀ x ∈ inorder T, keyOf s.tree x ≠ keyOf s.tree node := by
    intro x hx heq
    exact hfresh x hx (BitVec.eq_of_toNat_eq (heq.trans hkeyOf))
  have hv : keyOf s.tree node / 2 ^ s.tree.keyBits.toNat = 0 := by
    rw [hkeyOf]
    exact Nat.div_eq_of_lt hbound
  obtain ⟨t', hrun, hrel⟩ := insertFrom_new (c := []) key h.laid h.trie.nodup hT hd h.trie hv
    hfresh' hfresh h.bits_le
  have hsame : ∀ m, m ∉ s.live → m ≠ node → SameLinks s.tree t' m := fun m hm hmn ↦
    .of_node (hrel.same m (fun hmem ↦ (mem_insertTrie.mp hmem).elim hmn fun hmT ↦
      hm (h.live_of_mem hmT)) hmn)
  refine ⟨t', hrun, ?_, hrel.rings.keyBits, hsame⟩
  have hbits : t'.keyBits = s.tree.keyBits := hrel.rings.keyBits
  have hkeys := fun {m} ↦ h.insert_keys (m := m) hnode hbits hrel.rings.key hkey hbound
  refine ⟨hbits ▸ h.bits_pos, hbits ▸ h.bits_le, hrel.laid, ?_, h.insert_nodup hnode t' key,
    fun m hm ↦ (hkeys hm).1, fun m hm ↦ (hkeys hm).2, fun m ↦ ?_, fun k ↦ ?_, fun m hm hmT ↦ ?_⟩
  · change Trie (keyOf t') t'.keyBits.toNat 0 _
    rw [hrel.rings.keyOf, hbits]
    exact h.trie.insertTrie hv hfresh'
  · rw [mem_insertTrie, dups_insert hnode]
    by_cases hm : m = node
    · rw [hm, insert_key_self, if_pos rfl, hdups]
      simp
    · rw [insert_key_of_ne t' key hm, or_iff_right hm, h.mem_iff]
      split_ifs with hk
      · rw [hk, hdups]
        simpa using fun heq ↦ hm heq.symm
      · rfl
  · rw [dups_insert hnode]
    refine hrel.rings.ring ?_
    split_ifs with hk
    · rw [hk, hdups]
      exact hself
    · exact h.ring k
  · have hmT' := hmT
    rw [mem_insertTrie, not_or] at hmT'
    have hm' : m ∈ s.live := (mem_insert_live.mp hm).resolve_right hmT'.1
    exact hrel.detached (h.detached m hm' hmT'.2) hmT hmT'.1

/-- A node whose key is there already is appended to the ring of that key. -/
theorem Sound.insert_old (h : Sound s T) {node head : N} {r : List N} {key : BitVec 64}
    (hnode : node ∉ s.live) (hbound : key.toNat < 2 ^ s.tree.keyBits.toNat)
    (hd : Detached s.tree node) (hkey : (s.tree.node node).key = key)
    (hdups : dups s key = head :: r) :
    ∃ t', insertFrom key s.tree.keyBits.toNat s.tree node none .root = .ok t' ∧
      Sound (s.insert t' node key) T ∧ t'.keyBits = s.tree.keyBits ∧
      ∀ m, SameLinks s.tree t' m := by
  have hhead := h.head_mem hdups
  obtain ⟨hlive, hheadKey⟩ := mem_dups.mp (hdups ▸ List.mem_cons_self : head ∈ dups s key)
  have hring := h.ring key
  have hnodup := h.dups_nodup key
  rw [hdups] at hring hnodup
  have hnot : node ∉ head :: r := fun hmem ↦ hnode (mem_dups.mp (hdups ▸ hmem)).1
  obtain ⟨t', hrun, hsame, hnew, hother⟩ := radixListInsert_ring hring hnodup hnot
  have hfind : insertFrom key s.tree.keyBits.toNat s.tree node none .root =
      radixListInsert s.tree node head :=
    insertFrom_old h.laid h.trie hkey hhead ((h.key_eq head hlive).trans hheadKey) h.bits_le
  refine ⟨t', hfind.trans hrun, ?_, hsame.keyBits, hsame.sameLinks⟩
  have hkeys := fun {m} ↦ h.insert_keys (m := m) hnode hsame.keyBits hsame.key hkey hbound
  refine ⟨hsame.keyBits ▸ h.bits_pos, hsame.keyBits ▸ h.bits_le, hsame.links_eq ▸ h.laid, ?_,
    h.insert_nodup hnode t' key, fun m hm ↦ (hkeys hm).1, fun m hm ↦ (hkeys hm).2, fun m ↦ ?_,
    fun k ↦ ?_, fun m hm hmT ↦ ?_⟩
  · have htrie := h.trie
    rwa [← hsame.keyOf, ← hsame.keyBits] at htrie
  · rw [dups_insert hnode]
    by_cases hm : m = node
    · rw [hm, insert_key_self, if_pos rfl, hdups]
      refine iff_of_false (fun hmem ↦ hnode (h.live_of_mem hmem)) ?_
      simpa using ne_of_live hnode hlive
    · rw [insert_key_of_ne t' key hm, h.mem_iff]
      split_ifs with hk
      · rw [hk, hdups]
        rfl
      · rfl
  · rw [dups_insert hnode]
    split_ifs with hk
    · rw [hk, hdups]
      exact hnew
    · have hout : ∀ m ∈ dups s k, m ∉ head :: r ∧ m ≠ node := by
        intro m hm
        obtain ⟨hml, hmk⟩ := mem_dups.mp hm
        refine ⟨fun hmem ↦ hk ?_, ne_of_live hnode hml⟩
        exact hmk.symm.trans (mem_dups.mp (hdups ▸ hmem)).2
      exact (h.ring k).frame (fun m hm ↦ (hother m (hout m hm).1 (hout m hm).2).1)
        fun m hm ↦ (hother m (hout m hm).1 (hout m hm).2).2
  · rcases mem_insert_live.mp hm with hm | rfl
    · exact hsame.detached (h.detached m hm hmT)
    · exact hsame.detached hd

theorem radixTreeInsert_sound (h : Sound s T) {node : N} {key : BitVec 64}
    (hnode : node ∉ s.live) (hbound : key.toNat < 2 ^ s.tree.keyBits.toNat) :
    ∃ t' T', radixTreeInsert s.tree node key = .ok t' ∧ Sound (s.insert t' node key) T' ∧
      t'.keyBits = s.tree.keyBits ∧ ∀ m, m ∉ s.live → m ≠ node → SameLinks s.tree t' m := by
  have hs := h.setNode hnode (fresh node key)
  have hnew : (s.tree.setNode node (fresh node key)).node node = fresh node key :=
    node_setNode_self ..
  have hd : Detached (s.tree.setNode node (fresh node key)) node :=
    ⟨by rw [hnew]; exact fun _ ↦ rfl, by rw [hnew]; rfl, by rw [hnew]; rfl⟩
  have hkey : ((s.tree.setNode node (fresh node key)).node node).key = key := by
    rw [hnew]
    rfl
  have hset : ∀ m, m ≠ node → SameLinks s.tree (s.tree.setNode node (fresh node key)) m :=
    fun m hm ↦ .of_node (node_setNode_of_ne _ _ _ _ hm)
  rw [radixTreeInsert_eq s.tree node h.bits_le hbound]
  cases hdups : dups s key with
  | nil =>
    have hself : Ring (nextOf (s.tree.setNode node (fresh node key)))
        (prevOf (s.tree.setNode node (fresh node key))) [node] := by
      refine ring_cons.mpr ⟨List.isChain_singleton node, node, by simp, rfl, ?_, ?_⟩
      · rw [nextOf, hnew]
        rfl
      · rw [prevOf, hnew]
        rfl
    obtain ⟨t', hrun, hs', hbits, hsame⟩ := hs.insert_new hnode hbound hd hkey hself hdups
    exact ⟨t', _, hrun, hs', hbits, fun m hm hmn ↦ (hset m hmn).trans (hsame m hm hmn)⟩
  | cons head r =>
    obtain ⟨t', hrun, hs', hbits, hsame⟩ := hs.insert_old hnode hbound hd hkey hdups
    exact ⟨t', T, hrun, hs', hbits, fun m _ hmn ↦ (hset m hmn).trans (hsame m)⟩

theorem mem_remove_live {tree : CUradixTree N} {node m : N} (h : s.live.Nodup) :
    m ∈ (s.remove tree node).live ↔ m ≠ node ∧ m ∈ s.live := h.mem_erase_iff

structure Removed (s : RadixState N) (t' : CUradixTree N) (node : N) (T' : BinaryTree N) :
    Prop where
  keyBits : t'.keyBits = s.tree.keyBits
  key : ∀ n, (t'.node n).key = (s.tree.node n).key
  laid : Laid (links t') .root T'
  trie : Trie (keyOf s.tree) s.tree.keyBits.toNat 0 T'
  mem_iff : ∀ n, n ∈ inorder T' ↔ ((dups s (s.key n)).erase node).head? = some n
  ring : ∀ k, Ring (nextOf t') (prevOf t') ((dups s k).erase node)
  detached : ∀ n ∈ s.live, n ≠ node → n ∉ inorder T' → Detached t' n
  same : ∀ n, n ∉ s.live → SameLinks s.tree t' n

theorem Removed.sound {t' : CUradixTree N} {node : N} {T' : BinaryTree N} (hs : Sound s T)
    (h : Removed s t' node T') : Sound (s.remove t' node) T' := by
  have hmem : ∀ {m}, m ∈ (s.remove t' node).live → m ≠ node ∧ m ∈ s.live := fun hm ↦
    (mem_remove_live hs.nodup).mp hm
  have hkeyOf : keyOf t' = keyOf s.tree := funext fun n ↦ congrArg BitVec.toNat (h.key n)
  refine ⟨h.keyBits ▸ hs.bits_pos, h.keyBits ▸ hs.bits_le, h.laid, ?_, hs.nodup.erase node,
    fun m hm ↦ ?_, fun m hm ↦ ?_, fun m ↦ ?_, fun k ↦ ?_, fun m hm hmT ↦ ?_⟩
  · change Trie (keyOf t') t'.keyBits.toNat 0 T'
    rw [hkeyOf, h.keyBits]
    exact h.trie
  · exact (h.key m).trans (hs.key_eq m (hmem hm).2)
  · change (s.key m).toNat < 2 ^ t'.keyBits.toNat
    rw [h.keyBits]
    exact hs.bound m (hmem hm).2
  · rw [dups_remove hs.nodup]
    exact h.mem_iff m
  · rw [dups_remove hs.nodup]
    exact h.ring k
  · exact h.detached m (hmem hm).2 (hmem hm).1 hmT

omit [DecidableEq N] in
/-- A node in the tree is at the root of a subtree, which a trie over its keys may replace. -/
theorem Sound.focus (h : Sound s T) {node : N} (hnode : node ∈ inorder T) :
    ∃ c l r, T = plug c (.node node l r) ∧ ∃ d w, d + c.length = s.tree.keyBits.toNat ∧
      Trie (keyOf s.tree) d w (.node node l r) ∧ ∀ t', Trie (keyOf s.tree) d w t' →
        (∀ x ∈ inorder t', ∃ y ∈ inorder (.node node l r), keyOf s.tree x = keyOf s.tree y) →
        Trie (keyOf s.tree) s.tree.keyBits.toNat 0 (plug c t') := by
  obtain ⟨c, l, r, rfl⟩ := exists_plug hnode
  exact ⟨c, l, r, rfl, h.trie.plug (by simp)⟩

theorem dups_erase_of_ne {node : N} {k : BitVec 64} (h : k ≠ s.key node) :
    (dups s k).erase node = dups s k :=
  List.erase_of_not_mem fun hmem ↦ h (mem_dups.mp hmem).2.symm

theorem Sound.ring_erase (h : Sound s T) {t₁ t' : CUradixTree N} {node : N} {l : List N}
    (hrings : SameRings s.tree t₁) (hl : ∀ m ∈ l, m ∈ dups s (s.key node))
    (hring : Ring (nextOf t') (prevOf t') ((dups s (s.key node)).erase node))
    (hother : ∀ m, m ∉ l → nextOf t' m = nextOf t₁ m ∧ prevOf t' m = prevOf t₁ m)
    (k : BitVec 64) : Ring (nextOf t') (prevOf t') ((dups s k).erase node) := by
  by_cases hk : k = s.key node
  · rwa [hk]
  · have hout : ∀ m ∈ dups s k, m ∉ l := fun m hm hmem ↦
      hk ((mem_dups.mp hm).2.symm.trans (mem_dups.mp (hl m hmem)).2)
    rw [dups_erase_of_ne hk]
    exact (hrings.ring (h.ring k)).frame (fun m hm ↦ (hother m (hout m hm)).1)
      fun m hm ↦ (hother m (hout m hm)).2

theorem Sound.remove_only (h : Sound s T) {node : N} {fuel : ℕ}
    (hfuel : s.tree.keyBits.toNat < fuel) (hdups : dups s (s.key node) = [node]) :
    ∃ t' T', radixTreeRemove fuel s.tree node = .ok t' ∧ Removed s t' node T' := by
  have hring := h.ring (s.key node)
  rw [hdups, ring_cons] at hring
  obtain ⟨-, z, hz, -, hself, -⟩ := hring
  obtain rfl := List.mem_singleton.mp hz
  obtain ⟨c, l, r, rfl, d, w, hd, htrie, hrepl⟩ := h.focus (h.head_mem hdups)
  have hnodup := h.trie.nodup
  obtain ⟨t', hrun, hrel⟩ := radixTreeRemove_pull fuel h.laid hnodup hself
    (htrie.height_le.trans (by omega))
  have hsub : ∀ {m}, m ∈ inorder (plug c (pull (.node z l r))) ↔
      m ≠ z ∧ m ∈ inorder (plug c (.node z l r)) := by
    intro m
    have hperm := (inorder_plug_perm c (.node z l r)).trans
      ((pull_perm (t := .node z l r) rfl).append_right (around c))
    have hz : z ∉ inorder (pull (.node z l r)) ++ around c :=
      (List.nodup_cons.mp (hperm.nodup_iff.mp hnodup)).1
    rw [(inorder_plug_perm c _).mem_iff, hperm.mem_iff, List.cons_append, List.mem_cons]
    constructor
    · intro hm
      refine ⟨?_, .inr hm⟩
      rintro rfl
      exact hz hm
    · rintro ⟨hmz, hm⟩
      exact hm.resolve_left hmz
  refine ⟨t', plug c (pull (.node z l r)), hrun, hrel.rings.keyBits, hrel.rings.key, hrel.laid,
    hrepl _ htrie.pull fun x hx ↦ ⟨x, ?_, rfl⟩, fun m ↦ ?_, fun k ↦ ?_, fun m hm hmz hmT ↦ ?_,
    fun m hm ↦ ?_⟩
  · rw [(pull_perm (t := .node z l r) rfl).mem_iff]
    exact List.mem_cons_of_mem z hx
  · rw [hsub, h.mem_iff]
    by_cases hk : s.key m = s.key z
    · rw [hk, hdups, List.erase_cons_head]
      simpa using fun hmz heq ↦ hmz heq.symm
    · have hmz : m ≠ z := fun heq ↦ hk (congrArg s.key heq)
      rw [dups_erase_of_ne hk]
      exact and_iff_right hmz
  · by_cases hk : k = s.key z
    · rw [hk, hdups, List.erase_cons_head]
      exact List.isChain_nil
    · rw [dups_erase_of_ne hk]
      exact hrel.rings.ring (h.ring k)
  · refine hrel.detached (h.detached m hm fun hmem ↦ hmT (hsub.mpr ⟨hmz, hmem⟩)) hmT hmz
  · have hz := h.live_of_mem (h.head_mem hdups)
    exact .of_node (hrel.same m (fun hmem ↦ hm (h.live_of_mem (hsub.mp hmem).2)) fun heq ↦
      hm (heq ▸ hz))

theorem radixListEmpty_eq_false {t : CUradixTree N} {node b : N}
    (h : (t.node node).next = some b) (hne : node ≠ b) : radixListEmpty t node = false := by
  rw [radixListEmpty, h]
  exact decide_eq_false fun heq ↦ hne (Option.some.inj heq).symm

/-- The next node with the same key takes the place of a node in the tree. -/
theorem Sound.remove_primary (h : Sound s T) {node b : N} {r : List N} {fuel : ℕ}
    (hfuel : 0 < fuel) (hdups : dups s (s.key node) = node :: b :: r) :
    ∃ t' T', radixTreeRemove fuel s.tree node = .ok t' ∧ Removed s t' node T' := by
  obtain ⟨fuel, rfl⟩ := Nat.exists_eq_succ_of_ne_zero hfuel.ne'
  have hnode := h.head_mem hdups
  have hb := h.tail_not_mem hdups List.mem_cons_self
  obtain ⟨hblive, hbkey⟩ := mem_dups.mp
    (hdups ▸ List.mem_cons_of_mem node List.mem_cons_self : b ∈ dups s (s.key node))
  have hring := h.ring (s.key node)
  have hnd := h.dups_nodup (s.key node)
  rw [hdups] at hring hnd
  have hnext : (s.tree.node node).next = some b :=
    (List.isChain_cons_cons.mp (ring_cons.mp hring).1).1.1
  have hne : node ≠ b := fun heq ↦ hb (heq ▸ hnode)
  obtain ⟨c, l, r', rfl, d, w, -, htrie, hrepl⟩ := h.focus hnode
  have hptr : (s.tree.node node).parentToSelfPtr = some (hole c) := (laid_plug.mp h.laid).2.2.1.1
  obtain ⟨t₁, hrun₁, hrel⟩ := radixTreeReplaceNode_relinked h.laid h.trie.nodup hb
    (h.detached b hblive hb)
  have hout := (nodup_plug_node h.trie.nodup hb).2
  set t₂ := t₁.setParentToSelfPtr node none with ht₂
  have hrings : SameRings s.tree t₂ := hrel.rings.trans (.setParentToSelfPtr _ _)
  obtain ⟨t', hrun, hsame, hnew, hother⟩ := radixListRemove_ring (hrings.ring hring) hnd
  have hheld : ∀ m, m ≠ node → t₂.node m = t₁.node m := fun m hm ↦
    node_setParentToSelfPtr_of_ne _ _ hm
  have hlaid : Laid (links t₂) .root (plug c (.node b l r')) :=
    laid_setParentToSelfPtr hrel.laid hout none
  have hmem : ∀ {m}, m ∈ inorder (plug c (.node b l r')) ↔
      m = b ∨ m ≠ node ∧ m ∈ inorder (plug c (.node node l r')) := mem_plug_replace h.trie.nodup
  refine ⟨t', plug c (.node b l r'), ?_, hsame.keyBits.trans hrings.keyBits,
    fun m ↦ (hsame.key m).trans (hrings.key m), hsame.links_eq ▸ hlaid, ?_, fun m ↦ ?_,
    fun k ↦ ?_, fun m hm hmn hmT ↦ ?_, fun m hm ↦ ?_⟩
  · rw [radixTreeRemove, radixListEmpty_eq_false hnext hne, if_neg Bool.false_ne_true, hptr,
      if_neg (Option.some_ne_none _), hnext, deref_some, ok_bind, hrun₁, ok_bind, hrun]
  · have hkey : keyOf s.tree b = keyOf s.tree node := by
      rw [h.keyOf_eq hblive, h.keyOf_eq (h.live_of_mem hnode), hbkey]
    refine hrepl _ (htrie.relabel hkey) fun x hx ↦ ?_
    rw [inorder_node, List.mem_append, List.mem_cons] at hx
    rcases hx with hx | rfl | hx
    · exact ⟨x, by simp [hx], rfl⟩
    · exact ⟨node, by simp, hkey⟩
    · exact ⟨x, by simp [hx], rfl⟩
  · rw [hmem, h.mem_iff]
    by_cases hk : s.key m = s.key node
    · rw [hk, hdups, List.erase_cons_head, List.head?_cons, List.head?_cons, Option.some_inj,
        Option.some_inj]
      constructor
      · rintro (rfl | ⟨hmn, heq⟩)
        · rfl
        · exact absurd heq.symm hmn
      · exact fun heq ↦ .inl heq.symm
    · have hmn : m ≠ node := fun heq ↦ hk (congrArg s.key heq)
      have hmb : m ≠ b := fun heq ↦ hk ((congrArg s.key heq).trans hbkey)
      rw [dups_erase_of_ne hk]
      exact (or_iff_right hmb).trans (and_iff_right hmn)
  · refine h.ring_erase hrings (fun m hm ↦ hdups ▸ List.mem_cons_of_mem node hm) ?_ hother k
    rw [hdups, List.erase_cons_head]
    exact hnew
  · have hmb : m ≠ b := fun heq ↦ hmT (hmem.mpr (.inl heq))
    have hmT' : m ∉ inorder (plug c (.node node l r')) := fun hmem' ↦
      hmT (hmem.mpr (.inr ⟨hmn, hmem'⟩))
    have hd := hrel.detached (h.detached m hm hmT') hmT hmb
    have hsame₂ := hheld m hmn
    exact hsame.detached ⟨hsame₂ ▸ hd.child, hsame₂ ▸ hd.ptr, hsame₂ ▸ hd.parent⟩
  · have hmn : m ≠ node := fun heq ↦ hm (heq ▸ h.live_of_mem hnode)
    have hmb : m ≠ b := fun heq ↦ hm (heq ▸ hblive)
    have hmT : m ∉ inorder (plug c (.node b l r')) := fun hmem' ↦
      (hmem.mp hmem').elim hmb fun hmem' ↦ hm (h.live_of_mem hmem'.2)
    have hsame₂ := (hheld m hmn).trans (hrel.same m hmT hmb)
    exact (SameLinks.of_node hsame₂).trans (hsame.sameLinks m)

theorem Sound.remove_other (h : Sound s T) {node a : N} {l₁ l₂ : List N} {fuel : ℕ}
    (hfuel : 0 < fuel) (hdups : dups s (s.key node) = a :: l₁ ++ node :: l₂) :
    ∃ t' T', radixTreeRemove fuel s.tree node = .ok t' ∧ Removed s t' node T' := by
  obtain ⟨fuel, rfl⟩ := Nat.exists_eq_succ_of_ne_zero hfuel.ne'
  have hnode : node ∉ inorder T := h.tail_not_mem hdups (by simp)
  have hlive : node ∈ s.live :=
    (mem_dups.mp (hdups ▸ by simp : node ∈ dups s (s.key node))).1
  have hnd := h.dups_nodup (s.key node)
  have hring := h.ring (s.key node)
  rw [hdups] at hring hnd
  have hrot := hring.append_comm
  have hndrot : (node :: l₂ ++ a :: l₁).Nodup := (List.perm_append_comm.nodup_iff).mp hnd
  obtain ⟨b, r, hbr⟩ := List.exists_cons_of_ne_nil (by simp : l₂ ++ a :: l₁ ≠ [])
  rw [List.cons_append, hbr] at hrot hndrot
  have hnext : (s.tree.node node).next = some b :=
    (List.isChain_cons_cons.mp (ring_cons.mp hrot).1).1.1
  have hne : node ≠ b := fun heq ↦ (List.nodup_cons.mp hndrot).1 (heq ▸ List.mem_cons_self)
  obtain ⟨t', hrun, hsame, hnew, hother⟩ := radixListRemove_ring hrot hndrot
  have herase : (a :: l₁ ++ node :: l₂).erase node = a :: l₁ ++ l₂ := by
    have hnot : node ∉ a :: l₁ := fun hmem ↦
      (List.nodup_append'.mp hnd).2.2 hmem List.mem_cons_self
    rw [List.erase_append_right _ hnot, List.erase_cons_head]
  rw [← hbr] at hnew
  refine ⟨t', T, ?_, hsame.keyBits, hsame.key, hsame.links_eq ▸ h.laid, h.trie, fun m ↦ ?_,
    fun k ↦ ?_, fun m hm hmn hmT ↦ hsame.detached (h.detached m hm hmT),
    fun m _ ↦ hsame.sameLinks m⟩
  · rw [radixTreeRemove, radixListEmpty_eq_false hnext hne, if_neg Bool.false_ne_true,
      (h.detached node hlive hnode).ptr, if_pos rfl, hrun]
  · rw [h.mem_iff]
    by_cases hk : s.key m = s.key node
    · rw [hk, hdups, herase]
      rfl
    · rw [dups_erase_of_ne hk]
  · refine h.ring_erase (.refl s.tree) (fun m hm ↦ ?_) ?_ hother k
    · rw [← hbr, List.mem_append] at hm
      rw [hdups, List.mem_append, List.mem_cons (a := m) (b := node)]
      exact hm.elim (fun hm ↦ .inr (.inr hm)) .inl
    · rw [hdups, herase]
      exact hnew.append_comm

theorem radixTreeRemove_sound (h : Sound s T) {node : N} (hnode : node ∈ s.live) {fuel : ℕ}
    (hfuel : s.tree.keyBits.toNat < fuel) :
    ∃ t' T', radixTreeRemove fuel s.tree node = .ok t' ∧ Sound (s.remove t' node) T' ∧
      t'.keyBits = s.tree.keyBits ∧ ∀ m, m ∉ s.live → SameLinks s.tree t' m := by
  have hpos : 0 < fuel := Nat.zero_lt_of_lt hfuel
  suffices hrem : ∃ t' T', radixTreeRemove fuel s.tree node = .ok t' ∧ Removed s t' node T' by
    obtain ⟨t', T', hrun, hrem⟩ := hrem
    exact ⟨t', T', hrun, hrem.sound h, hrem.keyBits, hrem.same⟩
  have hmem : node ∈ dups s (s.key node) := mem_dups.mpr ⟨hnode, rfl⟩
  obtain ⟨l₁, l₂, hdups⟩ := List.append_of_mem hmem
  cases l₁ with
  | nil =>
    cases l₂ with
    | nil => exact h.remove_only hfuel hdups
    | cons b r => exact h.remove_primary hpos hdups
  | cons a l₁ => exact h.remove_other hpos hdups

end RadixBench.Radix
