import RadixBench.Art.Prefixes

namespace RadixBench.Art

open Foundation Children

variable {V : Type} {arch : Arch} {path w p u s key k : List (BitVec 8)} {v value : Option V}
  {n n' x y : ArtNode V} {children : Children (ArtNode V)} {c d : BitVec 8} {fuel : ℕ}

/-- What a node with a further key is, or one in which the value of a key was replaced. -/
structure Inserts (arch : Arch) (path : List (BitVec 8)) (n n' : ArtNode V)
    (key : List (BitVec 8)) (value : Option V) : Prop where
  wf : Wf path n'
  has_iff : ∀ k v, Has n' k v ↔ k = key ∧ v = value ∨ k ≠ key ∧ Has n k v
  ordered : arch.Orders key → (∀ k v, Has n k v → arch.Orders k) → Ordered n → Ordered n'

def ForksBelow (n : ArtNode V) (key : List (BitVec 8)) : Prop :=
  ∃ k v k' v', Has n k v ∧ Has n k' v' ∧ k ≠ k' ∧ key <+: k ∧ key <+: k'

/-- The ways in which an insertion can end: the key is there, or it is added, but not as it should
where it and an old key differ in zeros at the end at most, or a byte behind the end of the key is
read. -/
inductive InsertOutcome (arch : Arch) (path : List (BitVec 8)) (n : ArtNode V)
    (key : List (BitVec 8)) (value : Option V) (replace : Bool) :
    Exec (ArtNode V × Option V × Bool) → Prop
  | found {v : Option V} {n' : ArtNode V} : ¬ ForksBelow n key → Has n key v →
      Inserts arch path n n' key (if replace then value else v) →
      InsertOutcome arch path n key value replace (.ok (n', v, true))
  | added {n' : ArtNode V} : ¬ ForksBelow n key →
      (∀ k v, Has n k v → ¬ Comparable (terminated k) (terminated key)) →
      Inserts arch path n n' key value →
      InsertOutcome arch path n key value replace (.ok (n', none, false))
  | clash {k : List (BitVec 8)} {v : Option V} {n' : ArtNode V} : ¬ ForksBelow n key → Has n k v →
      k ≠ key → Comparable (terminated k) (terminated key) →
      InsertOutcome arch path n key value replace (.ok (n', none, false))
  | overrun : ForksBelow n key → InsertOutcome arch path n key value replace (.error .indexOutOfRange)

section Pair

theorem addChild_few {slots : List (BitVec 8 × ArtNode V)} (h : slots.length < 4) (arch : Arch)
    (c : BitVec 8) (x : ArtNode V) : Children.addChild arch (.node4 slots) c x =
      .ok (.node4 (slots.insertIdx (slots.findIdx fun e ↦ c.ult e.1) (c, x))) := by
  rw [Children.addChild, addChild4, if_pos h]

theorem addChild_empty (arch : Arch) (c : BitVec 8) (x : ArtNode V) :
    Children.addChild arch (.node4 []) c x = .ok (.node4 [(c, x)]) :=
  addChild_few (by simp) arch c x

/-- The new `node4` of a split. Its order does not depend on the machine. -/
theorem addChild_pair (arch : Arch) (hne : d ≠ c) (x y : ArtNode V) :
    ∃ n', Children.addChild arch (.node4 [(c, x)]) d y = .ok n' ∧ n'.Valid ∧ n'.Filled ∧
      n'.Ascending ∧ ∀ e, e ∈ n'.inorder ↔ e = (d, y) ∨ e = (c, x) := by
  have hvalid : (Children.node4 [(c, x)]).Valid :=
    ⟨List.nodup_singleton c, show 1 ≤ 4 by decide, trivial⟩
  have hd : ∀ z, (d, z) ∉ (Children.node4 [(c, x)]).inorder := fun z hz ↦
    hne (Prod.ext_iff.mp (List.mem_singleton.mp hz)).1
  obtain ⟨n', hrun, hgrows⟩ := addChild_grows hvalid hd .portable y
  have hlen : [(c, x)].length < 4 := show 1 < 4 by decide
  rw [addChild_few hlen, ← addChild_few hlen arch] at hrun
  refine ⟨n', hrun, hgrows.valid, hgrows.filled (show 2 ≤ 2 from le_rfl), ?_, fun e ↦ ?_⟩
  · exact hgrows.ascending (fun _ _ ↦ rfl) (List.pairwise_singleton _ c)
  · rw [hgrows.perm.mem_iff, List.mem_cons]
    exact or_congr_right List.mem_singleton

theorem Inserts.of_pair (hx : Wf (path ++ p ++ [c]) x) (hkey : path ++ p ++ [d] <+: terminated key)
    (hne : d ≠ c) (hsame : ∀ k v, Has x k v ↔ Has n k v) (hordered : Ordered n → Ordered x)
    (hvalid : children.Valid) (hfilled : children.Filled) (hasc : children.Ascending)
    (hmem : ∀ e, e ∈ children.inorder ↔ e = (d, .leaf (makeLeaf key value)) ∨ e = (c, x)) :
    Inserts arch path n (.inner (.of p) children) key value := by
  refine ⟨.inner p hvalid hfilled fun e he ↦ ?_, fun k v ↦ ?_, fun _ _ hn ↦ .inner hasc fun e he ↦ ?_⟩
  · rcases (hmem e).mp he with rfl | rfl
    · exact .leaf hkey
    · exact hx
  · rw [has_inner]
    simp only [hmem, or_and_right, exists_or, exists_eq_left]
    rw [has_leaf, hsame]
    refine or_congr_right ⟨fun hk ↦ ⟨?_, hk⟩, And.right⟩
    rintro rfl
    exact hne (snoc_unique hkey (hx.prefix_of_has ((hsame _ _).mpr hk)))
  · rcases (hmem e).mp he with rfl | rfl
    · exact .leaf _
    · exact hordered hn

end Pair

section Leaf

variable {l : ArtLeaf V}

theorem terminated_prefix_bytes (l : ArtLeaf V) : terminated l.key <+: l.bytes :=
  (List.prefix_append_right_inj l.key).mpr (List.prefix_append [0] [0, 0, 0])

theorem readByte_bytes {i : ℕ} (h : p ++ [c] <+: terminated l.key) (hi : i = p.length) :
    readByte l.bytes i = .ok c := by
  exact readByte_snoc (h.trans (terminated_prefix_bytes l)) hi

theorem exists_readByte_bytes {i : ℕ} (h : i < l.key.length + 4) : ∃ c, readByte l.bytes i = .ok c := by
  have hlen : i < l.bytes.length := by rwa [ArtLeaf.bytes, List.length_append, List.length_replicate]
  exact ⟨l.bytes[i], by rw [readByte, List.getElem?_eq_getElem hlen]⟩

theorem splitLeaf_parts (arch : Arch) (value : Option V) (hl : l.key = path ++ u)
    (hkey : key = path ++ w) (hparts : Parts p (terminated u) (terminated w)) :
    ∃ n', splitLeaf arch l key value path.length = .ok n' ∧
      Inserts arch path (.leaf l) n' key value := by
  have hlcp : longestCommonPrefix l (makeLeaf key value) path.length = .ok p.length := by
    rw [longestCommonPrefix_eq hl hkey, agreement_of_terminated hparts]
  obtain ⟨c, d, hne, hc, hd⟩ := hparts.append path
  have hpre : path ++ p <+: key := by
    rw [hkey, List.prefix_append_right_inj]
    obtain ⟨c, d, -, -, hw⟩ := hparts
    exact prefix_of_terminated hw
  rw [terminated, ← List.append_assoc, ← hl] at hc
  rw [terminated, ← List.append_assoc, ← hkey] at hd
  obtain ⟨children, hrun, hvalid, hfilled, hasc, hmem⟩ :=
    addChild_pair arch hne.symm (.leaf l) (.leaf (makeLeaf key value))
  refine ⟨.inner (.of p) children, ?_, ?_⟩
  · have hcopy : readBytes key path.length (min maxPrefixLen p.length) = _ :=
      readBytes_append hpre rfl
    have hlast := readByte_bytes hc (List.length_append ..).symm
    have hnew : readByte (makeLeaf key value).bytes (path.length + p.length) = .ok d :=
      readByte_bytes hd (List.length_append ..).symm
    simp only [splitLeaf, hlcp, hcopy, hlast, ok_bind, addChild_empty]
    rw [hnew, ok_bind, hrun]
    rfl
  · exact .of_pair (.leaf hc) hd hne.symm (fun _ _ ↦ Iff.rfl) id hvalid hfilled hasc hmem

theorem longestCommonPrefix_returns (l₁ l₂ : ArtLeaf V) (depth : ℕ) :
    ∃ m, longestCommonPrefix l₁ l₂ depth = .ok m ∧
      m ≤ min l₁.key.length l₂.key.length - depth := by
  rw [longestCommonPrefix]
  rcases Nat.le_total (min l₁.key.length l₂.key.length) depth with hle | hle
  · rw [Nat.sub_eq_zero_of_le hle]
    exact ⟨0, rfl, le_rfl⟩
  · refine ⟨_, mismatch_eq (by omega) (by omega), ?_⟩
    have hlen := agreement_le_left ((l₁.key.drop (depth + 0)).take (min l₁.key.length l₂.key.length - depth))
      ((l₂.key.drop (depth + 0)).take (min l₁.key.length l₂.key.length - depth))
    rw [List.length_take] at hlen
    omega

/-- A leaf is split whatever the new key is, as the bytes behind a key can be read. -/
theorem splitLeaf_returns (arch : Arch) (value : Option V) {depth : ℕ}
    (hl : depth ≤ l.key.length + 1) (hkey : depth ≤ key.length) :
    ∃ n', splitLeaf arch l key value depth = .ok n' := by
  obtain ⟨m, hm, hle⟩ := longestCommonPrefix_returns l (makeLeaf key value) depth
  rw [show (makeLeaf key value).key = key from rfl] at hle
  have hcopy : readBytes key depth (min maxPrefixLen m) = _ := if_pos (by omega)
  obtain ⟨c, hc⟩ := exists_readByte_bytes (l := l) (i := depth + m) (by omega)
  obtain ⟨d, hd⟩ : ∃ d, readByte (makeLeaf key value).bytes (depth + m) = .ok d :=
    exists_readByte_bytes (show depth + m < key.length + 4 by omega)
  have hfew : [(c, ArtNode.leaf l)].length < 4 := show 1 < 4 by decide
  simp only [splitLeaf, hm, ok_bind, hcopy, hc, addChild_empty, hd, addChild_few hfew]
  exact ⟨_, rfl⟩

theorem not_forksBelow_leaf (l : ArtLeaf V) (key : List (BitVec 8)) : ¬ ForksBelow (.leaf l) key := by
  rintro ⟨k, v, k', v', hk, hk', hne, -⟩
  exact hne ((has_leaf.mp hk).1.trans (has_leaf.mp hk').1.symm)

theorem insert_leaf (hl : path <+: terminated l.key) (hkey : path <+: key) (replace : Bool) :
    InsertOutcome arch path (.leaf l) key value replace
      (recursiveInsert arch key value replace fuel (some (.leaf l)) path.length) := by
  rw [recursiveInsert]
  by_cases hmatch : leafMatches l key = true
  · obtain rfl := leafMatches_iff.mp hmatch
    rw [if_pos hmatch]
    refine .found (not_forksBelow_leaf l _) (.leaf l) ⟨.leaf ?_, fun k v ↦ ?_, fun _ _ _ ↦ .leaf _⟩
    · cases replace <;> exact hl
    · rw [has_leaf, has_leaf]
      cases replace
      · simp
      · simp
        tauto
  · have hne : l.key ≠ key := fun h ↦ hmatch (leafMatches_iff.mpr h)
    rw [if_neg hmatch]
    by_cases hcomp : Comparable (terminated l.key) (terminated key)
    · have hlen := hl.length_le
      rw [length_terminated] at hlen
      obtain ⟨n', hrun⟩ := splitLeaf_returns arch value hlen hkey.length_le
      rw [hrun]
      exact .clash (not_forksBelow_leaf l key) (.leaf l) hne hcomp
    · obtain ⟨p, hparts⟩ := (comparable_or_parts _ _).resolve_left hcomp
      have hle := hparts.length_le_of_common hl (hkey.trans (prefix_terminated key))
      obtain ⟨w, rfl⟩ := hkey
      obtain ⟨u, hu⟩ : path <+: l.key := by
        obtain ⟨c, -, -, hc, -⟩ := hparts
        exact List.prefix_of_prefix_length_le hl (prefix_terminated _)
          (hle.trans (prefix_of_terminated hc).length_le)
      obtain ⟨p', hp'⟩ := (comparable_or_parts (terminated u) (terminated w)).resolve_left fun h ↦
        hcomp (by
          rw [terminated, terminated, ← hu, List.append_assoc, List.append_assoc]
          exact (comparable_append_iff path).mpr h)
      obtain ⟨n', hrun, hins⟩ := splitLeaf_parts arch value hu.symm rfl hp'
      rw [hrun, ok_bind]
      refine .added (not_forksBelow_leaf l _) (fun k v hk ↦ ?_) hins
      obtain ⟨rfl, -⟩ := has_leaf.mp hk
      exact hparts.not_comparable

end Leaf

section Inner

variable (hvalid : children.Valid) (hfilled : children.Filled)
  (hchildren : ∀ e ∈ children.inorder, Wf (path ++ w ++ [e.1]) e.2)

include hvalid hfilled hchildren in
theorem cutPrefix_spec (hw : w = p ++ c :: s)
    (hshort : Shorter (.inner (.of w) children) (path.length + fuel)) :
    cutPrefix fuel (.of w) children path.length p.length = .ok (c, .of s) := by
  have hn : Wf path (.inner (.of w) children) := .inner w hvalid hfilled hchildren
  have hlen : (ArtHeader.of w).partialLen - (p.length + 1) = s.length := by
    rw [partialLen_of, hw, List.length_append, List.length_cons]
    omega
  rw [cutPrefix, hlen]
  split_ifs with hle
  · have hstored : (ArtHeader.of w).partialBytes = w := List.take_of_length_le hle
    have hcons : w = p ++ [c] ++ s := hw.trans (List.append_cons ..)
    have hbyte : readByte w p.length = .ok c :=
      readByte_snoc ⟨s, hcons.symm⟩ rfl
    have hrest : readBytes w (p.length + 1) (min maxPrefixLen s.length) = _ :=
      readBytes_append (p := p ++ [c]) (hcons.symm ▸ List.prefix_rfl) (by simp)
    rw [hstored, hbyte, ok_bind, hrest]
    rfl
  · obtain ⟨l, hmin, hl⟩ := minimum_spec hn hshort
    have hpre := path_prefix_of_has hchildren hl
    rw [hw, List.append_cons, ← List.append_assoc, ← List.append_assoc] at hpre
    replace hpre := hpre.trans (List.prefix_append l.key (List.replicate 4 0))
    have hbyte : readByte l.bytes (path.length + p.length) = .ok c :=
      readByte_snoc ((List.prefix_append _ _).trans hpre) (List.length_append ..).symm
    have hrest : readBytes l.bytes (path.length + p.length + 1) (min maxPrefixLen s.length) = _ :=
      readBytes_append hpre (by simp [Nat.add_assoc])
    rw [hmin, ok_bind, deref_some, ok_bind, hbyte, ok_bind, hrest]
    rfl

include hvalid hfilled hchildren in
theorem splitPrefix_parts (arch : Arch) (value : Option V) (hkey : key = path ++ u)
    (hparts : Parts p w u) (hshort : Shorter (.inner (.of w) children) (path.length + fuel)) :
    ∃ n', splitPrefix arch fuel (.of w) children key value path.length p.length = .ok n' ∧
      Inserts arch path (.inner (.of w) children) n' key value := by
  obtain ⟨c, d, s, t, hne, hw, hu⟩ := hparts.cons_decomposition
  have hcut := cutPrefix_spec hvalid hfilled hchildren hw hshort
  have hd : path ++ p ++ [d] <+: key := by
    rw [hkey, hu, List.append_assoc, List.prefix_append_right_inj]
    exact ⟨t, (List.append_cons ..).symm⟩
  have hcopy := readBytes_stored hparts.left
  have hnew : readByte key (path.length + p.length) = .ok d :=
    readByte_snoc hd (List.length_append ..).symm
  have hx : Wf (path ++ p ++ [c]) (.inner (.of s) children) := by
    refine .inner s hvalid hfilled fun e he ↦ ?_
    have hpath : path ++ p ++ [c] ++ s = path ++ w := by simp [hw]
    rw [hpath]
    exact hchildren e he
  obtain ⟨slots, hrun, hvalid', hfilled', hasc, hmem⟩ :=
    addChild_pair arch hne.symm (.inner (.of s) children) (.leaf (makeLeaf key value))
  refine ⟨.inner (.of p) slots, ?_, ?_⟩
  · simp only [splitPrefix, hcopy, hcut, ok_bind, addChild_empty, hnew, hrun]
    rfl
  · refine .of_pair hx (hd.trans (prefix_terminated key)) hne.symm (fun k v ↦ ?_) (fun hn ↦ ?_) hvalid' hfilled' hasc hmem
    · rw [has_inner, has_inner]
    · exact .inner hn.inner_inv.1 hn.inner_inv.2

include hvalid hfilled hchildren in
theorem splitPrefix_end (arch : Arch) (value : Option V) (hkey : key = path ++ u)
    (hpre : u <+: w) (hlt : u.length < w.length)
    (hshort : Shorter (.inner (.of w) children) (path.length + fuel)) :
    splitPrefix arch fuel (.of w) children key value path.length u.length =
      .error .indexOutOfRange := by
  obtain ⟨c, s, hs⟩ := exists_snoc hpre hlt
  have hcut := cutPrefix_spec hvalid hfilled hchildren (hs.symm.trans (List.append_cons ..).symm)
    hshort
  have hcopy := readBytes_stored hpre
  have hend : readByte key (path.length + u.length) = _ :=
    readByte_end (by rw [hkey, List.length_append])
  simp only [splitPrefix, hcopy, hcut, ok_bind, addChild_empty, hend]
  rfl

include hvalid hfilled hchildren in
theorem Inserts.setChild {sl : Slot} {l r : List (BitVec 8 × ArtNode V)}
    (hfound : children.Found c sl l x r) (hkey : path ++ w ++ [c] <+: terminated key)
    (h : Inserts arch (path ++ w ++ [c]) x y key value) :
    Inserts arch path (.inner (.of w) children) (.inner (.of w) (children.setChild sl y)) key
      value := by
  refine ⟨.setChild hvalid hfilled hchildren hfound h.wf, fun k v ↦ ?_, fun hkey' hkeys hn ↦
    hn.setChild hfound (h.ordered hkey' fun k v hk ↦ hkeys k v (.inner hfound.mem hk))⟩
  rw [has_setChild hfound, has_beside hfound, h.has_iff]
  constructor
  · rintro (⟨e, he, hk⟩ | heq | ⟨hne, hk⟩)
    · exact .inr ⟨ne_of_beside hvalid hchildren hfound hkey he hk, .inl ⟨e, he, hk⟩⟩
    · exact .inl heq
    · exact .inr ⟨hne, .inr hk⟩
  · rintro (heq | ⟨hne, hrest | hk⟩)
    · exact .inr (.inl heq)
    · exact .inl hrest
    · exact .inr (.inr ⟨hne, hk⟩)

include hfilled hchildren in
theorem Inserts.addChild {children' : Children (ArtNode V)}
    (hkey : path ++ w ++ [c] <+: terminated key)
    (hc : ∀ x, (c, x) ∉ children.inorder)
    (h : Grows arch children children' c (.leaf (makeLeaf key value))) :
    Inserts arch path (.inner (.of w) children) (.inner (.of w) children') key value := by
  have hmem : ∀ e, e ∈ children'.inorder ↔
      e = (c, .leaf (makeLeaf key value)) ∨ e ∈ children.inorder := fun e ↦ by
    rw [h.perm.mem_iff, List.mem_cons]
  refine ⟨.inner w h.valid (h.filled (hfilled.trans (Nat.le_succ _))) fun e he ↦ ?_,
    fun k v ↦ ?_, fun hkey' hkeys hn ↦ .inner ?_ fun e he ↦ ?_⟩
  · rcases (hmem e).mp he with rfl | he
    · exact .leaf hkey
    · exact hchildren e he
  · rw [has_inner, has_inner]
    simp only [hmem, or_and_right, exists_or, exists_eq_left]
    rw [has_leaf]
    refine or_congr_right ⟨?_, And.right⟩
    rintro ⟨e, he, hk⟩
    refine ⟨?_, e, he, hk⟩
    rintro rfl
    exact not_has_of_missing (n := .of w) hchildren hc hkey (.inner he hk)
  · refine h.ascending (fun e he ↦ ?_) hn.inner_inv.1
    obtain ⟨k, v, hk⟩ := (hchildren e he).exists_has
    refine hkey'.terminated.less_eq (hkeys k v (.inner he hk)).terminated
      (hkey.subset (by simp)) ?_
    exact (prefix_of_child hchildren he hk).subset (by simp)
  · rcases (hmem e).mp he with rfl | he
    · exact .leaf _
    · exact hn.inner_inv.2 e he

include hvalid hchildren in
theorem forksBelow_child (hx : (c, x) ∈ children.inorder) (hkey : path ++ w ++ [c] <+: key) :
    ForksBelow (.inner (.of w) children) key ↔ ForksBelow x key := by
  have hbelow : ∀ {k v}, key <+: k → (Has (.inner (.of w) children) k v ↔ Has x k v) :=
    fun {k v} hk ↦ has_child hvalid hchildren hx ((hkey.trans hk).trans (prefix_terminated k))
  constructor
  · rintro ⟨k, v, k', v', hk, hk', hne, hpre, hpre'⟩
    exact ⟨k, v, k', v', (hbelow hpre).mp hk, (hbelow hpre').mp hk', hne, hpre, hpre'⟩
  · rintro ⟨k, v, k', v', hk, hk', hne, hpre, hpre'⟩
    exact ⟨k, v, k', v', .inner hx hk, .inner hx hk', hne, hpre, hpre'⟩

include hvalid hfilled hchildren in
theorem forksBelow_of_end (hkey : key <+: path ++ w) : ForksBelow (.inner (.of w) children) key := by
  obtain ⟨k, v, k', v', hk, hk', hparts⟩ := exists_parts hvalid hfilled hchildren
  refine ⟨k, v, k', v', hk, hk', fun heq ↦ hparts.ne (congrArg terminated heq), ?_, ?_⟩
  · exact hkey.trans (path_prefix_of_has hchildren hk)
  · exact hkey.trans (path_prefix_of_has hchildren hk')

include hvalid hfilled hchildren in
theorem insertBelow_outcome {replace : Bool} (hkey : path ++ w <+: key)
    {insert : Option (ArtNode V) → ℕ → Exec (ArtNode V × Option V × Bool)}
    (ih : ∀ e ∈ children.inorder, path ++ w ++ [e.1] <+: key →
      InsertOutcome arch (path ++ w ++ [e.1]) e.2 key value replace
        (insert (some e.2) (path ++ w ++ [e.1]).length)) :
    InsertOutcome arch path (.inner (.of w) children) key value replace
      (insertBelow arch insert (.of w) children key value (path ++ w).length) := by
  rw [insertBelow]
  rcases hkey.length_le.eq_or_lt with hend | hlt
  · rw [readByte_end hend.ge]
    exact .overrun (forksBelow_of_end hvalid hfilled hchildren
      (hkey.eq_of_length hend ▸ List.prefix_rfl))
  · obtain ⟨c, hc⟩ := exists_snoc hkey hlt
    have hc' := hc.trans (prefix_terminated key)
    have hother : ∀ {d : BitVec 8} {y k v}, (d, y) ∈ children.inorder → d ≠ c → Has y k v →
        ¬ Comparable (terminated k) (terminated key) := fun he hne hk ↦
      Parts.not_comparable ⟨_, c, hne, prefix_of_child hchildren he hk, hc'⟩
    rw [readByte_snoc hc rfl, ok_bind]
    cases hfind : children.findChild c with
    | none =>
      have hmissing := findChild_none hvalid hfind
      have hnew : ∀ k v, Has (.inner (.of w) children) k v →
          ¬ Comparable (terminated k) (terminated key) := by
        intro k v hk
        obtain ⟨⟨d, y⟩, he, hk⟩ := has_inner.mp hk
        refine hother he ?_ hk
        rintro rfl
        exact hmissing y he
      obtain ⟨children', hrun, hgrows⟩ :=
        addChild_grows hvalid hmissing arch (.leaf (makeLeaf key value))
      dsimp only
      rw [hrun, ok_bind]
      refine .added ?_ hnew (Inserts.addChild hfilled hchildren hc' hmissing hgrows)
      rintro ⟨k, v, -, -, hk, -, -, hpre, -⟩
      exact not_has_of_missing (n := .of w) hchildren hmissing
        ((hc.trans hpre).trans (prefix_terminated k)) hk
    | some sl =>
      obtain ⟨l, x, r, hfound⟩ := findChild_some hvalid hfind
      have hdepth : (path ++ w).length + 1 = (path ++ w ++ [c]).length := by
        simp only [List.length_append, List.length_singleton]
      have hforks := forksBelow_child hvalid hchildren hfound.mem hc
      dsimp only
      rw [hfound.child_eq, hdepth]
      have hrec := ih (c, x) hfound.mem hc
      dsimp only at hrec
      generalize insert (some x) (path ++ w ++ [c]).length = result at hrec
      cases hrec with
      | found hone hk hins =>
        exact .found (mt hforks.mp hone) (.inner hfound.mem hk)
          (Inserts.setChild hvalid hfilled hchildren hfound hc' hins)
      | added hone hnew hins =>
        refine .added (mt hforks.mp hone) (fun k v hk ↦ ?_)
          (Inserts.setChild hvalid hfilled hchildren hfound hc' hins)
        obtain ⟨⟨d, y⟩, he, hk⟩ := has_inner.mp hk
        by_cases hdc : d = c
        · subst hdc
          obtain rfl := value_unique hvalid.nodup he hfound.mem
          exact hnew k v hk
        · exact hother he hdc hk
      | clash hone hk hne hcomp => exact .clash (mt hforks.mp hone) (.inner hfound.mem hk) hne hcomp
      | overrun hfork => exact .overrun (hforks.mpr hfork)

include hvalid hfilled hchildren in
theorem recursiveInsert_below (arch : Arch) (value : Option V) (replace : Bool)
    (hkey : path ++ w <+: key)
    (hshort : Shorter (.inner (.of w) children) (path.length + (fuel + 1))) :
    recursiveInsert arch key value replace (fuel + 1) (some (.inner (.of w) children)) path.length =
      insertBelow arch (recursiveInsert arch key value replace fuel) (.of w) children key value
        (path ++ w).length := by
  have hdepth : path.length + (ArtHeader.of w).partialLen = (path ++ w).length :=
    List.length_append.symm
  obtain ⟨m, hm, hmin⟩ := prefixMismatch_spec (.inner w hvalid hfilled hchildren)
    (fun k v hk ↦ path_prefix_of_has hchildren hk) hshort
    ((List.prefix_append path w).trans hkey).length_le
  have hrest : w <+: key.drop path.length := by
    have hdrop := hkey.drop path.length
    rwa [List.drop_left] at hdrop
  have hge : ¬ m < (ArtHeader.of w).partialLen := by
    rw [agreement_prefix_left hrest] at hmin
    rw [partialLen_of]
    omega
  rw [recursiveInsert]
  by_cases hzero : (ArtHeader.of w).partialLen = 0
  · rw [if_neg (not_not.mpr hzero), hdepth]
  · rw [if_pos hzero, hm, ok_bind, if_neg hge, hdepth]

include hvalid hfilled hchildren in
theorem recursiveInsert_apart (arch : Arch) (value : Option V) (replace : Bool)
    (hkey : path <+: key) (hapart : ¬ path ++ w <+: key)
    (hshort : Shorter (.inner (.of w) children) (path.length + (fuel + 1))) :
    InsertOutcome arch path (.inner (.of w) children) key value replace
      (recursiveInsert arch key value replace (fuel + 1) (some (.inner (.of w) children))
        path.length) := by
  obtain ⟨u, rfl⟩ := hkey
  rw [List.prefix_append_right_inj] at hapart
  obtain ⟨m, hm, hmin⟩ := prefixMismatch_spec (.inner w hvalid hfilled hchildren)
    (fun k v hk ↦ path_prefix_of_has hchildren hk) hshort (List.prefix_append path u).length_le
  have hlt : agreement w u < (ArtHeader.of w).partialLen :=
    lt_of_le_of_ne (agreement_le_left w u) (mt agreement_eq_left_iff.mp hapart)
  rw [List.drop_left] at hmin
  obtain rfl : m = agreement w u := by
    rw [partialLen_of] at hlt
    omega
  have hzero : (ArtHeader.of w).partialLen ≠ 0 := Nat.ne_of_gt (Nat.zero_lt_of_lt hlt)
  rw [recursiveInsert, if_pos hzero, hm, ok_bind, if_pos hlt]
  rcases comparable_or_parts w u with (hpre | hpre) | ⟨p, hparts⟩
  · exact absurd hpre hapart
  · rw [agreement_prefix_right hpre] at hlt ⊢
    rw [splitPrefix_end hvalid hfilled hchildren arch value rfl hpre hlt hshort]
    exact .overrun (forksBelow_of_end hvalid hfilled hchildren
      ((List.prefix_append_right_inj path).mpr hpre))
  · obtain ⟨n', hrun, hins⟩ :=
      splitPrefix_parts hvalid hfilled hchildren arch value rfl hparts hshort
    have hnew : ∀ k v, Has (.inner (.of w) children) k v → Parts (path ++ p) k (path ++ u) :=
      fun k v hk ↦ (hparts.append path).of_longer (path_prefix_of_has hchildren hk) List.prefix_rfl
    rw [hparts.agreement_eq, hrun, ok_bind]
    refine .added ?_ (fun k v hk ↦ ?_) hins
    · rintro ⟨k, v, -, -, hk, -, -, hpre, -⟩
      exact (hnew k v hk).not_comparable (.inr hpre)
    · exact ((hnew k v hk).of_longer (prefix_terminated k) (prefix_terminated _)).not_comparable

end Inner

/-- The outcome of an insertion, at every node and with fuel for every key. -/
theorem recursiveInsert_outcome (hn : Wf path n) (arch : Arch) (value : Option V) (replace : Bool)
    (hshort : Shorter n (path.length + fuel)) (hkey : path <+: key)
    (hlen : key.length < path.length + fuel) :
    InsertOutcome arch path n key value replace
      (recursiveInsert arch key value replace fuel (some n) path.length) := by
  induction hn generalizing fuel with
  | leaf hl => exact insert_leaf hl hkey replace
  | @inner path w children hvalid hfilled hchildren ih =>
    obtain ⟨f, rfl⟩ := Wf.exists_fuel (.inner w hvalid hfilled hchildren) hshort
    by_cases hbelow : path ++ w <+: key
    · rw [recursiveInsert_below hvalid hfilled hchildren arch value replace hbelow hshort]
      refine insertBelow_outcome hvalid hfilled hchildren hbelow fun e he hkey ↦
        ih e he (hshort.child he w) hkey ?_
      simp only [List.length_append, List.length_singleton]
      omega
    · exact recursiveInsert_apart hvalid hfilled hchildren arch value replace hkey hbelow hshort

end RadixBench.Art
