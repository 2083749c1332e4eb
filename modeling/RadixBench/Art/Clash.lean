import RadixBench.Art.Refinement

namespace RadixBench.Art

open Foundation Children Function

variable {V : Type} {arch : Arch} {path w u k key rest : List (BitVec 8)} {v value : Option V}
  {n x y : ArtNode V} {children : Children (ArtNode V)} {c : BitVec 8} {fuel : ℕ}

/-- Below this node the longer of two keys is not found, and a search for the shorter one reads
behind its end. -/
structure Hides (path : List (BitVec 8)) (n : ArtNode V) (k key : List (BitVec 8)) : Prop where
  longer : ∀ fuel, key.length < path.length + fuel →
    artSearchFrom fuel (some n) key path.length = .ok none
  shorter : ∀ fuel, k.length < path.length + fuel →
    artSearchFrom fuel (some n) k path.length = .error .indexOutOfRange

section Leaf

variable {l : ArtLeaf V}

theorem stored_agree (h : path ++ w <+: key) : w.take maxPrefixLen <+: key.drop path.length := by
  obtain ⟨s, rfl⟩ := h
  rw [List.append_assoc, List.drop_left]
  exact (List.take_prefix _ _).trans (List.prefix_append _ _)

theorem splitLeaf_zero (arch : Arch) (value : Option V) (hl : l.key = path ++ u)
    (rest : List (BitVec 8)) :
    splitLeaf arch l (l.key ++ 0 :: rest) value path.length = .ok (.inner (.of u)
      (.node4 [(0, .leaf l), (0, .leaf (makeLeaf (l.key ++ 0 :: rest) value))])) := by
  have hkey : l.key ++ 0 :: rest = path ++ (u ++ 0 :: rest) := by rw [hl, List.append_assoc]
  have hend : path.length + u.length = l.key.length := by rw [hl, List.length_append]
  have hlcp : longestCommonPrefix l (makeLeaf (l.key ++ 0 :: rest) value) path.length =
      .ok u.length := by
    rw [longestCommonPrefix_eq hl hkey, agreement_prefix_left (List.prefix_append _ _)]
  have hcopy : readBytes (l.key ++ 0 :: rest) path.length (min maxPrefixLen u.length) = _ :=
    readBytes_append (hl ▸ List.prefix_append _ _) rfl
  have hold : readByte l.bytes (path.length + u.length) = .ok 0 :=
    readByte_bytes (p := l.key) List.prefix_rfl hend
  have hnew : readByte (makeLeaf (l.key ++ 0 :: rest) value).bytes (path.length + u.length) =
      .ok 0 := by
    refine readByte_snoc (p := l.key) (List.IsPrefix.trans ?_ (List.prefix_append _ _)) hend
    exact (List.prefix_append_right_inj l.key).mpr (List.prefix_append [0] rest)
  have hfew : [((0 : BitVec 8), ArtNode.leaf l)].length < 4 := show 1 < 4 by decide
  simp only [splitLeaf, hlcp, hcopy, hold, hnew, ok_bind, addChild_empty, addChild_few hfew]
  rfl

theorem find_of_two (c : BitVec 8) (x y : ArtNode V) :
    ((node4 [(c, x), (c, y)]).findChild c).bind (node4 [(c, x), (c, y)]).child = some x := by
  rw [findChild, List.findIdx?_cons, if_pos (beq_self_eq_true c)]
  rfl

theorem splitLeaf_hides (value : Option V) (hl : l.key = path ++ u) (rest : List (BitVec 8)) :
    Hides path (.inner (.of u)
      (.node4 [(0, .leaf l), (0, .leaf (makeLeaf (l.key ++ 0 :: rest) value))])) l.key
      (l.key ++ 0 :: rest) := by
  have hpath : path.length ≤ l.key.length := by
    rw [hl, List.length_append]
    omega
  refine ⟨fun fuel hfuel ↦ ?_, fun fuel hfuel ↦ ?_⟩
  · obtain ⟨f, rfl⟩ : ∃ f, fuel = f + 1 := Nat.exists_eq_succ_of_ne_zero (by
      rw [List.length_append] at hfuel
      omega)
    have hread : readByte (l.key ++ 0 :: rest) (path ++ u).length = .ok 0 :=
      readByte_snoc (p := l.key) ((List.prefix_append_right_inj l.key).mpr
        (List.prefix_append [0] rest)) (by rw [hl])
    have hdiffers : leafMatches l (l.key ++ 0 :: rest) ≠ true := by
      rw [Ne, leafMatches_iff]
      simp
    rw [artSearchFrom_passed (by rw [List.length_append]; omega)
      (stored_agree (hl ▸ List.prefix_append _ _)), hread, ok_bind, find_of_two, artSearchFrom,
      if_neg hdiffers]
  · obtain ⟨f, rfl⟩ : ∃ f, fuel = f + 1 := Nat.exists_eq_succ_of_ne_zero (by omega)
    rw [artSearchFrom_passed hpath (stored_agree (hl ▸ List.prefix_rfl)), readByte_end (by rw [hl])]
    rfl

end Leaf

section Inner

variable (hvalid : children.Valid)

include hvalid

theorem artSearchFrom_child (hx : (c, x) ∈ children.inorder) (hkey : path ++ w ++ [c] <+: key)
    (fuel : ℕ) : artSearchFrom (fuel + 1) (some (.inner (.of w) children)) key path.length =
      artSearchFrom fuel (some x) key (path ++ w ++ [c]).length := by
  have hpre := (List.prefix_append (path ++ w) [c]).trans hkey
  rw [artSearchFrom_passed ((List.prefix_append path w).trans hpre).length_le (stored_agree hpre),
    readByte_snoc hkey rfl, ok_bind]
  cases hfind : children.findChild c with
  | none => exact absurd hx (findChild_none hvalid hfind x)
  | some s =>
    obtain ⟨l, x', r, hfound⟩ := findChild_some hvalid hfind
    obtain rfl := value_unique hvalid.nodup hx hfound.mem
    have hdepth : (path ++ w).length + 1 = (path ++ w ++ [c]).length := by
      simp only [List.length_append, List.length_singleton]
    rw [Option.bind_some, hfound.child_eq, hdepth]

theorem Hides.setChild {s : Slot} {l r : List (BitVec 8 × ArtNode V)}
    (hfound : children.Found c s l x r) (hk : path ++ w ++ [c] <+: k) (hkey : k <+: key)
    (h : Hides (path ++ w ++ [c]) y k key) :
    Hides path (.inner (.of w) (children.setChild s y)) k key := by
  have hmem : (c, y) ∈ (children.setChild s y).inorder :=
    (hfound.mem_setChild y _).mpr (.inr rfl)
  have hvalid' := hfound.valid_setChild hvalid y
  have hlen := hk.length_le
  have hlen' := hkey.length_le
  simp only [List.length_append, List.length_singleton] at hlen
  refine ⟨fun fuel hfuel ↦ ?_, fun fuel hfuel ↦ ?_⟩
  · obtain ⟨f, rfl⟩ : ∃ f, fuel = f + 1 := Nat.exists_eq_succ_of_ne_zero (by omega)
    rw [artSearchFrom_child hvalid' hmem (hk.trans hkey)]
    refine h.longer f ?_
    simp only [List.length_append, List.length_singleton]
    omega
  · obtain ⟨f, rfl⟩ : ∃ f, fuel = f + 1 := Nat.exists_eq_succ_of_ne_zero (by omega)
    rw [artSearchFrom_child hvalid' hmem hk]
    refine h.shorter f ?_
    simp only [List.length_append, List.length_singleton]
    omega

end Inner

theorem recursiveInsert_hides (hn : Wf path n) (hk : Has n k v) (hone : ¬ ForksBelow n k)
    (hpath : path <+: k) (hshort : Shorter n (path.length + fuel)) (arch : Arch)
    (value : Option V) (replace : Bool) (rest : List (BitVec 8)) :
    ∃ n', recursiveInsert arch (k ++ 0 :: rest) value replace fuel (some n) path.length =
      .ok (n', none, false) ∧ Hides path n' k (k ++ 0 :: rest) := by
  induction hn generalizing fuel with
  | @leaf path l _ =>
    obtain ⟨rfl, -⟩ := has_leaf.mp hk
    obtain ⟨u, hu⟩ := hpath
    have hdiffers : leafMatches l (l.key ++ 0 :: rest) ≠ true := by
      rw [Ne, leafMatches_iff]
      simp
    refine ⟨_, ?_, splitLeaf_hides value hu.symm rest⟩
    rw [recursiveInsert, if_neg hdiffers, splitLeaf_zero arch value hu.symm]
    rfl
  | @inner path w children hvalid hfilled hchildren ih =>
    obtain ⟨f, rfl⟩ := Wf.exists_fuel (.inner w hvalid hfilled hchildren) hshort
    obtain ⟨⟨c, x⟩, hx, hk'⟩ := has_inner.mp hk
    have hlt : (path ++ w).length < k.length := by
      by_contra hge
      exact hone (forksBelow_of_has hvalid hfilled hchildren (Nat.not_lt.mp hge) hk)
    have hc : path ++ w ++ [c] <+: k := List.prefix_of_prefix_length_le
      (prefix_of_child hchildren hx hk') (prefix_terminated k) (by
        rw [List.length_append, List.length_singleton]
        exact hlt)
    have hkey := hc.trans (List.prefix_append k (0 :: rest))
    obtain ⟨n', hrun, hhides⟩ := ih (c, x) hx hk'
      (mt (forksBelow_child hvalid hchildren hx hc).mpr hone) hc (hshort.child hx w)
    rw [recursiveInsert_below hvalid hfilled hchildren arch value replace
      ((List.prefix_append _ _).trans hkey) hshort, insertBelow, readByte_snoc hkey rfl, ok_bind]
    cases hfind : children.findChild c with
    | none => exact absurd hx (findChild_none hvalid hfind x)
    | some s =>
      obtain ⟨l, x', r, hfound⟩ := findChild_some hvalid hfind
      obtain rfl := value_unique hvalid.nodup hx hfound.mem
      refine ⟨_, ?_, Hides.setChild hvalid hfound hc (List.prefix_append _ _) hhides⟩
      have hdepth : (path ++ w).length + 1 = (path ++ w ++ [c]).length := by
        simp only [List.length_append, List.length_singleton]
      dsimp only at hrun ⊢
      rw [hfound.child_eq, hdepth, hrun]
      rfl

section Runs

variable {s : ArtState V}

/-- Where a stored key is the only one that starts with itself, a longer key that goes on with a
zero byte is inserted and counted, but a search does not find it, and a search for the stored key
then reads behind its end. -/
theorem artInsert_hides (h : ArtReachable arch s) (hk : s.map k ≠ none) (hone : ¬ Forks s.map k)
    (hfuel : ∀ k, s.map k ≠ none → k.length < fuel) (rest : List (BitVec 8)) (value : Option V) :
    ∃ t, artInsert arch fuel s.tree (k ++ 0 :: rest) value = .ok (t, none) ∧
      t.size = s.tree.size + 1 ∧ artSearch t (k ++ 0 :: rest) = .ok none ∧
      artSearch t k = .error .indexOutOfRange := by
  have hholds := h.sound.holds
  rw [artInsert, insertWith]
  cases hroot : s.tree.root with
  | none =>
    rw [hroot] at hholds
    exact absurd (hholds k) hk
  | some n =>
    rw [hroot] at hholds
    obtain ⟨hwf, hhas⟩ := hholds
    obtain ⟨v, hv⟩ := (stored_iff hhas).mp hk
    have hshort : Shorter n (([] : List (BitVec 8)).length + fuel) := fun k v hk ↦ by
      rw [List.length_nil, Nat.zero_add]
      exact hfuel k ((stored_iff hhas).mpr ⟨v, hk⟩)
    obtain ⟨n', hrun, hhides⟩ := recursiveInsert_hides hwf hv (mt (forksBelow_iff hhas).mp hone)
      List.nil_prefix hshort arch value true rest
    rw [List.length_nil] at hrun
    rw [hrun]
    exact ⟨_, rfl, rfl, hhides.longer _ (by rw [List.length_nil]; omega),
      hhides.shorter _ (by rw [List.length_nil]; omega)⟩

theorem artInsert_hides_pair :
    ∃ t, artInsert .x86 4 (pair .x86).tree [1, 2, 0] none = .ok (t, none) ∧
      t.size = (pair .x86).tree.size + 1 ∧ artSearch t [1, 2, 0] = .ok none ∧
      artSearch t [1, 2] = .error .indexOutOfRange := by
  have hstored : (pair .x86).map [1, 2] ≠ none := by
    rw [pair_stored]
    exact Option.some_ne_none _
  exact artInsert_hides (pair_reachable .x86).reachable hstored
    ((pair_reachable .x86).sound.not_forks rfl)
    (fun k hk ↦ (pair_shorter .x86 k hk).trans (by decide)) [] none

end Runs

end RadixBench.Art
