import RadixBench.Art.Invariant

namespace RadixBench.Art

open Foundation

variable {V : Type} {path w r p u s key : List (BitVec 8)} {children : Children (ArtNode V)}
  {c : BitVec 8} {fuel : ℕ}

theorem leafMatches_iff {l : ArtLeaf V} : leafMatches l key = true ↔ l.key = key := by
  rw [leafMatches, Bool.and_eq_true, beq_iff_eq, beq_iff_eq]
  exact ⟨And.right, fun h ↦ ⟨congrArg _ h, h⟩⟩

theorem readByte_snoc {i : ℕ} (h : p ++ [c] <+: key) (hi : i = p.length) :
    readByte key i = .ok c := by
  obtain ⟨s, rfl⟩ := h
  rw [readByte, hi, List.append_assoc, List.getElem?_append_right (Nat.le_refl _), Nat.sub_self]
  rfl

theorem readByte_end {i : ℕ} (h : key.length ≤ i) : readByte key i = .error .indexOutOfRange := by
  rw [readByte, List.getElem?_eq_none h]

theorem take_min_length (n : ℕ) (u : List (BitVec 8)) : u.take (min n u.length) = u.take n := by
  rw [← List.take_take, List.take_length]

theorem readBytes_append {i : ℕ} (h : p ++ u <+: key) (hi : i = p.length) :
    readBytes key i (min maxPrefixLen u.length) = .ok (u.take maxPrefixLen) := by
  obtain ⟨s, rfl⟩ := h
  rw [readBytes, if_pos]
  · rw [hi, List.append_assoc, List.drop_left, List.take_append_of_le_length (by omega),
      take_min_length]
  · simp only [List.length_append]
    omega

theorem readBytes_stored (h : p <+: w) :
    readBytes (ArtHeader.of w).partialBytes 0 (min maxPrefixLen p.length) =
      .ok (p.take maxPrefixLen) := by
  have hread := readBytes_append (p := []) (h.take maxPrefixLen) rfl
  rwa [List.length_take, List.take_take, ← Nat.min_assoc, Nat.min_self] at hread

theorem mismatch_eq {i j idx left : ℕ} (hu : i + idx + left ≤ u.length)
    (hw : j + idx + left ≤ w.length) : mismatch u i w j idx left =
      .ok (idx + agreement ((u.drop (i + idx)).take left) ((w.drop (j + idx)).take left)) := by
  induction left generalizing idx with
  | zero => simp [mismatch]
  | succ left ih =>
    have hi : i + idx < u.length := by omega
    have hj : j + idx < w.length := by omega
    rw [mismatch, readByte, List.getElem?_eq_getElem hi, readByte, List.getElem?_eq_getElem hj,
      List.drop_eq_getElem_cons hi, List.drop_eq_getElem_cons hj, List.take_succ_cons,
      List.take_succ_cons, agreement]
    simp only [ok_bind]
    by_cases heq : u[i + idx] = w[j + idx]
    · rw [if_neg (not_not.mpr heq), if_pos heq, ih (by omega) (by omega)]
      congr 1
      simp only [Nat.add_assoc, Nat.add_comm 1]
    · rw [if_pos heq, if_neg heq]
      rfl

@[simp] theorem partialLen_of (w : List (BitVec 8)) : (ArtHeader.of w).partialLen = w.length := rfl

@[simp] theorem partialBytes_of (w : List (BitVec 8)) :
    (ArtHeader.of w).partialBytes = w.take maxPrefixLen := rfl

theorem checkPrefix_eq (w : List (BitVec 8)) {depth : ℕ} (h : depth ≤ key.length) :
    checkPrefix (.of w) key depth = .ok (agreement (w.take maxPrefixLen) (key.drop depth)) := by
  have hle := agreement_le_left (w.take maxPrefixLen) (key.drop depth)
  have hle' := agreement_le_right (w.take maxPrefixLen) (key.drop depth)
  rw [List.length_take] at hle
  rw [List.length_drop] at hle'
  rw [checkPrefix, partialLen_of, partialBytes_of, mismatch_eq, Nat.zero_add, Nat.zero_add,
    List.drop_zero, Nat.add_zero, agreement_take]
  · congr 1
    omega
  · rw [List.length_take]
    omega
  · omega

theorem checkPrefix_full_iff (w key : List (BitVec 8)) (depth : ℕ) :
    agreement (w.take maxPrefixLen) (key.drop depth) =
      min maxPrefixLen (ArtHeader.of w).partialLen ↔ w.take maxPrefixLen <+: key.drop depth := by
  rw [partialLen_of, ← List.length_take]
  exact agreement_eq_left_iff

/-- The zero behind a key is not compared, nor needed where the keys part. -/
theorem agreement_of_terminated (h : Parts p (terminated u) (terminated w)) :
    agreement u w = p.length := by
  obtain ⟨c, d, hne, hc, hd⟩ := h
  have hu := (prefix_of_terminated hc).length_le
  have hw := (prefix_of_terminated hd).length_le
  have hleft := min_agreement_append u [0] (terminated w)
  have hright := min_agreement_append w [0] u
  rw [← terminated] at hleft hright
  rw [Parts.agreement_eq ⟨c, d, hne, hc, hd⟩, agreement_comm] at hleft
  rw [agreement_comm w u] at hright
  omega

theorem longestCommonPrefix_eq {l₁ l₂ : ArtLeaf V} (h₁ : l₁.key = path ++ u)
    (h₂ : l₂.key = path ++ w) :
    longestCommonPrefix l₁ l₂ path.length = .ok (agreement u w) := by
  have hle := agreement_le_left u w
  have hle' := agreement_le_right u w
  have hmin : min (path ++ u).length (path ++ w).length - path.length =
      min u.length w.length := by
    simp only [List.length_append]
    omega
  rw [longestCommonPrefix, h₁, h₂, hmin, mismatch_eq, Nat.zero_add, Nat.add_zero,
    List.drop_left, List.drop_left, agreement_take]
  · congr 1
    omega
  · simp only [List.length_append]
    omega
  · simp only [List.length_append]
    omega

theorem exists_parts (hvalid : children.Valid) (hfilled : children.Filled)
    (hchildren : ∀ e ∈ children.inorder, Wf (path ++ w ++ [e.1]) e.2) :
    ∃ k v k' v', Has (.inner (.of w) children) k v ∧ Has (.inner (.of w) children) k' v' ∧
      Parts (path ++ w) (terminated k) (terminated k') := by
  have hlen : 2 ≤ children.inorder.length := by
    refine le_trans ?_ hfilled
    cases children <;> simp [Children.least]
  have hnodup := hvalid.nodup
  rcases hl : children.inorder with _ | ⟨e, _ | ⟨e', l⟩⟩
  · simp [hl] at hlen
  · simp [hl] at hlen
  · have he : e ∈ children.inorder := hl ▸ List.mem_cons_self
    have he' : e' ∈ children.inorder := hl ▸ List.mem_cons_of_mem e List.mem_cons_self
    obtain ⟨k, v, hk⟩ := (hchildren e he).exists_has
    obtain ⟨k', v', hk'⟩ := (hchildren e' he').exists_has
    rw [hl] at hnodup
    have hne : e.1 ≠ e'.1 := by
      rintro heq
      exact (List.nodup_cons.mp hnodup).1 (heq ▸ List.mem_cons_self)
    exact ⟨k, v, k', v', .inner he hk, .inner he' hk', e.1, e'.1, hne,
      prefix_of_child hchildren he hk, prefix_of_child hchildren he' hk'⟩

/-- `prefix_mismatch` counts the whole agreement with the compressed path, for what the node does
not store with the help of a leaf. The count may run past the path. -/
theorem prefixMismatch_spec (hn : Wf path (.inner (.of w) children))
    (hpre : ∀ k v, Has (.inner (.of w) children) k v → path ++ w <+: k)
    (hshort : Shorter (.inner (.of w) children) (path.length + fuel))
    (hkey : path.length ≤ key.length) :
    ∃ m, prefixMismatch fuel (.of w) children key path.length = .ok m ∧
      min m w.length = agreement w (key.drop path.length) := by
  obtain ⟨r, hr⟩ : ∃ r, key.drop path.length = r := ⟨_, rfl⟩
  have hlen : key.length - path.length = r.length := by rw [← hr, List.length_drop]
  have hle := agreement_le_left w r
  have hle' := agreement_le_right w r
  have hw : (ArtHeader.of w).partialLen = w.length := rfl
  have hfirst : mismatch (ArtHeader.of w).partialBytes 0 key path.length 0
      (min (min maxPrefixLen (ArtHeader.of w).partialLen) r.length) =
        .ok (min maxPrefixLen (agreement w r)) := by
    rw [partialLen_of, partialBytes_of, mismatch_eq, Nat.zero_add, Nat.zero_add, List.drop_zero,
      Nat.add_zero, hr, agreement_take, agreement_take_left]
    · congr 1
      omega
    · rw [List.length_take]
      omega
    · omega
  rw [prefixMismatch, hlen, hfirst, ok_bind, hr]
  by_cases hstop : min maxPrefixLen (agreement w r) <
      min (min maxPrefixLen (ArtHeader.of w).partialLen) r.length
  · rw [if_pos hstop]
    exact ⟨_, rfl, by omega⟩
  rw [if_neg hstop]
  by_cases hlong : (ArtHeader.of w).partialLen > maxPrefixLen
  · obtain ⟨l, hmin, hl⟩ := minimum_spec hn hshort
    obtain ⟨s, hs⟩ := hpre _ _ hl
    have hrest : l.key.drop path.length = w ++ s := by rw [← hs, List.append_assoc, List.drop_left]
    have hlen' : l.key.length - path.length = (w ++ s).length := by rw [← hrest, List.length_drop]
    have hge : min maxPrefixLen (agreement w r) ≤ agreement (w ++ s) r := by
      have happ := min_agreement_append w s r
      omega
    have hsum := agreement_drop hge
    have hle₁ := agreement_le_left (w ++ s) r
    have hle₂ := agreement_le_right (w ++ s) r
    refine ⟨agreement (w ++ s) r, ?_, min_agreement_append w s r⟩
    have hpath : path.length ≤ l.key.length := by
      rw [← hs, List.length_append, List.length_append]
      omega
    rw [if_pos hlong, hmin, ok_bind, deref_some, ok_bind, mismatch_eq]
    · rw [← List.drop_drop, ← List.drop_drop, hr, hrest, agreement_take]
      congr 1
      omega
    · omega
    · omega
  · rw [if_neg hlong]
    exact ⟨_, rfl, by omega⟩

end RadixBench.Art
