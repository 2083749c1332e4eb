import RadixBench.Art.Insertion

namespace RadixBench.Art

open Foundation Children

variable {V : Type} {path w key k k' : List (BitVec 8)} {v v' : Option V} {n : ArtNode V}
  {children : Children (ArtNode V)} {c : BitVec 8} {fuel : ℕ}

/-- What a descent for `key` meets at an inner node. Only the first ten bytes of the compressed
path are compared, so that the key may end before it does. -/
inductive Descent (path w key : List (BitVec 8)) (children : Children (ArtNode V)) : Prop
  | differs : ¬ w.take maxPrefixLen <+: key.drop path.length →
      (∀ v, ¬ Has (.inner (.of w) children) key v) → Descent path w key children
  | ends : w.take maxPrefixLen <+: key.drop path.length → key.length ≤ (path ++ w).length →
      Descent path w key children
  | missing {c : BitVec 8} : w.take maxPrefixLen <+: key.drop path.length →
      readByte key (path ++ w).length = .ok c → children.findChild c = none →
      (∀ v, ¬ Has (.inner (.of w) children) key v) → Descent path w key children
  | child {c : BitVec 8} {s : Slot} {l r : List (BitVec 8 × ArtNode V)} {x : ArtNode V} :
      w.take maxPrefixLen <+: key.drop path.length →
      readByte key (path ++ w).length = .ok c → (path ++ w ++ [c]).length ≤ key.length →
      children.findChild c = some s → children.Found c s l x r →
      (∀ v, Has (.inner (.of w) children) key v ↔ Has x key v) → Descent path w key children

theorem descent (hvalid : children.Valid)
    (hchildren : ∀ e ∈ children.inorder, Wf (path ++ w ++ [e.1]) e.2) (key : List (BitVec 8)) :
    Descent path w key children := by
  have hpre : ∀ {v}, Has (.inner (.of w) children) key v →
      ∃ e ∈ children.inorder, path ++ w ++ [e.1] <+: terminated key ∧ Has e.2 key v := by
    intro v hk
    obtain ⟨e, he, hk⟩ := has_inner.mp hk
    exact ⟨e, he, prefix_of_child hchildren he hk, hk⟩
  by_cases hstored : w.take maxPrefixLen <+: key.drop path.length
  swap
  · refine .differs hstored fun v hk ↦ hstored ?_
    obtain ⟨s, rfl⟩ := path_prefix_of_has hchildren hk
    rw [List.append_assoc, List.drop_left]
    exact (List.take_prefix _ _).trans (List.prefix_append _ _)
  rcases Nat.lt_or_ge (path ++ w).length key.length with hlt | hge
  swap
  · exact .ends hstored hge
  have hread : readByte key (path ++ w).length = .ok key[(path ++ w).length] := by
    rw [readByte, List.getElem?_eq_getElem hlt]
  have hbyte : ∀ {e : BitVec 8}, path ++ w ++ [e] <+: terminated key →
      e = key[(path ++ w).length] := by
    intro e he
    refine Except.ok.inj ((readByte_snoc he rfl).symm.trans ?_)
    rw [← hread, readByte, readByte, terminated, List.getElem?_append_left hlt]
  generalize key[(path ++ w).length] = c at hread hbyte
  cases hfind : children.findChild c with
  | none =>
    refine .missing hstored hread hfind fun v hk ↦ ?_
    obtain ⟨⟨d, x⟩, he, hd, -⟩ := hpre hk
    exact findChild_none hvalid hfind x (hbyte hd ▸ he)
  | some s =>
    obtain ⟨l, x, r, hfound⟩ := findChild_some hvalid hfind
    refine .child hstored hread ?_ hfind hfound fun v ↦ ⟨fun hk ↦ ?_, fun hk ↦ .inner hfound.mem hk⟩
    · rw [List.length_append, List.length_singleton]
      exact hlt
    · obtain ⟨⟨d, y⟩, he, hd, hk⟩ := hpre hk
      obtain rfl := hbyte hd
      rwa [value_unique hvalid.nodup hfound.mem he]

section Guard

variable {α : Type} {stop go : Exec α}

theorem guard_passed (hpath : path.length ≤ key.length)
    (h : w.take maxPrefixLen <+: key.drop path.length) :
    (if (ArtHeader.of w).partialLen ≠ 0 then
      checkPrefix (.of w) key path.length >>= fun prefixLen ↦
        if prefixLen ≠ min maxPrefixLen (ArtHeader.of w).partialLen then stop else go
    else go) = go := by
  split_ifs with hzero
  · rw [checkPrefix_eq w hpath, ok_bind, if_neg (not_not.mpr ((checkPrefix_full_iff _ _ _).mpr h))]
  · rfl

theorem guard_stopped (hpath : path.length ≤ key.length)
    (h : ¬ w.take maxPrefixLen <+: key.drop path.length) :
    (if (ArtHeader.of w).partialLen ≠ 0 then
      checkPrefix (.of w) key path.length >>= fun prefixLen ↦
        if prefixLen ≠ min maxPrefixLen (ArtHeader.of w).partialLen then stop else go
    else go) = stop := by
  have hzero : (ArtHeader.of w).partialLen ≠ 0 := by
    intro hzero
    refine h ?_
    rw [List.length_eq_zero_iff.mp hzero, List.take_nil]
    exact List.nil_prefix
  rw [if_pos hzero, checkPrefix_eq w hpath, ok_bind, if_pos (mt (checkPrefix_full_iff _ _ _).mp h)]

end Guard

theorem artSearchFrom_passed (hpath : path.length ≤ key.length)
    (h : w.take maxPrefixLen <+: key.drop path.length) (children : Children (ArtNode V))
    (fuel : ℕ) : artSearchFrom (fuel + 1) (some (.inner (.of w) children)) key path.length =
      readByte key (path ++ w).length >>= fun c ↦
        artSearchFrom fuel ((children.findChild c).bind children.child) key
          ((path ++ w).length + 1) := by
  have hdepth : path.length + (ArtHeader.of w).partialLen = (path ++ w).length :=
    List.length_append.symm
  rw [artSearchFrom]
  refine (guard_passed hpath h).trans ?_
  rw [hdepth]

def Overrun (n : ArtNode V) (key : List (BitVec 8)) : Prop :=
  ∃ k v k' v' p, Has n k v ∧ Has n k' v' ∧ Parts p (terminated k) (terminated k') ∧
    key.length ≤ p.length

theorem Overrun.inner {h : ArtHeader} {e : BitVec 8 × ArtNode V} (he : e ∈ children.inorder)
    (hover : Overrun e.2 key) : Overrun (.inner h children) key := by
  obtain ⟨k, v, k', v', p, hk, hk', hparts, hlen⟩ := hover
  exact ⟨k, v, k', v', p, .inner he hk, .inner he hk', hparts, hlen⟩

theorem ForksBelow.inner {h : ArtHeader} {e : BitVec 8 × ArtNode V} (he : e ∈ children.inorder)
    (hforks : ForksBelow e.2 key) : ForksBelow (.inner h children) key := by
  obtain ⟨k, v, k', v', hk, hk', hne, hpre⟩ := hforks
  exact ⟨k, v, k', v', .inner he hk, .inner he hk', hne, hpre⟩

inductive SearchOutcome (n : ArtNode V) (key : List (BitVec 8)) : Exec (Option V) → Prop
  | found {v : Option V} : Has n key v → ¬ ForksBelow n key → SearchOutcome n key (.ok v)
  | missing : (∀ v, ¬ Has n key v) → SearchOutcome n key (.ok none)
  | overrun : (∀ v, Has n key v → ForksBelow n key) → Overrun n key →
      SearchOutcome n key (.error .indexOutOfRange)

section Ends

variable (hvalid : children.Valid) (hfilled : children.Filled)
  (hchildren : ∀ e ∈ children.inorder, Wf (path ++ w ++ [e.1]) e.2)

include hvalid hchildren in
theorem not_forksBelow_inner {x : ArtNode V} (hx : (c, x) ∈ children.inorder)
    (hlen : (path ++ w ++ [c]).length ≤ key.length) (hk : Has x key v)
    (hone : ¬ ForksBelow x key) : ¬ ForksBelow (.inner (.of w) children) key := by
  have hkey := prefix_of_child hchildren hx hk
  exact mt (forksBelow_child hvalid hchildren hx
    (List.prefix_of_prefix_length_le hkey (prefix_terminated key) hlen)).mp hone

include hvalid hfilled hchildren

theorem overrun_of_end (hend : key.length ≤ (path ++ w).length) :
    Overrun (.inner (.of w) children) key := by
  obtain ⟨k, v, k', v', hk, hk', hparts⟩ := exists_parts hvalid hfilled hchildren
  exact ⟨k, v, k', v', _, hk, hk', hparts, hend⟩

theorem forksBelow_of_has (hend : key.length ≤ (path ++ w).length)
    (hk : Has (.inner (.of w) children) key v) : ForksBelow (.inner (.of w) children) key :=
  forksBelow_of_end hvalid hfilled hchildren
    ((path_prefix_of_has hchildren hk).eq_of_length_le hend ▸ List.prefix_rfl)

end Ends

theorem artSearchFrom_outcome (hn : Wf path n) (hpath : path.length ≤ key.length)
    (hfuel : key.length < path.length + fuel) :
    SearchOutcome n key (artSearchFrom fuel (some n) key path.length) := by
  induction hn generalizing fuel with
  | @leaf path l _ =>
    rw [artSearchFrom]
    by_cases hmatch : leafMatches l key = true
    · rw [if_pos hmatch]
      exact .found (leafMatches_iff.mp hmatch ▸ .leaf l) (not_forksBelow_leaf l key)
    · rw [if_neg hmatch]
      refine .missing fun v hk ↦ hmatch (leafMatches_iff.mpr ?_)
      exact (has_leaf.mp hk).1.symm
  | @inner path w children hvalid hfilled hchildren ih =>
    obtain ⟨f, rfl⟩ : ∃ f, fuel = f + 1 := Nat.exists_eq_succ_of_ne_zero (by omega)
    cases descent hvalid hchildren key with
    | differs hstored hnot =>
      rw [artSearchFrom]
      exact (guard_stopped hpath hstored).symm ▸ .missing hnot
    | ends hstored hend =>
      rw [artSearchFrom_passed hpath hstored, readByte_end hend]
      exact .overrun (fun v hk ↦ forksBelow_of_has hvalid hfilled hchildren hend hk)
        (overrun_of_end hvalid hfilled hchildren hend)
    | missing hstored hread hfind hnot =>
      rw [artSearchFrom_passed hpath hstored, hread, ok_bind, hfind, Option.bind_none,
        artSearchFrom]
      exact .missing hnot
    | @child c s l r x hstored hread hlen hfind hfound hiff =>
      have hstep : (path ++ w).length + 1 = (path ++ w ++ [c]).length := by
        simp only [List.length_append, List.length_singleton]
      have hfuel' : key.length < (path ++ w ++ [c]).length + f := by
        rw [List.length_append, List.length_append, List.length_singleton]
        omega
      have hrec := ih (c, x) hfound.mem hlen hfuel'
      rw [artSearchFrom_passed hpath hstored, hread, ok_bind, hfind, Option.bind_some,
        hfound.child_eq, hstep]
      dsimp only at hrec
      generalize artSearchFrom f (some x) key (path ++ w ++ [c]).length = result at hrec
      cases hrec with
      | found hk hone =>
        exact .found (.inner hfound.mem hk)
          (not_forksBelow_inner hvalid hchildren hfound.mem hlen hk hone)
      | missing hnot => exact .missing fun v hk ↦ hnot v ((hiff v).mp hk)
      | overrun hforks hover =>
        exact .overrun (fun v hk ↦ (hforks v ((hiff v).mp hk)).inner hfound.mem)
          (hover.inner hfound.mem)

end RadixBench.Art
