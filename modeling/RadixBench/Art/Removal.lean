import RadixBench.Art.Search

namespace RadixBench.Art

open Foundation Children

variable {V : Type} {path w u key k : List (BitVec 8)} {v : Option V} {n n' x y : ArtNode V}
  {children : Children (ArtNode V)} {c d : BitVec 8} {s : Slot}
  {l r : List (BitVec 8 × ArtNode V)} {fuel : ℕ}

structure Removes (path : List (BitVec 8)) (n n' : ArtNode V) (key : List (BitVec 8)) : Prop where
  wf : Wf path n'
  has_iff : ∀ k v, Has n' k v ↔ k ≠ key ∧ Has n k v
  ordered : Ordered n → Ordered n'

/-- The ways in which a deletion can end. Only a leaf at the root goes without a replacement. -/
inductive DeleteOutcome (path : List (BitVec 8)) (n : ArtNode V) (key : List (BitVec 8)) :
    Exec (Option (ArtNode V) × Option (ArtLeaf V)) → Prop
  | emptied {l : ArtLeaf V} : n = .leaf l → l.key = key →
      DeleteOutcome path n key (.ok (none, some l))
  | removed {l : ArtLeaf V} {n' : ArtNode V} : Has n key l.value → ¬ ForksBelow n key →
      Removes path n n' key → DeleteOutcome path n key (.ok (some n', some l))
  | missing : (∀ v, ¬ Has n key v) → DeleteOutcome path n key (.ok (some n, none))
  | overrun : (∀ v, Has n key v → ForksBelow n key) → Overrun n key →
      DeleteOutcome path n key (.error .indexOutOfRange)

section Concatenate

theorem readBytes_whole {len : ℕ} (h : len = u.length) : readBytes u 0 len = .ok u := by
  rw [readBytes, if_pos (by omega), h, List.drop_zero, List.take_length]

/-- The stored bytes of the two compressed paths and the byte between them are those of the
path of the child that is left. -/
theorem concatenatePrefixes_eq (w u : List (BitVec 8)) (c : BitVec 8) :
    concatenatePrefixes (.of w) c (.of u) = .ok (.of (w ++ [c] ++ u)) := by
  have hmax : maxPrefixLen = 10 := rfl
  have hw : (ArtHeader.of w).partialLen = w.length := rfl
  have hdone : ∀ {stored : List (BitVec 8)}, stored = (w ++ [c] ++ u).take maxPrefixLen →
      (Except.ok ⟨(ArtHeader.of u).partialLen + ((ArtHeader.of w).partialLen + 1), stored⟩ :
        Exec ArtHeader) = .ok (.of (w ++ [c] ++ u)) := by
    rintro stored rfl
    rw [ArtHeader.of, ArtHeader.of, ArtHeader.of]
    congr 2
    simp only [List.length_append, List.length_singleton]
    omega
  rw [concatenatePrefixes]
  by_cases hshort : (ArtHeader.of w).partialLen < maxPrefixLen
  · have hstored : (ArtHeader.of w).partialBytes.take (ArtHeader.of w).partialLen ++ [c] =
        w ++ [c] := by
      rw [partialBytes_of, hw, List.take_take, Nat.min_eq_left (by omega), List.take_length]
    rw [if_pos hshort, hstored]
    dsimp only
    by_cases hroom : (ArtHeader.of w).partialLen + 1 < maxPrefixLen
    · have hsub : readBytes (ArtHeader.of u).partialBytes 0
          (min (ArtHeader.of u).partialLen (maxPrefixLen - ((ArtHeader.of w).partialLen + 1))) =
            .ok (u.take (maxPrefixLen - (w.length + 1))) := by
        rw [partialBytes_of, partialLen_of, hw, readBytes, if_pos, List.drop_zero, List.take_take]
        · rw [← take_min_length (maxPrefixLen - (w.length + 1))]
          congr 2
          omega
        · rw [List.length_take]
          omega
      have hall : (w ++ [c]).take ((ArtHeader.of w).partialLen + 1) = w ++ [c] :=
        List.take_of_length_le (by rw [List.length_append, List.length_singleton, hw])
      have hlast : readBytes (w ++ [c] ++ u.take (maxPrefixLen - (w.length + 1))) 0
          (min ((ArtHeader.of w).partialLen + 1 + min (ArtHeader.of u).partialLen
            (maxPrefixLen - ((ArtHeader.of w).partialLen + 1))) maxPrefixLen) = _ :=
        readBytes_whole (by
          simp only [List.length_append, List.length_singleton, List.length_take, partialLen_of]
          omega)
      rw [if_pos hroom, hsub]
      simp only [ok_bind, pure_bind]
      rw [hall, hlast]
      refine hdone ?_
      have hwhole : (w ++ [c]).take maxPrefixLen = w ++ [c] :=
        List.take_of_length_le (by rw [List.length_append, List.length_singleton]; omega)
      rw [List.take_append, hwhole, List.length_append, List.length_singleton]
    · have hlast : readBytes (w ++ [c]) 0
          (min ((ArtHeader.of w).partialLen + 1) maxPrefixLen) = _ :=
        readBytes_whole (by rw [List.length_append, List.length_singleton]; omega)
      rw [if_neg hroom]
      simp only [pure_bind]
      rw [hlast]
      refine hdone ?_
      rw [List.take_append_of_le_length, List.take_of_length_le]
      · rw [List.length_append, List.length_singleton]
        omega
      · rw [List.length_append, List.length_singleton]
        omega
  · have hlast : readBytes (ArtHeader.of w).partialBytes 0
        (min (ArtHeader.of w).partialLen maxPrefixLen) = _ :=
      readBytes_whole (by rw [partialBytes_of, List.length_take]; omega)
    rw [if_neg hshort]
    dsimp only
    rw [if_neg hshort]
    simp only [pure_bind]
    rw [hlast]
    refine hdone ?_
    rw [partialBytes_of, List.append_assoc, List.take_append_of_le_length]
    omega

end Concatenate

theorem Removes.of_rest {n' : Children (ArtNode V)} (hvalid : children.Valid)
    (hchildren : ∀ e ∈ children.inorder, Wf (path ++ w ++ [e.1]) e.2)
    (hfound : children.Found c s l x r) (hx : ∀ k v, Has x k v → k = key)
    (hkey : path ++ w ++ [c] <+: terminated key) (h : Shrinks n' l r) :
    Removes path (.inner (.of w) children) (.inner (.of w) n') key := by
  have hold := hfound.mem_iff
  have hnew : ∀ e, e ∈ n'.inorder ↔ e ∈ l ∨ e ∈ r := fun e ↦ by
    rw [h.inorder_eq, List.mem_append]
  have hmem : ∀ {e}, e ∈ n'.inorder → e ∈ children.inorder := fun {e} he ↦
    (hold e).mpr (.inl ((hnew e).mp he))
  refine ⟨.inner w h.valid h.filled fun e he ↦ hchildren e (hmem he), fun k v ↦ ?_,
    fun hn ↦ .inner ?_ fun e he ↦ hn.inner_inv.2 e (hmem he)⟩
  · rw [has_inner, has_inner]
    constructor
    · rintro ⟨e, he, hk⟩
      refine ⟨?_, e, hmem he, hk⟩
      rintro rfl
      have hlonger := prefix_of_child hchildren (hmem he) hk
      exact hfound.fst_ne hvalid ((hnew e).mp he) (snoc_unique hlonger hkey)
    · rintro ⟨hne, e, he, hk⟩
      rcases (hold e).mp he with he | rfl
      · exact ⟨e, (hnew e).mpr he, hk⟩
      · exact absurd (hx k v hk) hne
  · have hasc := hn.inner_inv.1
    rw [Ascending, hfound.inorder_eq, List.map_append, List.map_cons] at hasc
    rw [Ascending, h.inorder_eq, List.map_append]
    exact hasc.sublist ((List.Sublist.refl _).append (List.sublist_cons_self _ _))

theorem Removes.of_last {d : BitVec 8} (hvalid : children.Valid)
    (hchildren : ∀ e ∈ children.inorder, Wf (path ++ w ++ [e.1]) e.2)
    (hfound : children.Found c s l x r) (hx : ∀ k v, Has x k v → k = key)
    (hkey : path ++ w ++ [c] <+: terminated key) (hrest : l ++ r = [(d, y)]) (hn' : Wf path n')
    (hsame : ∀ k v, Has n' k v ↔ Has y k v) (hordered : Ordered y → Ordered n') :
    Removes path (.inner (.of w) children) n' key := by
  have hold : ∀ e, e ∈ children.inorder ↔ e = (d, y) ∨ e = (c, x) := fun e ↦ by
    rw [hfound.mem_iff, ← List.mem_append, hrest, List.mem_singleton]
  have hdy : (d, y) ∈ l ∨ (d, y) ∈ r := by
    rw [← List.mem_append, hrest]
    exact List.mem_singleton_self _
  have hmem : (d, y) ∈ children.inorder := (hold _).mpr (.inl rfl)
  refine ⟨hn', fun k v ↦ ?_, fun hn ↦ hordered (hn.inner_inv.2 _ hmem)⟩
  rw [hsame, has_inner]
  constructor
  · intro hk
    refine ⟨?_, _, hmem, hk⟩
    rintro rfl
    exact hfound.fst_ne hvalid hdy (snoc_unique (prefix_of_child hchildren hmem hk) hkey)
  · rintro ⟨hne, e, he, hk⟩
    rcases (hold e).mp he with rfl | rfl
    · exact hk
    · exact absurd (hx k v hk) hne

theorem removeChild4_removes {slots : List (BitVec 8 × ArtNode V)}
    (hvalid : (node4 slots).Valid) (hfilled : (node4 slots).Filled)
    (hchildren : ∀ e ∈ (node4 slots).inorder, Wf (path ++ w ++ [e.1]) e.2)
    (hfound : (node4 slots).Found c s l x r) (hx : ∀ k v, Has x k v → k = key)
    (hkey : path ++ w ++ [c] <+: terminated key) : ∃ n', removeChild4 (.of w) slots l.length = .ok n' ∧
      Removes path (.inner (.of w) (.node4 slots)) n' key := by
  have hnodup := hfound.nodup_rest hvalid
  have hlen : slots.length = (l ++ r).length + 1 := hfound.length_eq
  have hle : slots.length ≤ 4 := hvalid.length_le
  have hge : 2 ≤ slots.length := hfilled
  have herase : slots.eraseIdx l.length = l ++ r := by
    rw [show slots = l ++ (c, x) :: r from hfound.inorder_eq, eraseIdx_split]
  have hchild : ∀ {d y}, l ++ r = [(d, y)] → Wf (path ++ w ++ [d]) y := fun {d y} hrest ↦
    hchildren (d, y) <| (hfound.mem_iff _).mpr <| .inl <| by
      rw [← List.mem_append, hrest]
      exact List.mem_singleton_self _
  rw [removeChild4, herase]
  match hrest : l ++ r with
  | [] =>
    rw [hrest] at hlen
    simp only [List.length_nil] at hlen
    omega
  | [(d, .leaf m)] =>
    refine ⟨_, rfl, .of_last hvalid hchildren hfound hx hkey hrest ?_ (fun _ _ ↦ Iff.rfl) id⟩
    have hpre := (hchild hrest).prefix_of_has (.leaf m)
    exact .leaf (((List.prefix_append _ _).trans (List.prefix_append _ _)).trans hpre)
  | [(d, .inner h children')] =>
    obtain ⟨u, rfl, hvalid', hfilled', hchildren'⟩ := (hchild hrest).inner_inv
    refine ⟨.inner (.of (w ++ [d] ++ u)) children', ?_, .of_last hvalid hchildren hfound hx hkey
      hrest ?_ (fun k v ↦ ?_) fun hn ↦ .inner hn.inner_inv.1 hn.inner_inv.2⟩
    · dsimp only
      rw [concatenatePrefixes_eq]
      rfl
    · refine .inner _ hvalid' hfilled' fun e he ↦ ?_
      have hpath : path ++ (w ++ [d] ++ u) = path ++ w ++ [d] ++ u := by
        simp only [List.append_assoc]
      rw [hpath]
      exact hchildren' e he
    · rw [has_inner, has_inner]
  | (b, z) :: e :: rest =>
    refine ⟨.inner (.of w) (.node4 ((b, z) :: e :: rest)), ?_, .of_rest hvalid hchildren hfound hx
      hkey (.of_length hnodup hrest.symm ?_ ?_ trivial)⟩
    · cases z <;> rfl
    · show (l ++ r).length ≤ 4
      omega
    · show 2 ≤ (l ++ r).length
      rw [hrest]
      exact Nat.le_add_left 2 _

/-- A leaf is taken out of every layout, which gives way to the one before it when few children
are left. -/
theorem removeChild_removes (hvalid : children.Valid) (hfilled : children.Filled)
    (hchildren : ∀ e ∈ children.inorder, Wf (path ++ w ++ [e.1]) e.2)
    (hfind : children.findChild c = some s) (hfound : children.Found c s l x r)
    (hx : ∀ k v, Has x k v → k = key) (hkey : path ++ w ++ [c] <+: terminated key) :
    ∃ n', removeChild (.of w) children c s = .ok n' ∧
      Removes path (.inner (.of w) children) n' key := by
  cases children with
  | node4 slots =>
    obtain ⟨i, -, rfl⟩ := Option.map_eq_some_iff.mp hfind
    obtain rfl := hfound.index_eq i rfl
    exact removeChild4_removes hvalid hfilled hchildren hfound hx hkey
  | node16 slots =>
    have hlen : slots.length ≤ 16 := hvalid.length_le
    rw [findChild_node16 hlen] at hfind
    obtain ⟨i, -, rfl⟩ := Option.map_eq_some_iff.mp hfind
    obtain rfl := hfound.index_eq i rfl
    exact ⟨_, rfl, .of_rest hvalid hchildren hfound hx hkey
      (removeChild16_shrinks hvalid hfilled hfound)⟩
  | node48 num keys places =>
    obtain ⟨n', hrun, hshrinks⟩ := removeChild48_shrinks hvalid hfilled hfound
    refine ⟨.inner (.of w) n', ?_, .of_rest hvalid hchildren hfound hx hkey hshrinks⟩
    rw [removeChild, hrun]
    rfl
  | node256 num places =>
    obtain ⟨n', hrun, hshrinks⟩ := removeChild256_shrinks hvalid hfilled hfound
    refine ⟨.inner (.of w) n', ?_, .of_rest hvalid hchildren hfound hx hkey hshrinks⟩
    rw [removeChild, hrun]
    rfl

theorem Removes.setChild (hvalid : children.Valid) (hfilled : children.Filled)
    (hchildren : ∀ e ∈ children.inorder, Wf (path ++ w ++ [e.1]) e.2)
    (hfound : children.Found c s l x r) (hkey : path ++ w ++ [c] <+: terminated key)
    (h : Removes (path ++ w ++ [c]) x y key) :
    Removes path (.inner (.of w) children) (.inner (.of w) (children.setChild s y)) key := by
  refine ⟨.setChild hvalid hfilled hchildren hfound h.wf, fun k v ↦ ?_,
    fun hn ↦ hn.setChild hfound h.ordered⟩
  rw [has_setChild hfound, has_beside hfound, h.has_iff]
  constructor
  · rintro (⟨e, he, hk⟩ | ⟨hne, hk⟩)
    · exact ⟨ne_of_beside hvalid hchildren hfound hkey he hk, .inl ⟨e, he, hk⟩⟩
    · exact ⟨hne, .inr hk⟩
  · rintro ⟨hne, hrest | hk⟩
    · exact .inl hrest
    · exact .inr ⟨hne, hk⟩

theorem recursiveDelete_outcome (hn : Wf path n) (hpath : path.length ≤ key.length)
    (hfuel : key.length < path.length + fuel) :
    DeleteOutcome path n key (recursiveDelete key fuel (some n) path.length) := by
  induction hn generalizing fuel with
  | @leaf path m _ =>
    rw [recursiveDelete]
    by_cases hmatch : leafMatches m key = true
    · rw [if_pos hmatch]
      exact .emptied rfl (leafMatches_iff.mp hmatch)
    · rw [if_neg hmatch]
      refine .missing fun v hk ↦ hmatch (leafMatches_iff.mpr ?_)
      exact (has_leaf.mp hk).1.symm
  | @inner path w children hvalid hfilled hchildren ih =>
    obtain ⟨f, rfl⟩ : ∃ f, fuel = f + 1 := Nat.exists_eq_succ_of_ne_zero (by omega)
    have hdepth : path.length + (ArtHeader.of w).partialLen = (path ++ w).length :=
      List.length_append.symm
    rw [recursiveDelete]
    cases descent hvalid hchildren key with
    | differs hstored hnot => exact (guard_stopped hpath hstored).symm ▸ .missing hnot
    | ends hstored hend =>
      refine (guard_passed hpath hstored).symm ▸ ?_
      dsimp only
      rw [hdepth, readByte_end hend]
      exact .overrun (fun v hk ↦ forksBelow_of_has hvalid hfilled hchildren hend hk)
        (overrun_of_end hvalid hfilled hchildren hend)
    | missing hstored hread hfind hnot =>
      refine (guard_passed hpath hstored).symm ▸ ?_
      dsimp only
      rw [hdepth, hread, ok_bind, hfind]
      exact .missing hnot
    | @child c s l r x hstored hread hlen hfind hfound hiff =>
      refine (guard_passed hpath hstored).symm ▸ ?_
      dsimp only
      rw [hdepth, hread, ok_bind, hfind]
      dsimp only
      rw [hfound.child_eq]
      cases x with
      | leaf m =>
        dsimp only
        by_cases hmatch : leafMatches m key = true
        · obtain rfl := leafMatches_iff.mp hmatch
          have hkey := prefix_of_child hchildren hfound.mem (.leaf m)
          obtain ⟨n', hrun, hremoves⟩ := removeChild_removes hvalid hfilled hchildren hfind hfound
            (fun k v hk ↦ (has_leaf.mp hk).1) hkey
          rw [if_pos hmatch, hrun, ok_bind]
          exact .removed (.inner hfound.mem (.leaf m)) (not_forksBelow_inner hvalid hchildren
            hfound.mem hlen (.leaf m) (not_forksBelow_leaf m m.key)) hremoves
        · rw [if_neg hmatch]
          refine .missing fun v hk ↦ hmatch (leafMatches_iff.mpr ?_)
          exact (has_leaf.mp ((hiff v).mp hk)).1.symm
      | inner h children' =>
        have hstep : (path ++ w).length + 1 = (path ++ w ++ [c]).length := by
          simp only [List.length_append, List.length_singleton]
        have hfuel' : key.length < (path ++ w ++ [c]).length + f := by
          rw [List.length_append, List.length_append, List.length_singleton]
          omega
        have hrec := ih (c, .inner h children') hfound.mem hlen hfuel'
        dsimp only at hrec ⊢
        rw [hstep]
        generalize recursiveDelete key f (some (.inner h children')) _ = result at hrec
        cases hrec with
        | emptied heq _ => cases heq
        | removed hk hone hremoves =>
          have hkey := prefix_of_child hchildren hfound.mem hk
          exact .removed (.inner hfound.mem hk)
            (not_forksBelow_inner hvalid hchildren hfound.mem hlen hk hone)
            (.setChild hvalid hfilled hchildren hfound hkey hremoves)
        | missing hnot =>
          have hnot' : ∀ v, ¬ Has (.inner (.of w) children) key v := fun v hk ↦
            hnot v ((hiff v).mp hk)
          rw [ok_bind]
          dsimp only [Option.elim]
          rw [hfound.setChild_self]
          exact .missing hnot'
        | overrun hforks hover =>
          exact .overrun (fun v hk ↦ (hforks v ((hiff v).mp hk)).inner hfound.mem)
            (hover.inner hfound.mem)

end RadixBench.Art
