import RadixBench.Foundation.Release
import RadixBench.WideRadix.Safety

namespace RadixBench.WideRadix

open Foundation Memory

section Model

def freeChild (freeNode : Memory WideRadixNode → Option ℕ → Exec (Memory WideRadixNode))
    (node : ℕ) (m : Memory WideRadixNode) (byte : BitVec 8) : Exec (Memory WideRadixNode) := do
  let n ← m.read node
  if maskGetBit n.childMask byte ∧ n.children byte ≠ none then freeNode m (n.children byte)
  else .ok m

def freeNode : ℕ → Memory WideRadixNode → Option ℕ → Exec (Memory WideRadixNode)
  | 0, _, _ => .error .outOfFuel
  | _ + 1, m, none => .ok m
  | fuel + 1, m, some node => do
    let n ← m.read node
    let m ←
      if n.isLeaf = true then .ok m
      else ((List.range 256).map (BitVec.ofNat 8)).foldlM (freeChild (freeNode fuel) node) m
    m.release node

def wideRadixDestroy (fuel : ℕ) (m : Memory WideRadixNode) (tree : WideRadixTree) :
    Exec (WideRadixTree × Memory WideRadixNode) :=
  match tree.root with
  | none => .ok (tree, m)
  | some root => do
    let m ← freeNode fuel m (some root)
    .ok ({ tree with root := none }, m)

end Model

variable {A : Allocator} {m m' μ : Memory WideRadixNode} {root x : ℕ} {p : List (BitVec 8)}
  {old : List Region}

def Below (m : Memory WideRadixNode) (root : ℕ) (p : List (BitVec 8)) : Set ℕ :=
  {x | ∃ q, p <+: q ∧ At m root q x}

theorem At.mem_below (hx : At m root p x) : x ∈ Below m root p := ⟨p, List.prefix_rfl, hx⟩

theorem mem_below_nil : x ∈ Below m root [] ↔ ∃ q, At m root q x :=
  exists_congr fun q ↦ and_iff_right (List.nil_prefix (l := q))

theorem mem_below_iff (hx : At m root p x) (y : ℕ) :
    y ∈ Below m root p ↔ y = x ∨ ∃ d, y ∈ Below m root (p ++ [d]) := by
  constructor
  · rintro ⟨q, ⟨r, rfl⟩, hy⟩
    cases r with
    | nil => exact .inl (At.unique (List.append_nil p ▸ hy) hx)
    | cons d r => exact .inr ⟨d, _, ⟨r, List.append_assoc p [d] r⟩, hy⟩
  · rintro (rfl | ⟨d, q, hpre, hy⟩)
    · exact hx.mem_below
    · exact ⟨q, (List.prefix_append p [d]).trans hpre, hy⟩

theorem below_eq_empty {d : BitVec 8} (hx : At m root p x) (hnone : (m.cell x).children d = none) :
    Below m root (p ++ [d]) = ∅ :=
  Set.eq_empty_of_forall_notMem fun y hy ↦
    not_hasNode_below hx hnone hy.choose_spec.1 ⟨y, hy.choose_spec.2⟩

theorem Sound.notMem_below (h : Sound m root) (hx : At m root p x) (d : BitVec 8) :
    x ∉ Below m root (p ++ [d]) := by
  rintro ⟨q, hpre, hq⟩
  obtain rfl := h.at_injective hx hq
  exact Nat.lt_irrefl _ (length_lt_of_snoc hpre)

theorem Sound.below_disjoint (h : Sound m root) {d e : BitVec 8} {y : ℕ}
    (hd : y ∈ Below m root (p ++ [d])) (he : y ∈ Below m root (p ++ [e])) : d = e := by
  obtain ⟨q, ⟨r, rfl⟩, hq⟩ := hd
  obtain ⟨q', ⟨r', rfl⟩, hq'⟩ := he
  have heq := h.at_injective hq hq'
  rw [List.append_assoc, List.append_assoc] at heq
  exact (List.cons.inj (List.append_cancel_left heq)).1

theorem freeChildren_frees (h : Sound m root) (hx : At m root p x)
    (free : Memory WideRadixNode → Option ℕ → Exec (Memory WideRadixNode))
    (hfree : ∀ d y μ, At m root (p ++ [d]) y → μ.cell = m.cell →
      (∀ z ∈ Below m root (p ++ [d]), μ.IsLive z) →
      ∃ μ', free μ (some y) = .ok μ' ∧ Freed μ μ' (Below m root (p ++ [d])))
    (hlt : p.length < 8) (bytes : List (BitVec 8)) (hbytes : bytes.Nodup)
    (hcell : μ.cell = m.cell) (hlive : μ.IsLive x)
    (hchildren : ∀ d ∈ bytes, ∀ y ∈ Below m root (p ++ [d]), μ.IsLive y) :
    ∃ μ', bytes.foldlM (freeChild free x) μ = .ok μ' ∧
      Freed μ μ' {y | ∃ d ∈ bytes, y ∈ Below m root (p ++ [d])} := by
  induction bytes generalizing μ with
  | nil => exact ⟨μ, rfl, by simpa using Freed.refl μ⟩
  | cons d bytes ih =>
    obtain ⟨hd, hbytes⟩ := List.nodup_cons.mp hbytes
    have hround : ∃ μ₁, freeChild free x μ d = .ok μ₁ ∧
        Freed μ μ₁ (Below m root (p ++ [d])) := by
      rw [freeChild, read_of_live hlive, ok_bind, hcell]
      cases hchild : (m.cell x).children d with
      | none =>
        rw [if_neg fun hand ↦ hand.2 rfl, below_eq_empty hx hchild]
        exact ⟨μ, rfl, .refl μ⟩
      | some y =>
        have hbit : maskGetBit (m.cell x).childMask d = true := by
          rw [maskGetBit_eq, h.mask_iff hx, hchild]
          exact Option.some_ne_none y
        rw [if_pos ⟨hbit, Option.some_ne_none y⟩]
        exact hfree d y μ (at_snoc.mpr ⟨x, hx, hlt, hchild⟩) hcell
          (hchildren d List.mem_cons_self)
    obtain ⟨μ₁, hrun, hfreed⟩ := hround
    obtain ⟨μ₂, hrest, hfreed'⟩ := ih hbytes (hfreed.cell.trans hcell)
      ((hfreed.isLive_iff x).mpr ⟨hlive, h.notMem_below hx d⟩) fun e he y hy ↦
        (hfreed.isLive_iff y).mpr ⟨hchildren e (List.mem_cons_of_mem d he) y hy, fun hy' ↦
          hd (h.below_disjoint hy' hy ▸ he)⟩
    refine ⟨μ₂, by rw [List.foldlM_cons, hrun, ok_bind, hrest], ?_⟩
    convert hfreed.trans hfreed' using 1
    ext y
    simp

/-- A node is freed after everything below it, by induction on the levels that are left. -/
theorem freeNode_frees (h : Sound m root) (fuel : ℕ) (hx : At m root p x)
    (hfuel : 9 ≤ p.length + fuel) (hcell : μ.cell = m.cell)
    (hlive : ∀ y ∈ Below m root p, μ.IsLive y) :
    ∃ μ', freeNode fuel μ (some x) = .ok μ' ∧ Freed μ μ' (Below m root p) := by
  induction fuel generalizing p x μ with
  | zero =>
    have hle := hx.1
    omega
  | succ fuel ih =>
    have hself := hlive x hx.mem_below
    have hbelow := mem_below_iff hx
    rw [freeNode, read_of_live hself, ok_bind, hcell]
    by_cases hleaf : (m.cell x).isLeaf = true
    · have hlen := (h.leaf_iff hx).mp hleaf
      rw [if_pos hleaf, ok_bind]
      refine ⟨_, release_of_live hself, ?_⟩
      convert Freed.free μ x using 1
      ext y
      rw [hbelow, Set.mem_singleton_iff]
      refine or_iff_left ?_
      rintro ⟨d, hy⟩
      rw [below_eq_empty hx (h.leaf_end hx hlen d)] at hy
      exact hy
    · have hlt : p.length < 8 := lt_of_le_of_ne hx.1 (mt (h.leaf_iff hx).mpr hleaf)
      have hbytes : ((List.range 256).map (BitVec.ofNat 8)).Nodup := by decide +kernel
      have hall : ∀ d : BitVec 8, d ∈ (List.range 256).map (BitVec.ofNat 8) := fun d ↦
        List.mem_map.mpr ⟨d.toNat, List.mem_range.mpr d.isLt, BitVec.ofNat_toNat ..⟩
      obtain ⟨μ₁, hrun, hfreed⟩ := freeChildren_frees h hx (freeNode fuel)
        (fun d y μ hy hcell hlive ↦ ih hy (by simp; omega) hcell hlive) hlt _ hbytes hcell hself
        fun d _ y hy ↦ hlive y ((hbelow y).mpr (.inr ⟨d, hy⟩))
      have hself₁ : μ₁.IsLive x := (hfreed.isLive_iff x).mpr
        ⟨hself, fun hmem ↦ h.notMem_below hx _ hmem.choose_spec.2⟩
      rw [if_neg hleaf, hrun, ok_bind]
      refine ⟨_, release_of_live hself₁, ?_⟩
      convert hfreed.trans (.free μ₁ x) using 1
      ext y
      simp only [hbelow, hall, true_and, Set.mem_union, Set.mem_ofPred_eq, Set.mem_singleton_iff,
        or_comm]

theorem at_congr (hc : m'.cell = m.cell) (q : List (BitVec 8)) (y : ℕ) :
    At m' root q y ↔ At m root q y := by
  have hnext : next m' = next m := by
    funext y d
    rw [next, next, hc]
  rw [At, At, hnext]

/-- Apart from the nodes of the tree, `old` is live. -/
def Owned (m : Memory WideRadixNode) (root : ℕ) (old : List Region) : Prop :=
  Rest m (Below m root []) old

theorem Owned.congr (ho : Owned m root old) (hlive : m'.live = m.live)
    (hat : ∀ q y, At m' root q y ↔ At m root q y) : Owned m' root old := by
  have hbelow : Below m' root [] = Below m root [] := by
    ext y
    simp only [mem_below_nil, hat]
  rw [Owned, hbelow]
  exact Rest.congr ho hlive

theorem Owned.link (ho : Owned m root old) {d : BitVec 8} {a : ℕ}
    (hlive : m'.live = nodeRegion a :: m.live) (hfresh : ∀ r ∈ m.live, a ≠ r.base)
    (hat : ∀ q y, At m' root q y ↔ At m root q y ∨ q = p ++ [d] ∧ y = a) : Owned m' root old := by
  have hbelow : Below m' root [] = Below m root [] ∪ {a} := by
    ext y
    simp [mem_below_nil, hat, exists_or, or_comm]
  rw [Owned, hbelow]
  exact Rest.append ho [nodeRegion a] hlive (by simp [nodeRegion])
    fun r hr hra ↦ hfresh r hr hra.symm

theorem Owned.unlink (ho : Owned m root old) {d : BitVec 8} {a : ℕ} (h : Sound m root)
    (ha : At m root (p ++ [d]) a) (hlive : m'.live = (m.free a).live)
    (hat : ∀ q y, At m' root q y ↔ At m root q y ∧ q ≠ p ++ [d]) : Owned m' root old := by
  have hbelow : Below m' root [] = Below m root [] \ {a} := by
    ext y
    simp only [mem_below_nil, hat, Set.mem_sdiff, Set.mem_singleton_iff]
    constructor
    · rintro ⟨q, hq, hne⟩
      exact ⟨⟨q, hq⟩, fun hya ↦ hne (h.at_injective (hya ▸ hq) ha)⟩
    · rintro ⟨⟨q, hq⟩, hne⟩
      exact ⟨q, hq, fun hqp ↦ hne (At.unique (hqp ▸ hq) ha)⟩
  rw [Owned, hbelow]
  exact (Rest.free ho (mem_below_nil.mpr ⟨_, ha⟩)).congr hlive

theorem createNode_fresh {leaf : Bool} {a : ℕ} (h : createNode A m leaf = (some a, m')) :
    ∀ r ∈ m.live, a ≠ r.base := by
  rw [createNode] at h
  obtain ⟨m₁, heq, -⟩ | ⟨b, m₁, heq, -, -, hfresh, -⟩ := calloc_cases A m sizeofWideRadixNode
  · rw [heq] at h
    cases h
  · rw [heq] at h
    cases h
    exact fun r hr ↦ (hfresh r hr).1

theorem insertFrom_owned {key value : BitVec 64} {rem : ℕ} {r : Bool} (h : Sound m root)
    (ho : Owned m root old) (hx : At m root p x) (hlen : p.length + rem = 7)
    (hrun : insertFrom A key value rem m x = .ok (r, m')) : Owned m' root old := by
  induction rem generalizing m p x with
  | zero =>
    have hbyte : extractByte key 7 = digit key 0 := extractByte_eq key 0 (Nat.zero_le _)
    rw [insertFrom, hbyte] at hrun
    simp only [maskGetBit_eq] at hrun
    by_cases hbit : (m.cell x).childMask.has (digit key 0) = true
    · obtain ⟨y, hy⟩ := h.exists_child hx hbit
      have hat : At m root (p ++ [digit key 0]) y := at_snoc.mpr ⟨x, hx, by omega, hy⟩
      have hleaf : (m.cell y).isLeaf = true := (h.leaf_iff hat).mpr (by simp; omega)
      rw [if_pos hbit, hy, deref_some, ok_bind, check_of hleaf, ok_bind] at hrun
      cases hrun
      exact ho.congr rfl (h.setValue hat value).2.1
    · have hnone := h.child_none hx hbit
      rw [if_neg hbit] at hrun
      obtain ⟨m₁, heq, hl, hc, -⟩ | ⟨a, m₁, heq, ha⟩ := createNode_cases A m true
      · rw [heq] at hrun
        cases hrun
        exact ho.congr hl (at_congr hc)
      · rw [heq] at hrun
        cases hrun
        have ha := ha.setValue value
        exact ho.link ha.live (createNode_fresh heq) (h.link hx (by omega) hnone
          (iff_of_true rfl (by omega)) ha).2.1
  | succ rem ih =>
    have hbyte : extractByte key (7 - (rem + 1)) = digit key (rem + 1) :=
      extractByte_eq key (rem + 1) (by omega)
    have hlen' : (p ++ [digit key (rem + 1)]).length + rem = 7 := by
      rw [List.length_append, List.length_singleton]
      omega
    rw [insertFrom, hbyte] at hrun
    simp only [maskGetBit_eq] at hrun
    by_cases hbit : (m.cell x).childMask.has (digit key (rem + 1)) = true
    · obtain ⟨y, hy⟩ := h.exists_child hx hbit
      rw [if_pos hbit, hy, require_some, ok_bind] at hrun
      exact ih h ho (at_snoc.mpr ⟨x, hx, by omega, hy⟩) hlen' hrun
    · have hnone := h.child_none hx hbit
      rw [if_neg hbit] at hrun
      obtain ⟨m₁, heq, hl, hc, -⟩ | ⟨a, m₁, heq, ha⟩ := createNode_cases A m false
      · rw [heq] at hrun
        cases hrun
        exact ho.congr hl (at_congr hc)
      · rw [heq] at hrun
        obtain ⟨hs, hat, -⟩ := h.link hx (by omega) hnone
          (iff_of_false Bool.false_ne_true (by omega)) ha
        exact ih hs (ho.link ha.live (createNode_fresh heq) hat) ((hat _ a).mpr (.inr ⟨rfl, rfl⟩))
          hlen' hrun

theorem deleteFrom_owned {key : BitVec 64} {rem : ℕ} {r : Bool} (h : Sound m root)
    (ho : Owned m root old) (hx : At m root p x) (hlen : p.length + rem = 7)
    (hrun : deleteFrom key rem m x = .ok (r, m')) : Owned m' root old := by
  induction rem generalizing p x with
  | zero =>
    have hbyte : extractByte key 7 = digit key 0 := extractByte_eq key 0 (Nat.zero_le _)
    rw [deleteFrom, hbyte] at hrun
    simp only [maskGetBit_eq] at hrun
    by_cases hbit : (m.cell x).childMask.has (digit key 0) = true
    · obtain ⟨y, hy⟩ := h.exists_child hx hbit
      have ha : At m root (p ++ [digit key 0]) y := at_snoc.mpr ⟨x, hx, by omega, hy⟩
      have hleaf : (m.cell y).isLeaf = true := (h.leaf_iff ha).mpr (by simp; omega)
      rw [if_pos hbit, hy, deref_some, ok_bind, check_of hleaf, ok_bind] at hrun
      cases hrun
      exact ho.unlink h ha rfl (h.unlink hx ha (by omega)).2.1
    · rw [if_neg hbit] at hrun
      cases hrun
      exact ho
  | succ rem ih =>
    have hbyte : extractByte key (7 - (rem + 1)) = digit key (rem + 1) :=
      extractByte_eq key (rem + 1) (by omega)
    rw [deleteFrom, hbyte] at hrun
    simp only [maskGetBit_eq] at hrun
    by_cases hbit : (m.cell x).childMask.has (digit key (rem + 1)) = true
    · obtain ⟨y, hy⟩ := h.exists_child hx hbit
      rw [if_pos hbit, hy, require_some, ok_bind] at hrun
      exact ih (at_snoc.mpr ⟨x, hx, by omega, hy⟩) (by simp; omega) hrun
    · rw [if_neg hbit] at hrun
      cases hrun
      exact ho

/-- A tree made in the memory `m₀`, whether or not its root could be allocated. -/
def TreeInitial (A : Allocator) (m₀ : Memory WideRadixNode) (keyBits : BitVec 32)
    (s : BareState) : Prop :=
  wideRadixInit A m₀ keyBits = (s.tree, s.memory)

abbrev TreeReachable (A : Allocator) (m₀ : Memory WideRadixNode) (keyBits : BitVec 32) :=
  Reachable (TreeInitial A m₀ keyBits) (fun _ _ ↦ True) (bareStep A)

def BareState.Owns (s : BareState) (old : List Region) : Prop :=
  (s.tree.root = none ∧ s.memory.live = old) ∨
    ∃ root, s.tree.root = some root ∧ WideRadix.Sound s.memory root ∧ Owned s.memory root old

theorem TreeInitial.owns {m₀ : Memory WideRadixNode} {keyBits : BitVec 32} {s : BareState}
    (h : TreeInitial A m₀ keyBits s) : s.Owns m₀.live := by
  have hinit := h
  rw [TreeInitial, wideRadixInit] at h
  obtain ⟨m₁, heq, hl, -⟩ | ⟨a, m₁, heq, ha⟩ := createNode_cases A m₀ false
  · rw [heq] at h
    obtain ⟨htree, rfl⟩ := Prod.mk.inj h
    exact .inl ⟨by rw [← htree], hl⟩
  · have hfresh := createNode_fresh heq
    rw [heq] at h
    obtain ⟨htree, rfl⟩ := Prod.mk.inj h
    have hroot : s.tree.root = some a := by rw [← htree]
    obtain ⟨root, hroot', hs⟩ := BareInitial.sound ⟨m₀, keyBits, hinit, by simp [hroot]⟩
    obtain rfl := Option.some.inj (hroot.symm.trans hroot')
    have hbelow : Below s.memory a [] = ∅ ∪ {a} := by
      ext y
      rw [mem_below_iff at_nil, Set.empty_union, Set.mem_singleton_iff]
      refine or_iff_left ?_
      rintro ⟨d, hy⟩
      rw [below_eq_empty at_nil (by rw [ha.cell])] at hy
      exact hy
    have hrest : Rest m₀ ∅ m₀.live := by simp [Rest]
    refine .inr ⟨a, hroot, hs, ?_⟩
    rw [Owned, hbelow]
    exact hrest.append [nodeRegion a] ha.live (by simp [nodeRegion])
      fun r hr hra ↦ hfresh r hr hra.symm

theorem bareStep_owns {s s' : BareState} {op : WideOp} (h : s.Owns old)
    (hstep : bareStep A s op = .ok s') : s'.Owns old := by
  obtain ⟨hroot, -⟩ | ⟨root, hroot, hs, ho⟩ := h
  · cases op with
    | insert key value =>
      rw [bareStep, wideRadixInsert, hroot] at hstep
      cases hstep
    | delete key =>
      rw [bareStep, wideRadixDelete, hroot] at hstep
      cases hstep
  · obtain ⟨s'', hstep', root', hroot', hs'⟩ := bareStep_sound A ⟨root, hroot, hs⟩ op
    obtain rfl := Except.ok.inj (hstep'.symm.trans hstep)
    cases op with
    | insert key value =>
      obtain ⟨⟨r, m'⟩, hrun, heq⟩ := bind_eq_ok.mp hstep
      cases heq
      obtain rfl := Option.some.inj (hroot.symm.trans hroot')
      rw [wideRadixInsert, hroot, require_some, ok_bind] at hrun
      exact .inr ⟨root, hroot, hs', insertFrom_owned hs ho at_nil rfl hrun⟩
    | delete key =>
      obtain ⟨⟨r, m'⟩, hrun, heq⟩ := bind_eq_ok.mp hstep
      cases heq
      obtain rfl := Option.some.inj (hroot.symm.trans hroot')
      rw [wideRadixDelete, hroot, require_some, ok_bind] at hrun
      exact .inr ⟨root, hroot, hs', deleteFrom_owned hs ho at_nil rfl hrun⟩

theorem TreeReachable.owns {m₀ : Memory WideRadixNode} {keyBits : BitVec 32} {s : BareState}
    (h : TreeReachable A m₀ keyBits s) : s.Owns m₀.live :=
  Reachable.invariant (I := fun s ↦ s.Owns m₀.live) (fun _ hinit ↦ hinit.owns)
    (fun _ _ _ hs _ hstep ↦ bareStep_owns hs hstep) h

theorem BareState.Owns.sound {s : BareState} (h : s.Owns old) (hroot : s.tree.root ≠ none) :
    s.Sound := by
  obtain ⟨hnone, -⟩ | ⟨root, heq, hs, -⟩ := h
  · exact absurd hnone hroot
  · exact ⟨root, heq, hs⟩

/-- Whatever allocations fail, no memory is lost on the way, and `wide_radix_destroy` frees what
the tree has taken and nothing else, without reading or freeing a node that is gone. -/
theorem wideRadixDestroy_frees (A : Allocator) (m₀ : Memory WideRadixNode) (keyBits : BitVec 32)
    {s : BareState} (h : TreeReachable A m₀ keyBits s) {fuel : ℕ} (hfuel : 9 ≤ fuel) :
    (∀ r ∈ s.memory.live, r ∈ m₀.live ∨
      ∃ root p, s.tree.root = some root ∧ At s.memory root p r.base) ∧
    ∃ m', wideRadixDestroy fuel s.memory s.tree = .ok ({ s.tree with root := none }, m') ∧
      m'.live = m₀.live := by
  obtain ⟨hroot, hlive⟩ | ⟨root, hroot, hs, ho⟩ := h.owns
  · refine ⟨fun r hr ↦ .inl (hlive ▸ hr), s.memory, ?_, hlive⟩
    rw [wideRadixDestroy, hroot]
    dsimp only
    rw [← hroot]
  · constructor
    · intro r hr
      by_cases hbelow : r.base ∈ Below s.memory root []
      · obtain ⟨p, hp⟩ := mem_below_nil.mp hbelow
        exact .inr ⟨root, p, hroot, hp⟩
      · exact .inl (Rest.mem_old ho hr hbelow)
    · obtain ⟨m', hrun, hfreed⟩ := freeNode_frees hs fuel at_nil (by simpa using hfuel) rfl
        fun y hy ↦ by
          obtain ⟨q, hq⟩ := mem_below_nil.mp hy
          exact ⟨_, hs.live hq, rfl⟩
      refine ⟨m', ?_, Rest.freed ho hfreed⟩
      rw [wideRadixDestroy, hroot]
      dsimp only
      rw [hrun, ok_bind]

theorem broken_treeReachable :
    TreeReachable (bumpAllocator.failFrom 3) Memory.empty 64 broken := by
  have h₀ : TreeReachable (bumpAllocator.failFrom 3) Memory.empty 64 cramped := .init rfl
  obtain ⟨s', hstep, -⟩ :=
    bareStep_sound _ (h₀.owns.sound (by decide +kernel)) (.insert 5 7)
  have hbroken : broken = s' := by rw [broken, hstep]; rfl
  exact hbroken ▸ .step h₀ trivial hstep

theorem wideRadixDestroy_frees_broken :
    ∃ m', wideRadixDestroy 9 broken.memory broken.tree =
      .ok ({ broken.tree with root := none }, m') ∧ m'.live = [] :=
  (wideRadixDestroy_frees _ _ _ broken_treeReachable le_rfl).2

end RadixBench.WideRadix
