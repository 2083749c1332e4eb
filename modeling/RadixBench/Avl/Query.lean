import Mathlib.Data.List.Permutation
import RadixBench.Avl.Runs
import RadixBench.Foundation.Descent
import RadixBench.Foundation.Sided

namespace RadixBench.Avl

open Foundation CUavlTree

variable {N K V : Type} {t : CUavlTree N K V} {T : BinaryTree N}

def toward (side : Bool) (compare : ℤ) : ℤ := bif side then -compare else compare

theorem TotalOrder.toward {compare : K → K → ℤ} (h : TotalOrder compare) (side : Bool) :
    TotalOrder fun a b ↦ Avl.toward side (compare a b) := by
  cases side
  · exact h
  · refine ⟨fun a b ↦ ?_, fun a b c hab hbc ↦ ?_⟩
    · have hswap := h.swap b a
      simp only [Avl.toward, cond_true]
      omega
    · simp only [Avl.toward, cond_true, Left.neg_nonpos_iff] at hab hbc ⊢
      have hac := h.trans c b a
      have hswap := h.swap a c
      have hswapab := h.swap a b
      have hswapbc := h.swap b c
      omega

theorem TotalOrder.lt_of_lt_of_le {compare : K → K → ℤ} (h : TotalOrder compare) {a b c : K}
    (hab : compare a b < 0) (hcb : 0 ≤ compare c b) : 0 < compare c a := by
  by_contra hca
  have hbc : compare b c ≤ 0 := by
    have hswap := h.swap b c
    have hswap' := h.swap c b
    omega
  have hba := h.trans b c a hbc (not_lt.mp hca)
  have hswap := h.swap a b
  omega

theorem TotalOrder.lt_of_le_of_lt {compare : K → K → ℤ} (h : TotalOrder compare) {a b c : K}
    (hab : compare a b ≤ 0) (hbc : compare b c < 0) : 0 < compare c a := by
  by_contra hca
  have hcb := h.trans c a b (not_lt.mp hca) hab
  have hswap := h.swap b c
  omega

theorem Ascending.from (h : Ascending t (inorder T)) (ho : TotalOrder t.compare) (side : Bool) :
    (inorderFrom side T).Pairwise fun a b ↦
      toward side (t.compare (t.node a).key (t.node b).key) < 0 := by
  cases side
  · exact h
  · refine List.pairwise_reverse.mpr (h.imp fun {a b} hab ↦ ?_)
    have hswap := (ho.swap (t.node a).key (t.node b).key).mp hab
    simp only [toward, cond_true]
    omega

theorem getChild_eq {compare : ℤ} (h : compare ≠ 0) (side : Bool) (n : N) :
    cuAvlTreeNodeGetChild t n compare =
      .ok (t.load (.child n (if toward side compare < 0 then side else !side))) := by
  rw [cuAvlTreeNodeGetChild, check_of h, ok_bind]
  cases side
  · have heq : toward false compare = compare := rfl
    rw [heq]
    rcases lt_or_gt_of_ne h with hlt | hgt
    · rw [if_pos hlt, if_pos hlt]
      rfl
    · rw [if_neg hgt.not_gt, if_neg hgt.not_gt]
      rfl
  · have heq : toward true compare = -compare := rfl
    rw [heq]
    rcases lt_or_gt_of_ne h with hlt | hgt
    · rw [if_pos hlt, if_neg (by omega)]
      rfl
    · rw [if_neg (by omega), if_pos (by omega)]
      rfl

/-- The search finds the first node that is accepted, when the nodes on the side `side` are
not. -/
theorem findBest_eq (side : Bool) (accept : ℤ → Bool)
    (haccept : ∀ c, accept c = decide (toward side c ≤ 0)) (ho : TotalOrder t.compare) (key : K)
    {s : Slot N} (h : Laid (links t) s T)
    (hsorted : Ascending t (inorder T)) {fuel : ℕ} (hfuel : T.height ≤ fuel) (best : Option N) :
    findBest t accept key fuel (rootOf T) best = .ok (((inorderFrom side T).find? fun n ↦
      accept (t.compare key (t.node n).key)).or best) := by
  have hpair := hsorted.from ho side
  clear hsorted
  induction T using sided_induction side generalizing s fuel best with
  | hnil => cases fuel <;> simp [findBest]
  | hfill m near far ihn ihf =>
    cases fuel with
    | zero => cases hfuel.not_gt (by rw [height_fill]; omega)
    | succ fuel =>
    obtain ⟨-, -, hfar, hnear⟩ := laid_fill.mp h
    have hnear' : t.load (.child m side) = rootOf near := hnear.load_eq
    have hfar' : t.load (.child m !side) = rootOf far := hfar.load_eq
    have hheight : max far.height near.height + 1 ≤ fuel + 1 :=
      (height_fill ⟨m, side, far⟩ near).symm.trans_le hfuel
    rw [inorderFrom_fill] at hpair ⊢
    obtain ⟨hpn, hpm, hbefore⟩ := List.pairwise_append.mp hpair
    obtain ⟨-, hpf⟩ := List.pairwise_cons.mp hpm
    set c := t.compare key (t.node m).key with hc
    have hnone : 0 ≤ toward side c → (inorderFrom side near).find? (fun n ↦
        accept (t.compare key (t.node n).key)) = none := by
      intro hge
      refine List.find?_eq_none.mpr fun x hx ↦ ?_
      have hgt := (ho.toward side).lt_of_lt_of_le (hbefore x hx m List.mem_cons_self) hge
      rw [haccept, decide_eq_true_iff]
      exact hgt.not_ge
    rw [rootOf_fill, findBest, ← hc, List.find?_append, haccept c]
    by_cases hzero : c = 0
    · have haccepted : toward side c = 0 := by cases side <;> simp [toward, hzero]
      rw [if_pos hzero, hnone haccepted.ge, List.find?_cons_of_pos]
      · rfl
      · rw [← hc, haccept, decide_eq_true haccepted.le]
    · rw [if_neg hzero, getChild_eq hzero side, ok_bind]
      have hne : toward side c ≠ 0 := by cases side <;> simpa [toward] using hzero
      rcases lt_or_gt_of_ne hne with hlt | hgt
      · rw [if_pos hlt, decide_eq_true hlt.le, if_pos rfl, List.find?_cons_of_pos, hnear',
          Option.or_assoc]
        · exact ihn hnear (by omega) (some m) hpn
        · rw [← hc, haccept, decide_eq_true hlt.le]
      · rw [if_neg hgt.not_gt, decide_eq_false hgt.not_ge, if_neg Bool.false_ne_true,
          hnone hgt.le, List.find?_cons_of_neg, hfar', Option.none_or]
        · exact ihf hfar (by omega) best hpf
        · rw [← hc, haccept, decide_eq_false hgt.not_ge]
          exact Bool.false_ne_true

theorem findNodeFrom_of_ne {comparator : K → N → ℤ} {key : K} {m : N} (h : comparator key m ≠ 0)
    (fuel : ℕ) : findNodeFrom t comparator key (fuel + 1) (some m) =
      findNodeFrom t comparator key fuel
        (t.load (.child m (if comparator key m < 0 then false else true))) := by
  rw [findNodeFrom, if_neg h, getChild_eq h false, ok_bind]
  rfl

theorem findNodeFrom_eq (comparator : K → N → ℤ) (key : K) {s : Slot N} (h : Laid (links t) s T)
    {fuel : ℕ} (hfuel : T.height ≤ fuel) :
    findNodeFrom t comparator key fuel (rootOf T) = .ok (seek (comparator key) T) := by
  induction T generalizing s fuel with
  | nil => cases fuel <;> rfl
  | node m l r ihl ihr =>
    cases fuel with
    | zero => cases hfuel
    | succ fuel =>
    obtain ⟨-, -, hl, hr⟩ := h
    have hheight : max l.height r.height ≤ fuel := Nat.le_of_succ_le_succ hfuel
    have hl' : t.load (.child m false) = rootOf l := hl.load_eq
    have hr' : t.load (.child m true) = rootOf r := hr.load_eq
    rw [rootOf_node]
    rcases lt_trichotomy (comparator key m) 0 with hlt | heq | hgt
    · rw [findNodeFrom_of_ne hlt.ne, if_pos hlt, hl', ihl hl (by omega), seek_of_lt hlt]
    · rw [findNodeFrom, if_pos heq, seek_of_eq heq]
    · rw [findNodeFrom_of_ne hgt.ne', if_neg hgt.not_gt, hr', ihr hr (by omega), seek_of_gt hgt]

theorem findFrom_eq_findNodeFrom (comparator : K → K → ℤ) (key : K) (fuel : ℕ) (p : Option N) :
    findFrom t comparator key fuel p =
      findNodeFrom t (fun key n ↦ comparator key (t.node n).key) key fuel p := by
  induction fuel generalizing p with
  | zero => cases p <;> rfl
  | succ fuel ih =>
    cases p with
    | none => rfl
    | some n =>
      rw [findFrom, findNodeFrom]
      simp only [ih]

theorem Ascending.falls {l : List N} (h : Ascending t l) (ho : TotalOrder t.compare) (key : K) :
    l.Pairwise (Falls fun n ↦ t.compare key (t.node n).key) :=
  h.imp fun hab ↦ ⟨fun hlt ↦ ho.lt_trans hlt hab, fun hgt ↦ ho.lt_of_lt_of_le hab hgt.le⟩

theorem find?_of_equal (ho : TotalOrder t.compare) {l : List N} (h : Ascending t l) {key : K}
    {n : N} (hn : n ∈ l) (hkey : t.compare key (t.node n).key = 0) :
    l.find? (fun n ↦ t.compare key (t.node n).key = 0) = some n ∧
      l.find? (fun n ↦ 0 ≥ t.compare key (t.node n).key) = some n ∧
      l.reverse.find? (fun n ↦ 0 ≤ t.compare key (t.node n).key) = some n := by
  obtain ⟨l₁, l₂, rfl⟩ := List.append_of_mem hn
  obtain ⟨-, htail, hbefore⟩ := List.pairwise_append.mp h
  obtain ⟨hafter, -⟩ := List.pairwise_cons.mp htail
  have hgt : ∀ x ∈ l₁, 0 < t.compare key (t.node x).key := fun x hx ↦
    ho.lt_of_lt_of_le (hbefore x hx n List.mem_cons_self) hkey.ge
  have hlt : ∀ x ∈ l₂, t.compare key (t.node x).key < 0 := fun x hx ↦
    (ho.swap _ _).mpr (ho.lt_of_le_of_lt hkey.le (hafter x hx))
  refine ⟨?_, ?_, ?_⟩
  · refine List.find?_eq_some_iff_append.mpr ⟨by simpa using hkey, l₁, l₂, rfl, fun x hx ↦ ?_⟩
    simpa using (hgt x hx).ne'
  · refine List.find?_eq_some_iff_append.mpr ⟨by simp [hkey], l₁, l₂, rfl, fun x hx ↦ ?_⟩
    simpa using hgt x hx
  · refine List.find?_eq_some_iff_append.mpr
      ⟨by simp [hkey], l₂.reverse, l₁.reverse, by simp, fun x hx ↦ ?_⟩
    simpa using hlt x (List.mem_reverse.mp hx)

theorem findFrom_eq (ho : TotalOrder t.compare) (key : K) {s : Slot N} (h : Laid (links t) s T)
    (hsorted : Ascending t (inorder T)) {fuel : ℕ} (hfuel : T.height ≤ fuel) :
    findFrom t t.compare key fuel (rootOf T) = .ok ((inorder T).find? fun n ↦
      t.compare key (t.node n).key = 0) := by
  rw [findFrom_eq_findNodeFrom, findNodeFrom_eq _ key h hfuel]
  refine congrArg _ (Eq.symm ?_)
  have hfinds := seek_finds (hsorted.falls ho key)
  cases hfound : seek (fun n ↦ t.compare key (t.node n).key) T with
  | none =>
    refine List.find?_eq_none.mpr fun n hn ↦ ?_
    rw [decide_eq_true_iff]
    exact hfinds.missing hfound n hn
  | some n =>
    obtain ⟨hn, hzero⟩ := hfinds.zero n hfound
    exact (find?_of_equal ho hsorted hn hzero).1

structure NearestKeys (t : CUavlTree N K V) (key : K) (l : List N) (geq leq found : Option N) :
    Prop where
  least : Nearest (fun n m ↦ t.compare (t.node n).key (t.node m).key ≤ 0)
    (fun n ↦ t.compare key (t.node n).key ≤ 0) l geq
  greatest : Nearest (fun n m ↦ 0 ≤ t.compare (t.node n).key (t.node m).key)
    (fun n ↦ 0 ≤ t.compare key (t.node n).key) l leq
  equal : ∀ n, found = some n ↔ n ∈ l ∧ t.compare key (t.node n).key = 0
  both : ∀ n, found = some n ↔ geq = some n ∧ leq = some n

theorem nearestKeys (ho : TotalOrder t.compare) {l : List N} (h : Ascending t l) (key : K) :
    NearestKeys t key l (l.find? fun n ↦ 0 ≥ t.compare key (t.node n).key)
      (l.reverse.find? fun n ↦ 0 ≤ t.compare key (t.node n).key)
      (l.find? fun n ↦ t.compare key (t.node n).key = 0) := by
  have hequal : ∀ n, l.find? (fun n ↦ t.compare key (t.node n).key = 0) = some n ↔
      n ∈ l ∧ t.compare key (t.node n).key = 0 := by
    refine fun n ↦ ⟨fun hn ↦ ⟨List.mem_of_find?_eq_some hn, ?_⟩, fun hn ↦ ?_⟩
    · simpa using List.find?_some hn
    · exact (find?_of_equal ho h hn.1 hn.2).1
  refine ⟨?_, ?_, hequal, fun n ↦ ?_⟩
  · have hleast := find?_nearest (p := fun n ↦ 0 ≥ t.compare key (t.node n).key) h
      (fun n m hnm ↦ hnm.le) (fun n ↦ (ho.self _).le)
    simpa using hleast
  · have hpair := List.pairwise_reverse.mpr (h.imp fun {n m} hnm ↦ (ho.swap _ _).mp hnm)
    have hgreatest := find?_nearest (p := fun n ↦ 0 ≤ t.compare key (t.node n).key) hpair
      (fun n m hnm ↦ hnm.le) (fun n ↦ (ho.self _).ge)
    simpa using hgreatest.of_mem fun n ↦ List.mem_reverse
  · rw [hequal]
    refine ⟨fun hn ↦ (find?_of_equal ho h hn.1 hn.2).2, fun ⟨hgeq, hleq⟩ ↦
      ⟨List.mem_of_find?_eq_some hgeq, ?_⟩⟩
    have hle := List.find?_some hgeq
    have hge := List.find?_some hleq
    simp only [ge_iff_le, decide_eq_true_eq] at hle hge
    exact le_antisymm hle hge

theorem queries_eq [DecidableEq N] (ho : TotalOrder t.compare) (h : AvlTree t T) (key : K)
    {fuel : ℕ} (hfuel : T.height ≤ fuel) :
    cuAvlTreeNodeFindGEQ t fuel key =
        .ok ((inorder T).find? fun n ↦ 0 ≥ t.compare key (t.node n).key) ∧
      cuAvlTreeNodeFindLEQ t fuel key =
        .ok ((inorder T).reverse.find? fun n ↦ 0 ≤ t.compare key (t.node n).key) ∧
      cuAvlTreeNodeFind t fuel key =
        .ok ((inorder T).find? fun n ↦ t.compare key (t.node n).key = 0) := by
  have hroot : t.root = rootOf T := h.laid.load_eq
  refine ⟨?_, ?_, ?_⟩
  · have hgeq := findBest_eq false (fun c ↦ 0 ≥ c) (fun _ ↦ rfl) ho key h.laid h.sorted hfuel none
    rw [cuAvlTreeNodeFindGEQ, hroot, hgeq, Option.or_none]
    rfl
  · have hleq := findBest_eq true (fun c ↦ 0 ≤ c) (fun c ↦ by simp [toward]) ho key h.laid
      h.sorted hfuel none
    rw [cuAvlTreeNodeFindLEQ, hroot, hleq, Option.or_none]
    rfl
  · rw [cuAvlTreeNodeFind, cuAvlTreeNodeFindWithComparator, hroot]
    exact findFrom_eq ho key h.laid h.sorted hfuel

/-- The nodes found in a tree are those with the nearest keys. -/
theorem cuAvlTree_nearestKeys {s : AvlState N K V} [DecidableEq N] (h : AvlReachable s) :
    ∃ T, AvlTree s.tree T ∧ (inorder T).Perm s.live ∧ ∀ key fuel, (inorder T).length ≤ fuel →
      ∃ geq leq found, cuAvlTreeNodeFindGEQ s.tree fuel key = .ok geq ∧
        cuAvlTreeNodeFindLEQ s.tree fuel key = .ok leq ∧
        cuAvlTreeNodeFind s.tree fuel key = .ok found ∧
        NearestKeys s.tree key (inorder T) geq leq found := by
  obtain ⟨T, hs⟩ := h.sound
  refine ⟨T, hs.avl, hs.perm, fun key fuel hfuel ↦ ?_⟩
  obtain ⟨hgeq, hleq, hfound⟩ := queries_eq hs.order hs.avl key ((height_le_length T).trans hfuel)
  exact ⟨_, _, _, hgeq, hleq, hfound, nearestKeys hs.order hs.avl.sorted key⟩

theorem cuAvlTree_nearestKeys_three : ∃ T, AvlTree three.tree T ∧
    NearestKeys three.tree 6 (inorder T) (some 2) (some 2) (some 2) := by
  obtain ⟨T, havl, hperm, hquery⟩ := cuAvlTree_nearestKeys three_reachable
  have hlength : (inorder T).length ≤ 9 := hperm.length_eq.trans_le (by decide +kernel)
  obtain ⟨geq, leq, found, hgeq, hleq, hfound, hnearest⟩ := hquery 6 9 hlength
  have hgeq' : cuAvlTreeNodeFindGEQ three.tree 9 6 = .ok (some 2) := by decide +kernel
  have hleq' : cuAvlTreeNodeFindLEQ three.tree 9 6 = .ok (some 2) := by decide +kernel
  have hfound' : cuAvlTreeNodeFind three.tree 9 6 = .ok (some 2) := by decide +kernel
  obtain rfl := Except.ok.inj (hgeq.symm.trans hgeq')
  obtain rfl := Except.ok.inj (hleq.symm.trans hleq')
  obtain rfl := Except.ok.inj (hfound.symm.trans hfound')
  exact ⟨T, havl, hnearest⟩

/-- Any comparator whose signs fall along the tree finds a node where it is zero, if there is
one. -/
theorem cuAvlTree_findsForeign {s : AvlState N K V} [DecidableEq N] (h : AvlReachable s) :
    ∃ T, AvlTree s.tree T ∧ (inorder T).Perm s.live ∧ ∀ key fuel, (inorder T).length ≤ fuel →
      (∀ comparator : K → K → ℤ,
        SignsFall (fun n ↦ comparator key (s.tree.node n).key) (inorder T) →
        ∃ found, cuAvlTreeNodeFindWithComparator s.tree fuel key comparator = .ok found ∧
          Finds (fun n ↦ comparator key (s.tree.node n).key) (inorder T) found) ∧
      ∀ comparator : K → N → ℤ, SignsFall (comparator key) (inorder T) →
        ∃ found, cuAvlTreeNodeFindWithNodeComparator s.tree fuel key comparator = .ok found ∧
          Finds (comparator key) (inorder T) found := by
  obtain ⟨T, hs⟩ := h.sound
  have hroot : s.tree.root = rootOf T := hs.avl.laid.load_eq
  refine ⟨T, hs.avl, hs.perm, fun key fuel hfuel ↦ ?_⟩
  have hheight := (height_le_length T).trans hfuel
  have hrun := fun comparator ↦ findNodeFrom_eq comparator key hs.avl.laid hheight
  refine ⟨fun comparator hfall ↦ ⟨_, ?_, seek_finds hfall.pairwise⟩,
    fun comparator hfall ↦ ⟨_, ?_, seek_finds hfall.pairwise⟩⟩
  · rw [cuAvlTreeNodeFindWithComparator, findFrom_eq_findNodeFrom, hroot]
    exact hrun fun key n ↦ comparator key (s.tree.node n).key
  · rw [cuAvlTreeNodeFindWithNodeComparator, hroot]
    exact hrun comparator

theorem three_inorder {T : BinaryTree ℕ} (h : AvlTree three.tree T)
    (hperm : (inorder T).Perm three.live) : inorder T = [0, 2, 1] := by
  have hlive : three.live = [0, 1, 2] := by decide +kernel
  have hmem := List.mem_permutations'.mpr (hlive ▸ hperm)
  have hall : ∀ l ∈ List.permutations' [0, 1, 2], (l.Pairwise fun a b ↦
      three.tree.compare (three.tree.node a).key (three.tree.node b).key < 0) →
      l = [0, 2, 1] := by decide +kernel
  exact hall _ hmem h.sorted

/-- The keys 5 and 6 of the nodes 0 and 2 are both taken for 6. -/
theorem cuAvlTree_findsForeign_three : ∃ T, AvlTree three.tree T ∧
    cuAvlTreeNodeFindWithComparator three.tree 9 6 (fun a b ↦ (a - b) / 2) = .ok (some 2) ∧
    Finds (fun n ↦ (6 - (three.tree.node n).key) / 2) (inorder T) (some 2) := by
  obtain ⟨T, havl, hperm, hfind⟩ := cuAvlTree_findsForeign three_reachable
  have hinorder := three_inorder havl hperm
  obtain ⟨hkeys, -⟩ := hfind 6 9 (by rw [hinorder]; decide)
  obtain ⟨found, hrun, hfinds⟩ := hkeys (fun a b ↦ (a - b) / 2) (by
    rw [hinorder]
    exact ⟨[], [0, 2], [1], rfl, by decide +kernel, by decide +kernel, by decide +kernel⟩)
  have hrun' : cuAvlTreeNodeFindWithComparator three.tree 9 6 (fun a b ↦ (a - b) / 2) =
      .ok (some 2) := by decide +kernel
  obtain rfl := Except.ok.inj (hrun.symm.trans hrun')
  exact ⟨T, havl, hrun, hfinds⟩

/-- The loop returns after at most `k` iterations, each of which visits one node. -/
def Within (k : ℕ) (loop : ℕ → Exec (Option N)) : Prop :=
  ∃ r, ∀ fuel, k ≤ fuel → loop fuel = .ok r

/-- A tree of height `h` has at least `Nat.fib (h + 2) - 1` nodes, and no query visits more than
`h` of them. -/
theorem cuAvlTree_shallow {s : AvlState N K V} [DecidableEq N] (h : AvlReachable s) :
    ∃ T, AvlTree s.tree T ∧ (inorder T).Perm s.live ∧
      ∃ k : ℕ, cuAvlTreeNodeGetHeight s.tree s.tree.root = k ∧
        Nat.fib (k + 2) - 1 ≤ (inorder T).length ∧ ∀ key,
          Within k (fun fuel ↦ cuAvlTreeNodeFind s.tree fuel key) ∧
          Within k (fun fuel ↦ cuAvlTreeNodeFindGEQ s.tree fuel key) ∧
          Within k (fun fuel ↦ cuAvlTreeNodeFindLEQ s.tree fuel key) := by
  obtain ⟨T, hs⟩ := h.sound
  have hroot : s.tree.root = rootOf T := hs.avl.laid.load_eq
  refine ⟨T, hs.avl, hs.perm, T.height, ?_, Nat.sub_le_of_le_add hs.avl.balanced.fib_le,
    fun key ↦ ?_⟩
  · rw [hroot]
    exact getHeight_eq hs.avl.balanced
  · have hrun := fun fuel (hfuel : T.height ≤ fuel) ↦ queries_eq hs.order hs.avl key hfuel
    exact ⟨⟨_, fun fuel hfuel ↦ (hrun fuel hfuel).2.2⟩, ⟨_, fun fuel hfuel ↦ (hrun fuel hfuel).1⟩,
      ⟨_, fun fuel hfuel ↦ (hrun fuel hfuel).2.1⟩⟩

theorem cuAvlTree_shallow_three : ∃ T, AvlTree three.tree T ∧
    Nat.fib 4 - 1 ≤ (inorder T).length ∧
    Within 2 fun fuel ↦ cuAvlTreeNodeFindGEQ three.tree fuel 6 := by
  obtain ⟨T, havl, -, k, hk, hfib, hqueries⟩ := cuAvlTree_shallow three_reachable
  have hheight : cuAvlTreeNodeGetHeight three.tree three.tree.root = 2 := by decide +kernel
  obtain rfl : k = 2 := by omega
  exact ⟨T, havl, hfib, (hqueries 6).2.1⟩

end RadixBench.Avl
