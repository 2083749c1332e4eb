import RadixBench.Avl.Query

namespace RadixBench.Avl

open Foundation CUavlTree

variable {N K V : Type} {t : CUavlTree N K V} {T : BinaryTree N}

def arcs (t : CUavlTree N K V) : Links N := ⟨t.load, fun _ _ ↦ True⟩

/-- The child pointers form a finite binary tree, with arbitrary keys, heights and parents. -/
structure Shaped (t : CUavlTree N K V) (T : BinaryTree N) : Prop where
  laid : Laid (arcs t) .root T
  nodup : (inorder T).Nodup

def OnSide (t : CUavlTree N K V) (side : Bool) (n m : N) : Prop :=
  toward side (t.compare (t.node m).key (t.node n).key) < 0

def Adopted (t : CUavlTree N K V) : BinaryTree N → Prop :=
  EachChild fun _ n m ↦ (t.node m).parent = some n

structure Valid (t : CUavlTree N K V) (T : BinaryTree N) : Prop where
  sorted : Ascending t (inorder T)
  balanced : Balanced (heightOf t) T
  adopted : Adopted t T

/-- Keys are only compared between a node and its children. -/
structure LocallyValid (t : CUavlTree N K V) (T : BinaryTree N) : Prop where
  ordered : EachChild (OnSide t) T
  balanced : Balanced (heightOf t) T
  adopted : Adopted t T

theorem locallyValid_nil : LocallyValid t .nil := ⟨trivial, trivial, trivial⟩

theorem locallyValid_node {n : N} {l r : BinaryTree N} :
    LocallyValid t (.node n l r) ↔
      ((∀ m, rootOf l = some m → OnSide t false n m ∧ some n = (t.node m).parent) ∧
        LocallyValid t l) ∧
      ((∀ m, rootOf r = some m → OnSide t true n m ∧ some n = (t.node m).parent) ∧
        LocallyValid t r) ∧
      heightOf t n = (BinaryTree.node n l r).height ∧ l.height ≤ r.height + 1 ∧
        r.height ≤ l.height + 1 := by
  simp only [eq_comm (a := some n)]
  constructor
  · rintro ⟨⟨hol, hor, hl, hr⟩, ⟨hn, hlr, hrl, hbl, hbr⟩, hpl, hpr, hal, har⟩
    exact ⟨⟨fun m hm ↦ ⟨hol m hm, hpl m hm⟩, hl, hbl, hal⟩,
      ⟨fun m hm ↦ ⟨hor m hm, hpr m hm⟩, hr, hbr, har⟩, hn, hlr, hrl⟩
  · rintro ⟨⟨hl, hol, hbl, hal⟩, ⟨hr, hor, hbr, har⟩, hn, hlr, hrl⟩
    exact ⟨⟨fun m hm ↦ (hl m hm).1, fun m hm ↦ (hr m hm).1, hol, hor⟩, ⟨hn, hlr, hrl, hbl, hbr⟩,
      fun m hm ↦ (hl m hm).2, fun m hm ↦ (hr m hm).2, hal, har⟩

theorem asserts_getBalance (n : N) : Asserts
    (cuAvlTreeNodeGetHeight t (t.left n) - cuAvlTreeNodeGetHeight t (t.right n) ≤ 2)
    (cuAvlTreeNodeGetBalance t (some n))
    (cuAvlTreeNodeGetHeight t (t.left n) - cuAvlTreeNodeGetHeight t (t.right n)) :=
  asserts_check_ok _ _

theorem asserts_getChild (n : N) (compare : ℤ) : Asserts (compare ≠ 0)
    (cuAvlTreeNodeGetChild t n compare) (if 0 > compare then t.left n else t.right n) :=
  asserts_check_ok _ _

theorem getChild_onSide {n m : N} {side : Bool} (hm : t.load (.child n side) = some m)
    (hne : t.load (.child n !side) ≠ some m) :
    (t.compare (t.node m).key (t.node n).key ≠ 0 ∧
      some m = if 0 > t.compare (t.node m).key (t.node n).key then t.left n else t.right n) ↔
    OnSide t side n m := by
  rw [OnSide]
  generalize t.compare (t.node m).key (t.node n).key = c
  cases side
  · have hleft : t.left n = some m := hm
    have hright : t.right n ≠ some m := hne
    refine ⟨fun ⟨_, heq⟩ ↦ ?_, fun hlt ↦ ⟨hlt.ne, ?_⟩⟩
    · by_contra hge
      rw [if_neg (show ¬ 0 > c from hge)] at heq
      exact hright heq.symm
    · rw [if_pos (show 0 > c from hlt), hleft]
  · have hleft : t.left n ≠ some m := hne
    have hright : t.right n = some m := hm
    have hgt : toward true c < 0 ↔ 0 < c := neg_lt_zero
    rw [hgt]
    refine ⟨fun ⟨hzero, heq⟩ ↦ ?_, fun hlt ↦ ⟨hlt.ne', ?_⟩⟩
    · by_contra hle
      rw [if_pos (by omega)] at heq
      exact hleft heq.symm
    · rw [if_neg (by omega), hright]

theorem asserts_child [DecidableEq N] {n : N} {side : Bool} {u : BinaryTree N}
    {recurse : N → Exec ℤ} {P : Prop} (hu : t.load (.child n side) = rootOf u)
    (hne : ∀ m, rootOf u = some m → t.load (.child n !side) ≠ some m)
    (hrecurse : ∀ m, rootOf u = some m → Asserts P (recurse m) u.height)
    (hnil : u = .nil → P) : Asserts
      ((∀ m, rootOf u = some m → OnSide t side n m ∧ some n = (t.node m).parent) ∧ P)
      (assertValidChild t recurse n side) u.height := by
  have hchild : (t.node n).child side = rootOf u := hu
  rw [assertValidChild, hchild]
  cases u with
  | nil => exact (asserts_ok _).congr (by simpa using hnil)
  | node m a b =>
    refine Asserts.congr ((asserts_getChild n _).bind fun _ ↦ (asserts_check _).bind fun _ ↦
      (asserts_check _).bind fun _ ↦ hrecurse m rfl) ?_
    rw [← and_assoc, getChild_onSide hu (hne m rfl)]
    simp [and_assoc]

theorem balance_checks {l r : BinaryTree N} {n : N} (hl : t.left n = rootOf l)
    (hr : t.right n = rootOf r) (hbl : Balanced (heightOf t) l) (hbr : Balanced (heightOf t) r) :
    (cuAvlTreeNodeGetHeight t (t.left n) - cuAvlTreeNodeGetHeight t (t.right n) ≤ 2 ∧
      -2 < cuAvlTreeNodeGetHeight t (t.left n) - cuAvlTreeNodeGetHeight t (t.right n) ∧
      2 > cuAvlTreeNodeGetHeight t (t.left n) - cuAvlTreeNodeGetHeight t (t.right n)) ↔
    l.height ≤ r.height + 1 ∧ r.height ≤ l.height + 1 := by
  rw [hl, hr, getHeight_eq hbl, getHeight_eq hbr]
  omega

/-- One call checks the whole subtree, and its result is the height. -/
theorem assertValidRecursive_asserts [DecidableEq N] {s : Slot N} (h : Laid (arcs t) s T)
    (hnodup : (inorder T).Nodup) {fuel : ℕ} (hfuel : T.height ≤ fuel) {n : N}
    (hn : rootOf T = some n) : Asserts (LocallyValid t T)
      (cuAvlTreeAssertValidRecursive t fuel (some n)) T.height := by
  induction T generalizing s fuel n with
  | nil => cases hn
  | node m l r ihl ihr =>
    obtain rfl := Option.some.inj hn
    cases fuel with
    | zero => cases hfuel
    | succ fuel =>
    obtain ⟨-, -, hl, hr⟩ := h
    have hheight : max l.height r.height ≤ fuel := Nat.le_of_succ_le_succ hfuel
    have hl' : t.load (.child m false) = rootOf l := hl.load_eq
    have hr' : t.load (.child m true) = rootOf r := hr.load_eq
    obtain ⟨hnl, hnm, -⟩ := List.nodup_append'.mp hnodup
    have hnr := (List.nodup_cons.mp hnm).2
    have hleft : ∀ x, rootOf l = some x → t.load (.child m true) ≠ some x := fun x hx hx' ↦
      rootOf_ne_rootOf hnodup hx (hr'.symm.trans hx')
    have hright : ∀ x, rootOf r = some x → t.load (.child m false) ≠ some x := fun x hx hx' ↦
      rootOf_ne_rootOf hnodup (hl'.symm.trans hx') hx
    have hresult : ((BinaryTree.node m l r).height : ℤ) = max (l.height : ℤ) r.height + 1 := by
      rw [BinaryTree.height]
      omega
    have hrunl : Asserts _ (assertValidChild t
        (fun x ↦ cuAvlTreeAssertValidRecursive t fuel (some x)) m false) l.height :=
      asserts_child hl' hleft (fun x hx ↦ ihl hl hnl (by omega) hx) fun hnil ↦
        hnil ▸ locallyValid_nil
    have hrunr : Asserts _ (assertValidChild t
        (fun x ↦ cuAvlTreeAssertValidRecursive t fuel (some x)) m true) r.height :=
      asserts_child hr' hright (fun x hx ↦ ihr hr hnr (by omega) hx) fun hnil ↦
        hnil ▸ locallyValid_nil
    rw [cuAvlTreeAssertValidRecursive, hresult]
    -- The assertions in the order in which they are made.
    refine Asserts.congr ((asserts_getBalance m).bind fun _ ↦ (asserts_check _).bind fun _ ↦
      hrunl.bind fun _ ↦ hrunr.bind fun _ ↦ asserts_check_ok _ _) ?_
    rw [locallyValid_node]
    have hchecks := fun (hl : LocallyValid t l) (hr : LocallyValid t r) ↦
      balance_checks hl' hr' hl.balanced hr.balanced
    constructor
    · rintro ⟨htwo, hbalance, hl, hr, hlast⟩
      exact ⟨hl, hr, hlast.symm.trans hresult.symm, (hchecks hl.2 hr.2).mp ⟨htwo, hbalance⟩⟩
    · rintro ⟨hl, hr, hstored, hbalance⟩
      obtain ⟨htwo, hbalance⟩ := (hchecks hl.2 hr.2).mpr hbalance
      exact ⟨htwo, hbalance, hl, hr, hresult.symm.trans hstored.symm⟩

theorem Valid.locallyValid (h : Valid t T) (ho : TotalOrder t.compare) : LocallyValid t T := by
  refine ⟨(eachChild_of_pairwise h.sorted).imp fun side n m hnm ↦ ?_, h.balanced, h.adopted⟩
  cases side with
  | false => exact hnm
  | true => exact neg_lt_zero.mpr ((ho.swap _ _).mp hnm)

theorem assertValid_asserts [DecidableEq N] (h : Shaped t T) {fuel : ℕ}
    (hfuel : T.height ≤ fuel) : Asserts (LocallyValid t T) (cuAvlTreeAssertValid t fuel) () := by
  have hroot : t.root = rootOf T := h.laid.load_eq
  rw [cuAvlTreeAssertValid, hroot]
  cases T with
  | nil =>
    rw [rootOf_nil, cuAvlTreeAssertValidRecursive]
    exact (asserts_ok ()).congr (iff_of_true trivial locallyValid_nil)
  | node n l r =>
    exact ((assertValidRecursive_asserts h.laid h.nodup hfuel rfl).bind fun _ ↦
      asserts_ok ()).congr (and_iff_left trivial)

theorem Laid.arcs {s : Slot N} (h : Laid (links t) s T) : Laid (arcs t) s T := by
  induction T generalizing s with
  | nil => exact h
  | node n l r ihl ihr => exact ⟨h.1, trivial, ihl h.2.2.1, ihr h.2.2.2⟩

theorem Laid.parent_of_root {s : Slot N} (h : Laid (links t) s T) {m : N}
    (hm : rootOf T = some m) : (t.node m).parent = s.owner := by
  cases T with
  | nil => cases hm
  | node n l r =>
    obtain rfl := Option.some.inj hm
    exact h.2.1

theorem Laid.adopted {s : Slot N} (h : Laid (links t) s T) : Adopted t T := by
  induction T generalizing s with
  | nil => trivial
  | node n l r ihl ihr =>
    obtain ⟨-, -, hl, hr⟩ := h
    exact ⟨fun m hm ↦ Laid.parent_of_root hl hm, fun m hm ↦ Laid.parent_of_root hr hm,
      ihl hl, ihr hr⟩

/-- The checker accepts the tree after every operation, as the code does in debug builds. -/
theorem AvlReachable.assertValid [DecidableEq N] {s : AvlState N K V} (h : AvlReachable s)
    {fuel : ℕ} (hfuel : s.live.length ≤ fuel) : cuAvlTreeAssertValid s.tree fuel = .ok () := by
  obtain ⟨T, hs⟩ := h.sound
  have hshaped : Shaped s.tree T := ⟨Laid.arcs hs.avl.laid, hs.avl.nodup hs.order⟩
  have hvalid : Valid s.tree T := ⟨hs.avl.sorted, hs.avl.balanced, Laid.adopted hs.avl.laid⟩
  have hheight := (height_le_length T).trans (hs.perm.length_eq.trans_le hfuel)
  exact (assertValid_asserts hshaped hheight).returns (hvalid.locallyValid hs.order)

/-- The checker stops at a tree where a node and its child are out of order, but the order of
nodes further apart is not its business. -/
theorem cuAvlTreeAssertValid_iff [DecidableEq N] (ho : TotalOrder t.compare) (h : Shaped t T)
    {fuel : ℕ} (hfuel : T.height ≤ fuel) :
    (cuAvlTreeAssertValid t fuel = .ok () ↔ LocallyValid t T) ∧
      (cuAvlTreeAssertValid t fuel ≠ .ok () →
        cuAvlTreeAssertValid t fuel = .error .assertionFailed) ∧
      (Valid t T ↔ cuAvlTreeAssertValid t fuel = .ok () ∧ Ascending t (inorder T)) := by
  have hrun := assertValid_asserts h hfuel
  refine ⟨hrun.ok_iff, fun hne ↦ hrun.fails fun hlocal ↦ hne (hrun.returns hlocal), ?_⟩
  refine ⟨fun hvalid ↦ ⟨hrun.returns (hvalid.locallyValid ho), hvalid.sorted⟩, fun ⟨hok, hs⟩ ↦ ?_⟩
  obtain ⟨-, hbalanced, hadopted⟩ := hrun.ok_iff.mp hok
  exact ⟨hs, hbalanced, hadopted⟩

def crossed : CUavlTree ℕ ℤ ℕ where
  compare a b := a - b
  root := some 0
  node
    | 0 => ⟨fun side ↦ bif side then some 2 else some 1, 10, 0, none, 3⟩
    | 1 => ⟨fun side ↦ bif side then some 3 else none, 5, 0, some 0, 2⟩
    | 2 => ⟨fun _ ↦ none, 15, 0, some 0, 1⟩
    | _ => ⟨fun _ ↦ none, 20, 0, some 1, 1⟩

def crossedShape : BinaryTree ℕ := .node 0 (.node 1 .nil (.node 3 .nil .nil)) (.node 2 .nil .nil)

theorem crossed_shaped : Shaped crossed crossedShape :=
  ⟨⟨rfl, trivial, ⟨rfl, trivial, rfl, ⟨rfl, trivial, rfl, rfl⟩⟩, ⟨rfl, trivial, rfl, rfl⟩⟩,
    by decide⟩

theorem cuAvlTreeAssertValid_iff_crossed : LocallyValid crossed crossedShape :=
  (cuAvlTreeAssertValid_iff totalOrder_sub crossed_shaped (by decide : _ ≤ 3)).1.mp (by decide)

/-- The key 20 is on the right of its parent's key 5, and nothing compares it with the key 10
of the root. -/
theorem cuAvlTreeAssertValid_misses : TotalOrder crossed.compare ∧ Shaped crossed crossedShape ∧
    crossedShape.height = 3 ∧
    ¬ (cuAvlTreeAssertValid crossed 3 = .ok () ↔ Valid crossed crossedShape) := by
  refine ⟨totalOrder_sub, crossed_shaped, rfl, fun hiff ↦ ?_⟩
  have hvalid := hiff.mp (by decide)
  have hunordered : ¬ (inorder crossedShape).Pairwise fun a b ↦
      crossed.compare (crossed.node a).key (crossed.node b).key < 0 := by decide
  exact hunordered hvalid.sorted

end RadixBench.Avl
