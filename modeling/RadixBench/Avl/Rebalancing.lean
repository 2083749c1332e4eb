import RadixBench.Avl.Rotation

namespace RadixBench.Avl

open Foundation CUavlTree

variable {N K V : Type} [DecidableEq N] {t t' t'' : CUavlTree N K V} {c : Context N}

omit [DecidableEq N] in
theorem getHeight_eq {u : BinaryTree N} (h : Balanced (heightOf t) u) :
    cuAvlTreeNodeGetHeight t (rootOf u) = u.height := by
  cases u with
  | nil => rfl
  | node n l r => exact h.1

omit [DecidableEq N] in
theorem getBalance_eq {s : Slot N} {n : N} {l r : BinaryTree N}
    (h : Laid (links t) s (.node n l r)) (hl : Balanced (heightOf t) l)
    (hr : Balanced (heightOf t) r) (hle : l.height ≤ r.height + 2) :
    cuAvlTreeNodeGetBalance t (some n) = .ok ((l.height : ℤ) - r.height) := by
  obtain ⟨-, -, hleft, hright⟩ := h
  have hl' : t.left n = rootOf l := hleft.load_eq
  have hr' : t.right n = rootOf r := hright.load_eq
  have hcheck : ((l.height : ℤ) - r.height) ≤ 2 := by omega
  rw [cuAvlTreeNodeGetBalance]
  simp only [hl', hr', getHeight_eq hl, getHeight_eq hr, check_of hcheck, ok_bind]

def outer (side : Bool) : ℤ := bif side then -1 else 1

omit [DecidableEq N] in
theorem getBalance_fill {s : Slot N} {x : N} {side : Bool} {a m : BinaryTree N}
    (h : Laid (links t) s (Frame.fill ⟨x, side, m⟩ a)) (ha : Balanced (heightOf t) a)
    (hm : Balanced (heightOf t) m) (hle : a.height ≤ m.height + 1) (hge : m.height ≤ a.height + 1) :
    cuAvlTreeNodeGetBalance t (some x) = .ok (outer side * ((a.height : ℤ) - m.height)) := by
  cases side with
  | false =>
    have h : Laid (links t) s (.node x a m) := h
    rw [getBalance_eq h ha hm (by omega), outer, cond_false, one_mul]
  | true =>
    have h : Laid (links t) s (.node x m a) := h
    rw [getBalance_eq h hm ha (by omega), outer, cond_true, neg_one_mul, neg_sub]

theorem rotate_balanced {n x : N} {side : Bool} {a m b : BinaryTree N}
    (h : Laid (links t) .root (plug c (Frame.fill ⟨n, side, b⟩ (Frame.fill ⟨x, side, m⟩ a))))
    (hnodup : (inorder (plug c (Frame.fill ⟨n, side, b⟩ (Frame.fill ⟨x, side, m⟩ a)))).Nodup)
    (ha : Balanced (heightOf t) a) (hm : Balanced (heightOf t) m) (hb : Balanced (heightOf t) b)
    (hbm : b.height ≤ m.height + 1) (hmb : m.height ≤ b.height + 1) :
    ∃ t', rotate t side n = .ok (t', x) ∧
      Reshaped t t' c (Frame.fill ⟨n, side, b⟩ (Frame.fill ⟨x, side, m⟩ a))
        (Frame.fill ⟨x, side, Frame.fill ⟨n, side, b⟩ m⟩ a) ∧
      Balanced (heightOf t') (Frame.fill ⟨n, side, b⟩ m) ∧ Balanced (heightOf t') a ∧
      heightOf t' x = (Frame.fill ⟨x, side, Frame.fill ⟨n, side, b⟩ m⟩ a).height ∧
      ∀ y, y ≠ n → y ≠ x → heightOf t' y = heightOf t y := by
  obtain ⟨t', hrun, hreshaped, hn, hx, hother⟩ := rotate_reshaped h hnodup
  obtain ⟨⟨-, hnb, hnm, hna, -⟩, ⟨hxb, hxm, hxa, -⟩, -⟩ := nodup_fill_fill hnodup
  have hkeep : ∀ {u : BinaryTree N}, n ∉ inorder u → x ∉ inorder u → Balanced (heightOf t) u →
      Balanced (heightOf t') u := fun hnu hxu hu ↦
    hu.congr fun y hy ↦ hother y (ne_of_mem_of_not_mem hy hnu) (ne_of_mem_of_not_mem hy hxu)
  rw [getHeight_eq hb, getHeight_eq hm] at hn
  rw [getHeight_eq ha] at hx
  have hn' : heightOf t' n = (Frame.fill ⟨n, side, b⟩ m).height := by
    rw [hn, height_fill]
    dsimp only
    omega
  refine ⟨t', hrun, hreshaped, ?_, hkeep hna hxa ha, ?_, hother⟩
  · exact balanced_fill.mpr ⟨hn', hbm, hmb, hkeep hnb hxb hb, hkeep hnm hxm hm⟩
  · rw [hx, hn', height_fill ⟨x, side, _⟩]
    dsimp only
    omega

/-- The branches of `rebalanceNode` for a subtree that is too tall, on the side `side`. -/
def straighten (t : CUavlTree N K V) (isDelete side : Bool) (node : N) :
    Exec (CUavlTree N K V × N) := do
  let balance ← cuAvlTreeNodeGetBalance t ((t.node node).child side)
  if balance = outer side then rotate t side node
  else if balance = 0 ∧ isDelete then rotate t side node
  else if balance = -outer side then do
    let child ← deref ((t.node node).child side)
    let (t, _) ← rotate t (!side) child
    rotate t side node
  else .ok (t, node)

theorem rebalanceNode_eq (t : CUavlTree N K V) (isDelete : Bool) (node : N) :
    rebalanceNode t isDelete node = (do
      let balance ← cuAvlTreeNodeGetBalance t (some node)
      if balance = -2 then straighten t isDelete true node
      else if balance = 2 then straighten t isDelete false node
      else .ok (t, node)) := rfl

omit [DecidableEq N] in
theorem fill_swap (x : N) (side : Bool) (a m : BinaryTree N) :
    Frame.fill ⟨x, side, m⟩ a = Frame.fill ⟨x, !side, a⟩ m := by cases side <;> rfl

omit [DecidableEq N] in
theorem exists_fill {u : BinaryTree N} (h : u ≠ .nil) (side : Bool) :
    ∃ x m a, u = Frame.fill ⟨x, side, m⟩ a := by
  cases u with
  | nil => exact absurd rfl h
  | node x l r =>
    cases side with
    | false => exact ⟨x, r, l, rfl⟩
    | true => exact ⟨x, l, r, rfl⟩

omit [DecidableEq N] in
@[simp] theorem rootOf_fill (f : Frame N) (u : BinaryTree N) : rootOf (f.fill u) = some f.node := by
  obtain ⟨n, side, other⟩ := f
  cases side <;> rfl

theorem rotate_twice {n x y : N} {side : Bool} {a p q b : BinaryTree N}
    (h : Laid (links t) .root (plug c (Frame.fill ⟨n, side, b⟩
      (Frame.fill ⟨x, side, Frame.fill ⟨y, !side, q⟩ p⟩ a))))
    (hnodup : (inorder (plug c (Frame.fill ⟨n, side, b⟩
      (Frame.fill ⟨x, side, Frame.fill ⟨y, !side, q⟩ p⟩ a)))).Nodup)
    (ha : Balanced (heightOf t) a) (hp : Balanced (heightOf t) p) (hq : Balanced (heightOf t) q)
    (hb : Balanced (heightOf t) b) (hbp : b.height ≤ p.height + 1) (hpb : p.height ≤ b.height + 1)
    (haq : a.height ≤ q.height + 1) (hqa : q.height ≤ a.height + 1)
    (hle : max b.height p.height ≤ max a.height q.height + 1)
    (hge : max a.height q.height ≤ max b.height p.height + 1) :
    ∃ t₁ t', rotate t (!side) x = .ok (t₁, y) ∧ rotate t₁ side n = .ok (t', y) ∧
      Reshaped t t' c (Frame.fill ⟨n, side, b⟩
          (Frame.fill ⟨x, side, Frame.fill ⟨y, !side, q⟩ p⟩ a))
        (Frame.fill ⟨y, side, Frame.fill ⟨n, side, b⟩ p⟩ (Frame.fill ⟨x, !side, a⟩ q)) ∧
      Balanced (heightOf t')
        (Frame.fill ⟨y, side, Frame.fill ⟨n, side, b⟩ p⟩ (Frame.fill ⟨x, !side, a⟩ q)) := by
  obtain ⟨-, ⟨hxb, -⟩, -, hapart, -⟩ := nodup_fill_fill hnodup
  have hyb : y ∉ inorder b := fun hmem ↦ (hapart y hmem).1 (mem_fill.mpr (.inl rfl))
  rw [fill_swap x side a] at h hnodup ⊢
  obtain ⟨t₁, hrun₁, hreshaped₁, hlow, hp₁, -, hother⟩ :=
    rotate_balanced (c := ⟨n, side, b⟩ :: c) h hnodup hp hq ha haq hqa
  have hb₁ : Balanced (heightOf t₁) b := hb.congr fun z hz ↦
    hother z (ne_of_mem_of_not_mem hz hxb) (ne_of_mem_of_not_mem hz hyb)
  have hnodup₁ := hreshaped₁.nodup hnodup
  rw [← fill_swap y side (Frame.fill ⟨x, !side, a⟩ q) p] at hreshaped₁ hnodup₁
  obtain ⟨t', hrun₂, hreshaped₂, hup, hlow', hy, -⟩ :=
    rotate_balanced hreshaped₁.laid hnodup₁ hlow hp₁ hb₁ hbp hpb
  refine ⟨t₁, t', hrun₁, hrun₂, hreshaped₁.fill.trans hreshaped₂, ?_⟩
  refine balanced_fill.mpr ⟨hy, ?_, ?_, hup, hlow'⟩
  · rw [height_fill, height_fill]
    exact Nat.succ_le_succ hle
  · rw [height_fill, height_fill]
    exact Nat.succ_le_succ hge

inductive Branch
  | single
  | level
  | double
  deriving DecidableEq, Repr

def Branch.Taken (isDelete side : Bool) (balance : ℤ) : Branch → Prop
  | .single => balance = outer side
  | .level => balance = 0 ∧ isDelete = true
  | .double => balance = -outer side

def PullsUp (t : CUavlTree N K V) (side : Bool) (node : N) (t' : CUavlTree N K V) (child : N) :
    Prop :=
  (t.node node).child side = some child ∧ rotate t side node = .ok (t', child)

def Branch.Rotates (t : CUavlTree N K V) (side : Bool) (node child : N) (t' : CUavlTree N K V)
    (top : N) : Branch → Prop
  | .double => ∃ t₁, PullsUp t (!side) child t₁ top ∧ PullsUp t₁ side node t' top
  | _ => top = child ∧ PullsUp t side node t' child

theorem outer_cases (side : Bool) : outer side = 1 ∨ outer side = -1 := by
  cases side <;> simp [outer]

theorem Branch.Taken.unique {isDelete side : Bool} {balance : ℤ} {b b' : Branch}
    (h : b.Taken isDelete side balance) (h' : b'.Taken isDelete side balance) : b' = b := by
  have houter := outer_cases side
  cases b <;> cases b' <;> simp only [Branch.Taken] at h h' <;> first | rfl | omega

theorem rotate_child {side : Bool} {n x : N} (h : rotate t side n = .ok (t', x)) :
    (t.node n).child side = some x := by
  rw [rotate] at h
  obtain ⟨link, -, h⟩ := bind_eq_ok.mp h
  obtain ⟨child, hchild, h⟩ := bind_eq_ok.mp h
  cases hx : (t.node n).child side with
  | none => simp [hx] at hchild
  | some y =>
    rw [hx, deref_some] at hchild
    obtain rfl := Except.ok.inj hchild
    exact congrArg some (Prod.mk.inj (Except.ok.inj h)).2

theorem straighten_of_taken {isDelete side : Bool} {n x top : N} {balance : ℤ} {b : Branch}
    (hx : (t.node n).child side = some x)
    (hbalance : cuAvlTreeNodeGetBalance t (some x) = .ok balance)
    (hb : b.Taken isDelete side balance) (hrot : b.Rotates t side n x t' top) :
    straighten t isDelete side n = .ok (t', top) := by
  have houter := outer_cases side
  rw [straighten, hx, hbalance, ok_bind, deref_some]
  cases b with
  | single =>
    obtain ⟨rfl, -, hrun⟩ := hrot
    have hsingle : balance = outer side := hb
    rw [if_pos hsingle, hrun]
  | level =>
    obtain ⟨rfl, -, hrun⟩ := hrot
    have hlevel : balance = 0 ∧ isDelete = true := hb
    rw [if_neg (by omega), if_pos hlevel, hrun]
  | double =>
    obtain ⟨t₁, ⟨-, hrun₁⟩, -, hrun₂⟩ := hrot
    have hdouble : balance = -outer side := hb
    rw [if_neg (by omega), if_neg (by omega), if_pos hdouble, ok_bind, hrun₁]
    exact hrun₂

theorem straighten_lowered (side : Bool) {n : N} {isDelete : Bool} {b u : BinaryTree N}
    (h : Laid (links t) .root (plug c (Frame.fill ⟨n, side, b⟩ u)))
    (hnodup : (inorder (plug c (Frame.fill ⟨n, side, b⟩ u))).Nodup)
    (hb : Balanced (heightOf t) b) (hu : Balanced (heightOf t) u)
    (htall : u.height = b.height + 2) (huneven : isDelete = false → Uneven u) :
    ∃ x balance, ∃ branch : Branch, ∃ t' n' v, (t.node n).child side = some x ∧
      cuAvlTreeNodeGetBalance t (some x) = .ok balance ∧ branch.Taken isDelete side balance ∧
      branch.Rotates t side n x t' n' ∧ Reshaped t t' c (Frame.fill ⟨n, side, b⟩ u) v ∧
      rootOf v = some n' ∧ Balanced (heightOf t') v ∧ Lowered u b v := by
  have hne : u ≠ .nil := by
    rintro rfl
    exact absurd htall (by simp)
  obtain ⟨x, m, a, rfl⟩ := exists_fill hne side
  obtain ⟨-, hma, ham, hm, ha⟩ := balanced_fill.mp hu
  rw [height_fill] at htall
  rw [uneven_fill] at huneven
  dsimp only at hma ham hm htall huneven
  obtain ⟨-, hfill⟩ := laid_plug.mp h
  obtain ⟨-, -, -, hlaid⟩ := laid_fill.mp hfill
  have hchild : (t.node n).child side = some x := hlaid.load_eq.trans (rootOf_fill _ _)
  have hbalance := getBalance_fill hlaid ha hm ham hma
  by_cases hdouble : m.height = a.height + 1
  · -- The inner subtree is the taller one, and its root comes up twice.
    have hout : outer side * ((a.height : ℤ) - m.height) = -outer side := by
      rw [hdouble, Nat.cast_succ, sub_add_cancel_left, mul_neg_one]
    have hne : m ≠ .nil := by
      rintro rfl
      exact absurd hdouble (by simp)
    obtain ⟨y, q, p, rfl⟩ := exists_fill hne (!side)
    obtain ⟨-, hqp, hpq, hq, hp⟩ := balanced_fill.mp hm
    rw [height_fill] at hdouble htall
    dsimp only at hqp hpq hq hdouble htall
    obtain ⟨t₁, t', hrun₁, hrun₂, hreshaped, hbal⟩ :=
      rotate_twice h hnodup ha hp hq hb (by omega) (by omega) (by omega) (by omega) (by omega)
        (by omega)
    refine ⟨x, _, .double, t', y, _, hchild, hbalance, hout,
      ⟨t₁, ⟨rotate_child hrun₁, hrun₁⟩, rotate_child hrun₂, hrun₂⟩, hreshaped, by simp, hbal, ?_⟩
    rw [Lowered, uneven_fill, height_fill, height_fill, height_fill, height_fill, height_fill]
    dsimp only
    omega
  · obtain ⟨t', hrun, hreshaped, hbal, ha', hx, -⟩ :=
      rotate_balanced h hnodup ha hm hb (by omega) (by omega)
    obtain ⟨branch, hbranch, hrot⟩ : ∃ branch : Branch,
        branch.Taken isDelete side (outer side * ((a.height : ℤ) - m.height)) ∧
        branch.Rotates t side n x t' x := by
      by_cases heven : m.height = a.height
      · have hdelete : isDelete = true := by
          cases isDelete with
          | false => exact absurd heven (huneven rfl)
          | true => rfl
        exact ⟨.level, ⟨by rw [heven, sub_self, mul_zero], hdelete⟩, rfl, hchild, hrun⟩
      · have hone : a.height = m.height + 1 := by omega
        refine ⟨.single, ?_, rfl, hchild, hrun⟩
        rw [Branch.Taken, hone, Nat.cast_succ, add_sub_cancel_left, mul_one]
    refine ⟨x, _, branch, t', x, Frame.fill ⟨x, side, Frame.fill ⟨n, side, b⟩ m⟩ a, hchild, hbalance,
      hbranch, hrot, hreshaped, by simp, ?_, ?_⟩
    · refine balanced_fill.mpr ⟨hx, ?_, ?_, hbal, ha'⟩
      · rw [height_fill]
        dsimp only
        omega
      · rw [height_fill]
        dsimp only
        omega
    · rw [Lowered, uneven_fill, height_fill, height_fill, height_fill]
      dsimp only
      omega

theorem rebalanceNode_mended {n : N} {isDelete : Bool} {l r : BinaryTree N}
    (h : Laid (links t) .root (plug c (.node n l r)))
    (hnodup : (inorder (plug c (.node n l r))).Nodup) (hl : Balanced (heightOf t) l)
    (hr : Balanced (heightOf t) r) (hm : Mendable isDelete l r) :
    ∃ t' n' l' r', rebalanceNode t isDelete n = .ok (t', n') ∧
      Reshaped t t' c (.node n l r) (.node n' l' r') ∧ Balanced (heightOf t') l' ∧
      Balanced (heightOf t') r' ∧ l'.height ≤ r'.height + 1 ∧ r'.height ≤ l'.height + 1 ∧
      Mended l r (.node n' l' r') := by
  have hbalance := getBalance_eq (laid_plug.mp h).2 hl hr hm.left
  rw [rebalanceNode_eq, hbalance, ok_bind]
  by_cases hright : r.height = l.height + 2
  · obtain ⟨x, balance, branch, t', n', v, hx, hbalance', htaken, hrot, hreshaped, hv, hbal, hlow⟩ :=
      straighten_lowered true h hnodup hl hr hright fun hd ↦ hm.uneven_right hd hright
    obtain ⟨l', r', rfl, hl', hr', hlr, hrl⟩ := hbal.exists_node hv
    refine ⟨t', n', l', r', ?_, hreshaped, hl', hr', hlr, hrl, .inr (.inr hlow)⟩
    rw [if_pos (by omega), straighten_of_taken hx hbalance' htaken hrot]
  · rw [if_neg (by omega)]
    by_cases hleft : l.height = r.height + 2
    · obtain ⟨x, balance, branch, t', n', v, hx, hbalance', htaken, hrot, hreshaped, hv, hbal, hlow⟩ :=
        straighten_lowered false h hnodup hr hl hleft fun hd ↦ hm.uneven_left hd hleft
      obtain ⟨l', r', rfl, hl', hr', hlr, hrl⟩ := hbal.exists_node hv
      refine ⟨t', n', l', r', ?_, hreshaped, hl', hr', hlr, hrl, .inr (.inl hlow)⟩
      rw [if_pos (by omega), straighten_of_taken hx hbalance' htaken hrot]
    · have hle := hm.left
      have hge := hm.right
      refine ⟨t, n, l, r, if_neg (by omega), ⟨h, rfl, .refl t, fun _ _ ↦ rfl, fun _ _ ↦ rfl⟩, hl, hr,
        by omega, by omega, .inl ⟨by omega, by omega, rfl, Iff.rfl⟩⟩

theorem recalculateHeight_reshaped {n : N} {l r : BinaryTree N}
    (h : Laid (links t) .root (plug c (.node n l r)))
    (hnodup : (inorder (plug c (.node n l r))).Nodup) (hl : Balanced (heightOf t) l)
    (hr : Balanced (heightOf t) r) (hlr : l.height ≤ r.height + 1) (hrl : r.height ≤ l.height + 1) :
    Reshaped t (cuAvlTreeNodeRecalculateHeight t n) c (.node n l r) (.node n l r) ∧
      Balanced (heightOf (cuAvlTreeNodeRecalculateHeight t n)) (.node n l r) := by
  obtain ⟨hnode, -, -⟩ := nodup_plug.mp hnodup
  rw [inorder_node, List.nodup_append', List.nodup_cons] at hnode
  obtain ⟨-, ⟨hnr, -⟩, hnl⟩ := hnode
  have hnl : n ∉ inorder l := fun hmem ↦ hnl hmem List.mem_cons_self
  obtain ⟨-, -, hleft, hright⟩ := (laid_plug.mp h).2
  have hother : ∀ m, m ≠ n →
      heightOf (cuAvlTreeNodeRecalculateHeight t n) m = heightOf t m := fun m hm ↦
    height_recalculateHeight_of_ne t hm
  have hloadl : t.load (.child n false) = rootOf l := hleft.load_eq
  have hloadr : t.load (.child n true) = rootOf r := hright.load_eq
  refine ⟨⟨?_, rfl, .setHeight n _, fun m hm ↦ hother m ?_, fun m hm ↦ ?_⟩, ?_, hlr, hrl,
    hl.congr fun m hm ↦ hother m (ne_of_mem_of_not_mem hm hnl),
    hr.congr fun m hm ↦ hother m (ne_of_mem_of_not_mem hm hnr)⟩
  · rw [links_recalculateHeight]
    exact h
  · rintro rfl
    exact hm (by simp)
  · refine t.node_setHeight_of_ne _ ?_
    rintro rfl
    exact hm (mem_plug.mpr (.inl (by simp)))
  · rw [height_recalculateHeight_self t n true, Bool.not_true, hloadl, hloadr, getHeight_eq hl,
      getHeight_eq hr, BinaryTree.height]
    omega

/-- One iteration of the loop of `cuAvlTreeNodeRebalance`, which goes on at the second result. -/
def iteration (t : CUavlTree N K V) (isDelete : Bool) (node : N) :
    Exec (CUavlTree N K V × Option N) := do
  let (t, node) ← rebalanceNode t isDelete node
  let t := cuAvlTreeNodeRecalculateHeight t node
  .ok (t, (t.node node).parent)

theorem cuAvlTreeNodeRebalance_succ {isDelete : Bool} {n : N} {p : Option N}
    (h : iteration t isDelete n = .ok (t', p)) (fuel : ℕ) :
    cuAvlTreeNodeRebalance isDelete (fuel + 1) t (some n) =
      cuAvlTreeNodeRebalance isDelete fuel t' p := by
  obtain ⟨⟨t₁, n'⟩, hrun, h⟩ := bind_eq_ok.mp h
  obtain ⟨rfl, rfl⟩ := Prod.mk.inj (Except.ok.inj h)
  rw [cuAvlTreeNodeRebalance, hrun, ok_bind]

/-- Everything below the hole of `c` has been mended, and the height there may have changed from
`k`. -/
structure Pending (isDelete : Bool) (t : CUavlTree N K V) (c : Context N) (u : BinaryTree N)
    (k : ℕ) : Prop where
  laid : Laid (links t) .root (plug c u)
  nodup : (inorder (plug c u)).Nodup
  balanced : Balanced (heightOf t) u
  around : BalancedAround (heightOf t) c k
  changed : Changed isDelete k u

structure Visiting (isDelete : Bool) (t : CUavlTree N K V) (c : Context N) (n : N)
    (l r : BinaryTree N) (k : ℕ) : Prop where
  laid : Laid (links t) .root (plug c (.node n l r))
  nodup : (inorder (plug c (.node n l r))).Nodup
  left : Balanced (heightOf t) l
  right : Balanced (heightOf t) r
  mendable : Mendable isDelete l r
  around : BalancedAround (heightOf t) c k
  changed : ∀ v, Mended l r v → Changed isDelete k v

section

variable {isDelete : Bool} {u : BinaryTree N} {k fuel : ℕ}

omit [DecidableEq N] in
theorem Pending.visiting {f : Frame N} (h : Pending isDelete t (f :: c) u k) :
    ∃ l r, f.fill u = .node f.node l r ∧
      Visiting isDelete t c f.node l r (max f.other.height k + 1) := by
  obtain ⟨hlaid, hnodup, hu, ⟨hle, hge, hother, hc⟩, hk⟩ := h
  have hm := hk.mendable hle hge
  obtain ⟨n, side, other⟩ := f
  cases side with
  | false => exact ⟨u, other, rfl, hlaid, hnodup, hu, hother, hm.symm, hc, fun v hv ↦
      hk.mended hle hge hv.symm⟩
  | true => exact ⟨other, u, rfl, hlaid, hnodup, hother, hu, hm, hc, fun v hv ↦
      hk.mended hle hge hv⟩

omit [DecidableEq N] in
theorem Pending.visiting_root {x : N} {l r : BinaryTree N}
    (h : Pending true t c (.node x l r) k) : Visiting true t c x l r k := by
  obtain ⟨hlaid, hnodup, ⟨-, hlr, hrl, hl, hr⟩, hc, hk⟩ := h
  refine ⟨hlaid, hnodup, hl, hr, ⟨by omega, by omega, nofun, nofun⟩, hc, fun v hv ↦ ?_⟩
  have hheight : v.height = (BinaryTree.node x l r).height := by
    rcases hv with ⟨-, -, hv, -⟩ | ⟨htall, -⟩ | ⟨htall, -⟩
    · exact hv
    · omega
    · omega
  have hk : (BinaryTree.node x l r).height = k ∨ (BinaryTree.node x l r).height + 1 = k := hk
  rwa [← hheight] at hk

/-- An iteration leaves a balanced subtree and goes on at the parent. -/
theorem Visiting.step {n : N} {l r : BinaryTree N} (h : Visiting isDelete t c n l r k) :
    ∃ t' v, iteration t isDelete n = .ok (t', (hole c).owner) ∧
      Reshaped t t' c (.node n l r) v ∧ Pending isDelete t' c v k := by
  obtain ⟨t₁, n', l', r', hrun, hreshaped, hl', hr', hlr, hrl, hmended⟩ :=
    rebalanceNode_mended h.laid h.nodup h.left h.right h.mendable
  obtain ⟨hreshaped', hbal⟩ := recalculateHeight_reshaped hreshaped.laid
    (hreshaped.nodup h.nodup) hl' hr' hlr hrl
  have hparent : ((cuAvlTreeNodeRecalculateHeight t₁ n').node n').parent = (hole c).owner :=
    (laid_plug.mp hreshaped'.laid).2.2.1
  have hwhole := hreshaped.trans hreshaped'
  have hapart := (nodup_plug.mp (hwhole.nodup h.nodup)).2.2
  refine ⟨_, _, ?_, hwhole, hwhole.laid, hwhole.nodup h.nodup, hbal,
    h.around.congr fun m hm ↦ hwhole.height m fun hv ↦ hapart m hv hm, h.changed _ hmended⟩
  rw [iteration, hrun, ok_bind]
  dsimp only
  rw [hparent]

/-- The loop mends the tree up to the root, from a hole in which the height has changed. -/
theorem Pending.run (h : Pending isDelete t c u k) (hfuel : c.length ≤ fuel) :
    ∃ t' v, cuAvlTreeNodeRebalance isDelete fuel t (hole c).owner = .ok t' ∧
      Reshaped t t' [] (plug c u) v ∧ Balanced (heightOf t') v := by
  induction c generalizing t u k fuel with
  | nil =>
    exact ⟨t, u, by cases fuel <;> rfl, ⟨h.laid, rfl, .refl t, fun _ _ ↦ rfl, fun _ _ ↦ rfl⟩,
      h.balanced⟩
  | cons f c ih =>
    obtain ⟨fuel, rfl⟩ := Nat.exists_eq_succ_of_ne_zero (Nat.ne_of_gt (Nat.zero_lt_of_lt hfuel))
    obtain ⟨l, r, hfill, hvisit⟩ := h.visiting
    obtain ⟨t₁, v, hstep, hreshaped, hpending⟩ := hvisit.step
    obtain ⟨t', w, hrun, hreshaped', hbal⟩ := ih hpending (Nat.le_of_succ_le_succ hfuel)
    rw [← hfill] at hreshaped
    exact ⟨t', w, (cuAvlTreeNodeRebalance_succ hstep fuel).trans hrun,
      hreshaped.whole.trans hreshaped', hbal⟩

theorem Visiting.run {n : N} {l r : BinaryTree N} (h : Visiting isDelete t c n l r k)
    (hfuel : c.length < fuel) :
    ∃ t' v, cuAvlTreeNodeRebalance isDelete fuel t (some n) = .ok t' ∧
      Reshaped t t' [] (plug c (.node n l r)) v ∧ Balanced (heightOf t') v := by
  obtain ⟨fuel, rfl⟩ := Nat.exists_eq_succ_of_ne_zero (Nat.ne_of_gt (Nat.zero_lt_of_lt hfuel))
  obtain ⟨t₁, v, hstep, hreshaped, hpending⟩ := h.step
  obtain ⟨t', w, hrun, hreshaped', hbal⟩ := hpending.run (Nat.le_of_lt_succ hfuel)
  exact ⟨t', w, (cuAvlTreeNodeRebalance_succ hstep fuel).trans hrun,
    hreshaped.whole.trans hreshaped', hbal⟩

end

end RadixBench.Avl
