import RadixBench.Avl.Runs

namespace RadixBench.Avl

open Foundation CUavlTree

variable {N K V : Type} [DecidableEq N] {t t' : CUavlTree N K V} {c : Context N}

/-- The loop of `cuAvlTreeNodeRebalance`, begun in the tree `t` at `p`, comes to a node in the
tree as it is then. -/
inductive Visits (isDelete : Bool) : CUavlTree N K V → Option N → CUavlTree N K V → N → Prop
  | here (t : CUavlTree N K V) (n : N) : Visits isDelete t (some n) t n
  | later {t t₁ t' : CUavlTree N K V} {n m : N} {p : Option N} :
      iteration t isDelete n = .ok (t₁, p) → Visits isDelete t₁ p t' m →
      Visits isDelete t (some n) t' m

def rebalanceCall (t : CUavlTree N K V) :
    AvlOp N K V → Exec (Option (Bool × CUavlTree N K V × Option N))
  | .insertOrReturnExisting node key value fuel | .insert node key value fuel => do
    let t := t.setNode node (newNode key value)
    match ← findPlace t key fuel t.root .root with
    | .existing _ => .ok none
    | .below parent childLink =>
      .ok (some (false, (t.store childLink (some node)).setParent node parent, parent))
  | .remove node fuel => do
    let link ← cuAvlTreeNodeGetLinkPointer t node
    let (t, rebalance) ← unlinkNode t fuel node link
    .ok (some (true, t.setNode node { t.node node with child := fun _ ↦ none, parent := none },
      rebalance))

/-- The subtree of `node` on the side `side` is pulled up. Only one branch can be taken, and each
of its rotations finds a child. -/
def Straightens (t : CUavlTree N K V) (isDelete side : Bool) (node : N) : Prop :=
  ∃ child balance, ∃ branch : Branch, ∃ t' top, (t.node node).child side = some child ∧
    cuAvlTreeNodeGetBalance t (some child) = .ok balance ∧
    branch.Taken isDelete side balance ∧
    (∀ b : Branch, b.Taken isDelete side balance → b = branch) ∧
    (balance = 0 → isDelete = true) ∧ branch.Rotates t side node child t' top ∧
    rebalanceNode t isDelete node = .ok (t', top)

def SafeVisit (isDelete : Bool) (t : CUavlTree N K V) (node : N) : Prop :=
  ∃ balance, cuAvlTreeNodeGetBalance t (some node) = .ok balance ∧ -2 ≤ balance ∧ balance ≤ 2 ∧
    (balance = -2 → Straightens t isDelete true node) ∧
    (balance = 2 → Straightens t isDelete false node) ∧
    ∃ t' p, iteration t isDelete node = .ok (t', p)

section

variable {isDelete : Bool} {n : N} {l r u : BinaryTree N} {k : ℕ}

theorem Branch.Taken.level {side : Bool} {balance : ℤ} {b : Branch}
    (h : b.Taken isDelete side balance) (hzero : balance = 0) : isDelete = true := by
  have houter := outer_cases side
  cases b with
  | single =>
    have h : balance = outer side := h
    omega
  | level => exact h.2
  | double =>
    have h : balance = -outer side := h
    omega

theorem straightens_of_tall (side : Bool) {b : BinaryTree N}
    (h : Laid (links t) .root (plug c (Frame.fill ⟨n, side, b⟩ u)))
    (hnodup : (inorder (plug c (Frame.fill ⟨n, side, b⟩ u))).Nodup)
    (hb : Balanced (heightOf t) b) (hu : Balanced (heightOf t) u)
    (htall : u.height = b.height + 2) (huneven : isDelete = false → Uneven u)
    (hrun : rebalanceNode t isDelete n = straighten t isDelete side n) :
    Straightens t isDelete side n := by
  obtain ⟨x, balance, branch, t', top, v, hx, hbalance, htaken, hrot, -, -, -, -⟩ :=
    straighten_lowered side h hnodup hb hu htall huneven
  exact ⟨x, balance, branch, t', top, hx, hbalance, htaken, fun b hb ↦ htaken.unique hb,
    htaken.level, hrot, hrun.trans (straighten_of_taken hx hbalance htaken hrot)⟩

theorem Visiting.safe (h : Visiting isDelete t c n l r k) : SafeVisit isDelete t n := by
  obtain ⟨t', v, hstep, -, -⟩ := h.step
  have hm := h.mendable
  have hle := hm.left
  have hge := hm.right
  have hbalance := getBalance_eq (laid_plug.mp h.laid).2 h.left h.right hle
  have heq := rebalanceNode_eq t isDelete n
  rw [hbalance, ok_bind] at heq
  refine ⟨_, hbalance, by omega, by omega, fun htall ↦ ?_, fun htall ↦ ?_, t', _, hstep⟩
  · have hright : r.height = l.height + 2 := by omega
    rw [if_pos htall] at heq
    exact straightens_of_tall true h.laid h.nodup h.left h.right hright
      (fun hd ↦ hm.uneven_right hd hright) heq
  · have hleft : l.height = r.height + 2 := by omega
    rw [if_neg (by omega), if_pos htall] at heq
    exact straightens_of_tall false h.laid h.nodup h.right h.left hleft
      (fun hd ↦ hm.uneven_left hd hleft) heq

theorem Pending.visits {m : N} (h : Pending isDelete t c u k)
    (hv : Visits isDelete t (hole c).owner t' m) :
    ∃ c' l' r' k', Visiting isDelete t' c' m l' r' k' := by
  induction c generalizing t u k with
  | nil => cases hv
  | cons f c ih =>
    obtain ⟨l, r, -, hvisit⟩ := h.visiting
    obtain ⟨t₂, v, hstep, -, hpending⟩ := hvisit.step
    cases hv with
    | here => exact ⟨c, l, r, _, hvisit⟩
    | later hrun hv =>
      obtain ⟨rfl, rfl⟩ := Prod.mk.inj (Except.ok.inj (hstep.symm.trans hrun))
      exact ih hpending hv

theorem Visiting.visits {m : N} (h : Visiting isDelete t c n l r k)
    (hv : Visits isDelete t (some n) t' m) :
    ∃ c' l' r' k', Visiting isDelete t' c' m l' r' k' := by
  obtain ⟨t₂, v, hstep, -, hpending⟩ := h.step
  cases hv with
  | here => exact ⟨c, l, r, k, h⟩
  | later hrun hv =>
    obtain ⟨rfl, rfl⟩ := Prod.mk.inj (Except.ok.inj (hstep.symm.trans hrun))
    exact hpending.visits hv

end

def AvlOp.fuel : AvlOp N K V → ℕ
  | .insertOrReturnExisting _ _ _ fuel => fuel
  | .insert _ _ _ fuel => fuel
  | .remove _ fuel => fuel

/-- The call of `cuAvlTreeNodeRebalance` that leads to the tree `t'`, if there is one, is safe. -/
def SafeCall (fuel : ℕ) (t' : CUavlTree N K V) (call : Option (Bool × CUavlTree N K V × Option N)) :
    Prop :=
  ∀ isDelete t p, call = some (isDelete, t, p) →
    cuAvlTreeNodeRebalance isDelete fuel t p = .ok t' ∧
    ∀ t₁ node, Visits isDelete t p t₁ node → SafeVisit isDelete t₁ node

theorem SafeCall.none {fuel : ℕ} : SafeCall fuel t' none := by
  rintro isDelete t p hcall
  cases hcall

theorem SafeCall.some {isDelete : Bool} {p : Option N} {fuel : ℕ}
    (hrun : cuAvlTreeNodeRebalance isDelete fuel t p = .ok t')
    (hvisits : ∀ t₁ n, Visits isDelete t p t₁ n → ∃ c l r k, Visiting isDelete t₁ c n l r k) :
    SafeCall fuel t' (some (isDelete, t, p)) := by
  rintro isDelete' t₀ p' hcall
  obtain ⟨rfl, rfl, rfl⟩ : isDelete = isDelete' ∧ t = t₀ ∧ p = p' := by simpa using hcall
  refine ⟨hrun, fun t₁ n hv ↦ ?_⟩
  obtain ⟨c, l, r, k, hvisit⟩ := hvisits t₁ n hv
  exact hvisit.safe

section

variable {s : AvlState N K V} {T : BinaryTree N}

theorem Sound.insertCall (h : Sound s T) {node : N} (hnode : node ∉ s.live) (key : K) (value : V)
    {fuel : ℕ} (hfuel : s.live.length ≤ fuel) : ∃ existing t' call,
      cuAvlTreeNodeInsertOrReturnExisting s.tree fuel node key value = .ok (existing, t') ∧
      rebalanceCall s.tree (.insertOrReturnExisting node key value fuel) = .ok call ∧
      SafeCall fuel t' call := by
  obtain ⟨existing, t', T', hrun, -⟩ := h.insert hnode key value hfuel
  have hT := (h.mem_iff node).not.mpr hnode
  have hrun' := hrun
  rw [cuAvlTreeNodeInsertOrReturnExisting] at hrun'
  obtain ⟨x, -, -, hplace⟩ | ⟨c, rfl, hplace, -, -⟩ := findPlace_setNode h.order h.avl hT key value
    (h.perm.length_eq.trans_le hfuel)
  · refine ⟨existing, t', none, hrun, ?_, .none⟩
    have hplace : findPlace (s.tree.setNode node (newNode key value)) key fuel
      (s.tree.setNode node (newNode key value)).root .root = _ := hplace
    rw [rebalanceCall, hplace, ok_bind]
  · have hplace : findPlace (s.tree.setNode node (newNode key value)) key fuel
      (s.tree.setNode node (newNode key value)).root .root = _ := hplace
    have hpending := link_pending h.order h.avl hT key value
    rw [hplace, ok_bind] at hrun'
    obtain ⟨t₂, hrebalance, heq⟩ := bind_eq_ok.mp hrun'
    obtain ⟨-, rfl⟩ := Prod.mk.inj (Except.ok.inj heq)
    refine ⟨existing, t₂, some (false, ((s.tree.setNode node (newNode key value)).store (hole c)
      (some node)).setParent node (hole c).owner, (hole c).owner), hrun, ?_,
      .some hrebalance fun t₁ n hv ↦ hpending.visits hv⟩
    rw [rebalanceCall, hplace, ok_bind]

theorem Sound.removeCall (h : Sound s T) {node : N} (hnode : node ∈ s.live) {fuel : ℕ}
    (hfuel : s.live.length ≤ fuel) : ∃ t' call, cuAvlTreeNodeRemove s.tree fuel node = .ok t' ∧
      rebalanceCall s.tree (.remove node fuel) = .ok call ∧ SafeCall fuel t' call := by
  obtain ⟨t', T', hrun, -⟩ := h.remove hnode hfuel
  have hnodup := h.avl.nodup h.order
  obtain ⟨link, t₁, start, c, u, k, hlink, hunlink, hun⟩ := unlinkNode_run h.avl hnodup
    ((h.mem_iff node).mpr hnode) (h.perm.length_eq.trans_le hfuel)
  have hrun' := hrun
  rw [cuAvlTreeNodeRemove, hlink, ok_bind, hunlink, ok_bind] at hrun'
  have hpending := hun.pending hnodup
  refine ⟨t', some (true, t₁.setNode node { t₁.node node with
    child := fun _ ↦ none, parent := none }, start), hrun, ?_, .some hrun' fun t₂ n hv ↦ ?_⟩
  · rw [rebalanceCall, hlink, ok_bind, hunlink, ok_bind]
  · obtain rfl | ⟨hne, rfl⟩ := hun.start_eq
    · exact hpending.visits hv
    · cases u with
      | nil => exact absurd rfl hne
      | node x l r => exact hpending.visiting_root.visits hv

/-- In every run, at every node that a rebalancing comes to, the balance is between -2 and 2, a
subtree that is too tall is pulled up by exactly one branch, and all rotations find their children.
No assertion fails in the operation. -/
theorem cuAvlTreeNodeRebalance_safe (h : AvlReachable s) (op : AvlOp N K V) (hl : AvlLegal s op) :
    ∃ s' call, avlStep s op = .ok s' ∧ rebalanceCall s.tree op = .ok call ∧
      SafeCall op.fuel s'.tree call := by
  obtain ⟨T, hs⟩ := h.sound
  cases op with
  | insertOrReturnExisting node key value fuel =>
    obtain ⟨existing, t', call, hrun, hcall, hsafe⟩ := hs.insertCall hl.1 key value hl.2
    exact ⟨s.insert t' node (existing ≠ none), call, by rw [avlStep, hrun, ok_bind], hcall, hsafe⟩
  | insert node key value fuel =>
    obtain ⟨existing, t', call, hrun, hcall, hsafe⟩ := hs.insertCall hl.1 key value hl.2
    have hstep : ∃ b, avlStep s (.insert node key value fuel) = .ok (s.insert t' node b) :=
      ⟨_, by rw [avlStep, cuAvlTreeNodeInsert_eq hrun, ok_bind]⟩
    obtain ⟨b, hstep⟩ := hstep
    exact ⟨s.insert t' node b, call, hstep, hcall, hsafe⟩
  | remove node fuel =>
    obtain ⟨t', call, hrun, hcall, hsafe⟩ := hs.removeCall hl.1 hl.2
    exact ⟨s.remove t' node, call, by rw [avlStep, hrun, ok_bind], hcall, hsafe⟩

end

/-- The removal of the smaller child of the root, which has a taller sibling. -/
theorem cuAvlTreeNodeRebalance_safe_four : ∃ s' call,
    avlStep (after three (.insert 4 9 0 9)) (.remove 0 9) = .ok s' ∧
      rebalanceCall (after three (.insert 4 9 0 9)).tree (.remove 0 9) = .ok call ∧
      SafeCall 9 s'.tree call :=
  cuAvlTreeNodeRebalance_safe (three_reachable.after (.insert 4 9 0 9) (by decide +kernel))
    (.remove 0 9) (by decide +kernel)

end RadixBench.Avl
