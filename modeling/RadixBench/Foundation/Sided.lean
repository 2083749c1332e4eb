import RadixBench.Foundation.LinkedTree

namespace RadixBench.Foundation

variable {N : Type} {side : Bool}

def inorderFrom (side : Bool) (t : BinaryTree N) : List N :=
  bif side then (inorder t).reverse else inorder t

theorem mem_inorderFrom (side : Bool) {t : BinaryTree N} {n : N} :
    n ∈ inorderFrom side t ↔ n ∈ inorder t := by
  cases side
  · rfl
  · exact List.mem_reverse

@[simp] theorem inorderFrom_nil : inorderFrom side (.nil : BinaryTree N) = [] := by
  cases side <;> rfl

theorem exists_sided_fill (side : Bool) (n : N) (l r : BinaryTree N) : ∃ near far,
    BinaryTree.node n l r = Frame.fill ⟨n, side, far⟩ near ∧
      (near = l ∧ far = r ∨ near = r ∧ far = l) := by
  cases side
  · exact ⟨l, r, rfl, .inl ⟨rfl, rfl⟩⟩
  · exact ⟨r, l, rfl, .inr ⟨rfl, rfl⟩⟩

theorem rootOf_fill (f : Frame N) (t : BinaryTree N) : rootOf (f.fill t) = some f.node := by
  obtain ⟨n, side, other⟩ := f
  cases side <;> rfl

theorem sided_induction (side : Bool) {P : BinaryTree N → Prop} (hnil : P .nil)
    (hfill : ∀ n near far, P near → P far → P (Frame.fill ⟨n, side, far⟩ near))
    (t : BinaryTree N) : P t := by
  induction t with
  | nil => exact hnil
  | node n l r ihl ihr =>
    obtain ⟨near, far, heq, ⟨rfl, rfl⟩ | ⟨rfl, rfl⟩⟩ := exists_sided_fill side n l r
    · exact heq ▸ hfill n near far ihl ihr
    · exact heq ▸ hfill n near far ihr ihl

theorem inorderFrom_fill (n : N) (near far : BinaryTree N) :
    inorderFrom side (Frame.fill ⟨n, side, far⟩ near) =
      inorderFrom side near ++ n :: inorderFrom side far := by
  cases side
  · rfl
  · simp [inorderFrom, Frame.fill]

theorem inorderFrom_fill_not (n : N) (near far : BinaryTree N) :
    inorderFrom side (Frame.fill ⟨n, !side, near⟩ far) =
      inorderFrom side near ++ n :: inorderFrom side far := by
  cases side
  · rfl
  · simp [inorderFrom, Frame.fill]

def afterFrom (side : Bool) : Context N → List N
  | [] => []
  | f :: c => (if f.side = side then f.node :: inorderFrom side f.other else []) ++
      afterFrom side c

theorem inorderFrom_plug (side : Bool) (c : Context N) (t : BinaryTree N) : ∃ l,
    inorderFrom side (plug c t) = l ++ inorderFrom side t ++ afterFrom side c := by
  induction c generalizing t with
  | nil => exact ⟨[], by simp [afterFrom]⟩
  | cons f c ih =>
    obtain ⟨n, turn, other⟩ := f
    obtain ⟨l, hl⟩ := ih (Frame.fill ⟨n, turn, other⟩ t)
    rw [plug_cons, hl, afterFrom]
    by_cases hturn : turn = side
    · subst hturn
      exact ⟨l, by simp [inorderFrom_fill]⟩
    · obtain rfl : turn = !side := Bool.eq_not.mpr hturn
      exact ⟨l ++ inorderFrom side other ++ [n], by simp [inorderFrom_fill_not]⟩

/-- The result of a search for the first element of a sequence with a property. -/
structure Nearest (le : N → N → Prop) (P : N → Prop) (l : List N) (r : Option N) : Prop where
  some : ∀ n, r = some n → n ∈ l ∧ P n ∧ ∀ m ∈ l, P m → le n m
  none : r = none → ∀ m ∈ l, ¬ P m

theorem find?_nearest {le lt : N → N → Prop} {l : List N} {p : N → Bool} (h : l.Pairwise lt)
    (hle : ∀ n m, lt n m → le n m) (hrefl : ∀ n, le n n) :
    Nearest le (fun n ↦ p n = true) l (l.find? p) := by
  refine ⟨fun n hn ↦ ?_, fun hnone m hm ↦ List.find?_eq_none.mp hnone m hm⟩
  obtain ⟨hp, l₁, l₂, rfl, hbefore⟩ := List.find?_eq_some_iff_append.mp hn
  refine ⟨by simp, hp, fun m hm hpm ↦ ?_⟩
  obtain ⟨-, hafter, -⟩ := List.pairwise_append.mp h
  rcases List.mem_append.mp hm with hm | hm
  · exact absurd hpm (by simpa using hbefore m hm)
  · rcases List.mem_cons.mp hm with rfl | hm
    · exact hrefl m
    · exact hle n m (List.rel_of_pairwise_cons hafter hm)

theorem Nearest.of_mem {le : N → N → Prop} {P : N → Prop} {l l' : List N} {r : Option N}
    (h : Nearest le P l r) (hmem : ∀ n, n ∈ l ↔ n ∈ l') : Nearest le P l' r := by
  refine ⟨fun n hn ↦ ?_, fun hnone m hm ↦ h.none hnone m ((hmem m).mpr hm)⟩
  obtain ⟨hl, hp, hle⟩ := h.some n hn
  exact ⟨(hmem n).mp hl, hp, fun m hm ↦ hle m ((hmem m).mpr hm)⟩

end RadixBench.Foundation
