import RadixBench.Art.Iteration
import Mathlib.Algebra.BigOperators.Ring.List

namespace RadixBench.Art

open Foundation Children

variable {V : Type} {arch : Arch} {s : ArtState V} {path w : List (BitVec 8)} {n : ArtNode V}
  {children : Children (ArtNode V)} {fuel : ℕ}

def innerNodes : ℕ → ArtNode V → ℕ
  | _, .leaf _ => 0
  | 0, .inner _ _ => 0
  | fuel + 1, .inner _ children => (children.inorder.map fun e ↦ innerNodes fuel e.2).sum + 1

/-- The number of places for children in all inner nodes, taken or not. -/
def childSlots : ℕ → ArtNode V → ℕ
  | _, .leaf _ => 0
  | 0, .inner _ _ => 0
  | fuel + 1, .inner _ children =>
    (children.inorder.map fun e ↦ childSlots fuel e.2).sum + children.capacity

theorem sum_map_add_le {α : Type} {f g : α → ℕ} {c : ℕ} {l : List α}
    (h : ∀ e ∈ l, f e + c ≤ g e) : (l.map f).sum + c * l.length ≤ (l.map g).sum := by
  induction l with
  | nil => simp
  | cons e l ih =>
    have hhead := h e List.mem_cons_self
    have htail := ih fun d hd ↦ h d (List.mem_cons_of_mem e hd)
    rw [List.map_cons, List.map_cons, List.sum_cons, List.sum_cons, List.length_cons, Nat.mul_succ]
    omega

theorem Children.Filled.capacity_le (h : children.Filled) :
    2 ≤ children.inorder.length ∧ children.capacity ≤ 7 * children.inorder.length := by
  rw [Filled] at h
  cases children <;> simp only [least, capacity] at h ⊢ <;> omega

theorem space_le (h : Wf path n) (hshort : Shorter n (path.length + fuel)) :
    innerNodes fuel n + 1 ≤ (entries fuel n).length ∧
      childSlots fuel n + 7 ≤ 7 * (innerNodes fuel n + (entries fuel n).length) := by
  induction h generalizing fuel with
  | leaf _ => simp [innerNodes, childSlots, entries]
  | @inner path w children hvalid hfilled hchildren ih =>
    obtain ⟨f, rfl⟩ := Wf.exists_fuel (.inner w hvalid hfilled hchildren) hshort
    have hnodes := sum_map_add_le (c := 1) fun e he ↦ (ih e he (hshort.child he w)).1
    have hslots := sum_map_add_le (c := 7) fun e he ↦ (ih e he (hshort.child he w)).2
    obtain ⟨htwo, hcapacity⟩ := hfilled.capacity_le
    rw [innerNodes, childSlots, entries_inner, List.length_flatMap]
    rw [List.sum_map_mul_left, List.sum_map_add] at hslots
    omega

theorem length_artEntries (hs : Sound s) (hfuel : ∀ k, s.map k ≠ none → k.length < fuel) :
    (artEntries fuel s.tree).length = {k | s.map k ≠ none}.ncard := by
  obtain ⟨hmem, hnodup, -⟩ := artEntries_spec .portable hs hfuel
  have hstored : {k | s.map k ≠ none} = ((artEntries fuel s.tree).map Prod.fst).toFinset := by
    ext k
    rw [List.coe_toFinset]
    show s.map k ≠ none ↔ k ∈ (artEntries fuel s.tree).map Prod.fst
    rw [mem_map_fst, Option.ne_none_iff_exists']
    exact exists_congr fun v ↦ (hmem k v).symm
  rw [hstored, Set.ncard_coe_finset, List.toFinset_card_of_nodup hnodup, List.length_map]

/-- In every run the tree is compact: it has fewer inner nodes than keys, and at most fourteen
places for children to each key. -/
theorem artTree_compact (h : ArtReachable arch s) (hfuel : ∀ k, s.map k ≠ none → k.length < fuel)
    (hroot : s.tree.root = some n) :
    innerNodes fuel n < {k | s.map k ≠ none}.ncard ∧
      childSlots fuel n + 14 ≤ 14 * {k | s.map k ≠ none}.ncard := by
  have hs := h.sound
  have hholds := hs.holds
  rw [hroot] at hholds
  have hlen := length_artEntries hs hfuel
  rw [artEntries, hroot] at hlen
  obtain ⟨hnodes, hslots⟩ := space_le hholds.1 (shorter_root hholds hfuel)
  rw [hlen] at hnodes hslots
  omega

theorem artTree_compact_pair : ∃ n, (pair .x86).tree.root = some n ∧
    innerNodes 3 n < {k | (pair .x86).map k ≠ none}.ncard ∧
    childSlots 3 n + 14 ≤ 14 * {k | (pair .x86).map k ≠ none}.ncard := by
  obtain ⟨n, hroot⟩ : ∃ n, (pair .x86).tree.root = some n :=
    Option.isSome_iff_exists.mp (by decide +kernel)
  exact ⟨n, hroot, artTree_compact (pair_reachable .x86).reachable (pair_shorter .x86) hroot⟩

end RadixBench.Art
