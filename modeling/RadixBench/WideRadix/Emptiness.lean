import RadixBench.WideRadix.Query
import RadixBench.WideRadix.Runs

namespace RadixBench.WideRadix

open Foundation Memory

theorem wideRadixEmpty_iff {m : Memory WideRadixNode} {tree : WideRadixTree} {root : ℕ}
    (hroot : tree.root = some root) (h : Sound m root) :
    wideRadixEmpty m tree = true ↔ ∀ d, ¬ HasNode m root [d] := by
  have hnode : ∀ d, HasNode m root [d] ↔ (m.cell root).childMask.has d = true := by
    refine fun d ↦ ⟨fun hd ↦ h.has_of_hasNode at_nil hd List.prefix_rfl, fun hd ↦ ?_⟩
    obtain ⟨x, hx⟩ := h.exists_child at_nil hd
    exact ⟨x, at_snoc.mpr ⟨root, at_nil, Nat.zero_lt_succ _, hx⟩⟩
  simp only [wideRadixEmpty, hroot, hnode, Bool.not_eq_true]
  obtain ⟨d, hd, hfirst⟩ | ⟨hnone, hall⟩ := nextByte_cases (m.cell root).childMask 256 0 rfl
  · rw [hd]
    refine iff_of_false Bool.false_ne_true fun hall ↦ ?_
    exact Bool.false_ne_true ((hall d).symm.trans hfirst.has)
  · rw [hnone]
    exact iff_of_true rfl fun d ↦ hall d (Nat.zero_le _)

def EmptyIsExact (s : WideState) : Prop :=
  wideRadixEmpty s.memory s.tree = true ↔ ∀ key, wideRadixLookup s.memory s.tree key = .ok none

namespace Stores

variable {s : WideState} {root : ℕ}

/-- Deletions leave the inner nodes behind. -/
theorem empty_iff (h : Stores s root) :
    wideRadixEmpty s.memory s.tree = true ↔ s.inserted = [] := by
  rw [wideRadixEmpty_iff h.root_eq h.sound]
  constructor
  · intro hall
    by_contra hne
    obtain ⟨key, hkey⟩ := List.exists_mem_of_ne_nil _ hne
    obtain ⟨d, hd⟩ := exists_digit (List.nil_prefix (l := digits key 8)) (Nat.zero_lt_succ 7)
    exact hall d ((h.hasNode [d] (Nat.succ_lt_succ (Nat.zero_lt_succ 6))).mpr (.inr ⟨key, hkey, hd⟩))
  · intro hnil d hd
    rcases (h.hasNode [d] (Nat.succ_lt_succ (Nat.zero_lt_succ 6))).mp hd with hd | ⟨key, hkey, -⟩
    · cases hd
    · rw [hnil] at hkey
      cases hkey

theorem lookup_none_iff (h : Stores s root) (key : BitVec 64) :
    wideRadixLookup s.memory s.tree key = .ok none ↔ s.map key = none := by
  rw [h.lookup, Except.ok.injEq, ← h.stored, WideRadix.stored, Option.map_eq_none_iff]

theorem inserted_ne_nil (h : Stores s root) {key : BitVec 64} (hkey : s.map key ≠ none) :
    s.inserted ≠ [] := by
  intro hnil
  have hnode : HasNode s.memory root (digits key 8) := by
    rwa [← stored_isSome (length_digits key 8).le, h.stored, Option.isSome_iff_ne_none]
  obtain ⟨x, hx⟩ := hnode
  have hempty := (wideRadixEmpty_iff h.root_eq h.sound).mp (h.empty_iff.mpr hnil)
  exact hempty _ (hx.hasNode_prefix (List.take_prefix 1 (digits key 8)))

theorem emptyIsExact_iff (h : Stores s root) :
    EmptyIsExact s ↔ s.inserted = [] ∨ ∃ key, s.map key ≠ none := by
  simp only [EmptyIsExact, h.empty_iff, h.lookup_none_iff]
  constructor
  · intro hexact
    by_contra! hcon
    exact hcon.1 (hexact.mpr hcon.2)
  · rintro (hnil | ⟨key, hkey⟩)
    · refine iff_of_true hnil fun key ↦ ?_
      by_contra hkey
      exact h.inserted_ne_nil hkey hnil
    · exact iff_of_false (h.inserted_ne_nil hkey) fun hall ↦ hkey (hall key)

end Stores

def KeepsKey (s : WideState) : WideOp → Prop
  | .insert _ _ => True
  | .delete key => s.map key = none ∨ ∃ key', key' ≠ key ∧ s.map key' ≠ none

theorem wideStep_keepsKey {A : Allocator} {s s' : WideState} {op : WideOp}
    (h : s.inserted = [] ∨ ∃ key, s.map key ≠ none) (hkeeps : KeepsKey s op)
    (hstep : wideStep A s op = .ok s') : s'.inserted = [] ∨ ∃ key, s'.map key ≠ none := by
  cases op with
  | insert key value =>
    obtain ⟨_, -, heq⟩ := bind_eq_ok.mp hstep
    cases heq
    refine .inr ⟨key, ?_⟩
    dsimp only
    rw [Function.update_self]
    exact Option.some_ne_none value
  | delete key =>
    obtain ⟨_, -, heq⟩ := bind_eq_ok.mp hstep
    cases heq
    dsimp only
    by_cases hpresent : ∃ key', key' ≠ key ∧ s.map key' ≠ none
    · obtain ⟨key', hne, hkey'⟩ := hpresent
      exact .inr ⟨key', by rwa [Function.update_of_ne hne]⟩
    · -- The deleted key is absent, and so is every other.
      have habsent := hkeeps.resolve_right hpresent
      refine h.imp_right fun ⟨key', hkey'⟩ ↦ absurd ⟨key', ?_, hkey'⟩ hpresent
      rintro rfl
      exact hkey' habsent

/-- `wide_radix_empty` is exact as long as nothing was inserted or some key is there, so in
every run that never deletes the last key. -/
theorem wideRadixEmpty_exact (A : Allocator) :
    (∀ s, WideReachable A s →
      (EmptyIsExact s ↔ s.inserted = [] ∨ ∃ key, s.map key ≠ none)) ∧
    ∀ s, Reachable (WideInitial A) (fun s op ↦ WideLegal A s op ∧ KeepsKey s op) (wideStep A) s →
      EmptyIsExact s := by
  have hiff : ∀ s, WideReachable A s →
      (EmptyIsExact s ↔ s.inserted = [] ∨ ∃ key, s.map key ≠ none) := by
    intro s h
    obtain ⟨root, hs⟩ := WideReachable.stores h
    exact hs.emptyIsExact_iff
  refine ⟨hiff, fun s h ↦ (hiff s (h.mono fun _ _ hl ↦ hl.1)).mpr ?_⟩
  exact h.invariant (I := fun s ↦ s.inserted = [] ∨ ∃ key, s.map key ≠ none)
    (fun _ ⟨_, _, _, _, _, hins⟩ ↦ .inl hins)
    fun _ _ _ hi hl hstep ↦ wideStep_keepsKey hi hl.2 hstep

theorem wideRadixEmpty_exact_single : EmptyIsExact single :=
  ((wideRadixEmpty_exact bumpAllocator).1 single single_reachable).mpr
    (.inr ⟨5, by decide +kernel⟩)

/-- After the only key is deleted, nothing can be looked up and the tree is not empty. -/
theorem wideRadixEmpty_stale : ∃ s, WideReachable bumpAllocator s ∧
    wideRadixEmpty s.memory s.tree = false ∧
    ∀ key, wideRadixLookup s.memory s.tree key = .ok none := by
  have hins : single.inserted ≠ [] := by decide +kernel
  have hmap : single.map = Function.update (fun _ ↦ none) 5 (some 7) := rfl
  have hlegal : WideLegal bumpAllocator single (.delete 5) := trivial
  obtain ⟨root, hsingle⟩ := single_reachable.stores
  obtain ⟨s, hstep, hs⟩ := wideStep_stores bumpAllocator hsingle (.delete 5) hlegal
  have hreach := single_reachable.step hlegal hstep
  obtain ⟨_, -, heq⟩ := bind_eq_ok.mp hstep
  cases heq
  refine ⟨_, hreach, ?_, fun key ↦ (hs.lookup_none_iff key).mpr ?_⟩
  · rw [Bool.eq_false_iff, Ne, hs.empty_iff]
    exact hins
  · dsimp only
    rw [hmap, Function.update_idem]
    exact congrFun (Function.update_eq_self 5 _) key

end RadixBench.WideRadix
