import RadixBench.RadixNew.QueryRuns

namespace RadixBench.RadixNew

open Foundation Memory Pool WideRadixTree

def InsertLegal (A : Allocator) (s : MapState) : MapOp → Prop
  | .insert key value => QueryLegal A s (.insert key value)
  | .remove _ => False

abbrev InsertReachable (A : Allocator) (log2Max log2Align : BitVec 8) :=
  Reachable (MapInitial A log2Max log2Align) (InsertLegal A) (mapStep A)

/-- Every presence bit leads to some value, at the root too. -/
def WideRadixTree.Marked (t : WideRadixTree) : Prop :=
  ∀ r e, t.HasBit r e → ∃ path, t.Present path ∧ r ++ [e] <+: path

theorem WideRadixTree.Marked.supported {t : WideRadixTree} (h : t.Marked) : t.Supported :=
  fun hbit _ ↦ h _ _ hbit

theorem mapStep_marked (A : Allocator) {n : ℕ} {s : MapState} (h : Stores n s)
    (hmark : s.tree.Marked) (op : MapOp) (hl : InsertLegal A s op) :
    ∃ s', mapStep A s op = .ok s' ∧ Stores n s' ∧ s'.tree.Marked := by
  obtain ⟨live, hs⟩ := h.sound
  cases op with
  | insert key value =>
    obtain ⟨hrange, hv, hfail⟩ := hl
    obtain ⟨s', hstep, hstores⟩ := mapStep_stores A h (.insert key value) hrange
    refine ⟨s', hstep, hstores, ?_⟩
    obtain ⟨t', -, heq, -, -, hlt⟩ | ⟨q, d, t', -, hq, heq, -, hins⟩ :=
      hs.insert_cases A key value
    · rw [heq] at hfail
      exact absurd hfail hlt.ne'
    · simp only [mapStep, heq] at hstep
      cases hstep
      exact fun r e ↦ hins.leads hv (digits_eq_concat hq).2.2 (hmark r e)
  | remove key => exact hl.elim

theorem InsertReachable.marked {A : Allocator} {log2Max log2Align : BitVec 8}
    (hlt : log2Align.toNat < log2Max.toNat) (hle : log2Max.toNat ≤ log2Align.toNat + 64)
    {s : MapState} (h : InsertReachable A log2Max log2Align s) :
    Stores (computeNumLevels log2Max log2Align) s ∧ s.tree.Marked := by
  refine Reachable.invariant_of_returns (I := fun s ↦ Stores (computeNumLevels log2Max log2Align) s ∧
    s.tree.Marked) (fun s hinit ↦ ⟨MapReachable.stores hlt hle (.init hinit), fun r e hbit ↦ ?_⟩)
    (fun s op hs hl ↦ mapStep_marked A hs.1 hs.2 op hl) h
  obtain ⟨⟨m, ht⟩, -⟩ := hinit
  rw [ht] at hbit
  exact absurd hbit ((treeInit_sound A m hlt hle).2 r e).2

theorem InsertReachable.findGEQ {A : Allocator} {log2Max log2Align : BitVec 8}
    (hlt : log2Align.toNat < log2Max.toNat) (hle : log2Max.toNat ≤ log2Align.toNat + 64)
    {s : MapState} (h : InsertReachable A log2Max log2Align s) {query : BitVec 64}
    (hq : s.tree.InRange query) : AnswersGEQ s query (treeFindGEQ s.tree query) := by
  obtain ⟨hstores, hmark⟩ := InsertReachable.marked hlt hle h
  obtain ⟨live, hs⟩ := hstores.sound
  have hf := (Stores.prefix_digits_iff hs.levels_pos).mpr (rfl : digit query _ = _)
  have hfirst : ∀ startBit, s.tree.FirstSupported startBit := by
    intro startBit e he
    exact hmark [] e ⟨.root, at_nil hs.levels_pos, he.has⟩
  rw [← hstores.answers_iff hq, WideRadixTree.answers_iff hs hmark.supported rfl hf]
  split_ifs
  · exact .inr (hfirst _)
  · exact .inr (hfirst _)

end RadixBench.RadixNew
