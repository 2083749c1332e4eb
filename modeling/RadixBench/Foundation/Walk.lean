import Mathlib.Data.List.Induction
import Mathlib.Data.Option.Basic
import Mathlib.Tactic.Common

namespace RadixBench.Foundation

variable {P D : Type}

def walk (next : P → D → Option P) : P → List D → Option P
  | x, [] => some x
  | x, d :: p => (next x d).bind fun y ↦ walk next y p

theorem length_lt_of_snoc {p q : List D} {d : D} (h : p ++ [d] <+: q) :
    p.length < q.length := by
  have hlen := h.length_le
  rwa [List.length_append, List.length_singleton] at hlen

section

variable {next next' : P → D → Option P} {root : P}

@[simp] theorem walk_nil (x : P) : walk next x [] = some x := rfl

theorem walk_append (x : P) (p q : List D) :
    walk next x (p ++ q) = (walk next x p).bind fun y ↦ walk next y q := by
  induction p generalizing x with
  | nil => rfl
  | cons d p ih =>
    simp only [List.cons_append, walk]
    cases next x d with
    | none => rfl
    | some y => exact ih y

theorem walk_snoc (x : P) (p : List D) (d : D) :
    walk next x (p ++ [d]) = (walk next x p).bind fun y ↦ next y d := by
  rw [walk_append]
  cases walk next x p with
  | none => rfl
  | some y => simp [walk]

theorem walk_congr {x : P} {q : List D}
    (h : ∀ r d, r ++ [d] <+: q → ∀ y, walk next x r = some y → next' y d = next y d) :
    walk next' x q = walk next x q := by
  induction q using List.reverseRecOn with
  | nil => rfl
  | append_singleton q d ih =>
    rw [walk_snoc, walk_snoc, ih fun r e hr ↦ h r e (hr.trans (List.prefix_append _ _))]
    cases hq : walk next x q with
    | none => rfl
    | some y => exact h q d List.prefix_rfl y hq

/-- Changing the edges of one place, for the labels in `S`, changes only the walks
that take such an edge there. -/
theorem walk_eq_away {x : P} {p q : List D} {S : D → Prop} {n : ℕ}
    (hx : ∀ r, r.length < n → walk next root r = some x → r = p)
    (h : ∀ r y d, r.length < n → walk next root r = some y → y ≠ x ∨ ¬ S d →
      next' y d = next y d)
    (hlen : q.length ≤ n) (hq : ∀ d, S d → ¬ p ++ [d] <+: q) :
    walk next' root q = walk next root q := by
  refine walk_congr fun r d hr y hy ↦ ?_
  have hle := hr.length_le
  rw [List.length_append, List.length_singleton] at hle
  refine h r y d (by omega) hy ?_
  by_cases hyx : y = x
  · subst hyx
    obtain rfl := hx r (by omega) hy
    exact .inr fun hd ↦ hq d hd hr
  · exact .inl hyx

/-- Edges that leave two different places within `n` steps of the root lead to
different positions, and none leads back to the root. -/
structure Unshared (next : P → D → Option P) (root : P) (n : ℕ) : Prop where
  notRoot : ∀ p x d, p.length < n → walk next root p = some x → next x d ≠ some root
  edge : ∀ p q x y d e z, p.length < n → q.length < n → walk next root p = some x →
    walk next root q = some y → next x d = some z → next y e = some z → p = q ∧ d = e

theorem Unshared.injective {n : ℕ} (h : Unshared next root n) {p q : List D} {x : P}
    (hp : p.length ≤ n) (hq : q.length ≤ n) (hwp : walk next root p = some x)
    (hwq : walk next root q = some x) : p = q := by
  induction p using List.reverseRecOn generalizing q x with
  | nil =>
    cases hwp
    induction q using List.reverseRecOn with
    | nil => rfl
    | append_singleton q d =>
      rw [walk_snoc] at hwq
      obtain ⟨y, hy, hd⟩ := Option.bind_eq_some_iff.mp hwq
      rw [List.length_append, List.length_singleton] at hq
      exact absurd hd (h.notRoot q y d hq hy)
  | append_singleton p d ih =>
    rw [walk_snoc] at hwp
    obtain ⟨y, hy, hd⟩ := Option.bind_eq_some_iff.mp hwp
    rw [List.length_append, List.length_singleton] at hp
    induction q using List.reverseRecOn with
    | nil =>
      cases hwq
      exact absurd hd (h.notRoot p y d hp hy)
    | append_singleton q e =>
      rw [walk_snoc] at hwq
      obtain ⟨z, hz, he⟩ := Option.bind_eq_some_iff.mp hwq
      rw [List.length_append, List.length_singleton] at hq
      obtain ⟨rfl, rfl⟩ := h.edge p q y z d e x hp hq hy hz hd he
      rfl

theorem walk_avoid {n : ℕ} {p : List D} {d : D} {x : P}
    (hx : ∀ r, r.length < n → walk next root r = some x → r = p)
    (h : ∀ r y e, r.length < n → walk next root r = some y → y ≠ x ∨ e ≠ d →
      next' y e = next y e) {q : List D} (hq : q.length ≤ n) (hnot : ¬ p ++ [d] <+: q) :
    walk next' root q = walk next root q :=
  walk_eq_away (S := fun e ↦ e = d) hx h hq fun _ he ↦ he ▸ hnot

theorem walk_through {n : ℕ} {p : List D} {d : D} {x : P}
    (hx : ∀ r, r.length < n → walk next root r = some x → r = p)
    (hp : walk next root p = some x) (hlt : p.length < n)
    (h : ∀ r y e, r.length < n → walk next root r = some y → y ≠ x ∨ e ≠ d →
      next' y e = next y e) (r : List D) :
    walk next' root (p ++ [d] ++ r) = (next' x d).bind fun y ↦ walk next' y r := by
  have hp' : walk next' root p = some x := by
    rw [walk_avoid hx h (Nat.le_of_lt hlt), hp]
    exact fun hpre ↦ Nat.lt_irrefl _ (length_lt_of_snoc hpre)
  rw [walk_append, walk_snoc, hp']
  rfl

/-- A new end point hung under `x`: only the path to it is new. -/
theorem walk_link {n : ℕ} {p : List D} {d : D} {x a : P}
    (hx : ∀ r, r.length < n → walk next root r = some x → r = p)
    (hp : walk next root p = some x) (hlt : p.length < n) (hold : next x d = none)
    (hnew : next' x d = some a) (hend : ∀ e, next' a e = none)
    (h : ∀ r y e, r.length < n → walk next root r = some y → y ≠ x ∨ e ≠ d →
      next' y e = next y e) {q : List D} (hq : q.length ≤ n) (y : P) :
    walk next' root q = some y ↔ walk next root q = some y ∨ q = p ++ [d] ∧ y = a := by
  by_cases hpre : p ++ [d] <+: q
  · obtain ⟨r, rfl⟩ := hpre
    rw [walk_through hx hp hlt h, walk_append, walk_snoc, hp]
    simp only [Option.bind_some, hnew, hold, Option.bind_none]
    cases r with
    | nil => simp [eq_comm]
    | cons e r => simp [walk, hend]
  · rw [walk_avoid hx h hq hpre]
    refine (or_iff_left ?_).symm
    rintro ⟨rfl, -⟩
    exact hpre List.prefix_rfl

theorem walk_unlink {n : ℕ} {p : List D} {d : D} {x a : P}
    (hx : ∀ r, r.length < n → walk next root r = some x → r = p)
    (hp : walk next root p = some x) (hlt : p.length < n) (hold : next x d = some a)
    (hend : ∀ e, next a e = none) (hnew : next' x d = none)
    (h : ∀ r y e, r.length < n → walk next root r = some y → y ≠ x ∨ e ≠ d →
      next' y e = next y e) {q : List D} (hq : q.length ≤ n) (y : P) :
    walk next' root q = some y ↔ walk next root q = some y ∧ q ≠ p ++ [d] := by
  by_cases hpre : p ++ [d] <+: q
  · obtain ⟨r, rfl⟩ := hpre
    rw [walk_through hx hp hlt h, walk_append, walk_snoc, hp]
    simp only [Option.bind_some, hnew, hold, Option.bind_none]
    cases r with
    | nil => simp
    | cons e r => simp [walk, hend]
  · rw [walk_avoid hx h hq hpre]
    refine (and_iff_left ?_).symm
    rintro rfl
    exact hpre List.prefix_rfl

theorem Unshared.link {n : ℕ} {p : List D} {d : D} {x a : P} (hun : Unshared next root n)
    (hfresh : ∀ q, q.length ≤ n → walk next root q ≠ some a)
    (hwalk : ∀ q, q.length ≤ n → ∀ y, walk next' root q = some y ↔
      walk next root q = some y ∨ q = p ++ [d] ∧ y = a)
    (hx : ∀ r, r.length < n → walk next root r = some x → r = p)
    (hnew : next' x d = some a) (hend : ∀ e, next' a e = none)
    (h : ∀ r y e, r.length < n → walk next root r = some y → y ≠ x ∨ e ≠ d →
      next' y e = next y e) : Unshared next' root n := by
  have hstep : ∀ {q y e z}, q.length < n → walk next' root q = some y → next' y e = some z →
      walk next root q = some y ∧ (y = x ∧ e = d ∧ z = a ∨ next y e = some z) := by
    intro q y e z hq hy hz
    rcases (hwalk q (Nat.le_of_lt hq) y).mp hy with hy | ⟨-, rfl⟩
    · by_cases hyx : y = x ∧ e = d
      · obtain ⟨rfl, rfl⟩ := hyx
        rw [hnew] at hz
        exact ⟨hy, .inl ⟨rfl, rfl, (Option.some.inj hz).symm⟩⟩
      · rw [h q y e hq hy (not_and_or.mp hyx)] at hz
        exact ⟨hy, .inr hz⟩
    · rw [hend] at hz
      cases hz
  have hout : ∀ {q y e}, q.length < n → walk next root q = some y → next y e ≠ some a := by
    intro q y e hq hy hz
    refine hfresh (q ++ [e]) (by rw [List.length_append, List.length_singleton]; omega) ?_
    rw [walk_snoc, hy]
    exact hz
  constructor
  · intro q y e hq hy hz
    obtain ⟨hy, ⟨-, -, ha⟩ | hz⟩ := hstep hq hy hz
    · exact hfresh [] (Nat.zero_le _) (by rw [← ha]; rfl)
    · exact hun.notRoot q y e hq hy hz
  · intro q r y z e f w hq hr hy hz he hf
    obtain ⟨hy, ⟨rfl, rfl, rfl⟩ | he⟩ := hstep hq hy he
    · obtain ⟨hz, ⟨rfl, rfl, -⟩ | hf⟩ := hstep hr hz hf
      · exact ⟨(hx q hq hy).trans (hx r hr hz).symm, rfl⟩
      · exact absurd hf (hout hr hz)
    · obtain ⟨hz, ⟨-, -, rfl⟩ | hf⟩ := hstep hr hz hf
      · exact absurd he (hout hq hy)
      · exact hun.edge q r y z e f w hq hr hy hz he hf

theorem Unshared.mono {n : ℕ} (hun : Unshared next root n)
    (hwalk : ∀ q, q.length < n → ∀ y, walk next' root q = some y → walk next root q = some y)
    (h : ∀ q y e z, q.length < n → walk next' root q = some y → next' y e = some z →
      next y e = some z) : Unshared next' root n := by
  constructor
  · intro q y e hq hy hz
    exact hun.notRoot q y e hq (hwalk q hq y hy) (h q y e _ hq hy hz)
  · intro q r y z e f w hq hr hy hz he hf
    exact hun.edge q r y z e f w hq hr (hwalk q hq y hy) (hwalk r hr z hz)
      (h q y e w hq hy he) (h r z f w hr hz hf)

end

end RadixBench.Foundation
