import Mathlib.Data.List.Chain
import Mathlib.Data.List.Nodup
import Mathlib.Logic.Function.Basic
import Mathlib.Tactic.Common

namespace RadixBench.Foundation

section Chain

variable {P : Type} {next next' : P → Option P} {head : Option P} {ps : List P} {p q : P}

/-- `ps` are the cells of the linked list that starts at `head`, in order. -/
def Chain (next : P → Option P) : Option P → List P → Prop
  | head, [] => head = none
  | head, p :: ps => head = some p ∧ Chain next (next p) ps

theorem Chain.congr (h : Chain next head ps) (hnext : ∀ p ∈ ps, next' p = next p) :
    Chain next' head ps := by
  induction ps generalizing head with
  | nil => exact h
  | cons p ps ih =>
    refine ⟨h.1, ?_⟩
    rw [hnext p List.mem_cons_self]
    exact ih h.2 fun q hq ↦ hnext q (List.mem_cons_of_mem p hq)

theorem Chain.append (h : Chain next head (ps ++ [p])) (hold : ∀ r ∈ ps, next' r = next r)
    (hlast : next' p = some q) (hnew : next' q = none) : Chain next' head (ps ++ [p] ++ [q]) := by
  induction ps generalizing head with
  | nil => exact ⟨h.1, hlast, hnew⟩
  | cons r ps ih =>
    refine ⟨h.1, ?_⟩
    rw [hold r List.mem_cons_self]
    exact ih h.2 fun s hs ↦ hold s (List.mem_cons_of_mem r hs)

end Chain

variable {N : Type} {next prev next' prev' : N → Option N}

def Follows (next prev : N → Option N) (a b : N) : Prop := next a = some b ∧ prev b = some a

def Ring (next prev : N → Option N) (l : List N) : Prop :=
  List.IsChain (Follows next prev) (l ++ l.take 1)

theorem ring_cons {a : N} {r : List N} :
    Ring next prev (a :: r) ↔ List.IsChain (Follows next prev) (a :: r) ∧
      ∃ z ∈ a :: r, (a :: r).getLast? = some z ∧ Follows next prev z a := by
  have hlast := List.getLast?_eq_getLast_of_ne_nil (List.cons_ne_nil a r)
  rw [Ring, List.take_succ_cons, List.take_zero, List.isChain_append, hlast]
  constructor
  · rintro ⟨hchain, -, h⟩
    exact ⟨hchain, _, List.getLast_mem _, rfl, h _ rfl a rfl⟩
  · rintro ⟨hchain, z, -, hz, h⟩
    refine ⟨hchain, List.isChain_singleton a, fun x hx y hy ↦ ?_⟩
    cases hz
    cases hx
    cases hy
    exact h

theorem Ring.frame {l : List N} (h : Ring next prev l) (hnext : ∀ x ∈ l, next' x = next x)
    (hprev : ∀ x ∈ l, prev' x = prev x) : Ring next' prev' l := by
  have hmem : ∀ {x}, x ∈ l ++ l.take 1 → x ∈ l := fun hx ↦
    (List.mem_append.mp hx).elim id List.mem_of_mem_take
  refine List.IsChain.imp_of_mem_imp (fun a b ha hb hab ↦ ?_) h
  exact ⟨(hnext a (hmem ha)).trans hab.1, (hprev b (hmem hb)).trans hab.2⟩

theorem Ring.rotate {a : N} {r : List N} (h : Ring next prev (a :: r)) :
    Ring next prev (r ++ [a]) := by
  cases r with
  | nil => exact h
  | cons b r =>
    rw [Ring, List.take_succ_cons, List.take_zero, List.cons_append, List.cons_append,
      List.isChain_cons_cons] at h
    rw [Ring, List.cons_append, List.take_succ_cons, List.take_zero, List.isChain_append]
    refine ⟨h.2, List.isChain_singleton b, fun x hx y hy ↦ ?_⟩
    rw [← List.cons_append, List.getLast?_concat] at hx
    cases hx
    cases hy
    exact h.1

theorem Ring.append_comm {l₁ l₂ : List N} (h : Ring next prev (l₁ ++ l₂)) :
    Ring next prev (l₂ ++ l₁) := by
  induction l₁ generalizing l₂ with
  | nil => simpa using h
  | cons a l₁ ih =>
    rw [List.cons_append] at h
    have hrot := h.rotate
    rw [List.append_assoc] at hrot
    simpa using ih hrot

variable [DecidableEq N]

theorem Ring.insert {a n : N} {r : List N} (h : Ring next prev (a :: r))
    (hnodup : (a :: r).Nodup) (hn : n ∉ a :: r) :
    ∃ z ∈ a :: r, prev a = some z ∧
      Ring (Function.update (Function.update next z (some n)) n (some a))
        (Function.update (Function.update prev n (some z)) a (some n)) (a :: r ++ [n]) := by
  obtain ⟨hchain, z, hz, hlast, hza⟩ := ring_cons.mp h
  have hne : ∀ {x}, x ∈ a :: r → x ≠ n := fun hx heq ↦ hn (heq ▸ hx)
  have hnz : n ≠ z := (hne hz).symm
  have han : a ≠ n := hne List.mem_cons_self
  refine ⟨z, hz, hza.2, ?_⟩
  rw [List.cons_append, ring_cons, ← List.cons_append, List.isChain_append]
  refine ⟨⟨?_, List.isChain_singleton n, fun x hx y hy ↦ ?_⟩, n, by simp, ?_, ?_⟩
  · -- Only the old last element and the head get new links, and they do not meet here.
    refine List.IsChain.imp_of_mem_tail_imp (fun x y hx hy hxy ↦ ?_) hchain
    have hya : y ≠ a := fun heq ↦ (List.nodup_cons.mp hnodup).1 (heq ▸ hy)
    have hxz : x ≠ z := by
      rintro rfl
      exact hya (Option.some.inj (hxy.1.symm.trans hza.1))
    have hyn : y ≠ n := hne (List.mem_cons_of_mem a hy)
    constructor
    · rw [Function.update_of_ne (hne hx), Function.update_of_ne hxz, hxy.1]
    · rw [Function.update_of_ne hya, Function.update_of_ne hyn, hxy.2]
  · rw [hlast] at hx
    cases hx
    cases hy
    constructor
    · rw [Function.update_of_ne hnz.symm, Function.update_self]
    · rw [Function.update_of_ne han.symm, Function.update_self]
  · exact List.getLast?_concat ..
  · exact ⟨Function.update_self .., Function.update_self ..⟩

theorem Ring.remove {n b : N} {r : List N} (h : Ring next prev (n :: b :: r))
    (hnodup : (n :: b :: r).Nodup) :
    ∃ z ∈ b :: r, next n = some b ∧ prev n = some z ∧
      Ring (Function.update next z (some b)) (Function.update prev b (some z)) (b :: r) := by
  obtain ⟨hchain, z, -, hlast, hzn⟩ := ring_cons.mp h
  rw [List.isChain_cons_cons] at hchain
  rw [List.getLast?_cons_cons] at hlast
  have hz : z ∈ b :: r := List.mem_of_getLast? hlast
  refine ⟨z, hz, hchain.1.1, hzn.2, ring_cons.mpr ⟨?_, z, hz, hlast, ?_⟩⟩
  · refine List.IsChain.imp_of_mem_tail_imp (fun x y hx hy hxy ↦ ?_) hchain.2
    rw [List.nodup_cons, List.nodup_cons] at hnodup
    have hyb : y ≠ b := fun heq ↦ hnodup.2.1 (heq ▸ hy)
    have hxz : x ≠ z := by
      rintro rfl
      obtain rfl := Option.some.inj (hxy.1.symm.trans hzn.1)
      exact hnodup.1 (List.mem_cons_of_mem b hy)
    exact ⟨(Function.update_of_ne hxz _ _).trans hxy.1, (Function.update_of_ne hyb _ _).trans hxy.2⟩
  · exact ⟨Function.update_self .., Function.update_self ..⟩

end RadixBench.Foundation
