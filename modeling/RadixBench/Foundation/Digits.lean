import Mathlib.Data.List.Basic
import Mathlib.Data.List.Induction
import Mathlib.Tactic.Common
import Mathlib.Tactic.Ring

namespace RadixBench.Foundation

/-- Byte `l` of a key, counted from the least significant one. -/
def digit (key : BitVec 64) (l : ℕ) : BitVec 8 := ((key >>> (l <<< 3)) &&& 0xFF#64).setWidth 8

/-- The low `n` bytes of a key, the most significant one first. -/
def digits (key : BitVec 64) : ℕ → List (BitVec 8)
  | 0 => []
  | n + 1 => digit key n :: digits key n

def ofDigits : List (BitVec 8) → ℕ
  | [] => 0
  | d :: ds => d.toNat * 256 ^ ds.length + ofDigits ds

@[simp] theorem length_digits (key : BitVec 64) (n : ℕ) : (digits key n).length = n := by
  induction n with
  | zero => rfl
  | succ n ih => simp [digits, ih]

theorem toNat_digit (key : BitVec 64) (l : ℕ) :
    (digit key l).toNat = key.toNat / 256 ^ l % 256 := by
  have hpow : (2 : ℕ) ^ (l * 2 ^ 3) = 256 ^ l := by
    rw [Nat.mul_comm, pow_mul]
    norm_num
  rw [digit, BitVec.toNat_setWidth, BitVec.toNat_and, BitVec.toNat_ushiftRight,
    Nat.shiftLeft_eq, Nat.shiftRight_eq_div_pow, hpow]
  have hmask := Nat.and_two_pow_sub_one_eq_mod (key.toNat / 256 ^ l) 8
  have hff : (0xFF#64).toNat = 2 ^ 8 - 1 := rfl
  rw [hff, hmask]
  omega

theorem digit_succ (key : BitVec 64) (l : ℕ) : digit key (l + 1) = digit (key >>> 8) l := by
  apply BitVec.eq_of_toNat_eq
  rw [toNat_digit, toNat_digit, BitVec.toNat_ushiftRight, Nat.shiftRight_eq_div_pow,
    Nat.div_div_eq_div_mul, pow_succ, Nat.mul_comm]

theorem append_digits (p : List (BitVec 8)) (key : BitVec 64) (n : ℕ) :
    p ++ digits key (n + 1) = p ++ [digit key n] ++ digits key n := by
  rw [List.append_assoc]
  rfl

theorem digits_snoc (key : BitVec 64) (n : ℕ) :
    digits key (n + 1) = digits (key >>> 8) n ++ [digit key 0] := by
  induction n with
  | zero => rfl
  | succ n ih =>
    rw [digits, ih, digits, digit_succ]
    rfl

theorem ofDigits_lt (ds : List (BitVec 8)) : ofDigits ds < 256 ^ ds.length := by
  induction ds with
  | nil => exact Nat.one_pos
  | cons d ds ih =>
    have hd := d.isLt
    have hmul := Nat.mul_le_mul_right (256 ^ ds.length) (show d.toNat + 1 ≤ 256 by omega)
    rw [Nat.succ_mul] at hmul
    rw [ofDigits, List.length_cons, pow_succ, Nat.mul_comm _ 256]
    omega

theorem ofDigits_digits (key : BitVec 64) (n : ℕ) : ofDigits (digits key n) = key.toNat % 256 ^ n := by
  induction n with
  | zero => simp [digits, ofDigits, Nat.mod_one]
  | succ n ih =>
    rw [digits, ofDigits, length_digits, ih, toNat_digit, pow_succ, Nat.mod_mul, Nat.mul_comm]
    omega

theorem ofDigits_cons_lt {d e : BitVec 8} {ds es : List (BitVec 8)} (h : ds.length = es.length) :
    ofDigits (d :: ds) < ofDigits (e :: es) ↔ d < e ∨ d = e ∧ ofDigits ds < ofDigits es := by
  have hds := ofDigits_lt ds
  have hes := ofDigits_lt es
  rw [ofDigits, ofDigits, h, BitVec.lt_def]
  rw [h] at hds
  rcases Nat.lt_trichotomy d.toNat e.toNat with hde | hde | hde
  · have hmul := Nat.mul_le_mul_right (256 ^ es.length) (Nat.succ_le_of_lt hde)
    rw [Nat.succ_mul] at hmul
    exact iff_of_true (by omega) (.inl hde)
  · obtain rfl := BitVec.eq_of_toNat_eq hde
    simp
  · have hmul := Nat.mul_le_mul_right (256 ^ es.length) (Nat.succ_le_of_lt hde)
    rw [Nat.succ_mul] at hmul
    refine iff_of_false (by omega) ?_
    rintro (hlt | ⟨rfl, -⟩) <;> omega

theorem ofDigits_injective {ds es : List (BitVec 8)} (h : ds.length = es.length)
    (hv : ofDigits ds = ofDigits es) : ds = es := by
  induction ds generalizing es with
  | nil => exact (List.length_eq_zero_iff.mp h.symm).symm
  | cons d ds ih =>
    cases es with
    | nil => cases h
    | cons e es =>
      have hlen := Nat.succ.inj h
      have hlt := ofDigits_cons_lt (d := d) (e := e) hlen
      have hgt := ofDigits_cons_lt (d := e) (e := d) hlen.symm
      rw [hv] at hlt hgt
      simp only [lt_self_iff_false, false_iff, not_or, not_and] at hlt hgt
      obtain rfl : d = e := by
        have h₁ := hlt.1
        have h₂ := hgt.1
        rw [BitVec.lt_def] at h₁ h₂
        apply BitVec.eq_of_toNat_eq
        omega
      have h₁ := hlt.2 rfl
      have h₂ := hgt.2 rfl
      rw [ih hlen (by omega)]

theorem ofDigits_append_lt (p : List (BitVec 8)) {ds es : List (BitVec 8)}
    (h : ds.length = es.length) : ofDigits (p ++ ds) < ofDigits (p ++ es) ↔ ofDigits ds < ofDigits es := by
  induction p with
  | nil => rfl
  | cons d p ih =>
    have hlen : (p ++ ds).length = (p ++ es).length := by simp [h]
    rw [List.cons_append, List.cons_append, ofDigits_cons_lt hlen, ih]
    simp

theorem ofDigits_append_cons_lt (p : List (BitVec 8)) {d e : BitVec 8} {ds es : List (BitVec 8)}
    (h : ds.length = es.length) (hde : d < e) :
    ofDigits (p ++ d :: ds) < ofDigits (p ++ e :: es) := by
  rw [ofDigits_append_lt p (by simp [h]), ofDigits_cons_lt h]
  exact .inl hde

theorem ofDigits_lt_of_digit {p q r : List (BitVec 8)} {d e : BitVec 8} (hq : p ++ [d] <+: q)
    (hr : p ++ [e] <+: r) (hlen : q.length = r.length) (hde : d < e) :
    ofDigits q < ofDigits r := by
  obtain ⟨u, rfl⟩ := hq
  obtain ⟨w, rfl⟩ := hr
  rw [List.append_assoc, List.append_assoc] at hlen ⊢
  exact ofDigits_append_cons_lt p (by simpa using hlen) hde

theorem exists_digit {p path : List (BitVec 8)} (hpre : p <+: path)
    (hlen : p.length < path.length) : ∃ e, p ++ [e] <+: path := by
  obtain ⟨s, rfl⟩ := hpre
  cases s with
  | nil => simp at hlen
  | cons e s => exact ⟨e, s, by rw [List.append_assoc]; rfl⟩

theorem digit_unique {p q : List (BitVec 8)} {d e : BitVec 8} (hd : p ++ [d] <+: q)
    (he : p ++ [e] <+: q) : d = e := by
  have hpre := List.prefix_of_prefix_length_le hd he (by simp)
  exact (List.append_singleton_inj.mp (hpre.eq_of_length (by simp))).2

theorem snoc_le_take {p q : List (BitVec 8)} {d : BitVec 8} {n : ℕ} (hn : p.length < n) :
    p ++ [d] <+: (p ++ [d] ++ q).take n := by
  refine List.prefix_take_iff.mpr ⟨List.prefix_append _ _, ?_⟩
  rw [List.length_append, List.length_singleton]
  exact hn

theorem exists_branch {N : List (BitVec 8) → Prop} {p path : List (BitVec 8)} (hp : N p)
    (hpath : ¬ N path) (hpre : p <+: path) :
    ∃ q d, p <+: q ∧ N q ∧ q ++ [d] <+: path ∧ ¬ N (q ++ [d]) := by
  induction path using List.reverseRecOn with
  | nil =>
    rw [List.prefix_nil] at hpre
    exact absurd (hpre ▸ hp) hpath
  | append_singleton path d ih =>
    rcases List.prefix_concat_iff.mp hpre with rfl | hpre
    · exact absurd hp hpath
    · by_cases hnew : N path
      · exact ⟨path, d, hpre, hnew, List.prefix_rfl, hpath⟩
      · obtain ⟨q, e, hq, hNq, hqe, hnot⟩ := ih hnew hpre
        exact ⟨q, e, hq, hNq, hqe.trans (List.prefix_append _ _), hnot⟩

/-- A list that is not below `q` and leaves it inside a prefix `p` is above everything
that starts with `p`. -/
theorem ofDigits_lt_of_not_below {p q r s : List (BitVec 8)} (hq : p <+: q) (hr : p <+: r)
    (hs : ¬ p <+: s) (hqs : q.length = s.length) (hrs : r.length = s.length)
    (hle : ofDigits q ≤ ofDigits s) : ofDigits r < ofDigits s := by
  induction p generalizing q r s with
  | nil => exact absurd List.nil_prefix hs
  | cons d p ih =>
    obtain ⟨q, rfl⟩ := hq
    obtain ⟨r, rfl⟩ := hr
    cases s with
    | nil => cases hqs
    | cons e s =>
      replace hqs : (p ++ q).length = s.length := Nat.succ.inj hqs
      replace hrs : (p ++ r).length = s.length := Nat.succ.inj hrs
      rw [← Nat.not_lt, List.cons_append, ofDigits_cons_lt hqs.symm, not_or, not_and] at hle
      rw [List.cons_append, ofDigits_cons_lt hrs]
      by_cases hde : d = e
      · subst hde
        refine .inr ⟨rfl, ih (List.prefix_append p q) (List.prefix_append p r) ?_ hqs hrs ?_⟩
        · exact fun hps ↦ hs (List.cons_prefix_cons.mpr ⟨rfl, hps⟩)
        · exact Nat.not_lt.mp (hle.2 rfl)
      · refine .inl ?_
        have hlt := hle.1
        rw [BitVec.lt_def] at hlt ⊢
        have hne : d.toNat ≠ e.toNat := fun h ↦ hde (BitVec.eq_of_toNat_eq h)
        omega

theorem prefix_of_between {p q r s : List (BitVec 8)} (hq : p <+: q) (hr : p <+: r)
    (hqs : q.length = s.length) (hrs : r.length = s.length) (hle : ofDigits q ≤ ofDigits s)
    (hge : ofDigits s ≤ ofDigits r) : p <+: s := by
  by_contra hs
  exact absurd (ofDigits_lt_of_not_below hq hr hs hqs hrs hle) (Nat.not_lt.mpr hge)

theorem ofDigits_append (p q : List (BitVec 8)) :
    ofDigits (p ++ q) = ofDigits p * 256 ^ q.length + ofDigits q := by
  induction p with
  | nil => simp [ofDigits]
  | cons d p ih =>
    rw [List.cons_append, ofDigits, ofDigits, ih, List.length_append, pow_add]
    ring

theorem ofDigits_take (q : List (BitVec 8)) (n : ℕ) :
    ofDigits (q.take n) = ofDigits q / 256 ^ (q.length - n) := by
  have hsplit := ofDigits_append (q.take n) (q.drop n)
  have hlt := ofDigits_lt (q.drop n)
  rw [List.take_append_drop] at hsplit
  rw [List.length_drop] at hsplit hlt
  have hpos : 0 < 256 ^ (q.length - n) := Nat.pow_pos (by norm_num)
  rw [hsplit, Nat.add_comm, Nat.add_mul_div_right _ _ hpos, Nat.div_eq_of_lt hlt, Nat.zero_add]

theorem ofDigits_take_mono {q r : List (BitVec 8)} (hlen : q.length = r.length)
    (hle : ofDigits q ≤ ofDigits r) (n : ℕ) : ofDigits (q.take n) ≤ ofDigits (r.take n) := by
  rw [ofDigits_take, ofDigits_take, hlen]
  exact Nat.div_le_div_right hle

theorem digits_injective {n : ℕ} {key key' : BitVec 64} (h : key.toNat < 256 ^ n)
    (h' : key'.toNat < 256 ^ n) (hd : digits key n = digits key' n) : key = key' := by
  have hv := congrArg ofDigits hd
  rw [ofDigits_digits, ofDigits_digits, Nat.mod_eq_of_lt h, Nat.mod_eq_of_lt h'] at hv
  exact BitVec.eq_of_toNat_eq hv

theorem toNat_ushiftRight_byte (key : BitVec 64) (l : ℕ) :
    (key >>> (8 * l)).toNat = key.toNat / 256 ^ l := by
  rw [BitVec.toNat_ushiftRight, Nat.shiftRight_eq_div_pow, pow_mul]
  rfl

theorem take_digits (key : BitVec 64) (n l : ℕ) :
    (digits key (n + l)).take n = digits (key >>> (8 * l)) n := by
  apply ofDigits_injective
  · rw [List.length_take, length_digits, length_digits]
    omega
  · rw [ofDigits_take, ofDigits_digits, ofDigits_digits, length_digits, Nat.add_sub_cancel_left,
      toNat_ushiftRight_byte, Nat.add_comm, pow_add, Nat.mod_mul_right_div_self]

theorem exists_digits {n : ℕ} (hn : n ≤ 8) {ds : List (BitVec 8)} (hlen : ds.length = n) :
    ∃ key : BitVec 64, key.toNat < 256 ^ n ∧ digits key n = ds := by
  have hlt := ofDigits_lt ds
  have hpow : 256 ^ n ≤ 256 ^ 8 := Nat.pow_le_pow_right (by norm_num) hn
  rw [hlen] at hlt
  have hkey : (BitVec.ofNat 64 (ofDigits ds)).toNat = ofDigits ds := by
    rw [BitVec.toNat_ofNat]
    exact Nat.mod_eq_of_lt (lt_of_lt_of_le hlt (hpow.trans (by norm_num)))
  refine ⟨BitVec.ofNat 64 (ofDigits ds), by rwa [hkey], ?_⟩
  apply ofDigits_injective (by rw [length_digits, hlen])
  rw [ofDigits_digits, hkey, Nat.mod_eq_of_lt hlt]

end RadixBench.Foundation
