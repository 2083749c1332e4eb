import RadixBench.Art.Model
import Mathlib.Data.BitVec
import Mathlib.Data.List.FinRange

namespace RadixBench.Art

open Foundation Function

variable {C : Type} {c d : BitVec 8} {x y : C} {slots : List (BitVec 8 × C)}

theorem mem_bytes (c : BitVec 8) : c ∈ bytes :=
  List.mem_map.mpr ⟨c.toFin, List.mem_finRange _, rfl⟩

theorem pairwise_bytes : bytes.Pairwise (· < ·) :=
  List.pairwise_map.mpr (List.pairwise_lt_finRange 256)

theorem nodup_bytes : bytes.Nodup := pairwise_bytes.imp fun h ↦ BitVec.ne_of_lt h

section Bitfield

variable {cmp : BitVec 8 → Bool}

theorem getLsbD_bitfield {i : ℕ} {bits : BitVec 32} (h : i + slots.length ≤ 32) (j : ℕ) :
    (bitfield cmp i bits slots).getLsbD j =
      (bits.getLsbD j || (decide (i ≤ j) && slots[j - i]?.any fun e ↦ cmp e.1)) := by
  induction slots generalizing i bits with
  | nil => simp [bitfield]
  | cons e slots ih =>
    rw [List.length_cons] at h
    have hshift : ∀ j, (bits ||| (1#32 <<< i)).getLsbD j = (bits.getLsbD j || decide (j = i)) := by
      intro j
      rw [BitVec.getLsbD_or, BitVec.getLsbD_shiftLeft, BitVec.getLsbD_one]
      congr 1
      grind
    rw [bitfield, ih (by omega)]
    rcases Nat.lt_trichotomy j i with hlt | rfl | hgt
    · have h₁ : ¬ i + 1 ≤ j := by omega
      have h₂ : ¬ i ≤ j := by omega
      have hne : ¬ j = i := by omega
      cases cmp e.1 <;> simp [hshift, h₁, h₂, hne]
    · have h₁ : ¬ j + 1 ≤ j := by omega
      cases hcmp : cmp e.1 <;> simp [hshift, hcmp]
    · obtain ⟨k, rfl⟩ := Nat.exists_eq_add_of_lt hgt
      have hne : ¬ i + k + 1 = i := by omega
      have hk : i + k + 1 - i = k + 1 := by omega
      have hk' : i + k + 1 - (i + 1) = k := by omega
      have hle : i ≤ i + k + 1 := by omega
      cases cmp e.1 <;> simp [hshift, hne, hk, hk', hle]

theorem getLsbD_bitfield_zero (h : slots.length ≤ 16) (j : ℕ) :
    (bitfield cmp 0 0 slots).getLsbD j = slots[j]?.any fun e ↦ cmp e.1 := by
  rw [getLsbD_bitfield (by omega)]
  simp

theorem bitfield_eq_zero_iff (h : slots.length ≤ 16) :
    bitfield cmp 0 0 slots = 0 ↔ ∀ e ∈ slots, ¬ cmp e.1 := by
  constructor
  · intro hzero e he hcmp
    obtain ⟨j, hj, rfl⟩ := List.mem_iff_getElem.mp he
    have hbit : (bitfield cmp 0 0 slots).getLsbD j = _ := getLsbD_bitfield_zero h j
    rw [hzero, List.getElem?_eq_getElem hj] at hbit
    simp [hcmp] at hbit
  · intro hnone
    apply BitVec.eq_of_getLsbD_eq
    intro j _
    rw [getLsbD_bitfield_zero h]
    cases hj : slots[j]? with
    | none => simp
    | some e => simpa using hnone e (List.mem_of_getElem? hj)

theorem ctz_bitfield (h : slots.length ≤ 16) (hne : bitfield cmp 0 0 slots ≠ 0) :
    (bitfield cmp 0 0 slots).ctz.toNat = slots.findIdx fun e ↦ cmp e.1 := by
  have hset := BitVec.getLsbD_true_ctz_of_ne_zero hne
  rw [getLsbD_bitfield_zero h, Option.any_eq_true] at hset
  obtain ⟨e, he, hcmp⟩ := hset
  obtain ⟨hlt, rfl⟩ := List.getElem?_eq_some_iff.mp he
  refine ((List.findIdx_eq hlt).mpr ⟨hcmp, fun j hj ↦ ?_⟩).symm
  have hclear := BitVec.getLsbD_false_of_lt_ctz hj
  rw [getLsbD_bitfield_zero h, List.getElem?_eq_getElem (hj.trans hlt)] at hclear
  simpa using hclear

end Bitfield

def through (keys : BitVec 8 → Option (Fin 48)) (children : Fin 48 → Option C) (c : BitVec 8) :
    Option C :=
  (keys c).bind children

/-- The two arrays of a `node48` match. -/
structure Linked (keys : BitVec 8 → Option (Fin 48)) (children : Fin 48 → Option C) : Prop where
  injective : ∀ {c d i}, keys c = some i → keys d = some i → c = d
  occupied : ∀ {c i}, keys c = some i → ∃ x, children i = some x
  reached : ∀ {i x}, children i = some x → ∃ c, keys c = some i

namespace Linked

variable {keys : BitVec 8 → Option (Fin 48)} {children : Fin 48 → Option C} {i : Fin 48}

theorem none : Linked (fun _ ↦ Option.none) (fun _ ↦ (Option.none : Option C)) :=
  ⟨nofun, nofun, nofun⟩

theorem through_eq_none (h : Linked keys children) : through keys children c = Option.none ↔
    keys c = Option.none := by
  rw [through]
  cases hc : keys c with
  | none => simp
  | some i =>
    obtain ⟨x, hx⟩ := h.occupied hc
    simp [hx]

theorem set (h : Linked keys children) (hc : keys c = some i) (y : C) :
    Linked keys (update children i (some y)) ∧
      through keys (update children i (some y)) = update (through keys children) c (some y) := by
  refine ⟨⟨h.injective, fun {d j} hd ↦ ?_, fun {j z} hj ↦ ?_⟩, ?_⟩
  · by_cases hij : j = i
    · exact ⟨y, by rw [hij, update_self]⟩
    · rw [update_of_ne hij]
      exact h.occupied hd
  · by_cases hij : j = i
    · exact ⟨c, hij ▸ hc⟩
    · rw [update_of_ne hij] at hj
      exact h.reached hj
  · funext d
    by_cases hd : d = c
    · subst hd
      rw [update_self, through, hc, Option.bind_some, update_self]
    · rw [update_of_ne hd, through, through]
      refine Option.bind_congr fun j hj ↦ update_of_ne ?_ _ _
      rintro rfl
      exact hd (h.injective hj hc)

theorem insert (h : Linked keys children) (hc : keys c = Option.none)
    (hi : children i = Option.none) (x : C) :
    Linked (update keys c (some i)) (update children i (some x)) ∧
      through (update keys c (some i)) (update children i (some x)) =
        update (through keys children) c (some x) := by
  have hother : ∀ {d j}, d ≠ c → keys d = some j → j ≠ i := by
    rintro d j - hd rfl
    obtain ⟨z, hz⟩ := h.occupied hd
    rw [hi] at hz
    cases hz
  refine ⟨⟨fun {d e j} hd he ↦ ?_, fun {d j} hd ↦ ?_, fun {j z} hj ↦ ?_⟩, ?_⟩
  · simp only [update_apply] at hd he
    split_ifs at hd he with hdc hec hec
    · rw [hdc, hec]
    · exact absurd (Option.some.inj hd).symm (hother hec he)
    · exact absurd (Option.some.inj he).symm (hother hdc hd)
    · exact h.injective hd he
  · by_cases hd' : d = c
    · rw [hd', update_self] at hd
      exact ⟨x, by rw [← Option.some.inj hd, update_self]⟩
    · rw [update_of_ne hd'] at hd
      rw [update_of_ne (hother hd' hd)]
      exact h.occupied hd
  · by_cases hij : j = i
    · exact ⟨c, by rw [hij, update_self]⟩
    · rw [update_of_ne hij] at hj
      obtain ⟨d, hd⟩ := h.reached hj
      refine ⟨d, ?_⟩
      rw [update_of_ne _]
      · exact hd
      · rintro rfl
        rw [hc] at hd
        cases hd
  · funext d
    by_cases hd : d = c
    · subst hd
      rw [update_self, through, update_self, Option.bind_some, update_self]
    · rw [update_of_ne hd, through, through, update_of_ne hd]
      exact Option.bind_congr fun j hj ↦ update_of_ne (hother hd hj) _ _

theorem erase (h : Linked keys children) (hc : keys c = some i) :
    Linked (update keys c Option.none) (update children i Option.none) ∧
      through (update keys c Option.none) (update children i Option.none) =
        update (through keys children) c Option.none := by
  have hother : ∀ {d j}, d ≠ c → keys d = some j → j ≠ i := by
    rintro d j hdc hd rfl
    exact hdc (h.injective hd hc)
  have hold : ∀ {d j}, update keys c Option.none d = some j → d ≠ c ∧ keys d = some j := by
    intro d j hd
    by_cases hd' : d = c
    · rw [hd', update_self] at hd
      cases hd
    · exact ⟨hd', by rwa [update_of_ne hd'] at hd⟩
  refine ⟨⟨fun hd he ↦ h.injective (hold hd).2 (hold he).2, fun {d j} hd ↦ ?_, fun {j z} hj ↦ ?_⟩, ?_⟩
  · obtain ⟨hdc, hd⟩ := hold hd
    rw [update_of_ne (hother hdc hd)]
    exact h.occupied hd
  · by_cases hij : j = i
    · rw [hij, update_self] at hj
      cases hj
    · rw [update_of_ne hij] at hj
      obtain ⟨d, hd⟩ := h.reached hj
      refine ⟨d, ?_⟩
      rw [update_of_ne _]
      · exact hd
      · rintro rfl
        exact hij (Option.some.inj (hd.symm.trans hc))
  · funext d
    by_cases hd : d = c
    · subst hd
      rw [update_self, through, update_self]
      rfl
    · rw [update_of_ne hd, through, through, update_of_ne hd]
      exact Option.bind_congr fun j hj ↦ update_of_ne (hother hd hj) _ _

end Linked

namespace Children

def capacity : Children C → ℕ
  | .node4 _ => 4
  | .node16 _ => 16
  | .node48 _ _ _ => 48
  | .node256 _ _ => 256

/-- The number of children below which a node is replaced by a smaller one. -/
def least : Children C → ℕ
  | .node4 _ => 2
  | .node16 _ => 4
  | .node48 _ _ _ => 13
  | .node256 _ _ => 38

/-- The arrays and the counter of a large layout are in step. -/
def Layout : Children C → Prop
  | .node48 num keys children =>
    Linked keys children ∧ num = BitVec.ofNat 8 (table bytes (through keys children)).length
  | .node256 num children => num = BitVec.ofNat 8 (table bytes children).length
  | _ => True

structure Valid (n : Children C) : Prop where
  nodup : (n.inorder.map Prod.fst).Nodup
  length_le : n.inorder.length ≤ n.capacity
  layout : n.Layout

structure Found (n : Children C) (c : BitVec 8) (s : Slot) (l : List (BitVec 8 × C)) (x : C)
    (r : List (BitVec 8 × C)) : Prop where
  inorder_eq : n.inorder = l ++ (c, x) :: r
  child_eq : n.child s = some x
  index_eq : ∀ i, s = .index i → i = l.length
  setChild_self : n.setChild s x = n
  inorder_setChild : ∀ y, (n.setChild s y).inorder = l ++ (c, y) :: r
  layout_setChild : ∀ y, (n.setChild s y).Layout
  capacity_setChild : ∀ y, (n.setChild s y).capacity = n.capacity
  least_setChild : ∀ y, (n.setChild s y).least = n.least

theorem Found.mem {n : Children C} {s : Slot} {l r : List (BitVec 8 × C)}
    (h : n.Found c s l x r) : (c, x) ∈ n.inorder := by
  rw [h.inorder_eq]
  exact List.mem_append_right l List.mem_cons_self

theorem Found.mem_iff {n : Children C} {s : Slot} {l r : List (BitVec 8 × C)}
    (h : n.Found c s l x r) (e : BitVec 8 × C) :
    e ∈ n.inorder ↔ (e ∈ l ∨ e ∈ r) ∨ e = (c, x) := by
  rw [h.inorder_eq, List.mem_append, List.mem_cons]
  tauto

theorem Found.mem_setChild {n : Children C} {s : Slot} {l r : List (BitVec 8 × C)}
    (h : n.Found c s l x r) (y : C) (e : BitVec 8 × C) :
    e ∈ (n.setChild s y).inorder ↔ (e ∈ l ∨ e ∈ r) ∨ e = (c, y) := by
  rw [h.inorder_setChild, List.mem_append, List.mem_cons]
  tauto

theorem Found.fst_ne {n : Children C} {s : Slot} {l r : List (BitVec 8 × C)} (hn : n.Valid)
    (h : n.Found c s l x r) {e : BitVec 8 × C} (he : e ∈ l ∨ e ∈ r) : e.1 ≠ c := by
  have hnodup := hn.nodup
  rw [h.inorder_eq, List.map_append, List.map_cons, List.perm_middle.nodup_iff] at hnodup
  rintro rfl
  refine (List.nodup_cons.mp hnodup).1 ?_
  rw [← List.map_append]
  exact mem_map_fst.mpr ⟨e.2, List.mem_append.mpr he⟩

theorem Found.valid_setChild {n : Children C} {s : Slot} {l r : List (BitVec 8 × C)}
    (hn : n.Valid) (h : n.Found c s l x r) (y : C) : (n.setChild s y).Valid := by
  have hnodup := hn.nodup
  have hlen := hn.length_le
  rw [h.inorder_eq] at hnodup hlen
  refine ⟨?_, ?_, h.layout_setChild y⟩
  · rw [h.inorder_setChild]
    simpa using hnodup
  · rw [h.inorder_setChild, h.capacity_setChild]
    simpa using hlen

/-- On sixteen slots the instructions of x86 find what the loop over them finds. -/
theorem findChild_node16 (h : slots.length ≤ 16) (c : BitVec 8) :
    (node16 slots).findChild c = (slots.findIdx? fun e ↦ e.1 == c).map .index := by
  rw [findChild]
  by_cases hzero : bitfield (· == c) 0 0 slots = 0
  · rw [if_neg (not_not.mpr hzero), List.findIdx?_eq_none_iff.mpr]
    · rfl
    · intro e he
      simpa using (bitfield_eq_zero_iff h).mp hzero e he
  · have hany : ∃ e ∈ slots, (e.1 == c) = true := by
      by_contra hnone
      push Not at hnone
      exact hzero ((bitfield_eq_zero_iff h).mpr hnone)
    rw [if_pos hzero, ctz_bitfield h hzero, List.findIdx?_eq_some_of_exists hany]
    rfl

theorem findChild_none {n : Children C} (hn : n.Valid) (hc : n.findChild c = none) (x : C) :
    (c, x) ∉ n.inorder := by
  cases n with
  | node4 slots => exact notMem_of_findIdx (Option.map_eq_none_iff.mp hc) x
  | node16 slots =>
    have hlen : slots.length ≤ 16 := hn.length_le
    rw [findChild_node16 hlen] at hc
    exact notMem_of_findIdx (Option.map_eq_none_iff.mp hc) x
  | node48 num keys children =>
    intro hmem
    have hthrough := (mem_table.mp hmem).2
    rw [Option.map_eq_none_iff.mp hc] at hthrough
    cases hthrough
  | node256 num children =>
    intro hmem
    rw [findChild, (mem_table.mp hmem).2] at hc
    cases hc

theorem findChild_some {n : Children C} {s : Slot} (hn : n.Valid) (hc : n.findChild c = some s) :
    ∃ l x r, n.Found c s l x r := by
  cases n with
  | node4 slots =>
    obtain ⟨i, hi, rfl⟩ := Option.map_eq_some_iff.mp hc
    obtain ⟨l, x, r, rfl, rfl⟩ := exists_split_of_findIdx hi
    refine ⟨l, x, r, rfl, ?_, fun i hi ↦ (Slot.index.inj hi).symm, ?_, fun y ↦ ?_,
      fun _ ↦ trivial, fun _ ↦ rfl, fun _ ↦ rfl⟩
    · rw [child, getElem?_split]
      rfl
    · rw [setChild, modify_split]
    · exact modify_split x y
  | node16 slots =>
    have hlen : slots.length ≤ 16 := hn.length_le
    rw [findChild_node16 hlen] at hc
    obtain ⟨i, hi, rfl⟩ := Option.map_eq_some_iff.mp hc
    obtain ⟨l, x, r, rfl, rfl⟩ := exists_split_of_findIdx hi
    refine ⟨l, x, r, rfl, ?_, fun i hi ↦ (Slot.index.inj hi).symm, ?_, fun y ↦ ?_,
      fun _ ↦ trivial, fun _ ↦ rfl, fun _ ↦ rfl⟩
    · rw [child, getElem?_split]
      rfl
    · rw [setChild, modify_split]
    · exact modify_split x y
  | node48 num keys children =>
    obtain ⟨i, hi, rfl⟩ := Option.map_eq_some_iff.mp hc
    obtain ⟨hlinked, hnum⟩ := hn.layout
    obtain ⟨x, hx⟩ := hlinked.occupied hi
    obtain ⟨l, r, hsplit⟩ := table_split nodup_bytes (mem_bytes c) (through keys children)
    have hself : update (through keys children) c (some x) = through keys children := by
      rw [update_eq_self_iff, through, hi, Option.bind_some, hx]
    have hset := fun y ↦ (hlinked.set hi y).2
    refine ⟨l, x, r, ?_, hx, nofun, ?_, fun y ↦ ?_, fun y ↦ ⟨(hlinked.set hi y).1, ?_⟩,
      fun _ ↦ rfl, fun _ ↦ rfl⟩
    · have h := hsplit (some x)
      rwa [hself] at h
    · rw [setChild, ← hx, update_eq_self]
    · have h := hsplit (some y)
      rwa [← hset y] at h
    · have h := hsplit (some x)
      rw [hself] at h
      rw [hset, hsplit, hnum, h]
      simp
  | node256 num children =>
    obtain ⟨x, hx⟩ : ∃ x, children c = some x := by
      rw [findChild] at hc
      split_ifs at hc with hsome
      exact Option.isSome_iff_exists.mp hsome
    obtain rfl : s = .byte c := by
      rw [findChild, hx] at hc
      exact (Option.some.inj hc).symm
    obtain ⟨l, r, hsplit⟩ := table_split nodup_bytes (mem_bytes c) children
    have hself : update children c (some x) = children := by rw [update_eq_self_iff, hx]
    have hnum := hn.layout
    have h := hsplit (some x)
    rw [hself] at h
    refine ⟨l, x, r, h, hx, nofun, ?_, fun y ↦ hsplit (some y), fun y ↦ ?_, fun _ ↦ rfl,
      fun _ ↦ rfl⟩
    · rw [setChild, hself]
    · refine Eq.trans hnum (congrArg _ ?_)
      rw [h]
      exact (congrArg List.length (hsplit (some y))).trans (by simp) |>.symm

end Children

end RadixBench.Art
