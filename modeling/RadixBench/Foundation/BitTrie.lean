import Mathlib.Data.Nat.Bitwise
import Mathlib.Tactic.Common
import Mathlib.Tactic.Ring
import RadixBench.Foundation.LinkedTree

namespace RadixBench.Foundation

variable {N : Type} {key key' : N → ℕ}

/-- A binary trie over the `k` low bits of the keys, whose other bits are those of `v`. A node
has a smaller key than those below it, and bit `k - 1` decides which side they are on. -/
def Trie (key : N → ℕ) : ℕ → ℕ → BinaryTree N → Prop
  | _, _, .nil => True
  | k, v, .node n l r => key n / 2 ^ k = v ∧ (∀ x ∈ inorder l, key n < key x) ∧
      (∀ x ∈ inorder r, key n < key x) ∧
      match k with
      | 0 => l = .nil ∧ r = .nil
      | k + 1 => Trie key k (2 * v) l ∧ Trie key k (2 * v + 1) r
termination_by structural _ _ t => t

theorem trie_zero {v : ℕ} {n : N} {l r : BinaryTree N} :
    Trie key 0 v (.node n l r) ↔ key n = v ∧ l = .nil ∧ r = .nil := by
  rw [Trie, pow_zero, Nat.div_one]
  constructor
  · rintro ⟨hv, -, -, hl, hr⟩
    exact ⟨hv, hl, hr⟩
  · rintro ⟨hv, rfl, rfl⟩
    exact ⟨hv, by simp, by simp, rfl, rfl⟩

theorem trie_succ {k v : ℕ} {n : N} {l r : BinaryTree N} :
    Trie key (k + 1) v (.node n l r) ↔ key n / 2 ^ (k + 1) = v ∧
      (∀ x ∈ inorder l, key n < key x) ∧ (∀ x ∈ inorder r, key n < key x) ∧
      Trie key k (2 * v) l ∧ Trie key k (2 * v + 1) r := Iff.rfl

theorem div_two_pow_of_testBit {x k v : ℕ} (h : x / 2 ^ (k + 1) = v) :
    x / 2 ^ k = 2 * v + (x.testBit k).toNat := by
  rw [pow_succ, ← Nat.div_div_eq_div_mul] at h
  have hbit : (x.testBit k).toNat = x / 2 ^ k % 2 := Nat.toNat_testBit x k
  omega

theorem div_two_pow_succ {x k v : ℕ} {b : Bool} (h : x / 2 ^ k = 2 * v + b.toNat) :
    x / 2 ^ (k + 1) = v := by
  have hb := Bool.toNat_le b
  rw [pow_succ, ← Nat.div_div_eq_div_mul, h]
  omega

theorem testBit_of_div_eq {x k v : ℕ} {b : Bool} (h : x / 2 ^ k = 2 * v + b.toNat) :
    x.testBit k = b := by
  have hbit : (x.testBit k).toNat = x / 2 ^ k % 2 := Nat.toNat_testBit x k
  rw [h, Nat.mul_add_mod] at hbit
  cases b <;> cases hx : x.testBit k <;> simp [hx] at hbit ⊢

theorem Trie.div_eq {k v : ℕ} {t : BinaryTree N} (h : Trie key k v t) {x : N}
    (hx : x ∈ inorder t) : key x / 2 ^ k = v := by
  induction t generalizing k v with
  | nil => cases hx
  | node n l r ihl ihr =>
    cases k with
    | zero =>
      obtain ⟨hv, rfl, rfl⟩ := trie_zero.mp h
      rw [pow_zero, Nat.div_one]
      obtain rfl : x = n := by simpa using hx
      exact hv
    | succ k =>
      obtain ⟨hv, -, -, hl, hr⟩ := trie_succ.mp h
      rcases List.mem_append.mp hx with hx | hx
      · exact div_two_pow_succ (b := false) (ihl hl hx)
      · rcases List.mem_cons.mp hx with rfl | hx
        · exact hv
        · exact div_two_pow_succ (b := true) (ihr hr hx)

theorem Trie.root_le {k v : ℕ} {n : N} {l r : BinaryTree N} (h : Trie key k v (.node n l r))
    {x : N} (hx : x ∈ inorder (.node n l r)) : key n ≤ key x := by
  obtain ⟨-, hl, hr, -⟩ := h
  rcases List.mem_append.mp hx with hx | hx
  · exact (hl x hx).le
  · rcases List.mem_cons.mp hx with rfl | hx
    · exact le_rfl
    · exact (hr x hx).le

theorem lt_of_div_lt {x y d : ℕ} (h : x / d < y / d) : x < y := by
  by_contra hle
  exact absurd (Nat.div_le_div_right (Nat.not_lt.mp hle)) (Nat.not_le.mpr h)

/-- The keys that a number turns away from lie on the other side of it. -/
theorem Trie.passed_by {k v w x : ℕ} {t : BinaryTree N} (h : Trie key k w t)
    (hx : x / 2 ^ k = v) : (w < v → ∀ n ∈ inorder t, key n < x) ∧
      (v < w → ∀ n ∈ inorder t, x < key n) := by
  refine ⟨fun hwv n hn ↦ lt_of_div_lt (d := 2 ^ k) ?_, fun hvw n hn ↦ lt_of_div_lt (d := 2 ^ k) ?_⟩
  · rwa [h.div_eq hn, hx]
  · rwa [h.div_eq hn, hx]

theorem Trie.congr {k v : ℕ} {t : BinaryTree N} (h : Trie key k v t)
    (hkey : ∀ x ∈ inorder t, key' x = key x) : Trie key' k v t := by
  induction t generalizing k v with
  | nil => trivial
  | node n l r ihl ihr =>
    have hn := hkey n (by simp)
    have hkl : ∀ x ∈ inorder l, key' x = key x := fun x hx ↦ hkey x (by simp [hx])
    have hkr : ∀ x ∈ inorder r, key' x = key x := fun x hx ↦ hkey x (by simp [hx])
    obtain ⟨hv, hl, hr, hsub⟩ := h
    refine ⟨hn ▸ hv, fun x hx ↦ ?_, fun x hx ↦ ?_, ?_⟩
    · rw [hn, hkl x hx]
      exact hl x hx
    · rw [hn, hkr x hx]
      exact hr x hx
    · cases k with
      | zero => exact hsub
      | succ k => exact ⟨ihl hsub.1 hkl, ihr hsub.2 hkr⟩

theorem Trie.relabel {k v : ℕ} {n m : N} {l r : BinaryTree N} (h : Trie key k v (.node n l r))
    (heq : key m = key n) : Trie key k v (.node m l r) := by
  obtain ⟨hv, hl, hr, hsub⟩ := h
  exact ⟨heq ▸ hv, heq ▸ hl, heq ▸ hr, hsub⟩

theorem Trie.height_le {k v : ℕ} {t : BinaryTree N} (h : Trie key k v t) : t.height ≤ k + 1 := by
  induction t generalizing k v with
  | nil => exact Nat.zero_le _
  | node n l r ihl ihr =>
    cases k with
    | zero =>
      obtain ⟨-, rfl, rfl⟩ := trie_zero.mp h
      exact le_rfl
    | succ k =>
      obtain ⟨-, -, -, hl, hr⟩ := trie_succ.mp h
      exact Nat.succ_le_succ (max_le (ihl hl) (ihr hr))

theorem Trie.nodup_map {k v : ℕ} {t : BinaryTree N} (h : Trie key k v t) :
    ((inorder t).map key).Nodup := by
  induction t generalizing k v with
  | nil => exact List.nodup_nil
  | node n l r ihl ihr =>
    cases k with
    | zero =>
      obtain ⟨-, rfl, rfl⟩ := trie_zero.mp h
      simp
    | succ k =>
      obtain ⟨-, hnl, hnr, hl, hr⟩ := trie_succ.mp h
      rw [inorder_node, List.map_append, List.map_cons, List.nodup_append', List.nodup_cons]
      refine ⟨ihl hl, ⟨?_, ihr hr⟩, ?_⟩
      · rw [List.mem_map]
        rintro ⟨x, hx, heq⟩
        exact (hnr x hx).ne' heq
      · intro a ha hb
        obtain ⟨x, hx, rfl⟩ := List.mem_map.mp ha
        rcases List.mem_cons.mp hb with heq | hb
        · exact (hnl x hx).ne' heq
        · obtain ⟨y, hy, heq⟩ := List.mem_map.mp hb
          have hxv := hl.div_eq hx
          have hyv := hr.div_eq hy
          rw [heq, hxv] at hyv
          omega

theorem Trie.nodup {k v : ℕ} {t : BinaryTree N} (h : Trie key k v t) : (inorder t).Nodup :=
  h.nodup_map.of_map _

theorem Trie.key_injective {k v : ℕ} {t : BinaryTree N} (h : Trie key k v t) {x y : N}
    (hx : x ∈ inorder t) (hy : y ∈ inorder t) (heq : key x = key y) : x = y :=
  List.inj_on_of_nodup_map h.nodup_map hx hy heq

theorem Trie.plug {k v : ℕ} {c : Context N} {t : BinaryTree N} (h : Trie key k v (plug c t))
    (hne : t ≠ .nil) :
    ∃ d w, d + c.length = k ∧ Trie key d w t ∧ ∀ t', Trie key d w t' →
      (∀ x ∈ inorder t', ∃ y ∈ inorder t, key x = key y) →
      Trie key k v (Foundation.plug c t') := by
  induction c generalizing t with
  | nil => exact ⟨k, v, rfl, h, fun t' ht' _ ↦ ht'⟩
  | cons f c ih =>
    obtain ⟨n, side, other⟩ := f
    rw [plug_cons] at h
    have hfill : Frame.fill ⟨n, side, other⟩ t ≠ .nil := by cases side <;> simp [Frame.fill]
    obtain ⟨d, w, hd, ht, hrepl⟩ := ih h hfill
    cases d with
    | zero =>
      cases side
      · exact absurd (trie_zero.mp ht).2.1 hne
      · exact absurd (trie_zero.mp ht).2.2 hne
    | succ d =>
      refine ⟨d, 2 * w + side.toNat, by rw [List.length_cons]; omega, ?_, fun t' ht' hsub ↦ ?_⟩
      · cases side
        · exact (trie_succ.mp ht).2.2.2.1
        · exact (trie_succ.mp ht).2.2.2.2
      · rw [plug_cons]
        refine hrepl _ ?_ fun x hx ↦ ?_
        · cases side
          · obtain ⟨hv, hl, hr, -, hrt⟩ := trie_succ.mp ht
            refine trie_succ.mpr ⟨hv, fun x hx ↦ ?_, hr, ht', hrt⟩
            obtain ⟨y, hy, heq⟩ := hsub x hx
            exact heq ▸ hl y hy
          · obtain ⟨hv, hl, hr, hlt, -⟩ := trie_succ.mp ht
            refine trie_succ.mpr ⟨hv, hl, fun x hx ↦ ?_, hlt, ht'⟩
            obtain ⟨y, hy, heq⟩ := hsub x hx
            exact heq ▸ hr y hy
        · have hmem : ∀ {z : N} {t : BinaryTree N}, z ∈ inorder (Frame.fill ⟨n, side, other⟩ t) ↔
              z ∈ inorder t ∨ z = n ∨ z ∈ inorder other := by
            intro z t
            cases side
            · simp [Frame.fill]
            · simp only [Frame.fill, inorder_node, List.mem_append, List.mem_cons]
              tauto
          rcases hmem.mp hx with hx | hx
          · obtain ⟨y, hy, heq⟩ := hsub x hx
            exact ⟨y, hmem.mpr (.inl hy), heq⟩
          · exact ⟨x, hmem.mpr (.inr hx), rfl⟩

def upper (key : N → ℕ) (n m : N) : N := if key n < key m then n else m

def lower (key : N → ℕ) (n m : N) : N := if key n < key m then m else n

theorem upper_lower (key : N → ℕ) (n m : N) :
    upper key n m = n ∧ lower key n m = m ∨ upper key n m = m ∧ lower key n m = n := by
  rw [upper, lower]
  split_ifs
  · exact .inl ⟨rfl, rfl⟩
  · exact .inr ⟨rfl, rfl⟩

/-- Insertion of a node with a new key: of two nodes that meet, the upper one stays and the
lower one goes on. -/
def insertTrie (key : N → ℕ) : ℕ → N → BinaryTree N → BinaryTree N
  | _, n, .nil => .node n .nil .nil
  | k, n, .node m l r =>
    if (key (lower key n m)).testBit (k - 1) then
      .node (upper key n m) l (insertTrie key (k - 1) (lower key n m) r)
    else .node (upper key n m) (insertTrie key (k - 1) (lower key n m) l) r

theorem insertTrie_perm (k : ℕ) (n : N) (t : BinaryTree N) :
    (inorder (insertTrie key k n t)).Perm (n :: inorder t) := by
  induction t generalizing k n with
  | nil => exact List.Perm.refl _
  | node m l r ihl ihr =>
    have hperm : (inorder (insertTrie key k n (.node m l r))).Perm
        (upper key n m :: lower key n m :: (inorder l ++ inorder r)) := by
      rw [insertTrie]
      split_ifs with hbit
      · refine (List.Perm.append_left _ ((ihr _ _).cons _)).trans (List.perm_middle.trans ?_)
        exact List.perm_middle.cons _
      · exact (List.Perm.append_right _ (ihl _ _)).trans <|
          (List.perm_middle.cons _).trans (List.Perm.swap _ _ _)
    refine hperm.trans (.trans ?_ (List.perm_middle.symm.cons n))
    rw [upper, lower]
    split_ifs
    · exact List.Perm.refl _
    · exact List.Perm.swap _ _ _

theorem mem_insertTrie {k : ℕ} {n x : N} {t : BinaryTree N} :
    x ∈ inorder (insertTrie key k n t) ↔ x = n ∨ x ∈ inorder t := by
  rw [(insertTrie_perm k n t).mem_iff, List.mem_cons]

/-- What two nodes that meet at the root of a subtree leave for the next round. -/
structure Meeting (key : N → ℕ) (k v : ℕ) (n m : N) (l r : BinaryTree N) : Prop where
  upper_div : key (upper key n m) / 2 ^ (k + 1) = v
  lower_div : key (lower key n m) / 2 ^ k = 2 * v + ((key (lower key n m)).testBit k).toNat
  lt : key (upper key n m) < key (lower key n m)
  left_lt : ∀ x ∈ inorder l, key (upper key n m) < key x
  right_lt : ∀ x ∈ inorder r, key (upper key n m) < key x
  left_ne : ∀ x ∈ inorder l, key x ≠ key (lower key n m)
  right_ne : ∀ x ∈ inorder r, key x ≠ key (lower key n m)

theorem Trie.meeting {k v : ℕ} {n m : N} {l r : BinaryTree N}
    (h : Trie key (k + 1) v (.node m l r)) (hn : key n / 2 ^ (k + 1) = v)
    (hfresh : ∀ x ∈ inorder (.node m l r), key x ≠ key n) : Meeting key k v n m l r := by
  obtain ⟨hv, hml, hmr, -, -⟩ := trie_succ.mp h
  have hmn : key m ≠ key n := hfresh m (by simp)
  by_cases hlt : key n < key m
  · have hup : upper key n m = n := if_pos hlt
    have hlow : lower key n m = m := if_pos hlt
    refine ⟨?_, ?_, ?_, ?_, ?_, ?_, ?_⟩ <;> simp only [hup, hlow]
    · exact hn
    · exact div_two_pow_of_testBit hv
    · exact hlt
    · exact fun x hx ↦ hlt.trans (hml x hx)
    · exact fun x hx ↦ hlt.trans (hmr x hx)
    · exact fun x hx ↦ (hml x hx).ne'
    · exact fun x hx ↦ (hmr x hx).ne'
  · have hup : upper key n m = m := if_neg hlt
    have hlow : lower key n m = n := if_neg hlt
    refine ⟨?_, ?_, ?_, ?_, ?_, ?_, ?_⟩ <;> simp only [hup, hlow]
    · exact hv
    · exact div_two_pow_of_testBit hn
    · omega
    · exact hml
    · exact hmr
    · exact fun x hx ↦ hfresh x (by simp [hx])
    · exact fun x hx ↦ hfresh x (by simp [hx])

theorem Trie.insertTrie {k v : ℕ} {n : N} {t : BinaryTree N} (h : Trie key k v t)
    (hn : key n / 2 ^ k = v) (hfresh : ∀ x ∈ inorder t, key x ≠ key n) :
    Trie key k v (insertTrie key k n t) := by
  induction t generalizing k v n with
  | nil =>
    refine ⟨hn, by simp, by simp, ?_⟩
    cases k with
    | zero => exact ⟨rfl, rfl⟩
    | succ k => exact ⟨trivial, trivial⟩
  | node m l r ihl ihr =>
    cases k with
    | zero =>
      rw [pow_zero, Nat.div_one] at hn
      exact absurd ((trie_zero.mp h).1.trans hn.symm) (hfresh m (by simp))
    | succ k =>
      obtain ⟨-, -, -, hl, hr⟩ := trie_succ.mp h
      have hmeet := h.meeting hn hfresh
      have hnext := hmeet.lower_div
      rw [Foundation.insertTrie, Nat.add_sub_cancel]
      split_ifs with hbit
      · rw [hbit] at hnext
        refine trie_succ.mpr ⟨hmeet.upper_div, hmeet.left_lt, fun x hx ↦ ?_, hl,
          ihr hr hnext hmeet.right_ne⟩
        rcases mem_insertTrie.mp hx with rfl | hx
        · exact hmeet.lt
        · exact hmeet.right_lt x hx
      · rw [Bool.eq_false_of_not_eq_true hbit] at hnext
        refine trie_succ.mpr ⟨hmeet.upper_div, fun x hx ↦ ?_, hmeet.right_lt,
          ihl hl hnext hmeet.left_ne, hr⟩
        rcases mem_insertTrie.mp hx with rfl | hx
        · exact hmeet.lt
        · exact hmeet.left_lt x hx

/-- What is left of a tree when its root is pushed down to a leaf, along the left child
where there is one, and cut off there. -/
def pull : BinaryTree N → BinaryTree N
  | .nil => .nil
  | .node _ .nil .nil => .nil
  | .node _ .nil (.node c l r) => .node c .nil (pull (.node c l r))
  | .node _ (.node c l' r') r => .node c (pull (.node c l' r')) r

theorem pull_perm {t : BinaryTree N} {n : N} (h : rootOf t = some n) :
    (inorder t).Perm (n :: inorder (pull t)) := by
  induction t generalizing n with
  | nil => cases h
  | node m l r ihl ihr =>
    cases h
    cases l with
    | nil =>
      cases r with
      | nil => exact List.Perm.refl _
      | node c l' r' => exact (ihr rfl).cons m
    | node c l' r' =>
      refine List.perm_middle.trans (List.Perm.cons m ?_)
      exact (List.Perm.append_right _ (ihl rfl)).trans List.perm_middle.symm

theorem mem_pull {n x : N} {l r : BinaryTree N} (h : x ∈ inorder (pull (.node n l r))) :
    x ∈ inorder l ∨ x ∈ inorder r := by
  have hperm : (n :: (inorder l ++ inorder r)).Perm (n :: inorder (pull (.node n l r))) :=
    List.perm_middle.symm.trans (pull_perm (t := .node n l r) rfl)
  exact List.mem_append.mp (hperm.cons_inv.mem_iff.mpr h)

theorem pull_node (n m : N) (l r : BinaryTree N) : pull (.node n l r) = pull (.node m l r) := by
  cases l with
  | nil => cases r <;> rfl
  | node c l' r' => rfl

theorem Trie.pull {k v : ℕ} {t : BinaryTree N} (h : Trie key k v t) :
    Trie key k v (pull t) := by
  induction t generalizing k v with
  | nil => trivial
  | node n l r ihl ihr =>
    cases k with
    | zero =>
      obtain ⟨-, rfl, rfl⟩ := trie_zero.mp h
      trivial
    | succ k =>
      obtain ⟨hv, hnl, hnr, hl, hr⟩ := trie_succ.mp h
      have hroot : ∀ {k v c l r x}, Trie key k v (.node c l r) →
          x ∈ inorder (Foundation.pull (.node c l r)) → key c < key x := fun ht hx ↦
        (mem_pull hx).elim (ht.2.1 _) (ht.2.2.1 _)
      cases l with
      | nil =>
        cases r with
        | nil => trivial
        | node c l' r' =>
          have hc : key c / 2 ^ (k + 1) = v := div_two_pow_succ (b := true) (hr.div_eq (by simp))
          exact trie_succ.mpr ⟨hc, by simp, fun x hx ↦ hroot hr hx, trivial, ihr hr⟩
      | node c l' r' =>
        have hc : key c / 2 ^ (k + 1) = v := div_two_pow_succ (b := false) (hl.div_eq (by simp))
        refine trie_succ.mpr ⟨hc, fun x hx ↦ hroot hl hx, fun x hx ↦ ?_, ihl hl, hr⟩
        have hcv := hl.div_eq (x := c) (by simp)
        have hxv := hr.div_eq hx
        exact lt_of_div_lt (d := 2 ^ k) (by omega)

theorem Trie.walk {H : Links N} {s s' : Slot N} {k v : ℕ} {t : BinaryTree N} {p : List Bool}
    {n : N} (h : Trie key k v t) (hlaid : Laid H s t)
    (hp : Foundation.walk (descend H.load) s p = some s') (hn : H.load s' = some n) :
    p.length ≤ k ∧ ∀ i (hi : i < p.length), (key n).testBit (k - 1 - i) = p[i] := by
  induction p generalizing s k v t with
  | nil => exact ⟨Nat.zero_le k, fun i hi ↦ absurd hi (Nat.not_lt_zero i)⟩
  | cons b p ih =>
    have hload := hlaid.load_eq
    rw [Foundation.walk, descend, hload] at hp
    cases t with
    | nil => cases hp
    | node m l r =>
      obtain ⟨-, -, hl, hr⟩ := hlaid
      obtain ⟨t, ht, htrie⟩ : ∃ t, Laid H (.child m b) t ∧
          ((t = .nil ∧ k = 0) ∨ ∃ j, k = j + 1 ∧ Trie key j (2 * v + b.toNat) t) := by
        cases k with
        | zero =>
          obtain ⟨-, rfl, rfl⟩ := trie_zero.mp h
          cases b
          · exact ⟨_, hl, .inl ⟨rfl, rfl⟩⟩
          · exact ⟨_, hr, .inl ⟨rfl, rfl⟩⟩
        | succ k =>
          obtain ⟨-, -, -, htl, htr⟩ := trie_succ.mp h
          cases b
          · exact ⟨_, hl, .inr ⟨k, rfl, htl⟩⟩
          · exact ⟨_, hr, .inr ⟨k, rfl, htr⟩⟩
      have hmem : n ∈ inorder t := ht.mem_of_walk hp hn
      obtain ⟨rfl, -⟩ | ⟨k, rfl, htrie⟩ := htrie
      · cases hmem
      · obtain ⟨hle, hbits⟩ := ih htrie ht hp
        refine ⟨Nat.succ_le_succ hle, fun i hi ↦ ?_⟩
        cases i with
        | zero => exact testBit_of_div_eq (htrie.div_eq hmem)
        | succ i =>
          have hsub : k + 1 - 1 - (i + 1) = k - 1 - i := by omega
          rw [hsub]
          exact hbits i (Nat.lt_of_succ_lt_succ hi)

theorem Trie.walk_lt {H : Links N} {s s' : Slot N} {k v : ℕ} {t : BinaryTree N} {p : List Bool}
    {n m : N} (h : Trie key k v t) (hlaid : Laid H s t) (hm : H.load s = some m) (hne : p ≠ [])
    (hp : Foundation.walk (descend H.load) s p = some s') (hn : H.load s' = some n) :
    key m < key n := by
  cases t with
  | nil => cases hm.symm.trans hlaid.load_eq
  | node m' l r =>
    obtain rfl := Option.some.inj (hlaid.load_eq.symm.trans hm)
    obtain ⟨b, p, rfl⟩ := List.exists_cons_of_ne_nil hne
    rw [Foundation.walk, descend, hm] at hp
    obtain ⟨-, -, hl, hr⟩ := hlaid
    obtain ⟨-, hml, hmr, -⟩ := h
    cases b with
    | false => exact hml n (hl.mem_of_walk hp hn)
    | true => exact hmr n (hr.mem_of_walk hp hn)

theorem Trie.path_injective {H : Links N} {s s₁ s₂ : Slot N} {k v : ℕ} {t : BinaryTree N}
    {p q : List Bool} {n m : N} (h : Trie key k v t) (hlaid : Laid H s t)
    (hp : Foundation.walk (descend H.load) s p = some s₁) (hn : H.load s₁ = some n)
    (hq : Foundation.walk (descend H.load) s q = some s₂) (hm : H.load s₂ = some m)
    (heq : key n = key m) : p = q := by
  wlog hle : p.length ≤ q.length generalizing p q s₁ s₂ n m
  · exact (this hq hm hp hn heq.symm (Nat.le_of_not_le hle)).symm
  obtain ⟨-, hbp⟩ := h.walk hlaid hp hn
  obtain ⟨-, hbq⟩ := h.walk hlaid hq hm
  have hpre : p = q.take p.length := by
    refine List.ext_getElem (by simp [hle]) fun i hi _ ↦ ?_
    rw [List.getElem_take, ← hbp i hi, ← hbq i (by omega), heq]
  obtain ⟨r, rfl⟩ : ∃ r, q = p ++ r := ⟨q.drop p.length, by
    conv_rhs => rw [hpre, List.length_take, Nat.min_eq_left hle, List.take_append_drop]⟩
  by_cases hr : r = []
  · rw [hr, List.append_nil]
  · rw [walk_append, hp, Option.bind_some] at hq
    obtain ⟨c, l, r', rfl, hsub⟩ := hlaid.walk hp hn
    obtain ⟨d, w, -, htrie, -⟩ := h.plug (by simp)
    exact absurd heq (htrie.walk_lt hsub hn hr hq hm).ne

theorem Trie.side_keys {k v : ℕ} {n : N} {l r : BinaryTree N}
    (h : Trie key (k + 1) v (.node n l r)) (side : Bool) (a : ℕ) :
    (∃ x ∈ inorder (bif side then r else l), key x = a) ↔
      (∃ x ∈ inorder (.node n l r), key x = a) ∧ key n ≠ a ∧ a / 2 ^ k = 2 * v + side.toNat := by
  obtain ⟨-, hnl, hnr, hl, hr⟩ := trie_succ.mp h
  constructor
  · intro ⟨x, hx, heq⟩
    subst heq
    cases side
    · exact ⟨⟨x, List.mem_append_left _ hx, rfl⟩, (hnl x hx).ne, hl.div_eq hx⟩
    · exact ⟨⟨x, List.mem_append_right _ (List.mem_cons_of_mem n hx), rfl⟩, (hnr x hx).ne,
        hr.div_eq hx⟩
  · intro ⟨⟨x, hx, heq⟩, hne, hside⟩
    subst heq
    rcases List.mem_append.mp hx with hx | hx
    · have hleft := hl.div_eq hx
      cases side
      · exact ⟨x, hx, rfl⟩
      · simp only [Bool.toNat_true] at hside
        omega
    · rcases List.mem_cons.mp hx with rfl | hx
      · exact absurd rfl hne
      · have hright := hr.div_eq hx
        cases side
        · simp only [Bool.toNat_false] at hside
          omega
        · exact ⟨x, hx, rfl⟩

/-- Tries over the same keys are equal, but for the names of their nodes. -/
theorem Trie.map_eq {N' : Type} {key' : N' → ℕ} {k v : ℕ} {t : BinaryTree N}
    {t' : BinaryTree N'} (h : Trie key k v t) (h' : Trie key' k v t')
    (hkeys : ∀ a, (∃ x ∈ inorder t, key x = a) ↔ ∃ x ∈ inorder t', key' x = a) :
    t.map key = t'.map key' := by
  induction t generalizing k v t' with
  | nil =>
    cases t' with
    | nil => rfl
    | node n' l' r' =>
      obtain ⟨x, hx, -⟩ := (hkeys (key' n')).mpr ⟨n', by simp, rfl⟩
      cases hx
  | node n l r ihl ihr =>
    cases t' with
    | nil =>
      obtain ⟨x, hx, -⟩ := (hkeys (key n)).mp ⟨n, by simp, rfl⟩
      cases hx
    | node n' l' r' =>
      have hroot : key n = key' n' := by
        obtain ⟨x, hx, hxn⟩ := (hkeys (key' n')).mpr ⟨n', by simp, rfl⟩
        obtain ⟨y, hy, hyn⟩ := (hkeys (key n)).mp ⟨n, by simp, rfl⟩
        exact le_antisymm (hxn ▸ h.root_le hx) (hyn ▸ h'.root_le hy)
      cases k with
      | zero =>
        obtain ⟨-, rfl, rfl⟩ := trie_zero.mp h
        obtain ⟨-, rfl, rfl⟩ := trie_zero.mp h'
        rw [BinaryTree.map, BinaryTree.map, hroot]
        rfl
      | succ k =>
        have hside : ∀ (side : Bool) a, (∃ x ∈ inorder (bif side then r else l), key x = a) ↔
            ∃ x ∈ inorder (bif side then r' else l'), key' x = a := fun side a ↦ by
          rw [h.side_keys side a, h'.side_keys side a, hkeys a, hroot]
        obtain ⟨-, -, -, hl, hr⟩ := trie_succ.mp h
        obtain ⟨-, -, -, hl', hr'⟩ := trie_succ.mp h'
        rw [BinaryTree.map, BinaryTree.map, hroot, ihl hl hl' (hside false),
          ihr hr hr' (hside true)]

theorem map_inj {M : Type} {f : N → M} {t t' : BinaryTree N} (h : t.map f = t'.map f)
    (hinj : ∀ x ∈ inorder t, ∀ y ∈ inorder t', f x = f y → x = y) : t = t' := by
  induction t generalizing t' with
  | nil =>
    cases t' with
    | nil => rfl
    | node n' l' r' => cases h
  | node n l r ihl ihr =>
    cases t' with
    | nil => cases h
    | node n' l' r' =>
      obtain ⟨hn, hl, hr⟩ := BinaryTree.node.inj h
      rw [hinj n (by simp) n' (by simp) hn,
        ihl hl fun x hx y hy ↦ hinj x (by simp [hx]) y (by simp [hy]),
        ihr hr fun x hx y hy ↦ hinj x (by simp [hx]) y (by simp [hy])]

structure LeastFrom (key : N → ℕ) (q : ℕ) (l : List N) (n : N) : Prop where
  mem : n ∈ l
  ge : q ≤ key n
  le : ∀ x ∈ l, q ≤ key x → key n ≤ key x

section

variable {k v q : ℕ} {n m : N} {l r : BinaryTree N}

theorem Trie.least_root (h : Trie key k v (.node n l r)) (hq : q ≤ key n) :
    LeastFrom key q (inorder (.node n l r)) n :=
  ⟨by simp, hq, fun _ hx _ ↦ h.root_le hx⟩

theorem Trie.least_left (h : Trie key (k + 1) v (.node n l r)) (hn : key n < q)
    (hm : LeastFrom key q (inorder l) m) : LeastFrom key q (inorder (.node n l r)) m := by
  obtain ⟨-, -, -, hl, hr⟩ := trie_succ.mp h
  refine ⟨List.mem_append_left _ hm.mem, hm.ge, fun x hx hqx ↦ ?_⟩
  rcases List.mem_append.mp hx with hx | hx
  · exact hm.le x hx hqx
  · rcases List.mem_cons.mp hx with rfl | hx
    · exact absurd hn (Nat.not_lt.mpr hqx)
    · have hmv := hl.div_eq hm.mem
      have hxv := hr.div_eq hx
      exact (lt_of_div_lt (d := 2 ^ k) (by omega)).le

theorem Trie.least_right (h : Trie key (k + 1) v (.node n l r)) (hn : key n < q)
    (hl : ∀ x ∈ inorder l, key x < q) (hm : LeastFrom key q (inorder r) m) :
    LeastFrom key q (inorder (.node n l r)) m := by
  refine ⟨List.mem_append_right _ (List.mem_cons_of_mem n hm.mem), hm.ge, fun x hx hqx ↦ ?_⟩
  rcases List.mem_append.mp hx with hx | hx
  · exact absurd (hl x hx) (Nat.not_lt.mpr hqx)
  · rcases List.mem_cons.mp hx with rfl | hx
    · exact absurd hn (Nat.not_lt.mpr hqx)
    · exact hm.le x hx hqx

end

end RadixBench.Foundation
