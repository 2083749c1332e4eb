import RadixBench.Art.Children

namespace RadixBench.Art

open Foundation Function

variable {C : Type} {c : BitVec 8} {x : C} {slots l r : List (BitVec 8 × C)} {arch : Arch}

namespace Children

/-- A node that is not replaced by a smaller one. -/
def Filled (n : Children C) : Prop := n.least ≤ n.inorder.length

def Ascending (n : Children C) : Prop := (n.inorder.map Prod.fst).Pairwise (· < ·)

theorem ascending_table (f : BitVec 8 → Option C) :
    ((table bytes f).map Prod.fst).Pairwise (· < ·) := pairwise_table pairwise_bytes

theorem length_table_le (f : BitVec 8 → Option C) : (table bytes f).length ≤ 256 := by
  have hlen := List.length_filterMap_le (fun k ↦ (f k).map (k, ·)) bytes
  have hbytes : bytes.length = 256 := by rw [bytes, List.length_map, List.length_finRange]
  exact hlen.trans_eq hbytes

structure Grows (arch : Arch) (n n' : Children C) (c : BitVec 8) (x : C) : Prop where
  valid : n'.Valid
  perm : n'.inorder.Perm ((c, x) :: n.inorder)
  least_le : n'.least ≤ max n.least (n.inorder.length + 1)
  ascending : (∀ e ∈ n.inorder, arch.less c e.1 = c.ult e.1) → n.Ascending → n'.Ascending

theorem Grows.length {n n' : Children C} (h : Grows arch n n' c x) :
    n'.inorder.length = n.inorder.length + 1 := by
  rw [h.perm.length_eq, List.length_cons]

theorem Grows.filled {n n' : Children C} (h : Grows arch n n' c x)
    (hn : n.least ≤ n.inorder.length + 1) : n'.Filled := by
  rw [Filled, h.length]
  exact h.least_le.trans (max_le hn le_rfl)

theorem nodup_of_perm {n' : List (BitVec 8 × C)} (hperm : n'.Perm ((c, x) :: slots))
    (hnodup : (slots.map Prod.fst).Nodup) (hc : ∀ x, (c, x) ∉ slots) :
    (n'.map Prod.fst).Nodup := by
  refine (hperm.map Prod.fst).nodup_iff.mpr (List.nodup_cons.mpr ⟨fun hmem ↦ ?_, hnodup⟩)
  obtain ⟨y, hy⟩ := mem_map_fst.mp hmem
  exact hc y hy

theorem Grows.of_perm {n m n' : Children C} (h : Grows arch m n' c x)
    (hperm : m.inorder.Perm n.inorder) (hleast : m.least ≤ n.inorder.length)
    (hasc : n.Ascending → m.Ascending) : Grows arch n n' c x := by
  refine ⟨h.valid, h.perm.trans (hperm.cons _), ?_, fun hless hn ↦ ?_⟩
  · refine h.least_le.trans (max_le ?_ ?_)
    · exact (hleast.trans (Nat.le_succ _)).trans (le_max_right _ _)
    · rw [hperm.length_eq]
      exact le_max_right _ _
  · exact h.ascending (fun e he ↦ hless e (hperm.mem_iff.mp he)) (hasc hn)

theorem perm_table_update {f : BitVec 8 → Option C} (hc : f c = none) (x : C) :
    (table bytes (update f c (some x))).Perm ((c, x) :: table bytes f) := by
  obtain ⟨l, r, hsplit⟩ := table_split nodup_bytes (mem_bytes c) f
  have hself : update f c none = f := by rw [update_eq_self_iff, hc]
  have hnone := hsplit none
  rw [hself] at hnone
  rw [hsplit, hnone]
  exact List.perm_middle

theorem notMem_iff {f : BitVec 8 → Option C} : (∀ x, (c, x) ∉ table bytes f) ↔ f c = none := by
  rw [Option.eq_none_iff_forall_ne_some]
  exact forall_congr' fun x ↦ not_congr (mem_table.trans (and_iff_right (mem_bytes c)))

theorem addChild256_grows {num : BitVec 8} {children : BitVec 8 → Option C}
    (hnum : num = BitVec.ofNat 8 (table bytes children).length) (hc : children c = none) (x : C) :
    Grows arch (.node256 num children) (addChild256 num children c x) c x := by
  have hperm := perm_table_update hc x
  have hlen := hperm.length_eq
  refine ⟨⟨nodup_table nodup_bytes, length_table_le _, ?_⟩, hperm, le_max_left _ _,
    fun _ _ ↦ ascending_table _⟩
  show num + 1 = _
  rw [hlen, hnum, List.length_cons, BitVec.ofNat_add]
  rfl

theorem exists_free {keys : BitVec 8 → Option (Fin 48)} {children : Fin 48 → Option C}
    (h : Linked keys children) (hlt : (table bytes (through keys children)).length < 48) :
    ∃ pos, (List.finRange 48).find? (fun i ↦ (children i).isNone) = some pos ∧
      children pos = none := by
  cases hfind : (List.finRange 48).find? fun i ↦ (children i).isNone with
  | some pos => exact ⟨pos, rfl, by simpa using List.find?_some hfind⟩
  | none =>
    have hall : ∀ i, ∃ e : BitVec 8 × C, e ∈ table bytes (through keys children) ∧
        keys e.1 = some i := by
      intro i
      have hi := List.find?_eq_none.mp hfind i (List.mem_finRange i)
      rw [Option.isNone_iff_eq_none] at hi
      obtain ⟨x, hx⟩ := Option.ne_none_iff_exists'.mp hi
      obtain ⟨c, hc⟩ := h.reached hx
      refine ⟨(c, x), mem_table.mpr ⟨mem_bytes c, ?_⟩, hc⟩
      rw [through, hc, Option.bind_some, hx]
    choose g hg using hall
    have hinj : Injective g := fun i j hij ↦
      Option.some.inj ((hg i).2.symm.trans (hij ▸ (hg j).2))
    have hsub : (List.finRange 48).map g ⊆ table bytes (through keys children) := by
      intro e he
      obtain ⟨i, -, rfl⟩ := List.mem_map.mp he
      exact (hg i).1
    have hle := (((List.nodup_finRange 48).map hinj).subperm hsub).length_le
    rw [List.length_map, List.length_finRange] at hle
    omega

theorem addChild48_grows {num : BitVec 8} {keys : BitVec 8 → Option (Fin 48)}
    {children : Fin 48 → Option C} (hn : (node48 num keys children).Valid)
    (hc : keys c = none) (arch : Arch) (x : C) : ∃ n', addChild48 num keys children c x = .ok n' ∧
      Grows arch (.node48 num keys children) n' c x := by
  obtain ⟨hlinked, hnum⟩ := hn.layout
  have hlen : (table bytes (through keys children)).length ≤ 48 := hn.length_le
  have hthrough : through keys children c = none := hlinked.through_eq_none.mpr hc
  have htoNat : num.toNat = (table bytes (through keys children)).length := by
    rw [hnum, BitVec.toNat_ofNat]
    omega
  rw [addChild48]
  by_cases hlt : num < 48
  · rw [if_pos hlt]
    rw [BitVec.lt_def, htoNat] at hlt
    obtain ⟨pos, hfind, hpos⟩ := exists_free hlinked hlt
    obtain ⟨hlinked', htable⟩ := hlinked.insert hc hpos x
    have hperm := perm_table_update hthrough x
    rw [← htable] at hperm
    rw [hfind]
    refine ⟨_, rfl, ⟨nodup_table nodup_bytes, ?_, hlinked', ?_⟩, hperm, le_max_left _ _,
      fun _ _ ↦ ascending_table _⟩
    · exact hperm.length_eq.trans_le hlt
    · rw [hperm.length_eq, hnum, List.length_cons, BitVec.ofNat_add]
      rfl
  · rw [if_neg hlt]
    rw [BitVec.lt_def, htoNat] at hlt
    refine ⟨_, rfl, Grows.of_perm (addChild256_grows hnum hthrough x) (List.Perm.refl _) ?_ id⟩
    have hge : 48 ≤ (table bytes (through keys children)).length := Nat.not_lt.mp hlt
    exact (by decide : 38 ≤ 48).trans hge

theorem fillPlaces_linked {pos : ℕ} {keys : BitVec 8 → Option (Fin 48)}
    {children : Fin 48 → Option C} (h : Linked keys children)
    (hpos : ∀ i x, children i = some x → i.val < pos) (hnodup : (slots.map Prod.fst).Nodup)
    (hnew : ∀ e ∈ slots, keys e.1 = none) (hlen : pos + slots.length ≤ 48) :
    ∃ keys' children', fillPlaces slots pos keys children = .ok (keys', children') ∧
      Linked keys' children' ∧ ∀ c x, through keys' children' c = some x ↔
        through keys children c = some x ∨ (c, x) ∈ slots := by
  induction slots generalizing pos keys children with
  | nil => exact ⟨keys, children, rfl, h, fun c x ↦ by simp⟩
  | cons e slots ih =>
    obtain ⟨c, x⟩ := e
    rw [List.map_cons, List.nodup_cons] at hnodup
    rw [List.length_cons] at hlen
    have hlt : pos < 48 := by omega
    have hc : keys c = none := hnew _ List.mem_cons_self
    have hfree : children ⟨pos, hlt⟩ = none := by
      rw [Option.eq_none_iff_forall_ne_some]
      exact fun y hy ↦ (hpos _ y hy).false
    have hne : ∀ e ∈ slots, e.1 ≠ c := by
      rintro e he rfl
      exact hnodup.1 (mem_map_fst.mpr ⟨e.2, he⟩)
    obtain ⟨hlinked, htable⟩ := h.insert hc hfree x
    have hpos' : ∀ i y, update children ⟨pos, hlt⟩ (some x) i = some y → i.val < pos + 1 := by
      intro i y hi
      by_cases hi' : i = ⟨pos, hlt⟩
      · exact hi' ▸ Nat.lt_succ_self pos
      · rw [update_of_ne hi'] at hi
        exact Nat.lt_succ_of_lt (hpos i y hi)
    have hnew' : ∀ e ∈ slots, update keys c (some ⟨pos, hlt⟩) e.1 = none := by
      intro e he
      rw [update_of_ne (hne e he)]
      exact hnew e (List.mem_cons_of_mem _ he)
    obtain ⟨keys', children', hrun, hlinked', hmem⟩ :=
      ih hlinked hpos' hnodup.2 hnew' (by omega)
    refine ⟨keys', children', ?_, hlinked', fun d y ↦ ?_⟩
    · rw [fillPlaces, dif_pos hlt, hrun]
    · rw [hmem, htable, List.mem_cons, Prod.mk.injEq]
      by_cases hd : d = c
      · subst hd
        have hthrough : through keys children d = none := h.through_eq_none.mpr hc
        have hd : (d, y) ∉ slots := fun hy ↦ hne _ hy rfl
        simp [hthrough, hd, eq_comm]
      · rw [update_of_ne hd]
        simp [hd]

theorem fillPlaces_spec (hnodup : (slots.map Prod.fst).Nodup) (hlen : slots.length ≤ 48) :
    ∃ keys children, fillPlaces slots 0 (fun _ ↦ none) (fun _ ↦ none) = .ok (keys, children) ∧
      Linked keys children ∧ (table bytes (through keys children)).Perm slots := by
  have hlen' : 0 + slots.length ≤ 48 := by omega
  obtain ⟨keys, children, hrun, hlinked, hmem⟩ := fillPlaces_linked (Linked.none (C := C))
    nofun hnodup (fun _ _ ↦ rfl) hlen'
  refine ⟨keys, children, hrun, hlinked, perm_of_entries (nodup_table nodup_bytes) hnodup ?_⟩
  intro c x
  rw [mem_table, and_iff_right (mem_bytes c), hmem]
  exact or_iff_right nofun

/-- Both ways to find the place of a new byte stop in front of the first greater one. -/
theorem addChild16_idx (h : slots.length < 16) (arch : Arch) (c : BitVec 8) :
    (if bitfield (arch.less c) 0 0 slots ≠ 0 then (bitfield (arch.less c) 0 0 slots).ctz.toNat
      else slots.length) = slots.findIdx fun e ↦ arch.less c e.1 := by
  split_ifs with hne
  · exact ctz_bitfield h.le hne
  · refine (List.findIdx_eq_length_of_false fun e he ↦ ?_).symm
    simpa using (bitfield_eq_zero_iff h.le).mp (not_not.mp hne) e he

theorem pairwise_insert {less : BitVec 8 → Bool} (hc : ∀ x, (c, x) ∉ slots)
    (hless : ∀ e ∈ slots, less e.1 = c.ult e.1) (h : (slots.map Prod.fst).Pairwise (· < ·))
    (x : C) :
    ((slots.insertIdx (slots.findIdx fun e ↦ less e.1) (c, x)).map Prod.fst).Pairwise (· < ·) := by
  refine pairwise_insertIdx (R := (· < ·)) BitVec.lt_trans (fun e he hlt ↦ ?_)
    (fun e he hge ↦ ?_) h
  · rw [hless e he, BitVec.ult_iff_lt] at hlt
    exact hlt
  · rw [hless e he, ← Bool.not_eq_true, BitVec.ult_iff_lt] at hge
    refine BitVec.lt_of_le_ne (BitVec.not_lt.mp hge) ?_
    rintro rfl
    exact hc e.2 he

theorem perm_insert (slots : List (BitVec 8 × C)) (p : BitVec 8 × C → Bool) (c : BitVec 8) (x : C) :
    (slots.insertIdx (slots.findIdx p) (c, x)).Perm ((c, x) :: slots) :=
  List.perm_insertIdx _ _ List.findIdx_le_length

theorem addChild16_grows (hn : (node16 slots).Valid) (hc : ∀ x, (c, x) ∉ slots) (arch : Arch) (x : C) :
    ∃ n', addChild16 arch slots c x = .ok n' ∧ Grows arch (.node16 slots) n' c x := by
  have hle : slots.length ≤ 16 := hn.length_le
  have hnodup : (slots.map Prod.fst).Nodup := hn.nodup
  rw [addChild16]
  split_ifs with hlt
  · have hperm := perm_insert slots (fun e ↦ arch.less c e.1) c x
    refine ⟨_, rfl, ?_⟩
    rw [addChild16_idx hlt]
    refine ⟨⟨nodup_of_perm hperm hn.nodup hc, ?_, trivial⟩, hperm, le_max_left _ _, ?_⟩
    · exact hperm.length_eq.trans_le hlt
    · exact fun hless hasc ↦ pairwise_insert hc hless hasc x
  · obtain ⟨keys, children, hfill, hlinked, hperm⟩ := fillPlaces_spec hnodup
      (hle.trans (by decide))
    have hlen : (table bytes (through keys children)).length = slots.length := hperm.length_eq
    have hvalid : (node48 (BitVec.ofNat 8 slots.length) keys children).Valid := by
      refine ⟨nodup_table nodup_bytes, hlen.trans_le (hle.trans (show 16 ≤ 48 by decide)), hlinked, ?_⟩
      rw [hlen]
    have hkey : keys c = none := by
      rw [← hlinked.through_eq_none, ← notMem_iff]
      exact fun y hy ↦ hc y (hperm.mem_iff.mp hy)
    obtain ⟨n', hrun, hgrows⟩ := addChild48_grows hvalid hkey arch x
    refine ⟨n', ?_, hgrows.of_perm hperm ?_ fun _ ↦ ascending_table _⟩
    · rw [hfill]
      exact hrun
    · exact (by decide : 13 ≤ 16).trans (Nat.not_lt.mp hlt)

theorem addChild4_grows (hn : (node4 slots).Valid) (hc : ∀ x, (c, x) ∉ slots) (arch : Arch) (x : C) :
    ∃ n', addChild4 arch slots c x = .ok n' ∧ Grows arch (.node4 slots) n' c x := by
  have hle : slots.length ≤ 4 := hn.length_le
  rw [addChild4]
  split_ifs with hlt
  · have hperm := perm_insert slots (fun e ↦ c.ult e.1) c x
    refine ⟨_, rfl, ⟨nodup_of_perm hperm hn.nodup hc, ?_, trivial⟩, hperm, le_max_left _ _, ?_⟩
    · exact hperm.length_eq.trans_le hlt
    · exact fun _ hasc ↦ pairwise_insert hc (fun _ _ ↦ rfl) hasc x
  · have hvalid : (node16 slots).Valid := ⟨hn.nodup, hle.trans (show 4 ≤ 16 by decide), trivial⟩
    obtain ⟨n', hrun, hgrows⟩ := addChild16_grows hvalid hc arch x
    exact ⟨n', hrun, hgrows.of_perm (List.Perm.refl _) (Nat.not_lt.mp hlt) id⟩

/-- Every layout takes a further child, and gives way to the next one when it is full. -/
theorem addChild_grows {n : Children C} (hn : n.Valid) (hc : ∀ x, (c, x) ∉ n.inorder)
    (arch : Arch) (x : C) : ∃ n', n.addChild arch c x = .ok n' ∧ Grows arch n n' c x := by
  cases n with
  | node4 slots => exact addChild4_grows hn hc arch x
  | node16 slots => exact addChild16_grows hn hc arch x
  | node48 num keys children =>
    exact addChild48_grows hn (hn.layout.1.through_eq_none.mp (notMem_iff.mp hc)) arch x
  | node256 num children => exact ⟨_, rfl, addChild256_grows hn.layout (notMem_iff.mp hc) x⟩

/-- What is left of a node without the child between `l` and `r`. -/
structure Shrinks (n' : Children C) (l r : List (BitVec 8 × C)) : Prop where
  valid : n'.Valid
  filled : n'.Filled
  inorder_eq : n'.inorder = l ++ r

theorem Shrinks.of_length {n' : Children C} (hrest : ((l ++ r).map Prod.fst).Nodup)
    (h : n'.inorder = l ++ r) (hle : (l ++ r).length ≤ n'.capacity)
    (hleast : n'.least ≤ (l ++ r).length) (hlayout : n'.Layout) : Shrinks n' l r := by
  refine ⟨⟨?_, ?_, hlayout⟩, ?_, h⟩
  · rwa [h]
  · rwa [h]
  · rwa [Filled, h]

section

variable {s : Slot}

theorem Found.length_eq {n : Children C} (h : n.Found c s l x r) :
    n.inorder.length = (l ++ r).length + 1 := by
  rw [h.inorder_eq]
  simp only [List.length_append, List.length_cons]
  omega

theorem Found.nodup_rest {n : Children C} (hn : n.Valid) (h : n.Found c s l x r) :
    ((l ++ r).map Prod.fst).Nodup := by
  have hnodup := hn.nodup
  rw [h.inorder_eq, List.map_append, List.map_cons] at hnodup
  rw [List.map_append]
  exact (List.perm_middle.nodup_iff.mp hnodup).of_cons

theorem Found.table_erase {n : Children C} {f : BitVec 8 → Option C} (hn : n.Valid)
    (h : n.Found c s l x r) (hf : n.inorder = table bytes f) :
    table bytes (update f c none) = l ++ r := by
  have hnodup := hn.nodup
  rw [h.inorder_eq] at hnodup hf
  rw [Foundation.table_erase, ← hf]
  exact filter_split hnodup

theorem removeChild16_shrinks (hn : (node16 slots).Valid) (hfill : (node16 slots).Filled)
    (h : (node16 slots).Found c s l x r) : Shrinks (removeChild16 slots l.length) l r := by
  have hrest := h.nodup_rest hn
  have hlen : slots.length ≤ 16 := hn.length_le
  have hleast : 4 ≤ slots.length := hfill
  have hsum : slots.length = (l ++ r).length + 1 := h.length_eq
  obtain rfl : slots = l ++ (c, x) :: r := h.inorder_eq
  rw [removeChild16, eraseIdx_split]
  split_ifs with h3
  · exact .of_length hrest rfl (h3.trans_le (show 3 ≤ 4 by decide))
      ((show 2 ≤ 3 by decide).trans_eq h3.symm) trivial
  · refine .of_length hrest rfl ?_ ?_ trivial
    · show (l ++ r).length ≤ 16
      omega
    · show 4 ≤ (l ++ r).length
      omega

theorem ofNat_succ_sub_one (len : ℕ) : BitVec.ofNat 8 (len + 1) - 1 = BitVec.ofNat 8 len := by
  rw [BitVec.ofNat_add]
  exact BitVec.add_sub_cancel _ _

/-- The counter is one byte, which tells apart the sizes that matter. -/
theorem ofNat_sub_one_eq_iff (len n : ℕ) (hle : n ≤ len) (hlt : len < 256) :
    BitVec.ofNat 8 (len + 1) - 1 = BitVec.ofNat 8 n ↔ len = n := by
  rw [ofNat_succ_sub_one, ← BitVec.toNat_inj, BitVec.toNat_ofNat, BitVec.toNat_ofNat]
  omega

theorem removeChild48_shrinks {num : BitVec 8} {keys : BitVec 8 → Option (Fin 48)}
    {children : Fin 48 → Option C} (hn : (node48 num keys children).Valid)
    (hfill : (node48 num keys children).Filled) (h : (node48 num keys children).Found c s l x r) :
    ∃ n', removeChild48 num keys children c = .ok n' ∧ Shrinks n' l r := by
  obtain ⟨hlinked, hnum⟩ := hn.layout
  have hrest := h.nodup_rest hn
  have herase : table bytes (update (through keys children) c none) = l ++ r :=
    h.table_erase hn rfl
  have hsum : (table bytes (through keys children)).length = (l ++ r).length + 1 := h.length_eq
  have hlen : (table bytes (through keys children)).length ≤ 48 := hn.length_le
  have hleast : 13 ≤ (table bytes (through keys children)).length := hfill
  rw [hsum] at hnum hlen hleast
  obtain ⟨pos, hpos, -⟩ := Option.bind_eq_some_iff.mp (mem_table.mp h.mem).2
  obtain ⟨hlinked', hthrough⟩ := hlinked.erase hpos
  rw [← hthrough] at herase
  have h12 := ofNat_sub_one_eq_iff (l ++ r).length 12 (by omega) (by omega)
  rw [removeChild48, hpos, hnum]
  refine ⟨_, rfl, ?_⟩
  split_ifs with heq
  · replace heq : (l ++ r).length = 12 := h12.mp heq
    exact .of_length hrest herase (heq.trans_le (show 12 ≤ 16 by decide))
      ((show 4 ≤ 12 by decide).trans_eq heq.symm) trivial
  · have hne : (l ++ r).length ≠ 12 := fun h ↦ heq (h12.mpr h)
    refine .of_length hrest herase ?_ ?_ ⟨hlinked', ?_⟩
    · exact (Nat.le_succ _).trans hlen
    · show 13 ≤ (l ++ r).length
      omega
    · rw [herase, ofNat_succ_sub_one]

theorem removeChild256_shrinks {num : BitVec 8} {children : BitVec 8 → Option C}
    (hn : (node256 num children).Valid) (hfill : (node256 num children).Filled)
    (h : (node256 num children).Found c s l x r) :
    ∃ n', removeChild256 num children c = .ok n' ∧ Shrinks n' l r := by
  have hnum : num = BitVec.ofNat 8 (table bytes children).length := hn.layout
  have hrest := h.nodup_rest hn
  have herase : table bytes (update children c none) = l ++ r := h.table_erase hn rfl
  have hsum : (table bytes children).length = (l ++ r).length + 1 := h.length_eq
  have hlen := length_table_le children
  have hleast : 38 ≤ (table bytes children).length := hfill
  rw [hsum] at hnum hlen hleast
  have h37 := ofNat_sub_one_eq_iff (l ++ r).length 37 (by omega) (by omega)
  rw [removeChild256, hnum]
  split_ifs with heq
  · replace heq : (l ++ r).length = 37 := h37.mp heq
    have hnodup : ((table bytes (update children c none)).map Prod.fst).Nodup :=
      nodup_table nodup_bytes
    have hlen' : (table bytes (update children c none)).length ≤ 48 := by
      rw [herase, heq]
      decide
    obtain ⟨keys, places, hfill, hlinked, hperm⟩ := fillPlaces_spec hnodup hlen'
    have hplaces : through keys places = update children c none := by
      funext d
      apply Option.ext
      intro y
      have hmem : (d, y) ∈ table bytes (through keys places) ↔ _ := hperm.mem_iff
      rwa [mem_table, mem_table, and_iff_right (mem_bytes d), and_iff_right (mem_bytes d)] at hmem
    have hinorder : table bytes (through keys places) = l ++ r := by rw [hplaces, herase]
    rw [hfill]
    refine ⟨_, rfl, .of_length hrest hinorder ?_ ?_ ⟨hlinked, ?_⟩⟩
    · exact heq.trans_le (show 37 ≤ 48 by decide)
    · exact (show 13 ≤ 37 by decide).trans_eq heq.symm
    · rw [hinorder, ofNat_succ_sub_one]
  · have hne : (l ++ r).length ≠ 37 := fun h ↦ heq (h37.mpr h)
    refine ⟨_, rfl, .of_length hrest herase ?_ ?_ ?_⟩
    · exact (Nat.le_succ _).trans hlen
    · show 38 ≤ (l ++ r).length
      omega
    · show _ = BitVec.ofNat 8 (table bytes _).length
      rw [herase, ofNat_succ_sub_one]

end

end Children

end RadixBench.Art
