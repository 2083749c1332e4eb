import RadixBench.Art.Resizing
import RadixBench.Foundation.Agreement

namespace RadixBench.Art

open Foundation Function

variable {V : Type} {path w k key : List (BitVec 8)} {v value : Option V} {n x : ArtNode V}
  {children : Children (ArtNode V)} {c : BitVec 8} {fuel : ℕ}

/-- The header of a node with a compressed path, of which it has the first bytes. -/
def ArtHeader.of (w : List (BitVec 8)) : ArtHeader := ⟨w.length, w.take maxPrefixLen⟩

/-- A key with the first of the zeros that follow it in a leaf. -/
def terminated (k : List (BitVec 8)) : List (BitVec 8) := k ++ [0]

theorem prefix_terminated (k : List (BitVec 8)) : k <+: terminated k := List.prefix_append _ _

theorem length_terminated (k : List (BitVec 8)) : (terminated k).length = k.length + 1 := by
  rw [terminated, List.length_append, List.length_singleton]

theorem terminated_inj {k k' : List (BitVec 8)} : terminated k = terminated k' ↔ k = k' :=
  List.append_left_inj [0]

theorem prefix_of_terminated (h : path ++ [c] <+: terminated k) : path <+: k := by
  refine List.prefix_of_prefix_length_le ((List.prefix_append _ _).trans h) (prefix_terminated k) ?_
  have hlen := h.length_le
  rw [List.length_append, List.length_singleton, length_terminated] at hlen
  omega

/-- A node at the end of `path`: each inner node goes on with the bytes in its header and with
that of a child. A leaf can lie below the zero that follows its key. -/
inductive Wf : List (BitVec 8) → ArtNode V → Prop
  | leaf {path : List (BitVec 8)} {l : ArtLeaf V} : path <+: terminated l.key → Wf path (.leaf l)
  | inner {path : List (BitVec 8)} (w : List (BitVec 8)) {children : Children (ArtNode V)} :
      children.Valid → children.Filled →
      (∀ e ∈ children.inorder, Wf (path ++ w ++ [e.1]) e.2) → Wf path (.inner (.of w) children)

inductive Has : ArtNode V → List (BitVec 8) → Option V → Prop
  | leaf (l : ArtLeaf V) : Has (.leaf l) l.key l.value
  | inner {n : ArtHeader} {children : Children (ArtNode V)} {e : BitVec 8 × ArtNode V}
      {k : List (BitVec 8)} {v : Option V} :
      e ∈ children.inorder → Has e.2 k v → Has (.inner n children) k v

theorem has_leaf {l : ArtLeaf V} : Has (.leaf l) k v ↔ k = l.key ∧ v = l.value := by
  constructor
  · rintro ⟨⟩
    exact ⟨rfl, rfl⟩
  · rintro ⟨rfl, rfl⟩
    exact .leaf l

theorem has_inner {n : ArtHeader} :
    Has (.inner n children) k v ↔ ∃ e ∈ children.inorder, Has e.2 k v := by
  constructor
  · rintro ⟨⟩
    exact ⟨_, ‹_›, ‹_›⟩
  · rintro ⟨e, he, h⟩
    exact .inner he h

theorem Wf.inner_inv {n : ArtHeader} (h : Wf path (.inner n children)) :
    ∃ w, n = .of w ∧ children.Valid ∧ children.Filled ∧
      ∀ e ∈ children.inorder, Wf (path ++ w ++ [e.1]) e.2 := by
  cases h with
  | inner w hvalid hfilled hchildren => exact ⟨w, rfl, hvalid, hfilled, hchildren⟩

theorem Wf.prefix_of_has (h : Wf path n) (hk : Has n k v) : path <+: terminated k := by
  induction h with
  | leaf hpre =>
    obtain ⟨rfl, -⟩ := has_leaf.mp hk
    exact hpre
  | inner w _ _ _ ih =>
    obtain ⟨e, he, hk⟩ := has_inner.mp hk
    exact ((List.prefix_append _ _).trans (List.prefix_append _ _)).trans (ih e he hk)

theorem Children.Filled.exists_mem {C : Type} {n : Children C} (h : n.Filled) :
    ∃ e, e ∈ n.inorder := by
  have hpos : 0 < n.inorder.length := by
    refine lt_of_lt_of_le ?_ h
    cases n <;> simp [Children.least]
  exact List.exists_mem_of_length_pos hpos

theorem Wf.exists_has (h : Wf path n) : ∃ k v, Has n k v := by
  induction h with
  | leaf _ => exact ⟨_, _, .leaf _⟩
  | inner w _ hfilled _ ih =>
    obtain ⟨e, he⟩ := hfilled.exists_mem
    obtain ⟨k, v, hk⟩ := ih e he
    exact ⟨k, v, .inner he hk⟩

section Inner

variable {n : ArtHeader} (hvalid : children.Valid)
  (hchildren : ∀ e ∈ children.inorder, Wf (path ++ w ++ [e.1]) e.2)

include hchildren

theorem prefix_of_child {e : BitVec 8 × ArtNode V} (he : e ∈ children.inorder)
    (hk : Has e.2 k v) : path ++ w ++ [e.1] <+: terminated k := (hchildren e he).prefix_of_has hk

theorem path_prefix_of_has (hk : Has (.inner (.of w) children) k v) : path ++ w <+: k := by
  obtain ⟨e, he, hk⟩ := has_inner.mp hk
  exact prefix_of_terminated (prefix_of_child hchildren he hk)

include hvalid in
theorem has_child (hx : (c, x) ∈ children.inorder) (hk : path ++ w ++ [c] <+: terminated k) :
    Has (.inner n children) k v ↔ Has x k v := by
  refine ⟨fun h ↦ ?_, fun h ↦ .inner hx h⟩
  obtain ⟨⟨d, y⟩, he, h⟩ := has_inner.mp h
  obtain rfl : d = c := snoc_unique (prefix_of_child hchildren he h) hk
  rwa [value_unique hvalid.nodup hx he]

theorem not_has_of_missing (hc : ∀ x, (c, x) ∉ children.inorder)
    (hk : path ++ w ++ [c] <+: terminated k) : ¬ Has (.inner n children) k v := by
  intro h
  obtain ⟨⟨d, y⟩, he, h⟩ := has_inner.mp h
  obtain rfl : d = c := snoc_unique (prefix_of_child hchildren he h) hk
  exact hc y he

end Inner

/-- No key below a node is another one with a zero byte behind it and maybe more. -/
theorem Wf.eq_of_comparable (h : Wf path n) {k' : List (BitVec 8)} {v' : Option V}
    (hk : Has n k v) (hk' : Has n k' v') (hcomp : Comparable (terminated k) (terminated k')) :
    k = k' ∧ v = v' := by
  induction h with
  | leaf _ =>
    obtain ⟨rfl, rfl⟩ := has_leaf.mp hk
    obtain ⟨rfl, rfl⟩ := has_leaf.mp hk'
    exact ⟨rfl, rfl⟩
  | inner w hvalid _ hchildren ih =>
    obtain ⟨⟨c, x⟩, he, hk⟩ := has_inner.mp hk
    obtain ⟨⟨d, y⟩, he', hk'⟩ := has_inner.mp hk'
    have hpre := prefix_of_child hchildren he hk
    have hpre' := prefix_of_child hchildren he' hk'
    obtain rfl : c = d := by
      by_contra hne
      exact Parts.not_comparable ⟨c, d, hne, hpre, hpre'⟩ hcomp
    obtain rfl := value_unique hvalid.nodup he he'
    exact ih _ he hk hk'

theorem Wf.value_unique (h : Wf path n) {v' : Option V} (hk : Has n k v) (hk' : Has n k v') :
    v = v' := (h.eq_of_comparable hk hk' (comparable_self _)).2

def Shorter (n : ArtNode V) (len : ℕ) : Prop := ∀ k v, Has n k v → k.length < len

theorem Shorter.child {n : ArtHeader} {e : BitVec 8 × ArtNode V}
    (h : Shorter (.inner n children) (path.length + (fuel + 1))) (he : e ∈ children.inorder)
    (w : List (BitVec 8)) : Shorter e.2 ((path ++ w ++ [e.1]).length + fuel) := by
  intro k v hk
  have hlen := h k v (.inner he hk)
  simp only [List.length_append, List.length_singleton]
  omega

/-- An inner node leaves fuel for a round, as its keys are at least as long as its path. -/
theorem Wf.exists_fuel {n : ArtHeader} (h : Wf path (.inner n children))
    (hshort : Shorter (.inner n children) (path.length + fuel)) : ∃ f, fuel = f + 1 := by
  obtain ⟨k, v, hk⟩ := h.exists_has
  obtain ⟨w, rfl, -, -, hchildren⟩ := h.inner_inv
  have hlen := hshort k v hk
  have hpre := (path_prefix_of_has hchildren hk).length_le
  rw [List.length_append] at hpre
  exact Nat.exists_eq_succ_of_ne_zero (by omega)

abbrev Entry (V : Type) := List (BitVec 8) × Option V

/-- The entries below a node, in the order in which the loops over the children meet them. -/
def entries : ℕ → ArtNode V → List (Entry V)
  | _, .leaf l => [(l.key, l.value)]
  | 0, .inner _ _ => []
  | fuel + 1, .inner _ children => children.inorder.flatMap fun e ↦ entries fuel e.2

theorem entries_inner (fuel : ℕ) (n : ArtHeader) (children : Children (ArtNode V)) :
    entries (fuel + 1) (.inner n children) =
      children.inorder.flatMap fun e ↦ entries fuel e.2 := by
  rw [entries]

theorem mem_entries (h : Wf path n) (hshort : Shorter n (path.length + fuel)) :
    (k, v) ∈ entries fuel n ↔ Has n k v := by
  induction h generalizing fuel with
  | leaf _ => rw [entries, List.mem_singleton, has_leaf, Prod.mk.injEq]
  | @inner path w children hvalid hfilled hchildren ih =>
    obtain ⟨f, rfl⟩ := Wf.exists_fuel (.inner w hvalid hfilled hchildren) hshort
    rw [entries_inner, List.mem_flatMap, has_inner]
    exact exists_congr fun e ↦ and_congr_right fun he ↦ ih e he (hshort.child he w)

/-- The keys whose order does not depend on the machine. -/
def Arch.Orders (arch : Arch) (k : List (BitVec 8)) : Prop :=
  arch = .portable ∨ ∀ b ∈ k, b.toNat < 128

theorem Arch.Orders.terminated {arch : Arch} (h : arch.Orders k) : arch.Orders (terminated k) := by
  refine h.imp_right fun h b hb ↦ ?_
  rcases List.mem_append.mp hb with hb | hb
  · exact h b hb
  · rw [List.mem_singleton.mp hb]
    decide

theorem Arch.Orders.less_eq {arch : Arch} {d : BitVec 8} {k' : List (BitVec 8)}
    (h : arch.Orders k) (h' : arch.Orders k') (hc : c ∈ k) (hd : d ∈ k') :
    arch.less c d = c.ult d := by
  cases arch with
  | portable => rfl
  | x86 =>
    have hlow : ∀ {b : BitVec 8}, b.toNat < 128 → b.msb = false := fun {b} hb ↦ by
      rw [BitVec.msb_eq_decide]
      exact decide_eq_false (by omega)
    rcases h with h | h
    · cases h
    rcases h' with h' | h'
    · cases h'
    exact BitVec.slt_eq_ult_of_msb_eq ((hlow (h c hc)).trans (hlow (h' d hd)).symm)

inductive Ordered : ArtNode V → Prop
  | leaf (l : ArtLeaf V) : Ordered (.leaf l)
  | inner {n : ArtHeader} {children : Children (ArtNode V)} :
      children.Ascending → (∀ e ∈ children.inorder, Ordered e.2) → Ordered (.inner n children)

theorem Ordered.inner_inv {n : ArtHeader} (h : Ordered (.inner n children)) :
    children.Ascending ∧ ∀ e ∈ children.inorder, Ordered e.2 := by
  cases h with
  | inner hasc hchildren => exact ⟨hasc, hchildren⟩

section Replace

variable {s : Slot} {l r : List (BitVec 8 × ArtNode V)} {y : ArtNode V} {h : ArtHeader}

theorem has_beside (hfound : children.Found c s l x r) :
    Has (.inner h children) k v ↔ (∃ e, (e ∈ l ∨ e ∈ r) ∧ Has e.2 k v) ∨ Has x k v := by
  rw [has_inner]
  simp only [hfound.mem_iff, or_and_right, exists_or, exists_eq_left]

theorem has_setChild (hfound : children.Found c s l x r) : Has (.inner h (children.setChild s y)) k v ↔
    (∃ e, (e ∈ l ∨ e ∈ r) ∧ Has e.2 k v) ∨ Has y k v := by
  rw [has_inner]
  simp only [hfound.mem_setChild y, or_and_right, exists_or, exists_eq_left]

theorem ne_of_beside (hvalid : children.Valid)
    (hchildren : ∀ e ∈ children.inorder, Wf (path ++ w ++ [e.1]) e.2)
    (hfound : children.Found c s l x r) (hkey : path ++ w ++ [c] <+: terminated key)
    {e : BitVec 8 × ArtNode V} (he : e ∈ l ∨ e ∈ r) (hk : Has e.2 k v) : k ≠ key := by
  rintro rfl
  have hlonger := prefix_of_child hchildren ((hfound.mem_iff e).mpr (.inl he)) hk
  exact hfound.fst_ne hvalid he (snoc_unique hlonger hkey)

theorem Wf.setChild (hvalid : children.Valid) (hfilled : children.Filled)
    (hchildren : ∀ e ∈ children.inorder, Wf (path ++ w ++ [e.1]) e.2)
    (hfound : children.Found c s l x r) (hy : Wf (path ++ w ++ [c]) y) :
    Wf path (.inner (.of w) (children.setChild s y)) := by
  refine .inner w (hfound.valid_setChild hvalid y) ?_ fun e he ↦ ?_
  · have hlen : (children.setChild s y).inorder.length = children.inorder.length := by
      rw [hfound.inorder_eq, hfound.inorder_setChild]
      simp
    rw [Children.Filled, hfound.least_setChild, hlen]
    exact hfilled
  · rcases (hfound.mem_setChild y e).mp he with he | rfl
    · exact hchildren e ((hfound.mem_iff e).mpr (.inl he))
    · exact hy

theorem Ordered.setChild (hn : Ordered (.inner h children)) (hfound : children.Found c s l x r)
    (hy : Ordered x → Ordered y) : Ordered (.inner h (children.setChild s y)) := by
  obtain ⟨hasc, hchildren⟩ := hn.inner_inv
  refine .inner ?_ fun e he ↦ ?_
  · rw [Children.Ascending, hfound.inorder_eq] at hasc
    rw [Children.Ascending, hfound.inorder_setChild]
    simpa using hasc
  · rcases (hfound.mem_setChild y e).mp he with he | rfl
    · exact hchildren e ((hfound.mem_iff e).mpr (.inl he))
    · exact hy (hchildren _ hfound.mem)

end Replace

section Ends

theorem Children.map_children {keys : BitVec 8 → Option (Fin 48)}
    {places : Fin 48 → Option (ArtNode V)} (h : Linked keys places) (ks : List (BitVec 8)) :
    (ks.filterMap keys).map places =
      (table ks (through keys places)).map fun e ↦ some e.2 := by
  induction ks with
  | nil => rfl
  | cons c ks ih =>
    rw [table_cons, List.map_append, ← ih, List.filterMap_cons]
    cases hc : keys c with
    | none => simp [through, hc]
    | some i =>
      obtain ⟨x, hx⟩ := h.occupied hc
      simp [through, hc, hx]

theorem Children.map_snd_table (f : BitVec 8 → Option (ArtNode V)) (ks : List (BitVec 8)) :
    ks.filterMap f = (table ks f).map Prod.snd := by
  induction ks with
  | nil => rfl
  | cons c ks ih =>
    rw [table_cons, List.map_append, ← ih, List.filterMap_cons]
    cases f c <;> rfl

theorem firstChild_eq {l : List (BitVec 8 × ArtNode V)} (h : children.Valid)
    (hl : children.inorder = (c, x) :: l) : children.firstChild = .ok (some x) := by
  cases children with
  | node4 slots =>
    obtain rfl : slots = (c, x) :: l := hl
    rfl
  | node16 slots =>
    obtain rfl : slots = (c, x) :: l := hl
    rfl
  | node48 num keys places =>
    have hmap := congrArg List.head? (Children.map_children h.layout.1 bytes)
    have hhead : (table bytes (through keys places)).head? = some (c, x) := congrArg List.head? hl
    rw [List.head?_map, List.head?_map, hhead] at hmap
    obtain ⟨i, hi, hx⟩ := Option.map_eq_some_iff.mp hmap
    rw [Children.firstChild, hi]
    exact congrArg _ hx
  | node256 num places =>
    have hhead : (table bytes places).head? = some (c, x) := congrArg List.head? hl
    rw [Children.firstChild, Children.map_snd_table, List.head?_map, hhead]
    rfl

theorem lastChild_eq {l : List (BitVec 8 × ArtNode V)} (h : children.Valid)
    (hl : children.inorder = l ++ [(c, x)]) : children.lastChild = .ok (some x) := by
  have hlast : children.inorder.getLast? = some (c, x) := by
    rw [hl]
    exact List.getLast?_concat
  cases children with
  | node4 slots =>
    have hlast : slots.getLast? = some (c, x) := hlast
    rw [Children.lastChild, hlast]
    rfl
  | node16 slots =>
    have hlast : slots.getLast? = some (c, x) := hlast
    rw [Children.lastChild, hlast]
    rfl
  | node48 num keys places =>
    have hmap := congrArg List.getLast? (Children.map_children h.layout.1 bytes)
    have hlast : (table bytes (through keys places)).getLast? = some (c, x) := hlast
    rw [List.getLast?_map, List.getLast?_map, hlast] at hmap
    obtain ⟨i, hi, hx⟩ := Option.map_eq_some_iff.mp hmap
    rw [Children.lastChild, hi]
    exact congrArg _ hx
  | node256 num places =>
    have hlast : (table bytes places).getLast? = some (c, x) := hlast
    rw [Children.lastChild, Children.map_snd_table, List.getLast?_map, hlast]
    rfl

end Ends

theorem minimum_eq (h : Wf path n) (hshort : Shorter n (path.length + fuel)) :
    ∃ l es, minimum fuel (some n) = .ok (some l) ∧ entries fuel n = (l.key, l.value) :: es := by
  induction h generalizing fuel with
  | @leaf path l _ => exact ⟨l, [], by rw [minimum], by rw [entries]⟩
  | @inner path w children hvalid hfilled hchildren ih =>
    obtain ⟨f, rfl⟩ := Wf.exists_fuel (.inner w hvalid hfilled hchildren) hshort
    obtain ⟨e, he⟩ := hfilled.exists_mem
    obtain ⟨⟨c, x⟩, r, hr⟩ := List.exists_cons_of_ne_nil (List.ne_nil_of_mem he)
    have hx : (c, x) ∈ children.inorder := hr ▸ List.mem_cons_self
    obtain ⟨l, es, hmin, hes⟩ := ih (c, x) hx (hshort.child hx w)
    refine ⟨l, es ++ r.flatMap fun e ↦ entries f e.2, ?_, ?_⟩
    · rw [minimum, firstChild_eq hvalid hr, ok_bind]
      exact hmin
    · rw [entries_inner, hr, List.flatMap_cons, hes, List.cons_append]

theorem minimum_spec (h : Wf path n) (hshort : Shorter n (path.length + fuel)) :
    ∃ l, minimum fuel (some n) = .ok (some l) ∧ Has n l.key l.value := by
  obtain ⟨l, es, hmin, hes⟩ := minimum_eq h hshort
  refine ⟨l, hmin, (mem_entries h hshort).mp ?_⟩
  rw [hes]
  exact List.mem_cons_self

end RadixBench.Art
