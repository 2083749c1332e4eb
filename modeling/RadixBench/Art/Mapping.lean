import RadixBench.Art.Resizing

namespace RadixBench.Art

open Foundation Function

variable {C D : Type} {c : BitVec 8} {x : C} {f : C → D} {slots : List (BitVec 8 × C)}

theorem option_map_update {I : Type} [DecidableEq I] (g : I → Option C) (i : I) (o : Option C) :
    (fun j ↦ (update g i o j).map f) = update (fun j ↦ (g j).map f) i (o.map f) := by
  funext j
  by_cases hj : j = i
  · rw [hj, update_self, update_self]
  · rw [update_of_ne hj, update_of_ne hj]

theorem table_map {K : Type} (keys : List K) (g : K → Option C) :
    table keys (fun k ↦ (g k).map f) = (table keys g).map fun e ↦ (e.1, f e.2) := by
  induction keys with
  | nil => rfl
  | cons k keys ih =>
    rw [table_cons, table_cons, List.map_append, ih]
    cases g k <;> rfl

theorem through_map (keys : BitVec 8 → Option (Fin 48)) (children : Fin 48 → Option C) :
    through keys (fun i ↦ (children i).map f) = fun c ↦ (through keys children c).map f := by
  funext c
  rw [through, through]
  cases keys c <;> rfl

theorem bitfield_map (cmp : BitVec 8 → Bool) (i : ℕ) (bits : BitVec 32) :
    bitfield cmp i bits (slots.map fun e ↦ (e.1, f e.2)) = bitfield cmp i bits slots := by
  induction slots generalizing i bits with
  | nil => rfl
  | cons e slots ih => exact ih _ _

namespace Children

/-- The same layout with other pointers in it. -/
def map (f : C → D) : Children C → Children D
  | .node4 slots => .node4 (slots.map fun e ↦ (e.1, f e.2))
  | .node16 slots => .node16 (slots.map fun e ↦ (e.1, f e.2))
  | .node48 num keys children => .node48 num keys fun i ↦ (children i).map f
  | .node256 num children => .node256 num fun c ↦ (children c).map f

theorem inorder_map (n : Children C) :
    (n.map f).inorder = n.inorder.map fun e ↦ (e.1, f e.2) := by
  cases n with
  | node4 slots => rfl
  | node16 slots => rfl
  | node48 num keys children =>
    show table bytes (through keys fun i ↦ (children i).map f) = _
    rw [through_map, table_map]
    rfl
  | node256 num children => exact table_map bytes children

theorem capacity_map (n : Children C) : (n.map f).capacity = n.capacity := by
  cases n <;> rfl

theorem least_map (n : Children C) : (n.map f).least = n.least := by
  cases n <;> rfl

theorem linked_map {keys : BitVec 8 → Option (Fin 48)} {children : Fin 48 → Option C} :
    Linked keys (fun i ↦ (children i).map f) ↔ Linked keys children := by
  have hnone : ∀ i, (∃ x, (children i).map f = some x) ↔ ∃ x, children i = some x := by
    intro i
    cases children i <;> simp
  constructor
  · intro h
    refine ⟨h.injective, fun hc ↦ (hnone _).mp (h.occupied hc), fun hi ↦ ?_⟩
    obtain ⟨y, hy⟩ := (hnone _).mpr ⟨_, hi⟩
    exact h.reached hy
  · intro h
    refine ⟨h.injective, fun hc ↦ (hnone _).mpr (h.occupied hc), fun hi ↦ ?_⟩
    obtain ⟨y, hy⟩ := (hnone _).mp ⟨_, hi⟩
    exact h.reached hy

theorem layout_map (n : Children C) : (n.map f).Layout ↔ n.Layout := by
  cases n with
  | node4 slots => exact Iff.rfl
  | node16 slots => exact Iff.rfl
  | node48 num keys children =>
    show Linked _ _ ∧ _ = BitVec.ofNat 8 (table bytes _).length ↔ _
    rw [linked_map, through_map, table_map, List.length_map]
    rfl
  | node256 num children =>
    show _ = BitVec.ofNat 8 (table bytes _).length ↔ _
    rw [table_map, List.length_map]
    rfl

theorem valid_map (n : Children C) : (n.map f).Valid ↔ n.Valid := by
  have hfst : ((n.map f).inorder.map Prod.fst) = n.inorder.map Prod.fst := by
    rw [inorder_map, List.map_map]
    rfl
  have hlen : (n.map f).inorder.length = n.inorder.length := by
    rw [inorder_map, List.length_map]
  constructor
  · intro h
    exact ⟨hfst ▸ h.nodup, by rw [← hlen, ← capacity_map]; exact h.length_le,
      (layout_map n).mp h.layout⟩
  · intro h
    exact ⟨hfst ▸ h.nodup, by rw [hlen, capacity_map]; exact h.length_le,
      (layout_map n).mpr h.layout⟩

theorem filled_map (n : Children C) : (n.map f).Filled ↔ n.Filled := by
  rw [Filled, Filled, least_map, inorder_map, List.length_map]

theorem findChild_map (n : Children C) (c : BitVec 8) :
    (n.map f).findChild c = n.findChild c := by
  cases n with
  | node4 slots =>
    rw [map, findChild, findChild, List.findIdx?_map]
    rfl
  | node16 slots =>
    rw [map, findChild, findChild, bitfield_map]
  | node48 num keys children => rfl
  | node256 num children =>
    rw [map, findChild, findChild]
    cases children c <;> rfl

theorem child_map (n : Children C) (s : Slot) : (n.map f).child s = (n.child s).map f := by
  cases n <;> cases s <;> simp [map, child, Option.map_map, Function.comp_def]

theorem setChild_map (n : Children C) (s : Slot) (x : C) :
    (n.map f).setChild s (f x) = (n.setChild s x).map f := by
  have hmodify : ∀ (slots : List (BitVec 8 × C)) i,
      (slots.map fun e ↦ (e.1, f e.2)).modify i (fun e ↦ (e.1, f x)) =
        (slots.modify i fun e ↦ (e.1, x)).map fun e ↦ (e.1, f e.2) := by
    intro slots i
    induction slots generalizing i with
    | nil => cases i <;> rfl
    | cons e slots ih =>
      cases i with
      | zero => rfl
      | succ i => exact congrArg _ (ih i)
  cases n with
  | node4 slots =>
    cases s with
    | index i => exact congrArg _ (hmodify slots i)
    | place i => rfl
    | byte c => rfl
  | node16 slots =>
    cases s with
    | index i => exact congrArg _ (hmodify slots i)
    | place i => rfl
    | byte c => rfl
  | node48 num keys children =>
    cases s with
    | index i => rfl
    | place i => exact congrArg _ (option_map_update children i (some x)).symm
    | byte c => rfl
  | node256 num children =>
    cases s with
    | index i => rfl
    | place i => rfl
    | byte c => exact congrArg _ (option_map_update children c (some x)).symm

theorem firstChild_map (n : Children C) :
    (n.map f).firstChild = Option.map f <$> n.firstChild := by
  cases n with
  | node4 slots => cases slots <;> rfl
  | node16 slots => cases slots <;> rfl
  | node48 num keys children =>
    rw [map, firstChild, firstChild]
    cases (bytes.filterMap keys).head? <;> rfl
  | node256 num children =>
    have hmap : bytes.filterMap (fun c ↦ (children c).map f) = (bytes.filterMap children).map f :=
      List.map_filterMap.symm
    rw [map, firstChild, firstChild, hmap, List.head?_map]
    cases (bytes.filterMap children).head? <;> rfl

theorem firstChild_mem {n : Children C} (h : n.firstChild = .ok (some x)) :
    ∃ c, (c, x) ∈ n.inorder := by
  have hslots : ∀ {slots : List (BitVec 8 × C)}, slots.head?.map Prod.snd = some x →
      ∃ c, (c, x) ∈ slots := by
    intro slots hhead
    obtain ⟨⟨c, y⟩, he, rfl⟩ := Option.map_eq_some_iff.mp hhead
    exact ⟨c, List.mem_of_mem_head? he⟩
  cases n with
  | node4 slots => exact hslots (Except.ok.inj h)
  | node16 slots => exact hslots (Except.ok.inj h)
  | node48 num keys children =>
    rw [firstChild] at h
    cases hhead : (bytes.filterMap keys).head? with
    | none =>
      rw [hhead] at h
      cases h
    | some i =>
      rw [hhead] at h
      obtain ⟨c, hc, hi⟩ := List.mem_filterMap.mp (List.mem_of_mem_head? hhead)
      refine ⟨c, mem_table.mpr ⟨hc, ?_⟩⟩
      rw [hi, Option.bind_some]
      exact Except.ok.inj h
  | node256 num children =>
    rw [firstChild] at h
    cases hhead : (bytes.filterMap children).head? with
    | none =>
      rw [hhead] at h
      cases h
    | some y =>
      rw [hhead] at h
      cases h
      obtain ⟨c, hc, hy⟩ := List.mem_filterMap.mp (List.mem_of_mem_head? hhead)
      exact ⟨c, mem_table.mpr ⟨hc, hy⟩⟩

section Resizing

theorem fillPlaces_map (slots : List (BitVec 8 × C)) (pos : ℕ) (keys : BitVec 8 → Option (Fin 48))
    (children : Fin 48 → Option C) :
    fillPlaces (slots.map fun e ↦ (e.1, f e.2)) pos keys (fun i ↦ (children i).map f) =
      (fun r ↦ (r.1, fun i ↦ (r.2 i).map f)) <$> fillPlaces slots pos keys children := by
  induction slots generalizing pos keys children with
  | nil => rfl
  | cons e slots ih =>
    rw [List.map_cons, fillPlaces, fillPlaces]
    split_ifs with hpos
    · rw [← ih, option_map_update]
      rfl
    · rfl

theorem addChild256_map (num : BitVec 8) (children : BitVec 8 → Option C) (c : BitVec 8) (x : C) :
    addChild256 num (fun c ↦ (children c).map f) c (f x) =
      (addChild256 num children c x).map f := by
  rw [addChild256, addChild256, map, option_map_update]
  rfl

theorem addChild48_map (num : BitVec 8) (keys : BitVec 8 → Option (Fin 48))
    (children : Fin 48 → Option C) (c : BitVec 8) (x : C) :
    addChild48 num keys (fun i ↦ (children i).map f) c (f x) =
      map f <$> addChild48 num keys children c x := by
  rw [addChild48, addChild48]
  split_ifs with hnum
  · simp only [Option.isNone_map]
    cases (List.finRange 48).find? fun i ↦ (children i).isNone with
    | none => rfl
    | some pos =>
      refine congrArg Except.ok ?_
      rw [map, option_map_update]
      rfl
  · refine congrArg Except.ok ?_
    rw [← addChild256_map]
    exact congrArg (addChild256 num · c (f x)) (through_map keys children)

theorem addChild16_map (arch : Arch) (slots : List (BitVec 8 × C)) (c : BitVec 8) (x : C) :
    addChild16 arch (slots.map fun e ↦ (e.1, f e.2)) c (f x) =
      map f <$> addChild16 arch slots c x := by
  rw [addChild16, addChild16, List.length_map]
  split_ifs with hlen
  · refine congrArg Except.ok ?_
    rw [map, bitfield_map, List.map_insertIdx]
  · have hnone : (fun i ↦ ((fun _ ↦ none : Fin 48 → Option C) i).map f) = fun _ ↦ none := rfl
    rw [← hnone, fillPlaces_map]
    cases fillPlaces slots 0 (fun _ ↦ none) (fun _ ↦ none) with
    | error e => rfl
    | ok r => exact addChild48_map _ r.1 r.2 c x

theorem addChild4_map (arch : Arch) (slots : List (BitVec 8 × C)) (c : BitVec 8) (x : C) :
    addChild4 arch (slots.map fun e ↦ (e.1, f e.2)) c (f x) =
      map f <$> addChild4 arch slots c x := by
  rw [addChild4, addChild4, List.length_map, addChild16_map]
  split_ifs with hlen
  · refine congrArg Except.ok ?_
    rw [map, List.map_insertIdx, List.findIdx_map]
    rfl
  · rfl

theorem addChild_map (arch : Arch) (n : Children C) (c : BitVec 8) (x : C) :
    (n.map f).addChild arch c (f x) = map f <$> n.addChild arch c x := by
  cases n with
  | node4 slots => exact addChild4_map arch slots c x
  | node16 slots => exact addChild16_map arch slots c x
  | node48 num keys children => exact addChild48_map num keys children c x
  | node256 num children => exact congrArg Except.ok (addChild256_map num children c x)

theorem removeChild16_map (slots : List (BitVec 8 × C)) (pos : ℕ) :
    removeChild16 (slots.map fun e ↦ (e.1, f e.2)) pos = (removeChild16 slots pos).map f := by
  rw [removeChild16, removeChild16, List.eraseIdx_map, List.length_map]
  split_ifs <;> rfl

theorem removeChild48_map (num : BitVec 8) (keys : BitVec 8 → Option (Fin 48))
    (children : Fin 48 → Option C) (c : BitVec 8) :
    removeChild48 num keys (fun i ↦ (children i).map f) c =
      map f <$> removeChild48 num keys children c := by
  rw [removeChild48, removeChild48]
  cases keys c with
  | none => rfl
  | some pos =>
    have hn : node48 (num - 1) (update keys c none) (update (fun i ↦ (children i).map f) pos none) =
        (node48 (num - 1) (update keys c none) (update children pos none)).map f := by
      rw [map, option_map_update]
      rfl
    dsimp only
    refine congrArg Except.ok ?_
    rw [hn, inorder_map]
    split_ifs <;> rfl

theorem removeChild256_map (num : BitVec 8) (children : BitVec 8 → Option C) (c : BitVec 8) :
    removeChild256 num (fun c ↦ (children c).map f) c =
      map f <$> removeChild256 num children c := by
  have hupdate : update (fun d ↦ (children d).map f) c none =
      fun d ↦ (update children c none d).map f := (option_map_update children c none).symm
  rw [removeChild256, removeChild256, hupdate]
  split_ifs with hnum
  · have hnone : (fun i ↦ ((fun _ ↦ none : Fin 48 → Option C) i).map f) = fun _ ↦ none := rfl
    rw [table_map, ← hnone, fillPlaces_map]
    cases fillPlaces (table bytes (update children c none)) 0 (fun _ ↦ none) (fun _ ↦ none) <;> rfl
  · rfl

end Resizing

end Children

end RadixBench.Art
