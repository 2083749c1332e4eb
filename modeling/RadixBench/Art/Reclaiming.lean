import RadixBench.Art.Placement
import RadixBench.Art.Removal

namespace RadixBench.Art.Heap

open Foundation Memory Children

variable {V : Type} {A : Allocator} {m μ : Memory (Cell V)} {r : Ref} {n : ArtNode V}
  {h : ArtHeader} {S F old : List Region} {a fuel depth : ℕ}
  {path key : List (BitVec 8)}

section RemoveChild

variable {P : Prop} {ps : Children (Placed V)} {c : BitVec 8} {s : Slot} {p : Placed V}
  {l r : List (BitVec 8 × Placed V)}

/-- The last child of a node comes in its place, an inner one with a longer path. -/
theorem lastChild_lockstep {q : Placed V} (hq : Stored m q.ref q.node q.regions)
    {refs : List (BitVec 8 × Ref)} {nodes : List (BitVec 8 × ArtNode V)}
    (howns : Owns m (nodeRegion a (.node4 refs) :: (q.regions ++ F)) old) (h : ArtHeader) (pos : ℕ)
    (d : BitVec 8)
    (hrefs : refs.eraseIdx pos = [(d, q.ref)]) (hnodes : nodes.eraseIdx pos = [(d, q.node)]) :
    Lockstep P (fun x n ↦ Becomes m F old x.2 x.1 n) (removeChild4 m a h refs pos)
      (Art.removeChild4 h nodes pos) := by
  obtain ⟨ref, node, regions⟩ := q
  have hlive : m.IsLive a := howns.isLive List.mem_cons_self
  rw [removeChild4, Art.removeChild4, hrefs, hnodes]
  cases hq with
  | @leaf b l hb =>
    dsimp only
    rw [release_of_live hlive]
    exact .returns ⟨[leafRegion b l], .leaf hb, howns.free, .refl _ _⟩
  | @inner b child ps hb hps =>
    have hmem : nodeRegion b ps ∈ nodeRegion b ps :: regionsOf ps.inorder ++ F :=
      List.mem_cons_self
    dsimp only
    rw [readNode_eq hb (howns.isLive (List.mem_cons_of_mem _ hmem)), ok_bind]
    refine Lockstep.bind_same fun header ↦ ?_
    have hbecomes : Becomes m F old _ _ _ := becomes_write (μ := m.free a) (a := b)
      (fun e he ↦ (hps e he).congr (.refl _ _)) howns.free (.refl _ _) header
    rw [release_of_live (m := m.write b (.inner header (ps.map Placed.ref))) hlive]
    exact .returns hbecomes

theorem removeChild4_lockstep {es : List (BitVec 8 × Placed V)} {pos : ℕ}
    {slots : List (BitVec 8 × Placed V)} (hes : slots.eraseIdx pos = es)
    (hps : ∀ e ∈ es, Stored m e.2.ref e.2.node e.2.regions)
    (howns : Owns m (nodeRegion a (.node4 slots) :: (regionsOf es ++ F)) old) (h : ArtHeader) :
    Lockstep P (fun x n ↦ Becomes m F old x.2 x.1 n)
      (removeChild4 m a h (slots.map fun e ↦ (e.1, e.2.ref)) pos)
      (Art.removeChild4 h (slots.map fun e ↦ (e.1, e.2.node)) pos) := by
  have hrefs : (slots.map fun e ↦ (e.1, e.2.ref)).eraseIdx pos = es.map fun e ↦ (e.1, e.2.ref) := by
    rw [List.eraseIdx_map, hes]
  have hnodes : (slots.map fun e ↦ (e.1, e.2.node)).eraseIdx pos =
      es.map fun e ↦ (e.1, e.2.node) := by
    rw [List.eraseIdx_map, hes]
  have hps' : ∀ e ∈ (node4 es).inorder, Stored m e.2.ref e.2.node e.2.regions := hps
  have hbecomes : Becomes m F old _ _ _ := becomes_write hps' howns (.refl _ _) h
  cases es with
  | nil =>
    rw [removeChild4, Art.removeChild4, hrefs, hnodes]
    exact .returns hbecomes
  | cons e es =>
    cases es with
    | nil =>
      rw [regionsOf_cons, List.append_assoc] at howns
      exact lastChild_lockstep (hps e List.mem_cons_self) howns h pos e.1 hrefs hnodes
    | cons e' es =>
      obtain ⟨d, q⟩ := e
      obtain ⟨ref, node, cells⟩ := q
      rw [removeChild4, Art.removeChild4, hrefs, hnodes]
      cases ref <;> cases node <;> exact .returns hbecomes

theorem removeChild_lockstep (hP : Refuses A 2064 1 m.calls m.live → P) (hvalid : ps.Valid)
    (hfilled : ps.Filled) (hfind : ps.findChild c = some s) (hfound : ps.Found c s l p r)
    (hps : ∀ e ∈ l ++ r, Stored m e.2.ref e.2.node e.2.regions)
    (howns : Owns m (nodeRegion a ps :: (regionsOf (l ++ r) ++ F)) old) (h : ArtHeader) :
    Lockstep P (fun x n ↦ Becomes m F old x.2 x.1 n)
      (removeChild A m a h (ps.map Placed.ref) c s)
      (Art.removeChild h (ps.map Placed.node) c s) := by
  have hchange : ∀ {ps' : Children (Placed V)}, ps'.inorder = l ++ r →
      Lockstep P (fun x n ↦ Becomes m F old x.2 x.1 n)
        (changeNode A m a h (ps.map Placed.ref) (ps'.map Placed.ref))
        (.ok (.inner h (ps'.map Placed.node))) := by
    intro ps' hinorder
    rw [nodeRegion, ← nodeSize_map Placed.ref] at howns
    exact changeNode_lockstep hP (hinorder ▸ hps) (hinorder ▸ howns) (.refl _ _) h
  cases ps with
  | node4 slots =>
    obtain ⟨i, -, rfl⟩ := Option.map_eq_some_iff.mp hfind
    obtain rfl := hfound.index_eq i rfl
    have herase : slots.eraseIdx l.length = l ++ r := by
      rw [show slots = l ++ (c, p) :: r from hfound.inorder_eq, eraseIdx_split]
    exact removeChild4_lockstep herase hps howns h
  | node16 slots =>
    have hlen : slots.length ≤ 16 := hvalid.length_le
    rw [findChild_node16 hlen] at hfind
    obtain ⟨i, -, rfl⟩ := Option.map_eq_some_iff.mp hfind
    obtain rfl := hfound.index_eq i rfl
    have hshrinks := removeChild16_shrinks hvalid hfilled hfound
    have hrun := hchange hshrinks.inorder_eq
    rw [← removeChild16_map, ← removeChild16_map] at hrun
    exact hrun
  | node48 num keys places =>
    obtain ⟨ps', hrun, hshrinks⟩ := removeChild48_shrinks hvalid hfilled hfound
    rw [Children.map, Children.map, removeChild, Art.removeChild, removeChild48_map,
      removeChild48_map, hrun]
    exact hchange hshrinks.inorder_eq
  | node256 num places =>
    obtain ⟨ps', hrun, hshrinks⟩ := removeChild256_shrinks hvalid hfilled hfound
    rw [Children.map, Children.map, removeChild, Art.removeChild, removeChild256_map,
      removeChild256_map, hrun]
    exact hchange hshrinks.inorder_eq

end RemoveChild

section Deletion

inductive RootStored (m : Memory (Cell V)) : Option Ref → Option (ArtNode V) → List Region → Prop
  | none : RootStored m none none []
  | some {r : Ref} {n : ArtNode V} {S : List Region} :
      Stored m r n S → RootStored m (some r) (some n) S

/-- The leaf that was taken out and is still to be freed. -/
inductive Taken (m : Memory (Cell V)) : Option ℕ → Option (ArtLeaf V) → List Region → Prop
  | none : Taken m none none []
  | some {a : ℕ} {l : ArtLeaf V} : m.cell a = .leaf l →
      Taken m (some a) (some l) [leafRegion a l]

theorem Taken.congr {o : Option ℕ} {leaf : Option (ArtLeaf V)} {T : List Region}
    (htaken : Taken m o leaf T) (hkeeps : Keeps m μ T) : Taken μ o leaf T := by
  cases htaken with
  | none => exact .none
  | some ha => exact .some ((hkeeps _ List.mem_cons_self).trans ha)

structure Deleted (m : Memory (Cell V)) (F old : List Region) (n : ArtNode V)
    (x : Option Ref × Memory (Cell V) × Option ℕ) (y : Option (ArtNode V) × Option (ArtLeaf V)) :
    Prop where
  regions : ∃ S T, RootStored x.2.1 x.1 y.1 S ∧ Taken x.2.1 x.2.2 y.2 T ∧
    Owns x.2.1 (S ++ (T ++ F)) old
  keeps : Keeps m x.2.1 F
  remains : ∀ h children, n = .inner h children → y.1 ≠ none

theorem Deleted.unchanged (hst : Stored m r n S) (howns : Owns m (S ++ F) old) :
    Deleted m F old n (some r, m, none) (some n, none) :=
  ⟨⟨S, [], .some hst, .none, howns⟩, .refl _ _, fun _ _ _ ↦ Option.some_ne_none _⟩

/-- A deletion below an inner node leaves a node there. -/
theorem Deleted.both {children : Children (ArtNode V)} {x : Option Ref} {y : Option (ArtNode V)}
    {o : Option ℕ} {leaf : Option (ArtLeaf V)}
    (hdeleted : Deleted m F old (.inner h children) (x, μ, o) (y, leaf)) :
    ∃ r n, x = some r ∧ y = some n := by
  obtain ⟨⟨S, T, hroot, -, -⟩, -, hremains⟩ := hdeleted
  cases hroot with
  | none => exact absurd rfl (hremains _ _ rfl)
  | some _ => exact ⟨_, _, rfl, rfl⟩

/-- The child below which something was deleted is written to its place again. -/
theorem Deleted.setChild {ps : Children (Placed V)} {c : BitVec 8} {s : Slot} {p : Placed V}
    {l r : List (BitVec 8 × Placed V)} {x : Ref} {y : ArtNode V} {o : Option ℕ}
    {leaf : Option (ArtLeaf V)} (hfound : ps.Found c s l p r)
    (hps : ∀ e ∈ l ++ r, Stored m e.2.ref e.2.node e.2.regions)
    (hdeleted : Deleted m (nodeRegion a ps :: (regionsOf (l ++ r) ++ F)) old n (some x, μ, o)
      (some y, leaf)) (h : ArtHeader) :
    Deleted m F old (.inner h (ps.map Placed.node))
      (some (.inner a), μ.write a (.inner h ((ps.map Placed.ref).setChild s x)), o)
      (some (.inner h ((ps.map Placed.node).setChild s y)), leaf) := by
  obtain ⟨⟨S, T, hroot, htaken, howns⟩, hkeeps, -⟩ := hdeleted
  have hperm : (T ++ (nodeRegion a ps :: (regionsOf (l ++ r) ++ F))).Perm
      (nodeRegion a ps :: (regionsOf (l ++ r) ++ (T ++ F))) :=
    List.perm_middle.trans ((List.perm_append_comm_assoc T _ F).cons _)
  cases hroot with
  | some hst =>
    obtain ⟨S', hst', howns', hwrite⟩ := becomes_setChild (m := μ) hfound hst
      (fun e he ↦ (hps e he).congr (Keeps.below hkeeps.tail.left he))
      (howns.perm (hperm.append_left S)) (.refl _ _) h
    exact ⟨⟨S', T, .some hst', htaken.congr hwrite.left, howns'⟩,
      hkeeps.tail.right.trans hwrite.right, fun _ _ _ ↦ Option.some_ne_none _⟩

/-- The look at the compressed path, before which nothing is changed. -/
theorem lockstep_guard {α β : Type} {P : Prop} {Q : α → β → Prop} {x : α} {y : β} {f : Exec α}
    {g : Exec β} (h : ArtHeader) (key : List (BitVec 8)) (depth : ℕ) (hstop : Q x y)
    (hgo : Lockstep P Q f g) :
    Lockstep P Q
      (if h.partialLen ≠ 0 then do
        let prefixLen ← checkPrefix h key depth
        if prefixLen ≠ min maxPrefixLen h.partialLen then pure x else f
      else f)
      (if h.partialLen ≠ 0 then do
        let prefixLen ← checkPrefix h key depth
        if prefixLen ≠ min maxPrefixLen h.partialLen then pure y else g
      else g) := by
  split_ifs with hzero
  · refine Lockstep.bind_same fun prefixLen ↦ ?_
    split_ifs with hlen
    · exact .returns hstop
    · exact hgo
  · exact hgo

/-- The deletion in memory does what the one on trees does, or an allocation was refused. -/
theorem recursiveDelete_lockstep (hwf : Wf path n) (hst : Stored m r n S)
    (howns : Owns m (S ++ F) old) (key : List (BitVec 8)) (fuel depth : ℕ) :
    Lockstep (Refuses A 2064 1 m.calls m.live) (Deleted m F old n)
      (recursiveDelete A m key fuel (some r) depth)
      (Art.recursiveDelete key fuel (some n) depth) := by
  induction hwf generalizing r S F fuel depth with
  | @leaf path l _ =>
    have hunchanged := Deleted.unchanged hst howns
    obtain ⟨a, rfl, rfl, ha⟩ := hst.leaf_inv
    rw [recursiveDelete, Art.recursiveDelete, readLeaf_eq ha (howns.isLive List.mem_cons_self),
      ok_bind]
    split_ifs with hmatches
    · refine .returns ⟨⟨[], [leafRegion a l], .none, .some ha, howns⟩, .refl _ _, ?_⟩
      rintro _ _ ⟨⟩
    · exact .returns hunchanged
  | @inner path w children hvalid hfilled hchildren ih =>
    have hunchanged := Deleted.unchanged hst howns
    obtain ⟨a, ps, rfl, rfl, rfl, ha, hps⟩ := hst.inner_inv
    cases fuel with
    | zero =>
      rw [recursiveDelete, Art.recursiveDelete]
      exact .fails _
    | succ fuel =>
      rw [recursiveDelete, Art.recursiveDelete,
        readNode_eq ha (howns.isLive List.mem_cons_self), ok_bind]
      dsimp only
      refine lockstep_guard _ key depth hunchanged (Lockstep.bind_same fun c ↦ ?_)
      have hps' := (valid_map ps).mp hvalid
      rw [findChild_map, findChild_map]
      rcases findChild_placed hvalid c with ⟨hfind, -⟩ | ⟨s, l, p, r, hfind, hfound⟩
      · rw [hfind]
        exact .returns hunchanged
      · rw [hfind]
        dsimp only
        rw [child_map, child_map, hfound.child_eq]
        have hstored := hps _ hfound.mem
        have hrest : ∀ e ∈ l ++ r, Stored m e.2.ref e.2.node e.2.regions := fun e he ↦
          hps e ((hfound.mem_iff e).mpr (.inl (List.mem_append.mp he)))
        have hfocus := howns
        rw [hfound.inorder_eq] at hfocus
        replace hfocus := hfocus.perm (regions_focus _ c p l r F)
        obtain ⟨ref, node, regions⟩ := p
        cases hstored with
        | @leaf b leaf hb =>
          dsimp only [Option.map_some]
          rw [readLeaf_eq hb (hfocus.isLive List.mem_cons_self), ok_bind]
          split_ifs with hmatches
          · have hperm : (leafRegion b leaf :: nodeRegion a ps :: (regionsOf (l ++ r) ++ F)).Perm
                (nodeRegion a ps :: (regionsOf (l ++ r) ++ (leafRegion b leaf :: F))) :=
              (List.Perm.swap _ _ _).trans (List.perm_middle.symm.cons _)
            refine (removeChild_lockstep id hps' ((filled_map ps).mp hfilled) hfind hfound hrest
              (hfocus.perm hperm) (.of w)).bind ?_
            rintro ⟨x, μ⟩ y ⟨S, hst', howns', hkeeps⟩
            exact .returns ⟨⟨S, [leafRegion b leaf], .some hst',
              .some ((hkeeps _ List.mem_cons_self).trans hb), howns'⟩, hkeeps.tail,
              fun _ _ _ ↦ Option.some_ne_none y⟩
          · exact .returns hunchanged
        | @inner b h' ps' hb hps' =>
          dsimp only [Option.map_some]
          have hmem : (c, ArtNode.inner h' (ps'.map Placed.node)) ∈
              (ps.map Placed.node).inorder := by
            rw [inorder_map]
            exact List.mem_map_of_mem hfound.mem
          refine (ih _ hmem (.inner hb hps') hfocus fuel _).bind ?_
          rintro ⟨x, μ, taken⟩ ⟨y, leaf⟩ hbelow
          obtain ⟨x, y, rfl, rfl⟩ := hbelow.both
          exact .returns (hbelow.setChild hfound hrest (.of w))

end Deletion

section Destruction

theorem destroyChildren_frees (destroy : Memory (Cell V) → Option Ref → Exec (Memory (Cell V)))
    {q : Region} {refs : Children Ref} (ha : m.cell q.base = .inner h refs)
    (es : List (BitVec 8 × Placed V))
    (hdestroy : ∀ e ∈ es, ∀ μ G, μ.cell = m.cell → Owns μ (e.2.regions ++ G) old →
      ∃ μ', destroy μ (some e.2.ref) = .ok μ' ∧ Owns μ' G old ∧ μ'.cell = m.cell)
    (hcell : μ.cell = m.cell) (howns : Owns μ (q :: (regionsOf es ++ F)) old) :
    ∃ μ', destroyChildren destroy q.base (es.map fun e ↦ (e.1, e.2.ref)) μ = .ok μ' ∧
      Owns μ' (q :: F) old ∧ μ'.cell = m.cell := by
  induction es generalizing μ with
  | nil => exact ⟨μ, rfl, howns, hcell⟩
  | cons e es ih =>
    have hlive : μ.IsLive q.base := howns.isLive List.mem_cons_self
    rw [regionsOf_cons, List.append_assoc] at howns
    obtain ⟨μ', hrun, howns', hcell'⟩ := hdestroy e List.mem_cons_self μ _ hcell
      (howns.perm List.perm_middle.symm)
    obtain ⟨μ'', hrest, hdone⟩ := ih (fun e he ↦ hdestroy e (List.mem_cons_of_mem _ he)) hcell'
      howns'
    refine ⟨μ'', ?_, hdone⟩
    rw [List.map_cons, destroyChildren, readNode_eq (by rw [hcell]; exact ha) hlive, ok_bind,
      hrun, ok_bind, hrest]

/-- A node is freed after everything below it. -/
theorem destroyNode_frees (hwf : Wf path n) (hst : Stored m r n S) (howns : Owns m (S ++ F) old)
    (hshort : Shorter n (path.length + fuel)) :
    ∃ m', destroyNode fuel m (some r) = .ok m' ∧ Owns m' F old ∧ m'.cell = m.cell := by
  induction hwf generalizing m r S F fuel with
  | leaf _ =>
    obtain ⟨a, rfl, rfl, -⟩ := hst.leaf_inv
    have hlive : m.IsLive a := howns.isLive List.mem_cons_self
    rw [destroyNode, release_of_live hlive]
    exact ⟨_, rfl, howns.free, rfl⟩
  | @inner path w children hvalid hfilled hchildren ih =>
    obtain ⟨f, rfl⟩ := Wf.exists_fuel (.inner w hvalid hfilled hchildren) hshort
    obtain ⟨a, ps, rfl, rfl, rfl, ha, hps⟩ := hst.inner_inv
    have hbelow : ∀ e ∈ ps.inorder, ∀ μ G, μ.cell = m.cell → Owns μ (e.2.regions ++ G) old →
        ∃ μ', destroyNode f μ (some e.2.ref) = .ok μ' ∧ Owns μ' G old ∧ μ'.cell = m.cell := by
      intro e he μ G hμ howns
      have hmem : (e.1, e.2.node) ∈ (ps.map Placed.node).inorder := by
        rw [inorder_map]
        exact List.mem_map_of_mem he
      have hst' : Stored μ e.2.ref e.2.node e.2.regions :=
        (hps e he).congr fun _ _ ↦ congrFun hμ _
      obtain ⟨μ', hrun, howns', hcell⟩ := ih _ hmem hst' howns (hshort.child hmem w)
      exact ⟨μ', hrun, howns', hcell.trans hμ⟩
    obtain ⟨μ, hrun, howns', hcell⟩ :=
      destroyChildren_frees (q := nodeRegion a ps) (destroyNode f) ha ps.inorder hbelow rfl howns
    have hlive : μ.IsLive a := howns'.isLive List.mem_cons_self
    rw [destroyNode, readNode_eq ha (howns.isLive List.mem_cons_self), ok_bind]
    dsimp only
    rw [inorder_map]
    refine ⟨μ.free a, ?_, howns'.free, hcell⟩
    rw [show destroyChildren (destroyNode f) a _ m = _ from hrun, ok_bind, release_of_live hlive]

end Destruction

end RadixBench.Art.Heap
