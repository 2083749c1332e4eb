import RadixBench.Art.Mapping
import RadixBench.Art.Heap
import RadixBench.Art.Insertion

namespace RadixBench.Art.Heap

open Foundation Memory Children

variable {V : Type} {A : Allocator} {arch : Arch} {m m' : Memory (Cell V)} {r : Ref}
  {n : ArtNode V} {h : ArtHeader} {children : Children (ArtNode V)} {S F old : List Region}
  {a : ℕ} {l : ArtLeaf V} {path key : List (BitVec 8)} {value : Option V}

/-- A node, the pointer to it and the regions that it takes with all that is below it. -/
structure Placed (V : Type) where
  ref : Ref
  node : ArtNode V
  regions : List Region

def regionsOf (es : List (BitVec 8 × Placed V)) : List Region := es.flatMap fun e ↦ e.2.regions

def leafRegion (a : ℕ) (l : ArtLeaf V) : Region := ⟨a, 16 + l.key.length⟩

def nodeRegion {C : Type} (a : ℕ) (children : Children C) : Region := ⟨a, nodeSize children⟩

/-- The pointer leads to the node, for which these regions are used. -/
inductive Stored (m : Memory (Cell V)) : Ref → ArtNode V → List Region → Prop
  | leaf {a : ℕ} {l : ArtLeaf V} : m.cell a = .leaf l →
      Stored m (.leaf a) (.leaf l) [leafRegion a l]
  | inner {a : ℕ} {n : ArtHeader} {ps : Children (Placed V)} :
      m.cell a = .inner n (ps.map Placed.ref) →
      (∀ e ∈ ps.inorder, Stored m e.2.ref e.2.node e.2.regions) →
      Stored m (.inner a) (.inner n (ps.map Placed.node)) (nodeRegion a ps :: regionsOf ps.inorder)

theorem regionsOf_cons (e : BitVec 8 × Placed V) (es : List (BitVec 8 × Placed V)) :
    regionsOf (e :: es) = e.2.regions ++ regionsOf es := List.flatMap_cons

theorem regionsOf_perm {es es' : List (BitVec 8 × Placed V)} (hperm : es.Perm es') :
    (regionsOf es).Perm (regionsOf es') := hperm.flatMap_right _

theorem mem_regionsOf {es : List (BitVec 8 × Placed V)} {e : BitVec 8 × Placed V} (he : e ∈ es)
    {q : Region} (hq : q ∈ e.2.regions) : q ∈ regionsOf es := List.mem_flatMap.mpr ⟨e, he, hq⟩

theorem Keeps.below {es : List (BitVec 8 × Placed V)} (hkeeps : Keeps m m' (regionsOf es))
    {e : BitVec 8 × Placed V} (he : e ∈ es) : Keeps m m' e.2.regions :=
  fun q hq ↦ hkeeps q (mem_regionsOf he hq)

namespace Stored

theorem congr (hst : Stored m r n S) (hkeeps : Keeps m m' S) : Stored m' r n S := by
  induction hst with
  | leaf ha => exact .leaf ((hkeeps _ List.mem_cons_self).trans ha)
  | inner ha _ ih =>
    exact .inner ((hkeeps _ List.mem_cons_self).trans ha) fun e he ↦
      ih e he (Keeps.below hkeeps.tail he)

theorem leaf_inv (hst : Stored m r (.leaf l) S) : ∃ a, r = .leaf a ∧ S = [leafRegion a l] ∧
    m.cell a = .leaf l := by
  cases hst with
  | leaf ha => exact ⟨_, rfl, rfl, ha⟩

theorem inner_inv (hst : Stored m r (.inner h children) S) :
    ∃ (a : ℕ) (ps : Children (Placed V)), r = .inner a ∧
      children = ps.map Placed.node ∧ S = nodeRegion a ps :: regionsOf ps.inorder ∧
      m.cell a = .inner h (ps.map Placed.ref) ∧
      ∀ e ∈ ps.inorder, Stored m e.2.ref e.2.node e.2.regions := by
  cases hst with
  | inner ha hps => exact ⟨_, _, rfl, rfl, rfl, ha, hps⟩

end Stored

section Reading

theorem readLeaf_eq (ha : m.cell a = .leaf l) (hlive : m.IsLive a) : readLeaf m a = .ok l := by
  rw [readLeaf, read_of_live hlive, ok_bind, ha]
  rfl

theorem readNode_eq {refs : Children Ref} (ha : m.cell a = .inner h refs) (hlive : m.IsLive a) :
    readNode m a = .ok (h, refs) := by
  rw [readNode, read_of_live hlive, ok_bind, ha]
  rfl

/-- The way down to the first leaf is the same in memory. -/
theorem minimum_stored (hst : Stored m r n S) (hlive : ∀ q ∈ S, m.IsLive q.base) (fuel : ℕ) :
    (minimum m fuel (some r) >>= fun b ↦ deref b >>= readLeaf m) =
      Art.minimum fuel (some n) >>= deref := by
  induction hst generalizing fuel with
  | @leaf a l ha =>
    rw [minimum, Art.minimum]
    exact readLeaf_eq ha (hlive _ List.mem_cons_self)
  | @inner a h ps ha hps ih =>
    cases fuel with
    | zero => rw [minimum, Art.minimum]; rfl
    | succ fuel =>
      rw [minimum, Art.minimum, readNode_eq ha (hlive _ List.mem_cons_self), ok_bind]
      dsimp only
      rw [firstChild_map, firstChild_map]
      cases hfirst : ps.firstChild with
      | error e => rfl
      | ok x =>
        cases x with
        | none =>
          show (minimum m fuel none >>= _) = Art.minimum fuel none >>= _
          rw [minimum, Art.minimum]
          rfl
        | some p =>
          obtain ⟨c, hc⟩ := firstChild_mem hfirst
          exact ih _ hc (fun b hb ↦ hlive b (List.mem_cons_of_mem _ (mem_regionsOf hc hb))) fuel

theorem minimumLeaf_eq (hst : Stored m (.inner a) n S) (hlive : ∀ q ∈ S, m.IsLive q.base)
    (fuel : ℕ) : minimumLeaf m fuel a = Art.minimum fuel (some n) >>= deref := minimum_stored hst hlive fuel

theorem prefixMismatch_eq (hst : Stored m (.inner a) (.inner h children) S)
    (hlive : ∀ q ∈ S, m.IsLive q.base) (fuel : ℕ) (key : List (BitVec 8)) (depth : ℕ) :
    prefixMismatch m fuel a h key depth = Art.prefixMismatch fuel h children key depth := by
  rw [prefixMismatch, Art.prefixMismatch, minimumLeaf_eq hst hlive]

theorem cutPrefix_eq (hst : Stored m (.inner a) (.inner h children) S)
    (hlive : ∀ q ∈ S, m.IsLive q.base) (fuel depth prefixDiff : ℕ) :
    cutPrefix m fuel a h depth prefixDiff = Art.cutPrefix fuel h children depth prefixDiff := by
  rw [cutPrefix, Art.cutPrefix, minimumLeaf_eq hst hlive]

end Reading

section Children

variable {ps : Children (Placed V)}

/-- The lookup of a byte in the node, of which the memory holds the pointers. -/
theorem findChild_placed (hvalid : (ps.map Placed.node).Valid) (c : BitVec 8) :
    (ps.findChild c = none ∧ ∀ x, (c, x) ∉ ps.inorder) ∨
      ∃ s l p r, ps.findChild c = some s ∧ ps.Found c s l p r := by
  have hps := (valid_map ps).mp hvalid
  cases hfind : ps.findChild c with
  | none => exact .inl ⟨rfl, findChild_none hps hfind⟩
  | some s =>
    obtain ⟨l, p, r, hfound⟩ := findChild_some hps hfind
    exact .inr ⟨s, l, p, r, rfl, hfound⟩

end Children

theorem artSearchFrom_eq (hwf : Wf path n) (hst : Stored m r n S) (hlive : ∀ q ∈ S, m.IsLive q.base)
    (fuel : ℕ) (key : List (BitVec 8)) (depth : ℕ) :
    artSearchFrom m fuel (some r) key depth = Art.artSearchFrom fuel (some n) key depth := by
  induction hwf generalizing r S fuel depth with
  | @leaf path l _ =>
    obtain ⟨a, rfl, rfl, ha⟩ := hst.leaf_inv
    rw [artSearchFrom, Art.artSearchFrom, readLeaf_eq ha (hlive _ List.mem_cons_self)]
    rfl
  | @inner path w children hvalid _ _ ih =>
    obtain ⟨a, ps, rfl, rfl, rfl, ha, hps⟩ := hst.inner_inv
    cases fuel with
    | zero => rw [artSearchFrom, Art.artSearchFrom]
    | succ fuel =>
      have hchild : ∀ c depth,
          artSearchFrom m fuel
              (((ps.map Placed.ref).findChild c).bind (ps.map Placed.ref).child) key depth =
            Art.artSearchFrom fuel
              (((ps.map Placed.node).findChild c).bind (ps.map Placed.node).child) key depth := by
        intro c depth
        rw [findChild_map, findChild_map]
        rcases findChild_placed hvalid c with ⟨hfind, -⟩ | ⟨s, l, p, r, hfind, hfound⟩
        · rw [hfind, Option.bind_none, Option.bind_none, artSearchFrom, Art.artSearchFrom]
        · rw [hfind, Option.bind_some, Option.bind_some, child_map, child_map, hfound.child_eq]
          refine ih (c, p.node) ?_ (hps _ hfound.mem) (fun b hb ↦ ?_) fuel depth
          · rw [inorder_map]
            exact List.mem_map_of_mem hfound.mem
          · exact hlive b (List.mem_cons_of_mem _ (mem_regionsOf hfound.mem hb))
      rw [artSearchFrom, Art.artSearchFrom, readNode_eq ha (hlive _ List.mem_cons_self), ok_bind]
      simp only [hchild]

/-- What a call makes of a node: the regions in `F`, which are owned beside it, are left alone. -/
def Becomes (m : Memory (Cell V)) (F old : List Region) (m' : Memory (Cell V)) (r : Ref)
    (n : ArtNode V) : Prop :=
  ∃ S, Stored m' r n S ∧ Owns m' (S ++ F) old ∧ Keeps m m' F

section Writing

variable {P : Prop} {C γ δ : Type} {R : γ → δ → Prop}

/-- The largest region that a call with this key asks for. -/
def largest (key : List (BitVec 8)) : ℕ := max 2064 (16 + key.length)

theorem nodeSize_pos (n : Children C) : 0 < nodeSize n := by
  cases n <;> exact Nat.succ_pos _

theorem nodeSize_le (n : Children C) : nodeSize n ≤ 2064 := by
  cases n <;> simp [nodeSize]

theorem nodeSize_le_largest (n : Children C) (key : List (BitVec 8)) :
    nodeSize n ≤ largest key := (nodeSize_le n).trans (le_max_left _ _)

theorem nodeSize_map {D : Type} (f : C → D) (n : Children C) : nodeSize (n.map f) = nodeSize n := by
  cases n <;> rfl

theorem nodeSize_setChild (n : Children C) (s : Slot) (x : C) :
    nodeSize (n.setChild s x) = nodeSize n := by
  cases n <;> cases s <;> rfl

/-- A leaf that was made, in a region of its own. -/
structure Makes (A : Allocator) (m m' : Memory (Cell V)) (a : ℕ) (l : ArtLeaf V) : Prop where
  refuses : ∀ {k}, Refuses A (largest l.key) k m'.calls m'.live →
    Refuses A (largest l.key) (k + 1) m.calls m.live
  owns : ∀ {S old}, Owns m S old → Owns m' (leafRegion a l :: S) old
  leaf : m'.cell a = .leaf l
  keeps : ∀ {S old}, Owns m S old → Keeps m m' S

theorem lockstep_makeLeaf (hP : Refuses A (largest key) 1 m.calls m.live → P)
    {f : ℕ × Memory (Cell V) → Exec γ} {z : Exec δ}
    (hf : ∀ a m', Makes A m m' a (Art.makeLeaf key value) → Lockstep P R (f (a, m')) z) :
    Lockstep P R (makeLeaf A m key value >>= f) z := by
  rw [makeLeaf, bind_assoc]
  have hpos : 0 < 16 + key.length := by omega
  have hle : 16 + key.length ≤ largest key := le_max_right _ _
  refine lockstep_allocate hpos (fun h ↦ hP (.now hpos hle h)) fun a m' halloc ↦ ?_
  exact hf a _ ⟨halloc.refuses hpos hle, fun howns ↦ (halloc.owns howns).write _ _,
    write_cell_self _ _ _, fun howns ↦ (halloc.keeps howns).trans
      ((halloc.owns howns).keeps_write _)⟩

variable {ps : Children (Placed V)} {μ : Memory (Cell V)}

/-- A node is written when everything below it is in place. -/
theorem becomes_write (hps : ∀ e ∈ ps.inorder, Stored μ e.2.ref e.2.node e.2.regions)
    (howns : Owns μ (nodeRegion a ps :: (regionsOf ps.inorder ++ F)) old) (hkeeps : Keeps m μ F)
    (h : ArtHeader) :
    Becomes m F old (μ.write a (.inner h (ps.map Placed.ref))) (.inner a)
      (.inner h (ps.map Placed.node)) := by
  have hwrite : Keeps μ (μ.write a (.inner h (ps.map Placed.ref))) (regionsOf ps.inorder ++ F) :=
    howns.keeps_write _
  refine ⟨nodeRegion a ps :: regionsOf ps.inorder, .inner (write_cell_self _ _ _) fun e he ↦ ?_,
    howns.write _ _, hkeeps.trans hwrite.right⟩
  exact (hps e he).congr (Keeps.below hwrite.left he)

theorem changeNode_lockstep {refs : Children Ref} (hP : Refuses A 2064 1 μ.calls μ.live → P)
    (hps : ∀ e ∈ ps.inorder, Stored μ e.2.ref e.2.node e.2.regions)
    (howns : Owns μ (nodeRegion a refs :: (regionsOf ps.inorder ++ F)) old) (hkeeps : Keeps m μ F)
    (h : ArtHeader) :
    Lockstep P (fun x n ↦ Becomes m F old x.2 x.1 n)
      (changeNode A μ a h refs (ps.map Placed.ref)) (.ok (.inner h (ps.map Placed.node))) := by
  rw [changeNode]
  split_ifs with hsize
  · rw [nodeSize_map] at hsize
    rw [nodeRegion, ← hsize] at howns
    exact .returns (becomes_write hps howns hkeeps h)
  · rw [allocNode, bind_assoc]
    refine lockstep_allocate (nodeSize_pos _)
      (fun h ↦ hP (.now (nodeSize_pos _) (nodeSize_le _) h)) fun b μ' halloc ↦ ?_
    have hnew := (halloc.owns howns).perm (List.Perm.swap _ _ (regionsOf ps.inorder ++ F))
    rw [nodeSize_map] at hnew
    have hsame : Keeps μ μ' (regionsOf ps.inorder ++ F) := (halloc.keeps howns).tail
    have hbecomes : Becomes m F old _ _ _ := becomes_write (μ := μ'.free a) (a := b)
      (fun e he ↦ (hps e he).congr (Keeps.below hsame.left he)) hnew.free
      (hkeeps.trans hsame.right) h
    have hlive : (μ'.write b (.inner h (ps.map Placed.ref))).IsLive a :=
      hnew.isLive List.mem_cons_self
    show Lockstep P _ ((μ'.write b (.inner h (ps.map Placed.ref))).release a >>= _) _
    rw [release_of_live hlive]
    exact .returns hbecomes

end Writing

section Splitting

variable {C D : Type}

/-- The slots of a new `node4` with two children, which `add_child4` puts in order. -/
def twoSlots (c d : BitVec 8) (x y : C) : List (BitVec 8 × C) :=
  [(c, x)].insertIdx ([(c, x)].findIdx fun e ↦ d.ult e.1) (d, y)

theorem addChild_first (arch : Arch) (c : BitVec 8) (x : C) :
    Children.addChild arch (.node4 []) c x = .ok (.node4 [(c, x)]) := rfl

theorem addChild_second (arch : Arch) (c d : BitVec 8) (x y : C) :
    Children.addChild arch (.node4 [(c, x)]) d y = .ok (.node4 (twoSlots c d x y)) := rfl

theorem twoSlots_map (f : C → D) (c d : BitVec 8) (x y : C) :
    Children.map f (.node4 (twoSlots c d x y)) = .node4 (twoSlots c d (f x) (f y)) := by
  rw [Children.map, twoSlots, List.map_insertIdx]
  rfl

theorem twoSlots_perm (c d : BitVec 8) (x y : C) :
    (twoSlots c d x y).Perm [(d, y), (c, x)] := perm_insert _ _ _ _

/-- The new node above two nodes that are in place. -/
theorem becomes_two {p q : Placed V} {μ : Memory (Cell V)} {c d : BitVec 8}
    (hp : Stored μ p.ref p.node p.regions) (hq : Stored μ q.ref q.node q.regions)
    (howns : Owns μ (nodeRegion a (.node4 (twoSlots c d p q)) :: (q.regions ++ (p.regions ++ F)))
      old) (hkeeps : Keeps m μ F) (h : ArtHeader) :
    Becomes m F old (μ.write a (.inner h (.node4 (twoSlots c d p.ref q.ref)))) (.inner a)
      (.inner h (.node4 (twoSlots c d p.node q.node))) := by
  have hperm : (regionsOf (twoSlots c d p q)).Perm (q.regions ++ p.regions) := by
    refine (regionsOf_perm (twoSlots_perm c d p q)).trans ?_
    rw [regionsOf_cons, regionsOf_cons]
    simp [regionsOf]
  rw [← twoSlots_map, ← twoSlots_map]
  refine becomes_write (fun e he ↦ ?_) (howns.perm (List.Perm.cons _ ?_)) hkeeps h
  · have hmem := (twoSlots_perm c d p q).mem_iff.mp he
    simp only [List.mem_cons, List.not_mem_nil, or_false] at hmem
    rcases hmem with rfl | rfl
    · exact hq
    · exact hp
  · rw [← List.append_assoc]
    exact hperm.symm.append_right F

theorem splitLeaf_lockstep (ha : m.cell a = .leaf l) (howns : Owns m (leafRegion a l :: F) old)
    (arch : Arch) (key : List (BitVec 8)) (value : Option V) (depth : ℕ) :
    Lockstep (Refuses A (largest key) 2 m.calls m.live) (fun x n ↦ Becomes m F old x.2 x.1 n)
      (splitLeaf A arch m a l key value depth) (Art.splitLeaf arch l key value depth) := by
  rw [splitLeaf, Art.splitLeaf]
  refine lockstep_allocate (nodeSize_pos _)
    (fun h ↦ .now (nodeSize_pos _) (nodeSize_le_largest _ key) h) fun p m₁ h₁ ↦ ?_
  refine lockstep_makeLeaf (fun h ↦ h₁.refuses (nodeSize_pos _) (nodeSize_le_largest _ key) h)
    fun b m₂ h₂ ↦ ?_
  have howns₁ := h₁.owns howns
  have howns₂ := h₂.owns howns₁
  have hkeeps : Keeps m m₂ (leafRegion a l :: F) :=
    (h₁.keeps howns).trans (h₂.keeps howns₁).tail
  dsimp only
  rw [readLeaf_eq h₂.leaf (howns₂.isLive List.mem_cons_self), ok_bind]
  refine Lockstep.bind_same fun longestPrefix ↦ Lockstep.bind_same fun partialBytes ↦
    Lockstep.bind_same fun c ↦ ?_
  rw [addChild_first, addChild_first, ok_bind, ok_bind]
  refine Lockstep.bind_same fun d ↦ ?_
  rw [addChild_second, addChild_second, ok_bind, ok_bind]
  exact .returns (becomes_two (p := ⟨.leaf a, .leaf l, [leafRegion a l]⟩)
    (q := ⟨.leaf b, .leaf (Art.makeLeaf key value), [leafRegion b (Art.makeLeaf key value)]⟩)
    (.leaf ((hkeeps _ List.mem_cons_self).trans ha)) (.leaf h₂.leaf)
    (howns₂.perm (List.Perm.swap _ _ _)) hkeeps.tail _)

theorem splitPrefix_lockstep {ps : Children (Placed V)}
    (ha : m.cell a = .inner h (ps.map Placed.ref))
    (hps : ∀ e ∈ ps.inorder, Stored m e.2.ref e.2.node e.2.regions)
    (howns : Owns m (nodeRegion a ps :: (regionsOf ps.inorder ++ F)) old) (arch : Arch) (fuel : ℕ)
    (key : List (BitVec 8)) (value : Option V) (depth prefixDiff : ℕ) :
    Lockstep (Refuses A (largest key) 2 m.calls m.live) (fun x n ↦ Becomes m F old x.2 x.1 n)
      (splitPrefix A arch m fuel a h (ps.map Placed.ref) key value depth prefixDiff)
      (Art.splitPrefix arch fuel h (ps.map Placed.node) key value depth prefixDiff) := by
  rw [splitPrefix, Art.splitPrefix]
  refine lockstep_allocate (nodeSize_pos _)
    (fun h ↦ .now (nodeSize_pos _) (nodeSize_le_largest _ key) h) fun p m₁ h₁ ↦ ?_
  have howns₁ := h₁.owns howns
  have hkeeps₁ := h₁.keeps howns
  have hst₁ : Stored m₁ (.inner a) (.inner h (ps.map Placed.node)) _ :=
    Stored.congr (.inner ha hps) (Keeps.left (F := _ :: _) hkeeps₁)
  have hlive : ∀ q ∈ nodeRegion a ps :: regionsOf ps.inorder, m₁.IsLive q.base := fun q hq ↦
    howns₁.isLive (List.mem_cons_of_mem _ (List.mem_append_left F hq))
  dsimp only
  rw [cutPrefix_eq hst₁ hlive]
  refine Lockstep.bind_same fun partialBytes ↦ Lockstep.bind_same fun cut ↦ ?_
  obtain ⟨c, header⟩ := cut
  dsimp only
  rw [addChild_first, addChild_first, ok_bind, ok_bind]
  have hwrite : Keeps m₁ (m₁.write a (.inner header (ps.map Placed.ref))) _ :=
    (howns₁.perm (List.Perm.swap _ _ _)).keeps_write _
  have howns' := howns₁.write a (.inner header (ps.map Placed.ref))
  have hst' : Stored _ (.inner a) (.inner header (ps.map Placed.node)) _ :=
    .inner (write_cell_self m₁ a _) fun e he ↦
      (hps e he).congr (Keeps.below (hkeeps₁.tail.trans hwrite.tail).left he)
  refine lockstep_makeLeaf (m := m₁.write a (.inner header (ps.map Placed.ref)))
    (fun h ↦ h₁.refuses (nodeSize_pos _) (nodeSize_le_largest _ key) h) fun b m₂ h₂ ↦ ?_
  have hkeeps₂ := (h₂.keeps howns').tail
  dsimp only
  refine Lockstep.bind_same fun d ↦ ?_
  rw [addChild_second, addChild_second, ok_bind, ok_bind]
  exact .returns (becomes_two
    (p := ⟨.inner a, .inner header (ps.map Placed.node), nodeRegion a ps :: regionsOf ps.inorder⟩)
    (q := ⟨.leaf b, .leaf (Art.makeLeaf key value), [leafRegion b (Art.makeLeaf key value)]⟩)
    (hst'.congr (Keeps.left (F := _ :: _) hkeeps₂)) (.leaf h₂.leaf)
    ((h₂.owns howns').perm (List.Perm.swap _ _ _))
    ((hkeeps₁.tail.trans hwrite.tail).trans hkeeps₂.tail).right _)

end Splitting

section Insertion

variable {ps : Children (Placed V)} {c : BitVec 8} {s : Slot} {p : Placed V}
  {l' r' : List (BitVec 8 × Placed V)}

/-- The regions of a node with those of one of its children in front. -/
theorem regions_focus (q : Region) (c : BitVec 8) (p : Placed V)
    (l' r' : List (BitVec 8 × Placed V)) (F : List Region) :
    (q :: (regionsOf (l' ++ (c, p) :: r') ++ F)).Perm
      (p.regions ++ (q :: (regionsOf (l' ++ r') ++ F))) := by
  have hmiddle : (regionsOf (l' ++ (c, p) :: r')).Perm (p.regions ++ regionsOf (l' ++ r')) := by
    rw [← regionsOf_cons (c, p)]
    exact regionsOf_perm List.perm_middle
  refine ((hmiddle.append_right F).cons q).trans ?_
  rw [List.append_assoc]
  exact List.perm_middle.symm

theorem becomes_setChild {μ : Memory (Cell V)} {x : Ref} {y : ArtNode V}
    (hfound : ps.Found c s l' p r') (hst : Stored μ x y S)
    (hps : ∀ e ∈ l' ++ r', Stored μ e.2.ref e.2.node e.2.regions)
    (howns : Owns μ (S ++ (nodeRegion a ps :: (regionsOf (l' ++ r') ++ F))) old)
    (hkeeps : Keeps m μ F) (h : ArtHeader) :
    Becomes m F old (μ.write a (.inner h ((ps.map Placed.ref).setChild s x))) (.inner a)
      (.inner h ((ps.map Placed.node).setChild s y)) := by
  have href := setChild_map (f := Placed.ref) ps s ⟨x, y, S⟩
  have hnode := setChild_map (f := Placed.node) ps s ⟨x, y, S⟩
  dsimp only at href hnode
  rw [href, hnode]
  refine becomes_write (fun e he ↦ ?_) ?_ hkeeps h
  · rcases (hfound.mem_setChild _ e).mp he with hlr | rfl
    · exact hps e (List.mem_append.mpr hlr)
    · exact hst
  · rw [hfound.inorder_setChild, nodeRegion, nodeSize_setChild]
    exact howns.perm (regions_focus _ c ⟨x, y, S⟩ l' r' F).symm

def Inserted (m : Memory (Cell V)) (F old : List Region)
    (x : Ref × Memory (Cell V) × Option V × Bool) (y : ArtNode V × Option V × Bool) : Prop :=
  Becomes m F old x.2.1 x.1 y.1 ∧ x.2.2 = y.2

theorem insertBelow_lockstep (hvalid : (ps.map Placed.node).Valid)
    (hps : ∀ e ∈ ps.inorder, Stored m e.2.ref e.2.node e.2.regions)
    (howns : Owns m (nodeRegion a ps :: (regionsOf ps.inorder ++ F)) old)
    (insert : Option Ref → ℕ → Exec (Ref × Memory (Cell V) × Option V × Bool))
    (insert' : Option (ArtNode V) → ℕ → Exec (ArtNode V × Option V × Bool))
    (ih : ∀ e ∈ ps.inorder, ∀ G depth, Owns m (e.2.regions ++ G) old →
      Lockstep (Refuses A (largest key) 2 m.calls m.live) (Inserted m G old)
        (insert (some e.2.ref) depth) (insert' (some e.2.node) depth))
    (arch : Arch) (h : ArtHeader) (value : Option V) (depth : ℕ) :
    Lockstep (Refuses A (largest key) 2 m.calls m.live) (Inserted m F old)
      (insertBelow A arch m insert a h (ps.map Placed.ref) key value depth)
      (Art.insertBelow arch insert' h (ps.map Placed.node) key value depth) := by
  rw [insertBelow, Art.insertBelow]
  refine Lockstep.bind_same fun c ↦ ?_
  rw [findChild_map, findChild_map]
  rcases findChild_placed hvalid c with ⟨hfind, hmissing⟩ | ⟨s, l, p, r, hfind, hfound⟩
  · rw [hfind]
    refine lockstep_makeLeaf .succ fun b μ hmakes ↦ ?_
    let q : Placed V :=
      ⟨.leaf b, .leaf (Art.makeLeaf key value), [leafRegion b (Art.makeLeaf key value)]⟩
    obtain ⟨ps', hadd, hgrows⟩ := addChild_grows ((valid_map ps).mp hvalid) hmissing arch q
    have href : (ps.map Placed.ref).addChild arch c (.leaf b) = .ok (ps'.map Placed.ref) :=
      (addChild_map arch ps c q).trans (by rw [hadd]; rfl)
    have hnode : (ps.map Placed.node).addChild arch c (.leaf (Art.makeLeaf key value)) =
        .ok (ps'.map Placed.node) := (addChild_map arch ps c q).trans (by rw [hadd]; rfl)
    have hperm : (nodeRegion a (ps.map Placed.ref) :: (regionsOf ps'.inorder ++ F)).Perm
        (leafRegion b (Art.makeLeaf key value) :: nodeRegion a ps ::
          (regionsOf ps.inorder ++ F)) := by
      have hregions := regionsOf_perm hgrows.perm
      rw [regionsOf_cons] at hregions
      rw [nodeRegion, nodeSize_map]
      exact ((hregions.append_right F).cons _).trans (List.Perm.swap _ _ _)
    have hkeeps := (hmakes.keeps howns).tail
    dsimp only
    rw [href, hnode, ok_bind, ok_bind]
    refine Lockstep.bind (y := .ok (ArtNode.inner h (ps'.map Placed.node)))
      (g := fun n ↦ .ok (n, none, false)) (changeNode_lockstep
        (fun h ↦ hmakes.refuses (h.mono (le_max_left _ _))) (fun e he ↦ ?_)
        ((hmakes.owns howns).perm hperm.symm) hkeeps.right h) ?_
    · rcases List.mem_cons.mp (hgrows.perm.mem_iff.mp he) with rfl | he
      · exact .leaf hmakes.leaf
      · exact (hps e he).congr (Keeps.below hkeeps.left he)
    · rintro ⟨x, μ'⟩ y hb
      exact .returns ⟨hb, rfl⟩
  · rw [hfind]
    dsimp only
    rw [child_map, child_map, hfound.child_eq]
    have hfocus := howns
    rw [hfound.inorder_eq] at hfocus
    refine (ih (c, p) hfound.mem _ (depth + 1)
      (hfocus.perm (regions_focus _ c p l r F))).bind ?_
    rintro ⟨x, μ, oldVal, isOld⟩ ⟨y, oldVal', isOld'⟩ ⟨⟨S, hst, howns', hkeeps⟩, ⟨⟩⟩
    refine .returns ⟨becomes_setChild hfound hst (fun e he ↦ ?_) howns' hkeeps.tail.right h, rfl⟩
    exact (hps e ((hfound.mem_iff e).mpr (.inl (List.mem_append.mp he)))).congr
      (Keeps.below hkeeps.tail.left he)

theorem leaf_insert_lockstep (ha : m.cell a = .leaf l) (howns : Owns m (leafRegion a l :: F) old)
    (arch : Arch) (key : List (BitVec 8)) (value : Option V) (replace : Bool) (fuel depth : ℕ) :
    Lockstep (Refuses A (largest key) 2 m.calls m.live) (Inserted m F old)
      (recursiveInsert A arch m key value replace fuel (some (.leaf a)) depth)
      (Art.recursiveInsert arch key value replace fuel (some (.leaf l)) depth) := by
  rw [recursiveInsert, Art.recursiveInsert, readLeaf_eq ha (howns.isLive List.mem_cons_self),
    ok_bind]
  split_ifs with hmatches hreplace
  · exact .returns ⟨⟨[leafRegion a l], .leaf (write_cell_self _ _ _), howns.write _ _,
      howns.keeps_write _⟩, rfl⟩
  · exact .returns ⟨⟨[leafRegion a l], .leaf ha, howns, .refl _ _⟩, rfl⟩
  · refine (splitLeaf_lockstep ha howns arch key value depth).bind ?_
    rintro ⟨x, μ⟩ y hb
    exact .returns ⟨hb, rfl⟩

/-- The insertion in memory does what the one on trees does, or an allocation was refused. -/
theorem recursiveInsert_lockstep (hwf : Wf path n) (hst : Stored m r n S)
    (howns : Owns m (S ++ F) old) (arch : Arch) (key : List (BitVec 8)) (value : Option V)
    (replace : Bool) (fuel depth : ℕ) :
    Lockstep (Refuses A (largest key) 2 m.calls m.live) (Inserted m F old)
      (recursiveInsert A arch m key value replace fuel (some r) depth)
      (Art.recursiveInsert arch key value replace fuel (some n) depth) := by
  induction hwf generalizing r S F fuel depth with
  | leaf _ =>
    obtain ⟨a, rfl, rfl, ha⟩ := hst.leaf_inv
    exact leaf_insert_lockstep ha howns arch key value replace fuel depth
  | @inner path w children hvalid _ _ ih =>
    obtain ⟨a, ps, rfl, rfl, rfl, ha, hps⟩ := hst.inner_inv
    cases fuel with
    | zero =>
      rw [recursiveInsert, Art.recursiveInsert]
      exact .fails _
    | succ fuel =>
      have hlive : ∀ q ∈ nodeRegion a ps :: regionsOf ps.inorder, m.IsLive q.base := fun q hq ↦
        howns.isLive (List.mem_append_left F hq)
      have hbelow := insertBelow_lockstep hvalid hps howns
        (recursiveInsert A arch m key value replace fuel)
        (Art.recursiveInsert arch key value replace fuel) (fun e he G depth howns ↦
          ih (e.1, e.2.node) (by rw [inorder_map]; exact List.mem_map_of_mem he) (hps e he) howns
            fuel depth) arch (.of w) value (depth + (ArtHeader.of w).partialLen)
      rw [recursiveInsert, Art.recursiveInsert, readNode_eq ha (hlive _ List.mem_cons_self),
        ok_bind]
      dsimp only
      rw [prefixMismatch_eq hst hlive]
      split_ifs with hzero
      · refine Lockstep.bind_same fun prefixDiff ↦ ?_
        split_ifs with hdiff
        · refine (splitPrefix_lockstep ha hps howns arch (fuel + 1) key value depth
            prefixDiff).bind ?_
          rintro ⟨x, μ⟩ y hb
          exact .returns ⟨hb, rfl⟩
        · exact hbelow
      · exact hbelow

end Insertion

end RadixBench.Art.Heap
