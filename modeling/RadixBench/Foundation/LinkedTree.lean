import Mathlib.Data.List.Nodup
import Mathlib.Data.Tree.Basic
import Mathlib.Tactic.Common
import RadixBench.Foundation.Walk

namespace RadixBench.Foundation

variable {N : Type}

def inorder : BinaryTree N → List N
  | .nil => []
  | .node n l r => inorder l ++ n :: inorder r

def rootOf : BinaryTree N → Option N
  | .nil => none
  | .node n _ _ => some n

@[simp] theorem inorder_nil : inorder (.nil : BinaryTree N) = [] := rfl

@[simp] theorem inorder_node (n : N) (l r : BinaryTree N) :
    inorder (.node n l r) = inorder l ++ n :: inorder r := rfl

@[simp] theorem rootOf_nil : rootOf (.nil : BinaryTree N) = none := rfl

@[simp] theorem rootOf_node (n : N) (l r : BinaryTree N) : rootOf (.node n l r) = some n := rfl

theorem rootOf_mem {t : BinaryTree N} {n : N} (h : rootOf t = some n) : n ∈ inorder t := by
  cases t with
  | nil => cases h
  | node m l r =>
    cases h
    simp

theorem rootOf_ne_rootOf {n : N} {l r : BinaryTree N} (h : (inorder (.node n l r)).Nodup) {x : N}
    (hl : rootOf l = some x) : rootOf r ≠ some x := fun hr ↦
  (List.nodup_append'.mp h).2.2 (rootOf_mem hl) (List.mem_cons_of_mem n (rootOf_mem hr))

/-- The node next to the hole of a tree, and the subtree on its other side. -/
structure Frame (N : Type) where
  node : N
  side : Bool
  other : BinaryTree N

def Frame.fill (f : Frame N) (t : BinaryTree N) : BinaryTree N :=
  match f.side with
  | false => .node f.node t f.other
  | true => .node f.node f.other t

theorem inorder_fill_perm (f : Frame N) (t : BinaryTree N) :
    (inorder (f.fill t)).Perm (f.node :: inorder f.other ++ inorder t) := by
  obtain ⟨n, side, other⟩ := f
  cases side
  · refine List.perm_middle.trans (List.Perm.cons n ?_)
    exact List.perm_append_comm
  · exact List.perm_middle

theorem mem_fill {f : Frame N} {t : BinaryTree N} {n : N} :
    n ∈ inorder (f.fill t) ↔ n = f.node ∨ n ∈ inorder f.other ∨ n ∈ inorder t := by
  rw [(inorder_fill_perm f t).mem_iff]
  simp

/-- A tree with a hole, the innermost frame first. -/
abbrev Context (N : Type) := List (Frame N)

def plug : Context N → BinaryTree N → BinaryTree N
  | [], t => t
  | f :: c, t => plug c (f.fill t)

def before : Context N → List N
  | [] => []
  | f :: c => before c ++ bif f.side then inorder f.other ++ [f.node] else []

def after : Context N → List N
  | [] => []
  | f :: c => (bif f.side then [] else f.node :: inorder f.other) ++ after c

def around (c : Context N) : List N := before c ++ after c

@[simp] theorem plug_nil (t : BinaryTree N) : plug [] t = t := rfl

@[simp] theorem plug_cons (f : Frame N) (c : Context N) (t : BinaryTree N) :
    plug (f :: c) t = plug c (f.fill t) := rfl

theorem plug_concat (c : Context N) (f : Frame N) (t : BinaryTree N) :
    plug (c ++ [f]) t = f.fill (plug c t) := by
  induction c generalizing t with
  | nil => rfl
  | cons g c ih => exact ih (g.fill t)

theorem plug_append (c₁ c₂ : Context N) (t : BinaryTree N) :
    plug (c₁ ++ c₂) t = plug c₂ (plug c₁ t) := by
  induction c₁ generalizing t with
  | nil => rfl
  | cons f c₁ ih => exact ih (f.fill t)

theorem before_concat (c : Context N) (f : Frame N) :
    before (c ++ [f]) = (bif f.side then inorder f.other ++ [f.node] else []) ++ before c := by
  induction c with
  | nil => exact (List.append_nil _).symm
  | cons g c ih => rw [List.cons_append, before, ih, before, List.append_assoc]

theorem after_concat (c : Context N) (f : Frame N) :
    after (c ++ [f]) = after c ++ bif f.side then [] else f.node :: inorder f.other := by
  induction c with
  | nil => exact List.append_nil _
  | cons g c ih => rw [List.cons_append, after, ih, after, List.append_assoc]

theorem inorder_plug (c : Context N) (t : BinaryTree N) :
    inorder (plug c t) = before c ++ inorder t ++ after c := by
  induction c generalizing t with
  | nil => simp [before, after]
  | cons f c ih =>
    obtain ⟨n, side, other⟩ := f
    rw [plug_cons, ih]
    cases side <;> simp [Frame.fill, before, after]

theorem inorder_plug_perm (c : Context N) (t : BinaryTree N) :
    (inorder (plug c t)).Perm (inorder t ++ around c) := by
  rw [inorder_plug, around, ← List.append_assoc]
  exact List.Perm.append_right _ List.perm_append_comm

theorem mem_plug {c : Context N} {t : BinaryTree N} {n : N} :
    n ∈ inorder (plug c t) ↔ n ∈ inorder t ∨ n ∈ around c := by
  rw [(inorder_plug_perm c t).mem_iff, List.mem_append]

theorem nodup_plug {c : Context N} {t : BinaryTree N} :
    (inorder (plug c t)).Nodup ↔
      (inorder t).Nodup ∧ (around c).Nodup ∧ ∀ n ∈ inorder t, n ∉ around c := by
  rw [(inorder_plug_perm c t).nodup_iff, List.nodup_append']
  rfl

theorem around_cons_perm (f : Frame N) (c : Context N) :
    (around (f :: c)).Perm (f.node :: inorder f.other ++ around c) := by
  obtain ⟨n, side, other⟩ := f
  have hperm := inorder_plug_perm c (Frame.fill ⟨n, side, other⟩ .nil)
  have hsplit := inorder_plug_perm (⟨n, side, other⟩ :: c) .nil
  rw [plug_cons, inorder_nil, List.nil_append] at hsplit
  refine hsplit.symm.trans (hperm.trans (List.Perm.append_right _ ?_))
  cases side
  · simp [Frame.fill]
  · simp [Frame.fill]

theorem mem_around_cons {f : Frame N} {c : Context N} {n : N} :
    n ∈ around (f :: c) ↔ n = f.node ∨ n ∈ inorder f.other ∨ n ∈ around c := by
  rw [(around_cons_perm f c).mem_iff]
  simp

theorem inorder_plug_node_perm (c : Context N) (n : N) (l r : BinaryTree N) :
    (inorder (plug c (.node n l r))).Perm (n :: (inorder l ++ inorder r ++ around c)) := by
  refine (inorder_plug_perm c _).trans ?_
  exact List.Perm.append_right _ List.perm_middle

theorem inorder_swap_perm (c : Context N) (side : Bool) (other : BinaryTree N) (n m : N)
    (l r : BinaryTree N) :
    (inorder (plug c (Frame.fill ⟨n, side, other⟩ (.node m l r)))).Perm
      (inorder (plug c (Frame.fill ⟨m, side, other⟩ (.node n l r)))) := by
  have hperm : ∀ n m, (inorder (plug c (Frame.fill ⟨n, side, other⟩ (.node m l r)))).Perm
      (n :: m :: (inorder other ++ (inorder l ++ inorder r)) ++ around c) := by
    intro n m
    refine (inorder_plug_perm c _).trans (List.Perm.append_right _ ?_)
    refine (inorder_fill_perm _ _).trans (List.Perm.cons n ?_)
    exact (List.Perm.append_left _ List.perm_middle).trans List.perm_middle
  refine (hperm n m).trans (.trans ?_ (hperm m n).symm)
  exact List.Perm.append_right _ (List.Perm.swap _ _ _)

theorem map_of_fixed {f : N → N} {t : BinaryTree N} (h : ∀ n ∈ inorder t, f n = n) :
    t.map f = t := by
  induction t with
  | nil => rfl
  | node n l r ihl ihr =>
    rw [BinaryTree.map, h n (by simp), ihl fun m hm ↦ h m (by simp [hm]),
      ihr fun m hm ↦ h m (by simp [hm])]

theorem map_fill {f : N → N} {n : N} {side : Bool} {other : BinaryTree N}
    (h : ∀ m ∈ inorder other, f m = m) (t : BinaryTree N) :
    (Frame.fill ⟨n, side, other⟩ t).map f = Frame.fill ⟨f n, side, other⟩ (t.map f) := by
  have hother := map_of_fixed h
  cases side <;> simp only [Frame.fill, BinaryTree.map, hother]

theorem map_plug {f : N → N} {c : Context N} (h : ∀ n ∈ around c, f n = n) (t : BinaryTree N) :
    (plug c t).map f = plug c (t.map f) := by
  induction c generalizing t with
  | nil => rfl
  | cons g c ih =>
    obtain ⟨n, side, other⟩ := g
    have hn : f n = n := h n (mem_around_cons.mpr (.inl rfl))
    rw [plug_cons, ih fun m hm ↦ h m (mem_around_cons.mpr (.inr (.inr hm))),
      map_fill fun m hm ↦ h m (mem_around_cons.mpr (.inr (.inl hm))), hn, plug_cons]

theorem length_le_around (c : Context N) : c.length ≤ (around c).length := by
  induction c with
  | nil => exact Nat.zero_le _
  | cons f c ih =>
    rw [(around_cons_perm f c).length_eq, List.length_cons, List.length_append, List.length_cons]
    omega

theorem height_le_length (t : BinaryTree N) : t.height ≤ (inorder t).length := by
  induction t with
  | nil => exact Nat.zero_le _
  | node n l r ihl ihr =>
    rw [BinaryTree.height, inorder_node, List.length_append, List.length_cons]
    omega

theorem nodup_plug_node {c : Context N} {n m : N} {l r : BinaryTree N}
    (h : (inorder (plug c (.node m l r))).Nodup) (hn : n ∉ inorder (plug c (.node m l r))) :
    (inorder (plug c (.node n l r))).Nodup ∧ m ∉ inorder (plug c (.node n l r)) := by
  rw [(inorder_plug_node_perm c m l r).nodup_iff, List.nodup_cons] at h
  rw [(inorder_plug_node_perm c m l r).mem_iff, List.mem_cons, not_or] at hn
  rw [(inorder_plug_node_perm c n l r).nodup_iff, (inorder_plug_node_perm c n l r).mem_iff,
    List.nodup_cons, List.mem_cons, not_or]
  exact ⟨⟨hn.2, h.2⟩, Ne.symm hn.1, h.1⟩

theorem mem_plug_replace {c : Context N} {n m : N} {l r : BinaryTree N}
    (h : (inorder (plug c (.node n l r))).Nodup) {x : N} :
    x ∈ inorder (plug c (.node m l r)) ↔ x = m ∨ x ≠ n ∧ x ∈ inorder (plug c (.node n l r)) := by
  rw [(inorder_plug_node_perm c n l r).nodup_iff, List.nodup_cons] at h
  rw [(inorder_plug_node_perm c m l r).mem_iff, (inorder_plug_node_perm c n l r).mem_iff,
    List.mem_cons, List.mem_cons]
  refine or_congr_right ⟨fun hx ↦ ⟨?_, .inr hx⟩, fun hx ↦ hx.2.resolve_left hx.1⟩
  rintro rfl
  exact h.1 hx

theorem exists_plug {t : BinaryTree N} {n : N} (h : n ∈ inorder t) :
    ∃ c l r, t = plug c (.node n l r) := by
  induction t with
  | nil => cases h
  | node m l r ihl ihr =>
    rcases List.mem_append.mp h with hl | hr
    · obtain ⟨c, l', r', rfl⟩ := ihl hl
      exact ⟨c ++ [⟨m, false, r⟩], l', r', by rw [plug_concat, Frame.fill]⟩
    · rcases List.mem_cons.mp hr with rfl | hr
      · exact ⟨[], l, r, rfl⟩
      · obtain ⟨c, l', r', rfl⟩ := ihr hr
        exact ⟨c ++ [⟨m, true, l⟩], l', r', by rw [plug_concat, Frame.fill]⟩

def EachChild (R : Bool → N → N → Prop) : BinaryTree N → Prop
  | .nil => True
  | .node n l r => (∀ m, rootOf l = some m → R false n m) ∧ (∀ m, rootOf r = some m → R true n m) ∧
      EachChild R l ∧ EachChild R r

theorem eachChild_of_pairwise {R : N → N → Prop} {t : BinaryTree N} (h : (inorder t).Pairwise R) :
    EachChild (fun side n m ↦ bif side then R n m else R m n) t := by
  induction t with
  | nil => trivial
  | node n l r ihl ihr =>
    rw [inorder_node] at h
    obtain ⟨hl, hn, hbefore⟩ := List.pairwise_append.mp h
    obtain ⟨hafter, hr⟩ := List.pairwise_cons.mp hn
    exact ⟨fun m hm ↦ hbefore m (rootOf_mem hm) n List.mem_cons_self,
      fun m hm ↦ hafter m (rootOf_mem hm), ihl hl, ihr hr⟩

theorem EachChild.imp {R S : Bool → N → N → Prop} {t : BinaryTree N} (h : EachChild R t)
    (himp : ∀ side n m, R side n m → S side n m) : EachChild S t := by
  induction t with
  | nil => trivial
  | node n l r ihl ihr =>
    obtain ⟨hleft, hright, hl, hr⟩ := h
    exact ⟨fun m hm ↦ himp false n m (hleft m hm), fun m hm ↦ himp true n m (hright m hm),
      ihl hl, ihr hr⟩

/-- The places of a binary tree in memory that can hold a node. -/
inductive Slot (N : Type)
  | root
  | child (n : N) (i : Bool)
  deriving DecidableEq

def Slot.owner : Slot N → Option N
  | .root => none
  | .child n _ => some n

def hole : Context N → Slot N
  | [] => .root
  | f :: _ => .child f.node f.side

theorem hole_append {c₁ : Context N} (h : c₁ ≠ []) (c₂ : Context N) :
    hole (c₁ ++ c₂) = hole c₁ := by
  cases c₁ with
  | nil => exact absurd rfl h
  | cons f c₁ => rfl

/-- What the slots of a linked tree hold, and which slot a node takes itself to be in. -/
structure Links (N : Type) where
  load : Slot N → Option N
  held : N → Slot N → Prop

/-- The tree `t` hangs in the slot `s`. -/
def Laid (H : Links N) : Slot N → BinaryTree N → Prop
  | s, .nil => H.load s = none
  | s, .node n l r =>
    H.load s = some n ∧ H.held n s ∧ Laid H (.child n false) l ∧ Laid H (.child n true) r

def LaidAround (H : Links N) : Context N → Prop
  | [] => True
  | f :: c => H.load (hole c) = some f.node ∧ H.held f.node (hole c) ∧
      Laid H (.child f.node !f.side) f.other ∧ LaidAround H c

section

variable {H H' : Links N}

theorem Laid.load_eq {s : Slot N} {t : BinaryTree N} (h : Laid H s t) : H.load s = rootOf t := by
  cases t with
  | nil => exact h
  | node n l r => exact h.1

theorem laid_fill {f : Frame N} {s : Slot N} {t : BinaryTree N} :
    Laid H s (f.fill t) ↔ H.load s = some f.node ∧ H.held f.node s ∧
      Laid H (.child f.node !f.side) f.other ∧ Laid H (.child f.node f.side) t := by
  obtain ⟨n, side, other⟩ := f
  cases side
  · exact and_congr_right fun _ ↦ and_congr_right fun _ ↦ and_comm
  · exact Iff.rfl

theorem laid_plug {c : Context N} {t : BinaryTree N} :
    Laid H .root (plug c t) ↔ LaidAround H c ∧ Laid H (hole c) t := by
  induction c generalizing t with
  | nil => exact (and_iff_right trivial).symm
  | cons f c ih =>
    rw [plug_cons, ih, laid_fill, LaidAround, hole]
    tauto

def Loose (H : Links N) : BinaryTree N → Prop
  | .nil => True
  | .node n l r => Laid H (.child n false) l ∧ Laid H (.child n true) r

theorem laid_iff {s : Slot N} {t : BinaryTree N} :
    Laid H s t ↔ H.load s = rootOf t ∧ (∀ n, rootOf t = some n → H.held n s) ∧ Loose H t := by
  cases t with
  | nil => simp [Laid, Loose]
  | node n l r => simp [Laid, Loose]

/-- A tree only depends on its slot and its nodes. -/
theorem Laid.frame {s : Slot N} {t : BinaryTree N} (h : Laid H s t)
    (hload : H'.load s = H.load s)
    (hchild : ∀ n ∈ inorder t, ∀ i, H'.load (.child n i) = H.load (.child n i))
    (hheld : ∀ n ∈ inorder t, ∀ s, H.held n s → H'.held n s) : Laid H' s t := by
  induction t generalizing s with
  | nil => exact hload.trans h
  | node n l r ihl ihr =>
    obtain ⟨hn, hself, hl, hr⟩ := h
    refine ⟨hload.trans hn, hheld n (by simp) s hself, ?_, ?_⟩
    · exact ihl hl (hchild n (by simp) false) (fun m hm ↦ hchild m (by simp [hm]))
        fun m hm ↦ hheld m (by simp [hm])
    · exact ihr hr (hchild n (by simp) true) (fun m hm ↦ hchild m (by simp [hm]))
        fun m hm ↦ hheld m (by simp [hm])

/-- A tree stays laid when it is moved to another slot: only its root has to know. -/
theorem Loose.laid {s : Slot N} {t : BinaryTree N} (h : Loose H t) (hnodup : (inorder t).Nodup)
    (hload : H'.load s = rootOf t) (hroot : ∀ n, rootOf t = some n → H'.held n s)
    (hchild : ∀ n ∈ inorder t, ∀ i, H'.load (.child n i) = H.load (.child n i))
    (hheld : ∀ n ∈ inorder t, rootOf t ≠ some n → ∀ s, H.held n s → H'.held n s) :
    Laid H' s t := by
  refine laid_iff.mpr ⟨hload, hroot, ?_⟩
  cases t with
  | nil => trivial
  | node n l r =>
    rw [inorder_node, List.nodup_append', List.nodup_cons] at hnodup
    obtain ⟨-, ⟨hnr, -⟩, hdis⟩ := hnodup
    have hnl : n ∉ inorder l := fun hmem ↦ hdis hmem List.mem_cons_self
    refine ⟨h.1.frame (hchild n (by simp) false) (fun m hm ↦ hchild m (by simp [hm])) fun m hm ↦ ?_,
      h.2.frame (hchild n (by simp) true) (fun m hm ↦ hchild m (by simp [hm])) fun m hm ↦ ?_⟩
    · exact hheld m (by simp [hm]) fun heq ↦ hnl (Option.some.inj heq ▸ hm)
    · exact hheld m (by simp [hm]) fun heq ↦ hnr (Option.some.inj heq ▸ hm)

theorem owner_hole {c : Context N} {n : N} (h : (hole c).owner = some n) : n ∈ around c := by
  cases c with
  | nil => cases h
  | cons f c =>
    cases h
    exact mem_around_cons.mpr (.inl rfl)

theorem child_ne_hole {c : Context N} {n : N} {i : Bool} (h : n ∉ around c) :
    Slot.child n i ≠ hole c := fun heq ↦ h (owner_hole (heq ▸ rfl))

theorem LaidAround.frame {c : Context N} (h : LaidAround H c) (hnodup : (around c).Nodup)
    (hload : ∀ s, s ≠ hole c → (∀ n, s.owner = some n → n ∈ around c) → H'.load s = H.load s)
    (hheld : ∀ n ∈ around c, ∀ s, H.held n s → H'.held n s) : LaidAround H' c := by
  induction c with
  | nil => trivial
  | cons f c ih =>
    obtain ⟨hn, hself, hother, hc⟩ := h
    rw [(around_cons_perm f c).nodup_iff, List.cons_append, List.nodup_cons, List.mem_append,
      List.nodup_append'] at hnodup
    obtain ⟨hnot, -, hndc, -⟩ := hnodup
    rw [not_or] at hnot
    have hsub : ∀ {n}, n ∈ around c → n ∈ around (f :: c) := fun hn ↦
      mem_around_cons.mpr (.inr (.inr hn))
    have hhole : ∀ s, (∀ n, s.owner = some n → n ∈ around c) → s ≠ hole (f :: c) := by
      rintro s hs rfl
      exact hnot.2 (hs f.node rfl)
    refine ⟨?_, hheld f.node (mem_around_cons.mpr (.inl rfl)) _ hself, ?_, ?_⟩
    · rw [hload _ (hhole _ fun n ↦ owner_hole) fun n hn ↦ hsub (owner_hole hn), hn]
    · refine hother.frame ?_ (fun n hn i ↦ ?_) fun n hn ↦
        hheld n (mem_around_cons.mpr (.inr (.inl hn)))
      · refine hload _ ?_ fun n hn ↦ ?_
        · simp [hole]
        · cases hn
          exact mem_around_cons.mpr (.inl rfl)
      · refine hload _ ?_ fun m hm ↦ ?_
        · rw [hole, Ne, Slot.child.injEq, not_and]
          rintro rfl
          exact absurd hn hnot.1
        · cases hm
          exact mem_around_cons.mpr (.inr (.inl hn))
    · exact ih hc hndc (fun s _ hs ↦ hload s (hhole s hs) fun n hn ↦ hsub (hs n hn))
        fun n hn ↦ hheld n (hsub hn)

theorem Laid.plug {c : Context N} {t t' : BinaryTree N} (h : Laid H .root (plug c t))
    (hnodup : (inorder (Foundation.plug c t)).Nodup)
    (hload : ∀ s, s ≠ hole c → (∀ n, s.owner = some n → n ∈ around c) → H'.load s = H.load s)
    (hheld : ∀ n ∈ around c, ∀ s, H.held n s → H'.held n s) (hnew : Laid H' (hole c) t') :
    Laid H' .root (Foundation.plug c t') :=
  laid_plug.mpr ⟨(laid_plug.mp h).1.frame (nodup_plug.mp hnodup).2.1 hload hheld, hnew⟩

theorem Laid.agree {s : Slot N} {t : BinaryTree N} (h : Laid H s t) (h' : Laid H' s t) {n : N}
    (hn : n ∈ inorder t) : (∀ i, H'.load (.child n i) = H.load (.child n i)) ∧
      ∃ s', H.held n s' ∧ H'.held n s' := by
  induction t generalizing s with
  | nil => cases hn
  | node m l r ihl ihr =>
    obtain ⟨-, hself, hl, hr⟩ := h
    obtain ⟨-, hself', hl', hr'⟩ := h'
    rcases List.mem_append.mp hn with hn | hn
    · exact ihl hl hl' hn
    · rcases List.mem_cons.mp hn with rfl | hn
      · refine ⟨fun i ↦ ?_, s, hself, hself'⟩
        cases i
        · exact hl'.load_eq.trans hl.load_eq.symm
        · exact hr'.load_eq.trans hr.load_eq.symm
      · exact ihr hr hr' hn

def descend (load : Slot N → Option N) (s : Slot N) (i : Bool) : Option (Slot N) :=
  (load s).map fun n ↦ .child n i

def turns (c : Context N) : List Bool := (c.map Frame.side).reverse

theorem LaidAround.walk {c : Context N} (h : LaidAround H c) :
    walk (descend H.load) .root (turns c) = some (hole c) := by
  induction c with
  | nil => rfl
  | cons f c ih =>
    obtain ⟨hn, -, -, hc⟩ := h
    have hturns : turns (f :: c) = turns c ++ [f.side] := by
      rw [turns, List.map_cons, List.reverse_cons, turns]
    rw [hturns, walk_snoc, ih hc, Option.bind_some, descend, hn]
    rfl

def nodeOn : BinaryTree N → List Bool → Option N
  | t, [] => rootOf t
  | .nil, _ :: _ => none
  | .node _ l r, b :: p => nodeOn (bif b then r else l) p

theorem nodeOn_map {M : Type} (f : N → M) (t : BinaryTree N) (p : List Bool) :
    nodeOn (t.map f) p = (nodeOn t p).map f := by
  induction p generalizing t with
  | nil => cases t <;> rfl
  | cons b p ih =>
    cases t with
    | nil => rfl
    | node n l r =>
      cases b
      · exact ih l
      · exact ih r

theorem exists_nodeOn {t : BinaryTree N} {n : N} (h : n ∈ inorder t) :
    ∃ p, nodeOn t p = some n := by
  induction t with
  | nil => cases h
  | node m l r ihl ihr =>
    rcases List.mem_append.mp h with hl | hr
    · obtain ⟨p, hp⟩ := ihl hl
      exact ⟨false :: p, hp⟩
    · rcases List.mem_cons.mp hr with rfl | hr
      · exact ⟨[], rfl⟩
      · obtain ⟨p, hp⟩ := ihr hr
        exact ⟨true :: p, hp⟩

theorem nodup_of_nodeOn {t : BinaryTree N}
    (h : ∀ p q n, nodeOn t p = some n → nodeOn t q = some n → p = q) : (inorder t).Nodup := by
  induction t with
  | nil => exact List.nodup_nil
  | node m l r ihl ihr =>
    have hl : (inorder l).Nodup := ihl fun p q n hp hq ↦
      (List.cons.inj (h (false :: p) (false :: q) n hp hq)).2
    have hr : (inorder r).Nodup := ihr fun p q n hp hq ↦
      (List.cons.inj (h (true :: p) (true :: q) n hp hq)).2
    refine List.nodup_append'.mpr ⟨hl, List.nodup_cons.mpr ⟨fun hm ↦ ?_, hr⟩, fun n hnl hn ↦ ?_⟩
    · obtain ⟨p, hp⟩ := exists_nodeOn hm
      cases h [] (true :: p) m rfl hp
    · obtain ⟨p, hp⟩ := exists_nodeOn hnl
      rcases List.mem_cons.mp hn with rfl | hnr
      · cases h (false :: p) [] n hp rfl
      · obtain ⟨q, hq⟩ := exists_nodeOn hnr
        cases h (false :: p) (true :: q) n hp hq

theorem Laid.nodeOn {s : Slot N} {t : BinaryTree N} (h : Laid H s t) (p : List Bool) :
    (Foundation.walk (descend H.load) s p).bind H.load = Foundation.nodeOn t p := by
  induction p generalizing s t with
  | nil => exact h.load_eq
  | cons b p ih =>
    rw [Foundation.walk, descend, h.load_eq]
    cases t with
    | nil => rfl
    | node n l r =>
      obtain ⟨-, -, hl, hr⟩ := h
      cases b
      · exact ih hl
      · exact ih hr

theorem Laid.exists_path {t : BinaryTree N} (h : Laid H .root t) {n : N} (hn : n ∈ inorder t) :
    ∃ p, (Foundation.walk (descend H.load) .root p).bind H.load = some n := by
  obtain ⟨c, l, r, rfl⟩ := exists_plug hn
  obtain ⟨haround, hself⟩ := laid_plug.mp h
  refine ⟨turns c, ?_⟩
  rw [haround.walk, Option.bind_some, hself.load_eq, rootOf_node]

theorem Laid.walk {s s' : Slot N} {t : BinaryTree N} {p : List Bool} {n : N} (h : Laid H s t)
    (hp : Foundation.walk (descend H.load) s p = some s') (hn : H.load s' = some n) :
    ∃ c l r, t = Foundation.plug c (.node n l r) ∧ Laid H s' (.node n l r) := by
  induction p generalizing s t with
  | nil =>
    cases hp
    cases t with
    | nil => cases h.load_eq.symm.trans hn
    | node m l r =>
      obtain rfl := Option.some.inj (h.load_eq.symm.trans hn)
      exact ⟨[], l, r, rfl, h⟩
  | cons b p ih =>
    rw [Foundation.walk, descend, h.load_eq] at hp
    cases t with
    | nil => cases hp
    | node m l r =>
      obtain ⟨-, -, hl, hr⟩ := h
      cases b with
      | false =>
        obtain ⟨c, l', r', rfl, hlaid⟩ := ih hl hp
        exact ⟨c ++ [⟨m, false, r⟩], l', r', by rw [plug_concat, Frame.fill], hlaid⟩
      | true =>
        obtain ⟨c, l', r', rfl, hlaid⟩ := ih hr hp
        exact ⟨c ++ [⟨m, true, l⟩], l', r', by rw [plug_concat, Frame.fill], hlaid⟩

theorem walk_descend_snoc {load : Slot N → Option N} {p : List Bool} {i : Bool} {s : Slot N}
    (h : Foundation.walk (descend load) .root (p ++ [i]) = some s) :
    ∃ s' n, Foundation.walk (descend load) .root p = some s' ∧ load s' = some n ∧
      s = .child n i := by
  rw [walk_snoc] at h
  obtain ⟨s', hs', hs⟩ := Option.bind_eq_some_iff.mp h
  obtain ⟨n, hn, rfl⟩ := Option.map_eq_some_iff.mp hs
  exact ⟨s', n, hs', hn, rfl⟩

theorem Laid.walk_unique {t : BinaryTree N} (h : Laid H .root t)
    (hheld : ∀ n s s', H.held n s → H.held n s' → s = s') {p q : List Bool} {s : Slot N}
    (hp : Foundation.walk (descend H.load) .root p = some s)
    (hq : Foundation.walk (descend H.load) .root q = some s) : p = q := by
  induction p using List.reverseRecOn generalizing q s with
  | nil =>
    obtain rfl := Option.some.inj hp
    rcases List.eq_nil_or_concat' q with rfl | ⟨q, e, rfl⟩
    · rfl
    · obtain ⟨_, _, _, _, heq⟩ := walk_descend_snoc hq
      cases heq
  | append_singleton p d ih =>
    obtain ⟨s₁, n, hp₁, hn₁, rfl⟩ := walk_descend_snoc hp
    rcases List.eq_nil_or_concat' q with rfl | ⟨q, e, rfl⟩
    · cases Option.some.inj hq
    · obtain ⟨s₂, m, hq₂, hn₂, heq⟩ := walk_descend_snoc hq
      obtain ⟨rfl, rfl⟩ := Slot.child.inj heq
      obtain ⟨-, -, -, -, -, hheld₁, -⟩ := h.walk hp₁ hn₁
      obtain ⟨-, -, -, -, -, hheld₂, -⟩ := h.walk hq₂ hn₂
      obtain rfl := hheld n s₁ s₂ hheld₁ hheld₂
      rw [ih hp₁ hq₂]

theorem Laid.nodup {t : BinaryTree N} (h : Laid H .root t)
    (hheld : ∀ n s s', H.held n s → H.held n s' → s = s') : (inorder t).Nodup := by
  refine nodup_of_nodeOn fun p q n hp hq ↦ ?_
  rw [← h.nodeOn] at hp hq
  obtain ⟨s, hs, hn⟩ := Option.bind_eq_some_iff.mp hp
  obtain ⟨s', hs', hn'⟩ := Option.bind_eq_some_iff.mp hq
  obtain ⟨-, -, -, -, -, hself, -⟩ := h.walk hs hn
  obtain ⟨-, -, -, -, -, hself', -⟩ := h.walk hs' hn'
  obtain rfl := hheld n s s' hself hself'
  exact h.walk_unique hheld hs hs'

theorem Laid.mem_of_walk {s s' : Slot N} {t : BinaryTree N} {p : List Bool} {n : N}
    (h : Laid H s t) (hp : Foundation.walk (descend H.load) s p = some s')
    (hn : H.load s' = some n) : n ∈ inorder t := by
  obtain ⟨c, l, r, rfl, -⟩ := h.walk hp hn
  exact mem_plug.mpr (.inl (by simp))

end

end RadixBench.Foundation
