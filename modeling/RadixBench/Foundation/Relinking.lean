import Mathlib.Logic.Equiv.Basic
import RadixBench.Foundation.LinkedTree

namespace RadixBench.Foundation

variable {N : Type} {H H' : Links N} {c : Context N}

theorem nodup_fill {f : Frame N} {t : BinaryTree N} :
    (inorder (f.fill t)).Nodup ↔ f.node ∉ inorder f.other ∧ f.node ∉ inorder t ∧
      (inorder f.other).Nodup ∧ (inorder t).Nodup ∧ ∀ m ∈ inorder f.other, m ∉ inorder t := by
  rw [(inorder_fill_perm f t).nodup_iff, List.cons_append, List.nodup_cons, List.mem_append,
    not_or, List.nodup_append', and_assoc]
  rfl

def Kept (H H' : Links N) (n : N) : Prop :=
  (∀ i, H'.load (.child n i) = H.load (.child n i)) ∧ ∀ s, H.held n s → H'.held n s

theorem Laid.kept {s : Slot N} {t : BinaryTree N} (h : Laid H s t) (hload : H'.load s = rootOf t)
    (hkept : ∀ n ∈ inorder t, Kept H H' n) : Laid H' s t :=
  h.frame (hload.trans h.load_eq.symm) (fun n hn ↦ (hkept n hn).1) fun n hn ↦ (hkept n hn).2

theorem Laid.move {s s' : Slot N} {t : BinaryTree N} (h : Laid H s t)
    (hnodup : (inorder t).Nodup) (hload : H'.load s' = rootOf t)
    (hroot : ∀ n, rootOf t = some n → H'.held n s')
    (hchild : ∀ n ∈ inorder t, ∀ i, H'.load (.child n i) = H.load (.child n i))
    (hheld : ∀ n ∈ inorder t, rootOf t ≠ some n → ∀ s, H.held n s → H'.held n s) :
    Laid H' s' t := (laid_iff.mp h).2.2.laid hnodup hload hroot hchild hheld

theorem nodup_fill_fill {n x : N} {side side' : Bool} {a m b : BinaryTree N}
    (h : (inorder (plug c (Frame.fill ⟨n, side, b⟩ (Frame.fill ⟨x, side', m⟩ a)))).Nodup) :
    (n ≠ x ∧ n ∉ inorder b ∧ n ∉ inorder m ∧ n ∉ inorder a ∧ n ∉ around c) ∧
      (x ∉ inorder b ∧ x ∉ inorder m ∧ x ∉ inorder a ∧ x ∉ around c) ∧
      ((inorder b).Nodup ∧ (inorder m).Nodup ∧ (inorder a).Nodup) ∧
      (∀ y ∈ inorder b, y ∉ inorder m ∧ y ∉ inorder a ∧ y ∉ around c) ∧
      (∀ y ∈ inorder m, y ∉ inorder a ∧ y ∉ around c) ∧ ∀ y ∈ inorder a, y ∉ around c := by
  rw [nodup_plug, nodup_fill, nodup_fill] at h
  simp only [mem_fill, not_or] at h
  obtain ⟨⟨hnb, ⟨hnx, hnm, hna⟩, hndb, ⟨hxm, hxa, hndm, hnda, hma⟩, hb⟩, -, hc⟩ := h
  refine ⟨⟨hnx, hnb, hnm, hna, hc n (.inl rfl)⟩, ⟨fun hxb ↦ (hb x hxb).1 rfl, hxm, hxa, ?_⟩,
    ⟨hndb, hndm, hnda⟩, fun y hy ↦ ⟨(hb y hy).2.1, (hb y hy).2.2, ?_⟩,
    fun y hy ↦ ⟨hma y hy, ?_⟩, fun y hy ↦ ?_⟩
  · exact hc x (.inr (.inr (.inl rfl)))
  · exact hc y (.inr (.inl hy))
  · exact hc y (.inr (.inr (.inr (.inl hy))))
  · exact hc y (.inr (.inr (.inr (.inr hy))))

/-- A child takes the place of its parent, which becomes its child on the other side. -/
theorem laid_rotate {n x : N} {side : Bool} {a m b : BinaryTree N}
    (h : Laid H .root (plug c (Frame.fill ⟨n, side, b⟩ (Frame.fill ⟨x, side, m⟩ a))))
    (hnodup : (inorder (plug c (Frame.fill ⟨n, side, b⟩ (Frame.fill ⟨x, side, m⟩ a)))).Nodup)
    (hhole : H'.load (hole c) = some x) (hx : H'.load (.child x !side) = some n)
    (hn : H'.load (.child n side) = rootOf m)
    (hload : ∀ s, s ≠ hole c → s ≠ .child x (!side) → s ≠ .child n side → H'.load s = H.load s)
    (hheldx : H'.held x (hole c)) (hheldn : H'.held n (.child x !side))
    (hheldm : ∀ y, rootOf m = some y → H'.held y (.child n side))
    (hheld : ∀ y, y ≠ n → y ≠ x → rootOf m ≠ some y → ∀ s, H.held y s → H'.held y s) :
    Laid H' .root (plug c (Frame.fill ⟨x, side, Frame.fill ⟨n, side, b⟩ m⟩ a)) := by
  obtain ⟨-, hfill⟩ := laid_plug.mp h
  obtain ⟨-, -, hb, hfill⟩ := laid_fill.mp hfill
  obtain ⟨-, -, hm, ha⟩ := laid_fill.mp hfill
  obtain ⟨⟨hnx, hnb, hnm, hna, hnc⟩, ⟨hxb, hxm, hxa, hxc⟩, ⟨hndb, hndm, hnda⟩, hb', hm', ha'⟩ :=
    nodup_fill_fill hnodup
  have hchild : ∀ y, y ≠ n → y ≠ x → y ∉ around c → ∀ i,
      H'.load (.child y i) = H.load (.child y i) := by
    intro y hyn hyx hyc i
    exact hload _ (child_ne_hole hyc) (by simp [hyx]) (by simp [hyn])
  have hkept : ∀ y, y ≠ n → y ≠ x → y ∉ around c → y ∉ inorder m → Kept H H' y := by
    intro y hyn hyx hyc hym
    exact ⟨hchild y hyn hyx hyc, hheld y hyn hyx fun heq ↦ hym (rootOf_mem heq)⟩
  refine h.plug hnodup (fun s hs hown ↦ ?_) (fun y hy ↦ ?_) ?_
  · exact hload s hs (fun heq ↦ hxc (hown x (heq ▸ rfl))) fun heq ↦ hnc (hown n (heq ▸ rfl))
  · exact hheld y (ne_of_mem_of_not_mem hy hnc) (ne_of_mem_of_not_mem hy hxc)
      fun heq ↦ (hm' y (rootOf_mem heq)).2 hy
  · refine laid_fill.mpr ⟨hhole, hheldx, laid_fill.mpr ⟨hx, hheldn, ?_, ?_⟩, ?_⟩
    · have hslot := (hload _ (child_ne_hole hnc) (by simp [hnx]) (by simp)).trans hb.load_eq
      exact hb.kept hslot fun y hy ↦ hkept y (ne_of_mem_of_not_mem hy hnb)
        (ne_of_mem_of_not_mem hy hxb) (hb' y hy).2.2 (hb' y hy).1
    · exact hm.move hndm hn hheldm (fun y hy ↦ hchild y (ne_of_mem_of_not_mem hy hnm)
        (ne_of_mem_of_not_mem hy hxm) (hm' y hy).2) fun y hy ↦
          hheld y (ne_of_mem_of_not_mem hy hnm) (ne_of_mem_of_not_mem hy hxm)
    · have hslot := (hload _ (child_ne_hole hxc) (by simp) (by simp [Ne.symm hnx])).trans ha.load_eq
      exact ha.kept hslot fun y hy ↦ hkept y (ne_of_mem_of_not_mem hy hna)
        (ne_of_mem_of_not_mem hy hxa) (ha' y hy) fun hym ↦ (hm' y hym).1 hy

theorem laid_splice {n : N} {s : Slot N} {t u : BinaryTree N}
    (h : Laid H .root (plug c t)) (hnodup : (inorder (plug c t)).Nodup) (hu : Laid H s u)
    (hsub : ∀ y ∈ inorder u, y ∈ inorder t) (hndu : (inorder u).Nodup)
    (hhole : H'.load (hole c) = rootOf u)
    (hload : ∀ s, s ≠ hole c → s.owner ≠ some n → H'.load s = H.load s)
    (hn : n ∈ inorder t) (hnu : n ∉ inorder u)
    (hheldu : ∀ y, rootOf u = some y → H'.held y (hole c))
    (hheld : ∀ y, y ≠ n → rootOf u ≠ some y → ∀ s, H.held y s → H'.held y s) :
    Laid H' .root (plug c u) := by
  obtain ⟨-, -, hapart⟩ := nodup_plug.mp hnodup
  have hchild : ∀ y ∈ inorder u, ∀ i, H'.load (.child y i) = H.load (.child y i) := by
    intro y hy i
    refine hload _ (child_ne_hole (hapart y (hsub y hy))) fun heq ↦ hnu ?_
    exact Option.some.inj heq ▸ hy
  refine h.plug hnodup (fun s hs hown ↦ hload s hs fun heq ↦ hapart n hn (hown n heq))
    (fun y hy ↦ hheld y (ne_of_mem_of_not_mem hy (hapart n hn)) fun heq ↦
      hapart y (hsub y (rootOf_mem heq)) hy) ?_
  exact hu.move hndu hhole hheldu hchild fun y hy ↦ hheld y (ne_of_mem_of_not_mem hy hnu)

/-- A node and its parent trade places. -/
theorem laid_swap {p x : N} {side : Bool} {other a b : BinaryTree N}
    (h : Laid H .root (plug c (Frame.fill ⟨p, side, other⟩ (.node x a b))))
    (hnodup : (inorder (plug c (Frame.fill ⟨p, side, other⟩ (.node x a b)))).Nodup)
    (hhole : H'.load (hole c) = some x) (hx : H'.load (.child x side) = some p)
    (hother : H'.load (.child x !side) = rootOf other)
    (hleft : H'.load (.child p false) = rootOf a) (hright : H'.load (.child p true) = rootOf b)
    (hload : ∀ s, s ≠ hole c → s.owner ≠ some p → s.owner ≠ some x → H'.load s = H.load s)
    (hheldx : H'.held x (hole c)) (hheldp : H'.held p (.child x side))
    (hheldo : ∀ y, rootOf other = some y → H'.held y (.child x !side))
    (hhelda : ∀ y, rootOf a = some y → H'.held y (.child p false))
    (hheldb : ∀ y, rootOf b = some y → H'.held y (.child p true))
    (hheld : ∀ y, y ≠ p → y ≠ x → rootOf other ≠ some y → rootOf a ≠ some y → rootOf b ≠ some y →
      ∀ s, H.held y s → H'.held y s) :
    Laid H' .root (plug c (Frame.fill ⟨x, side, other⟩ (.node p a b))) := by
  have hnodup' : (inorder (plug c
      (Frame.fill ⟨p, side, other⟩ (Frame.fill ⟨x, false, b⟩ a)))).Nodup := hnodup
  obtain ⟨⟨hpx, hpo, hpb, hpa, hpc⟩, ⟨hxo, hxb, hxa, hxc⟩, ⟨hndo, hndb, hnda⟩, ho', hb', ha'⟩ :=
    nodup_fill_fill hnodup'
  obtain ⟨-, hfill⟩ := laid_plug.mp h
  obtain ⟨-, -, ho, -, -, ha, hb⟩ := laid_fill.mp hfill
  have hchild : ∀ y, y ≠ p → y ≠ x → y ∉ around c → ∀ i,
      H'.load (.child y i) = H.load (.child y i) := by
    intro y hyp hyx hyc i
    exact hload _ (child_ne_hole hyc) (fun heq ↦ hyp (Option.some.inj heq)) fun heq ↦
      hyx (Option.some.inj heq)
  refine h.plug hnodup (fun s hs hown ↦ ?_) (fun y hy ↦ ?_)
    (laid_fill.mpr ⟨hhole, hheldx, ?_, hx, hheldp, ?_, ?_⟩)
  · exact hload s hs (fun heq ↦ hpc (hown p heq)) fun heq ↦ hxc (hown x heq)
  · exact hheld y (ne_of_mem_of_not_mem hy hpc) (ne_of_mem_of_not_mem hy hxc)
      (fun heq ↦ (ho' y (rootOf_mem heq)).2.2 hy) (fun heq ↦ ha' y (rootOf_mem heq) hy)
      fun heq ↦ (hb' y (rootOf_mem heq)).2 hy
  · exact ho.move hndo hother hheldo (fun y hy ↦ hchild y (ne_of_mem_of_not_mem hy hpo)
      (ne_of_mem_of_not_mem hy hxo) (ho' y hy).2.2) fun y hy hroot ↦
        hheld y (ne_of_mem_of_not_mem hy hpo) (ne_of_mem_of_not_mem hy hxo) hroot
          (fun heq ↦ (ho' y hy).2.1 (rootOf_mem heq)) fun heq ↦ (ho' y hy).1 (rootOf_mem heq)
  · exact ha.move hnda hleft hhelda (fun y hy ↦ hchild y (ne_of_mem_of_not_mem hy hpa)
      (ne_of_mem_of_not_mem hy hxa) (ha' y hy)) fun y hy hroot ↦
        hheld y (ne_of_mem_of_not_mem hy hpa) (ne_of_mem_of_not_mem hy hxa)
          (fun heq ↦ (ho' y (rootOf_mem heq)).2.1 hy) hroot
          fun heq ↦ (hb' y (rootOf_mem heq)).1 hy
  · exact hb.move hndb hright hheldb (fun y hy ↦ hchild y (ne_of_mem_of_not_mem hy hpb)
      (ne_of_mem_of_not_mem hy hxb) (hb' y hy).2) fun y hy hroot ↦
        hheld y (ne_of_mem_of_not_mem hy hpb) (ne_of_mem_of_not_mem hy hxb)
          (fun heq ↦ (ho' y (rootOf_mem heq)).1 hy)
          (fun heq ↦ (hb' y hy).1 (rootOf_mem heq)) hroot

theorem map_swap [DecidableEq N] {p x : N} {side : Bool} {other a b : BinaryTree N}
    (h : (inorder (plug c (Frame.fill ⟨p, side, other⟩ (.node x a b)))).Nodup) :
    (plug c (Frame.fill ⟨p, side, other⟩ (.node x a b))).map (Equiv.swap p x) =
      plug c (Frame.fill ⟨x, side, other⟩ (.node p a b)) := by
  have hnodup : (inorder (plug c
      (Frame.fill ⟨p, side, other⟩ (Frame.fill ⟨x, false, b⟩ a)))).Nodup := h
  obtain ⟨⟨-, hpo, hpb, hpa, hpc⟩, ⟨hxo, hxb, hxa, hxc⟩, -⟩ := nodup_fill_fill hnodup
  have hfixed : ∀ l : List N, p ∉ l → x ∉ l → ∀ n ∈ l, Equiv.swap p x n = n :=
    fun l hp hx n hn ↦ Equiv.swap_apply_of_ne_of_ne (ne_of_mem_of_not_mem hn hp)
      (ne_of_mem_of_not_mem hn hx)
  rw [map_plug (hfixed _ hpc hxc), map_fill (hfixed _ hpo hxo), BinaryTree.map,
    map_of_fixed (hfixed _ hpa hxa), map_of_fixed (hfixed _ hpb hxb), Equiv.swap_apply_left,
    Equiv.swap_apply_right]

theorem laid_replace {orig repl : N} {l r : BinaryTree N}
    (h : Laid H .root (plug c (.node orig l r)))
    (hnodup : (inorder (plug c (.node orig l r))).Nodup)
    (hrepl : repl ∉ inorder (plug c (.node orig l r)))
    (hhole : H'.load (hole c) = some repl) (hself : H'.held repl (hole c))
    (hleft : H'.load (.child repl false) = rootOf l) (hright : H'.load (.child repl true) = rootOf r)
    (hload : ∀ s, s ≠ hole c → s.owner ≠ some repl → s.owner ≠ some orig → H'.load s = H.load s)
    (hheldl : ∀ y, rootOf l = some y → H'.held y (.child repl false))
    (hheldr : ∀ y, rootOf r = some y → H'.held y (.child repl true))
    (hheld : ∀ y, y ≠ repl → y ≠ orig → rootOf l ≠ some y → rootOf r ≠ some y →
      ∀ s, H.held y s → H'.held y s) :
    Laid H' .root (plug c (.node repl l r)) := by
  obtain ⟨-, -, -, hl, hr⟩ := laid_plug.mp h
  obtain ⟨hnode, -, hapart⟩ := nodup_plug.mp hnodup
  rw [inorder_node, List.nodup_append', List.nodup_cons] at hnode
  obtain ⟨hndl, ⟨hor, hndr⟩, hlr⟩ := hnode
  have hol : orig ∉ inorder l := fun hmem ↦ hlr hmem List.mem_cons_self
  rw [mem_plug, inorder_node, List.mem_append, List.mem_cons, not_or, not_or, not_or] at hrepl
  obtain ⟨⟨hrl, -, hrr⟩, hrc⟩ := hrepl
  have hoc : orig ∉ around c := hapart orig (by simp)
  have hchild : ∀ y, y ≠ repl → y ≠ orig → y ∉ around c → ∀ i,
      H'.load (.child y i) = H.load (.child y i) := by
    intro y hyr hyo hyc i
    exact hload _ (child_ne_hole hyc) (fun heq ↦ hyr (Option.some.inj heq)) fun heq ↦
      hyo (Option.some.inj heq)
  refine h.plug hnodup (fun s hs hown ↦ ?_) (fun y hy ↦ ?_) ⟨hhole, hself, ?_, ?_⟩
  · exact hload s hs (fun heq ↦ hrc (hown repl heq)) fun heq ↦ hoc (hown orig heq)
  · exact hheld y (ne_of_mem_of_not_mem hy hrc) (ne_of_mem_of_not_mem hy hoc)
      (fun heq ↦ hapart y (by simp [rootOf_mem heq]) hy) fun heq ↦
        hapart y (by simp [rootOf_mem heq]) hy
  · refine hl.move hndl hleft hheldl (fun y hy ↦ hchild y (ne_of_mem_of_not_mem hy hrl)
      (ne_of_mem_of_not_mem hy hol) (hapart y (by simp [hy]))) fun y hy hroot ↦ ?_
    refine hheld y (ne_of_mem_of_not_mem hy hrl) (ne_of_mem_of_not_mem hy hol) hroot fun heq ↦ ?_
    exact hlr hy (List.mem_cons_of_mem orig (rootOf_mem heq))
  · refine hr.move hndr hright hheldr (fun y hy ↦ hchild y (ne_of_mem_of_not_mem hy hrr)
      (ne_of_mem_of_not_mem hy hor) (hapart y (by simp [hy]))) fun y hy hroot ↦ ?_
    refine hheld y (ne_of_mem_of_not_mem hy hrr) (ne_of_mem_of_not_mem hy hor) (fun heq ↦ ?_) hroot
    exact hlr (rootOf_mem heq) (List.mem_cons_of_mem orig hy)

end RadixBench.Foundation
