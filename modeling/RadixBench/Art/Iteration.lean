import RadixBench.Art.Refinement

namespace RadixBench.Art

open Foundation Children

variable {V σ : Type} {arch : Arch} {path w key q k : List (BitVec 8)} {v : Option V}
  {n x : ArtNode V} {children : Children (ArtNode V)} {c : BitVec 8} {fuel : ℕ}

def artEntries (fuel : ℕ) (t : ArtTree V) : List (Entry V) :=
  match t.root with
  | none => []
  | some n => entries fuel n

/-- The calls of a callback for a list of entries, up to the first result other than 0. -/
def visitAll (cb : ArtCallback σ V) : List (Entry V) → σ → ℤ × σ
  | [], data => (0, data)
  | (k, v) :: es, data =>
    if (cb data k v).1 ≠ 0 then cb data k v else visitAll cb es (cb data k v).2

theorem visitAll_append (cb : ArtCallback σ V) (es es' : List (Entry V)) (data : σ) :
    visitAll cb (es ++ es') data =
      if (visitAll cb es data).1 ≠ 0 then visitAll cb es data
      else visitAll cb es' (visitAll cb es data).2 := by
  induction es generalizing data with
  | nil => rfl
  | cons e es ih =>
    rw [List.cons_append, visitAll, visitAll]
    by_cases hstop : (cb data e.1 e.2).1 ≠ 0
    · rw [if_pos hstop, if_pos hstop, if_pos hstop]
    · rw [if_neg hstop, if_neg hstop]
      exact ih _

theorem visitAll_singleton (cb : ArtCallback σ V) (data : σ) :
    visitAll cb [(k, v)] data = cb data k v := by
  rw [visitAll, visitAll]
  split_ifs with hstop
  · rfl
  · rw [← not_not.mp hstop]

/-- The zero behind a key is less than every byte with which another key goes on. -/
theorem lt_of_terminated {k' : List (BitVec 8)} {d : BitVec 8} (hc : path ++ [c] <+: terminated k)
    (hd : path ++ [d] <+: terminated k') (hlt : c < d) : k < k' := by
  induction path generalizing k k' with
  | nil =>
    cases k' with
    | nil =>
      obtain rfl := (List.cons_prefix_cons.mp hd).1
      exact absurd hlt BitVec.not_lt_zero
    | cons b k' =>
      obtain rfl := (List.cons_prefix_cons.mp hd).1
      cases k with
      | nil => exact List.nil_lt_cons _ _
      | cons a k =>
        obtain rfl := (List.cons_prefix_cons.mp hc).1
        exact List.cons_lt_cons_iff.mpr (.inl hlt)
  | cons e path ih =>
    cases k with
    | nil => exact absurd (List.cons_prefix_cons.mp hc).2 (by simp)
    | cons a k =>
      cases k' with
      | nil => exact absurd (List.cons_prefix_cons.mp hd).2 (by simp)
      | cons b k' =>
        obtain ⟨rfl, hc'⟩ := List.cons_prefix_cons.mp hc
        obtain ⟨rfl, hd'⟩ := List.cons_prefix_cons.mp hd
        exact List.cons_lt_cons_iff.mpr (.inr ⟨rfl, ih hc' hd'⟩)

theorem pairwise_entries (h : Wf path n) (hshort : Shorter n (path.length + fuel)) :
    (entries fuel n).Pairwise fun e e' ↦
      ¬ Comparable (terminated e.1) (terminated e'.1) ∧ (Ordered n → e.1 < e'.1) := by
  induction h generalizing fuel with
  | leaf _ =>
    rw [entries]
    exact List.pairwise_singleton _ _
  | @inner path w children hvalid hfilled hchildren ih =>
    obtain ⟨f, rfl⟩ := Wf.exists_fuel (.inner w hvalid hfilled hchildren) hshort
    have hlonger : ∀ {d : BitVec 8 × ArtNode V} {e : Entry V}, d ∈ children.inorder →
        e ∈ entries f d.2 → path ++ w ++ [d.1] <+: terminated e.1 := fun hd he ↦
      prefix_of_child hchildren hd ((mem_entries (hchildren _ hd) (hshort.child hd w)).mp he)
    have hne : children.inorder.Pairwise fun d d' ↦ d.1 ≠ d'.1 := List.pairwise_map.mp hvalid.nodup
    rw [entries_inner, List.pairwise_flatMap]
    refine ⟨fun d hd ↦ (ih d hd (hshort.child hd w)).imp fun h ↦
      ⟨h.1, fun hn ↦ h.2 (hn.inner_inv.2 d hd)⟩, ?_⟩
    by_cases hn : Ordered (.inner (.of w) children)
    · have hlt : children.inorder.Pairwise fun d d' ↦ d.1 < d'.1 :=
        List.pairwise_map.mp hn.inner_inv.1
      refine (hne.and hlt).imp_of_mem fun {d d'} hd hd' hdd' e he e' he' ↦ ⟨?_, fun _ ↦ ?_⟩
      · exact Parts.not_comparable ⟨_, _, hdd'.1, hlonger hd he, hlonger hd' he'⟩
      · exact lt_of_terminated (hlonger hd he) (hlonger hd' he') hdd'.2
    · refine hne.imp_of_mem fun {d d'} hd hd' hdd' e he e' he' ↦ ⟨?_, fun h ↦ absurd h hn⟩
      exact Parts.not_comparable ⟨_, _, hdd', hlonger hd he, hlonger hd' he'⟩

theorem iterChildren_eq {C : Type} {visit : C → σ → Exec (ℤ × σ)} {cb : ArtCallback σ V}
    {listed : C → List (Entry V)} (slots : List (BitVec 8 × C))
    (h : ∀ e ∈ slots, ∀ data, visit e.2 data = .ok (visitAll cb (listed e.2) data)) (data : σ) :
    iterChildren visit slots data =
      .ok (visitAll cb (slots.flatMap fun e ↦ listed e.2) data) := by
  induction slots generalizing data with
  | nil => rfl
  | cons e slots ih =>
    rw [iterChildren, h e List.mem_cons_self, ok_bind, List.flatMap_cons, visitAll_append]
    by_cases hstop : (visitAll cb (listed e.2) data).1 ≠ 0
    · rw [if_pos hstop]
      exact if_pos hstop
    · rw [if_neg hstop]
      exact (if_neg hstop).trans (ih (fun d hd ↦ h d (List.mem_cons_of_mem e hd)) _)

theorem recursiveIter_eq (cb : ArtCallback σ V) (h : Wf path n)
    (hshort : Shorter n (path.length + fuel)) (data : σ) :
    recursiveIter cb fuel n data = .ok (visitAll cb (entries fuel n) data) := by
  induction h generalizing fuel data with
  | leaf _ => rw [recursiveIter, entries, visitAll_singleton]
  | @inner path w children hvalid hfilled hchildren ih =>
    obtain ⟨f, rfl⟩ := Wf.exists_fuel (.inner w hvalid hfilled hchildren) hshort
    rw [recursiveIter, entries_inner]
    exact iterChildren_eq _ (fun e he ↦ ih e he (hshort.child he w)) data

theorem maximum_eq (h : Wf path n) (hshort : Shorter n (path.length + fuel)) :
    ∃ l es, maximum fuel (some n) = .ok (some l) ∧ entries fuel n = es ++ [(l.key, l.value)] := by
  induction h generalizing fuel with
  | @leaf path l _ => exact ⟨l, [], by rw [maximum], by rw [entries, List.nil_append]⟩
  | @inner path w children hvalid hfilled hchildren ih =>
    obtain ⟨f, rfl⟩ := Wf.exists_fuel (.inner w hvalid hfilled hchildren) hshort
    obtain ⟨e, he⟩ := hfilled.exists_mem
    obtain ⟨r, ⟨c, x⟩, hr⟩ :=
      (List.eq_nil_or_concat' children.inorder).resolve_left (List.ne_nil_of_mem he)
    have hx : (c, x) ∈ children.inorder := hr ▸ List.mem_append_right r List.mem_cons_self
    obtain ⟨l, es, hmax, hes⟩ := ih (c, x) hx (hshort.child hx w)
    refine ⟨l, (r.flatMap fun e ↦ entries f e.2) ++ es, ?_, ?_⟩
    · rw [maximum, lastChild_eq hvalid hr, ok_bind]
      exact hmax
    · rw [entries_inner, hr, List.flatMap_append, List.flatMap_singleton, hes, List.append_assoc]

section Prefix

variable {es : List (Entry V)} {run : ArtCallback σ V → σ → Exec (ℤ × σ)}

theorem leafPrefixMatches_iff {l : ArtLeaf V} : leafPrefixMatches l key = true ↔ key <+: l.key := by
  rw [leafPrefixMatches, Bool.and_eq_true, decide_eq_true_iff, beq_iff_eq, List.prefix_iff_eq_take]
  refine ⟨fun h ↦ h.2.symm, fun h ↦ ⟨?_, h.symm⟩⟩
  rw [h]
  exact (List.take_prefix _ _).length_le

/-- The three ways in which `art_iter_prefix` can end: it visits the entries with the prefix; there
are none, and it visits those with another prefix of the same length; or there are none, and it
reads behind the end of the prefix. -/
inductive PrefixOutcome (path key : List (BitVec 8)) (es : List (Entry V))
    (run : ArtCallback σ V → σ → Exec (ℤ × σ)) : Prop
  | exact : (∀ cb data, run cb data = .ok (visitAll cb (es.filter fun e ↦ key <+: e.1) data)) →
      PrefixOutcome path key es run
  | other {q : List (BitVec 8)} : path <+: q → q.length = key.length →
      (es.filter fun e ↦ key <+: e.1) = [] →
      (∀ cb data, run cb data = .ok (visitAll cb (es.filter fun e ↦ q <+: e.1) data)) →
      PrefixOutcome path key es run
  | overrun : (es.filter fun e ↦ key <+: e.1) = [] →
      (∀ cb data, run cb data = .error .indexOutOfRange) → PrefixOutcome path key es run

theorem PrefixOutcome.of_none (hnone : ∀ e ∈ es, ¬ key <+: e.1)
    (h : ∀ cb data, run cb data = .ok (0, data)) : PrefixOutcome path key es run := by
  have hnil : (es.filter fun e ↦ key <+: e.1) = [] :=
    List.filter_eq_nil_iff.mpr fun e he ↦ by simpa using hnone e he
  refine .exact fun cb data ↦ ?_
  rw [h, hnil, visitAll]

theorem PrefixOutcome.of_all (hq : ∀ e ∈ es, q <+: e.1) (hlen : q.length = key.length)
    (hpath : path <+: q) (h : ∀ cb data, run cb data = .ok (visitAll cb es data)) :
    PrefixOutcome path key es run := by
  have hall : (es.filter fun e ↦ q <+: e.1) = es :=
    List.filter_eq_self.mpr fun e he ↦ decide_eq_true (hq e he)
  by_cases heq : q = key
  · subst heq
    exact .exact fun cb data ↦ by rw [h, hall]
  · refine .other hpath hlen (List.filter_eq_nil_iff.mpr fun e he ↦ ?_) fun cb data ↦ by rw [h, hall]
    rw [decide_eq_true_iff]
    exact fun hkey ↦ heq ((List.prefix_of_prefix_length_le (hq e he) hkey hlen.le).eq_of_length hlen)

theorem not_prefix_of_byte {d : BitVec 8} (hk : path ++ [d] <+: terminated k)
    (hq : readByte q path.length = .ok c) (hne : d ≠ c) : ¬ q <+: k := by
  intro hpre
  replace hpre := hpre.trans (prefix_terminated k)
  refine hne (Except.ok.inj ((readByte_snoc hk rfl).symm.trans ?_))
  rw [← hq, readByte, readByte]
  have hlt : path.length < q.length := by
    by_contra hge
    rw [readByte_end (Nat.not_lt.mp hge)] at hq
    cases hq
  rw [List.prefix_iff_getElem?.mp hpre _ hlt, List.getElem?_eq_getElem hlt]

section Inner

variable (hvalid : children.Valid) (hfilled : children.Filled)
  (hchildren : ∀ e ∈ children.inorder, Wf (path ++ w ++ [e.1]) e.2)
  (hshort : Shorter (.inner (.of w) children) (path.length + (fuel + 1)))

include hvalid hfilled hchildren hshort in
theorem longer_of_mem {e : Entry V} (he : e ∈ entries (fuel + 1) (.inner (.of w) children)) :
    path ++ w <+: e.1 :=
  path_prefix_of_has hchildren
    ((mem_entries (.inner w hvalid hfilled hchildren) hshort).mp he)

include hchildren hshort in
theorem not_prefix_of_child {e : BitVec 8 × ArtNode V} (he : e ∈ children.inorder)
    (hq : readByte q (path ++ w).length = .ok c) (hne : e.1 ≠ c) {d : Entry V}
    (hd : d ∈ entries fuel e.2) : ¬ q <+: d.1 :=
  not_prefix_of_byte (prefix_of_child hchildren he
    ((mem_entries (hchildren e he) (hshort.child he w)).mp hd)) hq hne

include hvalid hchildren hshort in
theorem filter_entries {s : Slot} {l r : List (BitVec 8 × ArtNode V)}
    (hfound : children.Found c s l x r) (hq : readByte q (path ++ w).length = .ok c) :
    ((entries (fuel + 1) (.inner (.of w) children)).filter fun e ↦ q <+: e.1) =
      (entries fuel x).filter fun e ↦ q <+: e.1 := by
  have hnil : ∀ side : List (BitVec 8 × ArtNode V), (∀ e ∈ side, e ∈ l ∨ e ∈ r) →
      ((side.flatMap fun e ↦ entries fuel e.2).filter fun e ↦ q <+: e.1) = [] := by
    intro side hside
    refine List.filter_eq_nil_iff.mpr fun d hd ↦ ?_
    obtain ⟨e, he, hd⟩ := List.mem_flatMap.mp hd
    rw [decide_eq_true_iff]
    exact not_prefix_of_child hchildren hshort ((hfound.mem_iff e).mpr (.inl (hside e he))) hq
      (hfound.fst_ne hvalid (hside e he)) hd
  rw [entries_inner, hfound.inorder_eq, List.flatMap_append, List.flatMap_cons, List.filter_append,
    List.filter_append, hnil l fun e he ↦ .inl he, hnil r fun e he ↦ .inr he, List.nil_append,
    List.append_nil]

include hchildren hshort in
theorem none_of_missing (hfind : ∀ x, (c, x) ∉ children.inorder)
    (hq : readByte q (path ++ w).length = .ok c) :
    ∀ e ∈ entries (fuel + 1) (.inner (.of w) children), ¬ q <+: e.1 := by
  intro d hd
  rw [entries_inner] at hd
  obtain ⟨⟨b, x⟩, he, hd⟩ := List.mem_flatMap.mp hd
  refine not_prefix_of_child hchildren hshort he hq ?_ hd
  rintro rfl
  exact hfind x he

theorem agreement_of_longer (hk : path ++ w <+: k) (hpre : key <+: k) :
    agreement w (key.drop path.length) = w.length ∨
      agreement w (key.drop path.length) = (key.drop path.length).length := by
  obtain ⟨s, rfl⟩ := hk
  have hdrop : key.drop path.length <+: w ++ s := by
    have h := hpre.drop path.length
    rwa [List.append_assoc, List.drop_left] at h
  rcases comparable_of_common (List.prefix_append w s) hdrop with h | h
  · exact .inl (agreement_prefix_left h)
  · exact .inr (agreement_prefix_right h)

include hvalid hfilled hchildren hshort in
theorem iterBelow_outcome
    (hdiff : agreement w (key.drop path.length) ≠ (key.drop path.length).length)
    (hpath : path.length ≤ key.length)
    (ih : ∀ e ∈ children.inorder, (path ++ w ++ [e.1]).length ≤ key.length →
      PrefixOutcome (path ++ w ++ [e.1]) key (entries fuel e.2)
        fun (cb : ArtCallback σ V) data ↦
          artIterPrefixFrom cb key fuel (some e.2) (path ++ w ++ [e.1]).length data) :
    PrefixOutcome path key (entries (fuel + 1) (.inner (.of w) children))
      fun (cb : ArtCallback σ V) data ↦ readByte key (path ++ w).length >>= fun c ↦
        artIterPrefixFrom cb key fuel ((children.findChild c).bind children.child)
          ((path ++ w).length + 1) data := by
  rcases Nat.lt_or_ge (path ++ w).length key.length with hlt | hge
  swap
  · refine .overrun (List.filter_eq_nil_iff.mpr fun e he ↦ ?_) fun cb data ↦ ?_
    · rw [decide_eq_true_iff]
      intro hpre
      have hle := agreement_le_right w (key.drop path.length)
      have hlonger := longer_of_mem hvalid hfilled hchildren hshort he
      rcases agreement_of_longer hlonger hpre with h | h
      · rw [List.length_append] at hge
        rw [h, List.length_drop] at hdiff hle
        omega
      · exact hdiff h
    · rw [readByte_end hge]
      rfl
  obtain ⟨c, hread⟩ : ∃ c, readByte key (path ++ w).length = .ok c := by
    rw [readByte, List.getElem?_eq_getElem hlt]
    exact ⟨_, rfl⟩
  cases hfind : children.findChild c with
  | none =>
    refine .of_none (none_of_missing hchildren hshort (findChild_none hvalid hfind) hread)
      fun cb data ↦ ?_
    rw [hread, ok_bind, hfind, Option.bind_none, artIterPrefixFrom]
  | some s =>
    obtain ⟨l, x, r, hfound⟩ := findChild_some hvalid hfind
    have hstep : (path ++ w).length + 1 = (path ++ w ++ [c]).length := by
      simp only [List.length_append, List.length_singleton]
    have hfilter := fun {q} hq ↦ filter_entries (q := q) hvalid hchildren hshort hfound hq
    have hrun : ∀ (cb : ArtCallback σ V) data, (readByte key (path ++ w).length >>= fun c ↦
        artIterPrefixFrom cb key fuel ((children.findChild c).bind children.child)
          ((path ++ w).length + 1) data) =
        artIterPrefixFrom cb key fuel (some x) (path ++ w ++ [c]).length data := fun cb data ↦ by
      rw [hread, ok_bind, hfind, Option.bind_some, hfound.child_eq, hstep]
    cases ih (c, x) hfound.mem (hstep ▸ hlt) with
    | exact h =>
      refine .exact fun cb data ↦ ?_
      rw [hrun, hfilter hread]
      exact h cb data
    | other hq hlen hnil h =>
      refine .other (((List.prefix_append _ _).trans (List.prefix_append _ _)).trans hq) hlen
        ((hfilter hread).trans hnil) fun cb data ↦ ?_
      rw [hrun, hfilter (readByte_snoc hq rfl)]
      exact h cb data
    | overrun hnil h => exact .overrun ((hfilter hread).trans hnil) fun cb data ↦
        (hrun cb data).trans (h cb data)

include hvalid hfilled hchildren hshort in
theorem iterEnd_outcome (hend : path.length = key.length) :
    PrefixOutcome path key (entries (fuel + 1) (.inner (.of w) children))
      fun (cb : ArtCallback σ V) data ↦
        artIterPrefixFrom cb key (fuel + 1) (some (.inner (.of w) children)) path.length data := by
  have hn : Wf path (.inner (.of w) children) := .inner w hvalid hfilled hchildren
  have hlonger := fun e he ↦ longer_of_mem (e := e) hvalid hfilled hchildren hshort he
  obtain ⟨l, es, hmin, hes⟩ := minimum_eq hn hshort
  by_cases hmatch : leafPrefixMatches l key = true
  · refine .of_all (fun e he ↦ (List.prefix_append _ _).trans (hlonger e he)) hend
      List.prefix_rfl fun cb data ↦ ?_
    rw [artIterPrefixFrom, if_pos hend, hmin, ok_bind, deref_some, ok_bind, if_pos hmatch,
      recursiveIter_eq cb hn hshort]
  · refine .of_none (fun e he hpre ↦ hmatch (leafPrefixMatches_iff.mpr ?_)) fun cb data ↦ ?_
    · have hpath := (List.prefix_append path w).trans (hlonger e he)
      obtain rfl := (List.prefix_of_prefix_length_le hpath hpre hend.le).eq_of_length hend
      exact (List.prefix_append path w).trans
        (hlonger (l.key, l.value) (hes ▸ List.mem_cons_self))
    · rw [artIterPrefixFrom, if_pos hend, hmin, ok_bind, deref_some, ok_bind, if_neg hmatch]
      rfl

end Inner

theorem iterLeaf_outcome (l : ArtLeaf V) (fuel depth : ℕ) :
    PrefixOutcome path key [(l.key, l.value)] fun (cb : ArtCallback σ V) data ↦
      artIterPrefixFrom cb key fuel (some (.leaf l)) depth data := by
  by_cases hmatch : leafPrefixMatches l key = true
  · refine .exact fun cb data ↦ ?_
    rw [artIterPrefixFrom, if_pos hmatch, List.filter_cons_of_pos, List.filter_nil,
      visitAll_singleton]
    exact decide_eq_true (leafPrefixMatches_iff.mp hmatch)
  · refine .of_none (fun e he ↦ ?_) fun cb data ↦ ?_
    · rw [List.mem_singleton.mp he]
      exact fun h ↦ hmatch (leafPrefixMatches_iff.mpr h)
    · rw [artIterPrefixFrom, if_neg hmatch]

theorem artIterPrefixFrom_outcome (hn : Wf path n) (hpath : path.length ≤ key.length)
    (hshort : Shorter n (path.length + fuel)) :
    PrefixOutcome path key (entries fuel n) fun (cb : ArtCallback σ V) data ↦
      artIterPrefixFrom cb key fuel (some n) path.length data := by
  induction hn generalizing fuel with
  | @leaf path l hl =>
    rw [entries]
    exact iterLeaf_outcome l fuel path.length
  | @inner path w children hvalid hfilled hchildren ih =>
    have hn : Wf path (.inner (.of w) children) := .inner w hvalid hfilled hchildren
    obtain ⟨f, rfl⟩ := hn.exists_fuel hshort
    rcases hpath.eq_or_lt with hend | hlt
    · exact iterEnd_outcome hvalid hfilled hchildren hshort hend
    have hlonger := fun e he ↦ longer_of_mem (e := e) hvalid hfilled hchildren hshort he
    have hrest : (key.drop path.length).length = key.length - path.length := List.length_drop
    have hdeeper := fun hdiff ↦ iterBelow_outcome (σ := σ) hvalid hfilled hchildren hshort
      hdiff hpath fun e he hlen ↦ ih e he hlen (hshort.child he w)
    have hdepth : path.length + (ArtHeader.of w).partialLen = (path ++ w).length :=
      List.length_append.symm
    obtain ⟨m, hm, hmin⟩ := prefixMismatch_spec hn
      (fun k v hk ↦ path_prefix_of_has hchildren hk) hshort hpath
    replace hmin : min m (ArtHeader.of w).partialLen = agreement w (key.drop path.length) := hmin
    by_cases hzero : (ArtHeader.of w).partialLen = 0
    · have hw : w = [] := List.length_eq_zero_iff.mp hzero
      have hdiff : agreement w (key.drop path.length) ≠ (key.drop path.length).length := by
        rw [hw, agreement_nil_left]
        omega
      simp only [artIterPrefixFrom, if_neg hlt.ne, if_neg (not_not.mpr hzero), hdepth]
      exact hdeeper hdiff
    by_cases hnone : agreement w (key.drop path.length) = 0
    · refine .of_none (fun e he hpre ↦ ?_) fun cb data ↦ ?_
      · rw [partialLen_of] at hzero
        rcases agreement_of_longer (hlonger e he) hpre with h | h
        · omega
        · omega
      · rw [artIterPrefixFrom, if_neg hlt.ne, if_pos hzero, hm, ok_bind]
        exact if_pos (hmin.trans hnone)
    by_cases hfull : path.length + agreement w (key.drop path.length) = key.length
    · have hpre : key.drop path.length <+: w := by
        rw [← agreement_eq_left_iff, agreement_comm]
        omega
      refine .of_all (q := path ++ key.drop path.length) (fun e he ↦ ?_) ?_
        (List.prefix_append _ _) fun cb data ↦ ?_
      · exact ((List.prefix_append_right_inj path).mpr hpre).trans (hlonger e he)
      · rw [List.length_append]
        omega
      · rw [artIterPrefixFrom, if_neg hlt.ne, if_pos hzero, hm, ok_bind,
          recursiveIter_eq cb hn hshort]
        exact (if_neg (hmin ▸ hnone)).trans (if_pos (hmin.symm ▸ hfull))
    · simp only [artIterPrefixFrom, if_neg hlt.ne, if_pos hzero, hm, ok_bind, hmin, if_neg hnone,
        if_neg hfull, hdepth]
      exact hdeeper fun h ↦ hfull (by omega)

end Prefix

section Runs

variable {s : ArtState V}

theorem shorter_root (h : Holds (some n) s.map) (hfuel : ∀ k, s.map k ≠ none → k.length < fuel) :
    Shorter n (([] : List (BitVec 8)).length + fuel) := fun k v hk ↦ by
  rw [List.length_nil, Nat.zero_add]
  exact hfuel k ((stored_iff h.2).mpr ⟨v, hk⟩)

theorem artEntries_spec (arch : Arch) (hs : Sound s) (hfuel : ∀ k, s.map k ≠ none → k.length < fuel) :
    (∀ k v, (k, v) ∈ artEntries fuel s.tree ↔ s.map k = some v) ∧
      ((artEntries fuel s.tree).map Prod.fst).Nodup ∧
      (InOrder arch s.tree.root s.map →
        ((artEntries fuel s.tree).map Prod.fst).Pairwise (· < ·)) := by
  have hholds := hs.holds
  rw [artEntries]
  cases hroot : s.tree.root with
  | none =>
    rw [hroot] at hholds
    have hnone : ∀ k, s.map k = none := hholds
    exact ⟨fun k v ↦ by simp [hnone], List.nodup_nil, fun _ ↦ List.Pairwise.nil⟩
  | some n =>
    rw [hroot] at hholds
    have hshort := shorter_root hholds hfuel
    have hpairs := pairwise_entries hholds.1 hshort
    refine ⟨fun k v ↦ (mem_entries hholds.1 hshort).trans (hholds.2 k v), ?_, fun hn ↦ ?_⟩
    · refine List.pairwise_map.mpr (hpairs.imp fun h heq ↦ h.1 ?_)
      rw [heq]
      exact comparable_self _
    · exact List.pairwise_map.mpr (hpairs.imp fun h ↦ h.2 (hn.2 n rfl))

theorem artIter_eq (hs : Sound s) (hfuel : ∀ k, s.map k ≠ none → k.length < fuel)
    (cb : ArtCallback σ V) (data : σ) :
    artIter fuel s.tree cb data = .ok (visitAll cb (artEntries fuel s.tree) data) := by
  have hholds := hs.holds
  rw [artIter, artEntries]
  cases hroot : s.tree.root with
  | none => rfl
  | some n =>
    rw [hroot] at hholds
    exact recursiveIter_eq cb hholds.1 (shorter_root hholds hfuel) data

theorem artMinimum_eq (hs : Sound s) (hfuel : ∀ k, s.map k ≠ none → k.length < fuel) :
    artMinimum fuel s.tree =
      .ok ((artEntries fuel s.tree).head?.map fun e ↦ makeLeaf e.1 e.2) := by
  have hholds := hs.holds
  rw [artMinimum, artEntries]
  cases hroot : s.tree.root with
  | none => rw [minimum, List.head?_nil, Option.map_none]
  | some n =>
    rw [hroot] at hholds
    obtain ⟨l, es, hmin, hes⟩ := minimum_eq hholds.1 (shorter_root hholds hfuel)
    dsimp only
    rw [hmin, hes]
    rfl

theorem artMaximum_eq (hs : Sound s) (hfuel : ∀ k, s.map k ≠ none → k.length < fuel) :
    artMaximum fuel s.tree =
      .ok ((artEntries fuel s.tree).getLast?.map fun e ↦ makeLeaf e.1 e.2) := by
  have hholds := hs.holds
  rw [artMaximum, artEntries]
  cases hroot : s.tree.root with
  | none => rw [maximum, List.getLast?_nil, Option.map_none]
  | some n =>
    rw [hroot] at hholds
    obtain ⟨l, es, hmax, hes⟩ := maximum_eq hholds.1 (shorter_root hholds hfuel)
    dsimp only
    rw [hmax, hes, List.getLast?_concat]
    rfl

/-- `art_iter` calls back once for each stored key, with its value, until a call gives something
other than 0. `art_minimum` and `art_maximum` give the first and the last of these keys. -/
theorem artIter_visits (h : ArtReachable arch s)
    (hfuel : ∀ k, s.map k ≠ none → k.length < fuel) :
    (∀ k v, (k, v) ∈ artEntries fuel s.tree ↔ s.map k = some v) ∧
      ((artEntries fuel s.tree).map Prod.fst).Nodup ∧
      (∀ (cb : ArtCallback σ V) data,
        artIter fuel s.tree cb data = .ok (visitAll cb (artEntries fuel s.tree) data)) ∧
      artMinimum fuel s.tree =
        .ok ((artEntries fuel s.tree).head?.map fun e ↦ makeLeaf e.1 e.2) ∧
      artMaximum fuel s.tree =
        .ok ((artEntries fuel s.tree).getLast?.map fun e ↦ makeLeaf e.1 e.2) := by
  have hs := h.sound
  obtain ⟨hmem, hnodup, -⟩ := artEntries_spec arch hs hfuel
  exact ⟨hmem, hnodup, artIter_eq hs hfuel, artMinimum_eq hs hfuel, artMaximum_eq hs hfuel⟩

def countCall : ArtCallback ℕ Unit := fun visited _ _ ↦ (0, visited + 1)

theorem artIter_visits_pair : ([1, 2], some ()) ∈ artEntries 3 (pair .x86).tree ∧
    ((artEntries 3 (pair .x86).tree).map Prod.fst).Nodup ∧
    artIter 3 (pair .x86).tree countCall 0 =
      .ok (visitAll countCall (artEntries 3 (pair .x86).tree) 0) ∧
    artMinimum 3 (pair .x86).tree =
      .ok ((artEntries 3 (pair .x86).tree).head?.map fun e ↦ makeLeaf e.1 e.2) := by
  obtain ⟨hmem, hnodup, hiter, hmin, -⟩ :=
    artIter_visits (σ := ℕ) (pair_reachable .x86).reachable (pair_shorter .x86)
  exact ⟨(hmem _ _).mpr pair_stored, hnodup, hiter countCall 0, hmin⟩

theorem ArtReachable.ordered (h : ArtReachable .portable s) : OrderedReachable .portable s :=
  h.mono fun s op hl ↦ ⟨hl, by cases op <;> simp [ArtOp.Orders, Arch.Orders]⟩

/-- On x86 a fifth key whose first byte is above 127 comes before the other ones. -/
example : (do
    let t ← fillArt .x86 2 artTreeInit [[1], [2], [3], [4], [200]] (some ())
    let l ← artMinimum 2 t
    return l.map ArtLeaf.key) = .ok (some [200]) := by decide +kernel

/-- `art_iter_prefix` visits the stored keys with some prefix `q` that is as long as the given one.
That is the given one when a stored key has it. When none has, it can be another one, or a byte
behind the end of the prefix is read. -/
theorem artIterPrefix_visits (h : ArtReachable arch s)
    (hfuel : ∀ k, s.map k ≠ none → k.length < fuel) (key : List (BitVec 8)) :
    (∃ q, q.length = key.length ∧ ((∃ k, s.map k ≠ none ∧ key <+: k) → q = key) ∧
      ∀ (cb : ArtCallback σ V) data, artIterPrefix fuel s.tree key cb data =
        .ok (visitAll cb ((artEntries fuel s.tree).filter fun e ↦ q <+: e.1) data)) ∨
    (¬ ∃ k, s.map k ≠ none ∧ key <+: k) ∧
      ∀ (cb : ArtCallback σ V) data,
        artIterPrefix fuel s.tree key cb data = .error .indexOutOfRange := by
  have hs := h.sound
  obtain ⟨hmem, -⟩ := artEntries_spec arch hs hfuel
  have hnone : ((artEntries fuel s.tree).filter fun e ↦ key <+: e.1) = [] →
      ¬ ∃ k, s.map k ≠ none ∧ key <+: k := by
    rintro hnil ⟨k, hk, hpre⟩
    obtain ⟨v, hv⟩ := Option.ne_none_iff_exists'.mp hk
    exact List.filter_eq_nil_iff.mp hnil _ ((hmem k v).mpr hv) (decide_eq_true hpre)
  have hrun : PrefixOutcome [] key (artEntries fuel s.tree) fun (cb : ArtCallback σ V) data ↦
      artIterPrefix fuel s.tree key cb data := by
    have hholds := hs.holds
    simp only [artIterPrefix, artEntries]
    cases hroot : s.tree.root with
    | none =>
      refine .of_none (fun e he ↦ absurd he List.not_mem_nil) fun cb data ↦ ?_
      rw [artIterPrefixFrom]
    | some n =>
      rw [hroot] at hholds
      exact artIterPrefixFrom_outcome hholds.1 (Nat.zero_le _) (shorter_root hholds hfuel)
  cases hrun with
  | exact h => exact .inl ⟨key, rfl, fun _ ↦ rfl, h⟩
  | other _ hlen hnil h => exact .inl ⟨_, hlen, fun hk ↦ absurd hk (hnone hnil), h⟩
  | overrun hnil h => exact .inr ⟨hnone hnil, h⟩

theorem artIterPrefix_visits_pair :
    artIterPrefix 3 (pair .x86).tree [1] countCall 0 = .ok (visitAll countCall
      ((artEntries 3 (pair .x86).tree).filter fun e ↦ [1] <+: e.1) 0) := by
  have hk : ∃ k, (pair .x86).map k ≠ none ∧ [1] <+: k :=
    ⟨[1, 2], by rw [pair_stored]; exact Option.some_ne_none _, by decide⟩
  rcases artIterPrefix_visits (pair_reachable .x86).reachable (pair_shorter .x86) [1] with
    ⟨q, -, hq, hrun⟩ | ⟨hnone, -⟩
  · rw [hrun, hq hk]
  · exact absurd hk hnone

/-- Two keys are visited although neither has the prefix. -/
example : (do
    let t ← fillArt .x86 6 artTreeInit [[1, 2, 3, 4, 5], [1, 2, 3, 4, 6], [1, 2, 9, 9, 9]] (some ())
    artIterPrefix 6 t [1, 7, 3, 4] countCall 0) = .ok (0, 2) := by
  decide +kernel

end Runs

end RadixBench.Art
