import RadixBench.Art.Refinement

namespace RadixBench.Art

open Foundation Function Children

variable {V : Type} {path path' w w' key k : List (BitVec 8)} {v : Option V} {n n' x y : ArtNode V}
  {h : ArtHeader} {children children' : Children (ArtNode V)} {c : BitVec 8} {fuel depth : ℕ}

/-- Two trees that differ at most in the layouts of their nodes and the order of the children. -/
inductive Alike : ArtNode V → ArtNode V → Prop
  | leaf (l : ArtLeaf V) : Alike (.leaf l) (.leaf l)
  | inner {n : ArtHeader} {children children' : Children (ArtNode V)} :
      (∀ c, (∃ x, (c, x) ∈ children.inorder) ↔ ∃ x, (c, x) ∈ children'.inorder) →
      (∀ c x y, (c, x) ∈ children.inorder → (c, y) ∈ children'.inorder → Alike x y) →
      Alike (.inner n children) (.inner n children')

section Canonical

variable (hvalid : children.Valid) (hfilled : children.Filled)
  (hchildren : ∀ e ∈ children.inorder, Wf (path ++ w ++ [e.1]) e.2)

include hvalid hfilled hchildren

theorem exists_not_has_leaf (l : ArtLeaf V) :
    ∃ k v, Has (.inner (.of w) children) k v ∧ ¬ Has (.leaf l) k v := by
  obtain ⟨k, v, k', v', hk, hk', hparts⟩ := exists_parts hvalid hfilled hchildren
  by_cases hl : Has (.leaf l) k v
  · refine ⟨k', v', hk', fun hl' ↦ hparts.ne (congrArg terminated ?_)⟩
    exact (has_leaf.mp hl).1.trans (has_leaf.mp hl').1.symm
  · exact ⟨k, v, hk, hl⟩

theorem length_path_le
    (hchildren' : ∀ e ∈ children'.inorder, Wf (path ++ w' ++ [e.1]) e.2)
    (hsame : ∀ k v, Has (.inner (.of w) children) k v → Has (.inner (.of w') children') k v) :
    w'.length ≤ w.length := by
  obtain ⟨k, v, k', v', hk, hk', hparts⟩ := exists_parts hvalid hfilled hchildren
  have hpre : ∀ {k v}, Has (.inner (.of w) children) k v → path ++ w' <+: terminated k :=
    fun {k v} hk ↦ (path_prefix_of_has hchildren' (hsame k v hk)).trans (prefix_terminated k)
  have hlen := hparts.length_le_of_common (hpre hk) (hpre hk')
  rw [List.length_append, List.length_append] at hlen
  omega

omit hvalid hfilled in
theorem exists_child_of_same
    (hchildren' : ∀ e ∈ children'.inorder, Wf (path ++ w ++ [e.1]) e.2)
    (hsame : ∀ k v, Has (.inner (.of w) children) k v → Has (.inner (.of w) children') k v)
    (hx : (c, x) ∈ children.inorder) : ∃ y, (c, y) ∈ children'.inorder := by
  obtain ⟨k, v, hk⟩ := (hchildren _ hx).exists_has
  obtain ⟨⟨d, y⟩, hy, hk'⟩ := has_inner.mp (hsame k v (.inner hx hk))
  obtain rfl : c = d :=
    snoc_unique (prefix_of_child hchildren hx hk) (prefix_of_child hchildren' hy hk')
  exact ⟨y, hy⟩

end Canonical

/-- The entries below a node determine its shape. -/
theorem Wf.alike (hn : Wf path n) (hn' : Wf path n') (hsame : ∀ k v, Has n k v ↔ Has n' k v) :
    Alike n n' := by
  induction hn generalizing n' with
  | @leaf path l _ =>
    cases hn' with
    | @leaf _ l' _ =>
      obtain ⟨hkey, hvalue⟩ := has_leaf.mp ((hsame _ _).mp (.leaf l))
      obtain rfl : l = l' := by
        cases l
        cases l'
        cases hkey
        cases hvalue
        rfl
      exact .leaf l
    | inner w' hvalid' hfilled' hchildren' =>
      obtain ⟨k, v, hk, hnot⟩ := exists_not_has_leaf hvalid' hfilled' hchildren' l
      exact absurd ((hsame k v).mpr hk) hnot
  | @inner path w children hvalid hfilled hchildren ih =>
    cases hn' with
    | @leaf _ l _ =>
      obtain ⟨k, v, hk, hnot⟩ := exists_not_has_leaf hvalid hfilled hchildren l
      exact absurd ((hsame k v).mp hk) hnot
    | @inner _ w' children' hvalid' hfilled' hchildren' =>
      have hlen : w.length = w'.length := le_antisymm
        (length_path_le hvalid' hfilled' hchildren' hchildren fun k v ↦ (hsame k v).mpr)
        (length_path_le hvalid hfilled hchildren hchildren' fun k v ↦ (hsame k v).mp)
      obtain rfl : w = w' := by
        obtain ⟨e, he⟩ := hfilled.exists_mem
        obtain ⟨k, v, hk⟩ := (hchildren e he).exists_has
        obtain ⟨e', he', hk'⟩ := has_inner.mp ((hsame k v).mp (.inner he hk))
        have hpre := path_prefix_of_has hchildren (.inner he hk)
        have hpre' := path_prefix_of_has hchildren' (.inner he' hk')
        have heq := (List.prefix_of_prefix_length_le hpre hpre' (by simp [hlen])).eq_of_length
          (by simp [hlen])
        exact List.append_cancel_left heq
      refine .inner (fun c ↦ ⟨?_, ?_⟩) fun c x y hx hy ↦ ?_
      · rintro ⟨x, hx⟩
        exact exists_child_of_same hchildren hchildren' (fun k v ↦ (hsame k v).mp) hx
      · rintro ⟨y, hy⟩
        exact exists_child_of_same hchildren' hchildren (fun k v ↦ (hsame k v).mpr) hy
      · refine ih (c, x) hx (hchildren' (c, y) hy) fun k v ↦ ⟨fun hk ↦ ?_, fun hk ↦ ?_⟩
        · have hpre := prefix_of_child hchildren hx hk
          exact (has_child hvalid' hchildren' hy hpre).mp ((hsame k v).mp (.inner hx hk))
        · have hpre := prefix_of_child hchildren' hy hk
          exact (has_child hvalid hchildren hx hpre).mp ((hsame k v).mpr (.inner hy hk))

section Descents

theorem lookup_alike (hvalid : children.Valid) (hvalid' : children'.Valid)
    (hbytes : ∀ c, (∃ x, (c, x) ∈ children.inorder) ↔ ∃ x, (c, x) ∈ children'.inorder)
    (halike : ∀ c x y, (c, x) ∈ children.inorder → (c, y) ∈ children'.inorder → Alike x y)
    (c : BitVec 8) :
    (children.findChild c = none ∧ children'.findChild c = none) ∨
    ∃ s s' l r l' r' x y, children.findChild c = some s ∧ children'.findChild c = some s' ∧
      children.Found c s l x r ∧ children'.Found c s' l' y r' ∧ Alike x y := by
  cases hfind : children.findChild c with
  | none =>
    cases hfind' : children'.findChild c with
    | none => exact .inl ⟨rfl, rfl⟩
    | some s' =>
      obtain ⟨l', y, r', hfound'⟩ := findChild_some hvalid' hfind'
      obtain ⟨x, hx⟩ := (hbytes c).mpr ⟨y, hfound'.mem⟩
      exact absurd hx (findChild_none hvalid hfind x)
  | some s =>
    obtain ⟨l, x, r, hfound⟩ := findChild_some hvalid hfind
    cases hfind' : children'.findChild c with
    | none =>
      obtain ⟨y, hy⟩ := (hbytes c).mp ⟨x, hfound.mem⟩
      exact absurd hy (findChild_none hvalid' hfind' y)
    | some s' =>
      obtain ⟨l', y, r', hfound'⟩ := findChild_some hvalid' hfind'
      exact .inr ⟨s, s', l, r, l', r', x, y, rfl, rfl, hfound, hfound',
        halike c x y hfound.mem hfound'.mem⟩

theorem Alike.artSearchFrom_eq (h : Alike n n') (hn : Wf path n) (hn' : Wf path' n') (fuel : ℕ)
    (key : List (BitVec 8)) (depth : ℕ) :
    artSearchFrom fuel (some n) key depth = artSearchFrom fuel (some n') key depth := by
  induction h generalizing path path' fuel depth with
  | leaf l => rfl
  | @inner h children children' hbytes halike ih =>
    cases fuel with
    | zero => rw [artSearchFrom, artSearchFrom]
    | succ fuel =>
      obtain ⟨w, -, hvalid, -, hchildren⟩ := hn.inner_inv
      obtain ⟨w', -, hvalid', -, hchildren'⟩ := hn'.inner_inv
      have hnext : ∀ c d, artSearchFrom fuel ((children.findChild c).bind children.child) key d =
          artSearchFrom fuel ((children'.findChild c).bind children'.child) key d := by
        intro c d
        rcases lookup_alike hvalid hvalid' hbytes halike c with
          ⟨hnone, hnone'⟩ | ⟨s, s', l, r, l', r', x, y, hs, hs', hfound, hfound', -⟩
        · rw [hnone, hnone']
          rfl
        · rw [hs, hs', Option.bind_some, Option.bind_some, hfound.child_eq, hfound'.child_eq]
          exact ih c x y hfound.mem hfound'.mem (hchildren _ hfound.mem) (hchildren' _ hfound'.mem)
            fuel d
      rw [artSearchFrom, artSearchFrom]
      simp only [hnext]

theorem snd_bind_congr {α β γ : Type} (f g : α → γ) {r r' : Exec (α × β)}
    (h : Prod.snd <$> r = Prod.snd <$> r') :
    Prod.snd <$> (r >>= fun p ↦ pure (f p.1, p.2) : Exec (γ × β)) =
      Prod.snd <$> (r' >>= fun p ↦ pure (g p.1, p.2) : Exec (γ × β)) := by
  cases r with
  | error e =>
    cases r' with
    | error e' => cases h; rfl
    | ok p' => cases h
  | ok p =>
    cases r' with
    | error e' => cases h
    | ok p' => exact h

theorem snd_guard {α β : Type} {stop stop' go go' : Exec (α × β)} (h : ArtHeader)
    (hstop : Prod.snd <$> stop = Prod.snd <$> stop') (hgo : Prod.snd <$> go = Prod.snd <$> go')
    (key : List (BitVec 8)) (depth : ℕ) :
    Prod.snd <$> (if h.partialLen ≠ 0 then
      checkPrefix h key depth >>= fun prefixLen ↦
        if prefixLen ≠ min maxPrefixLen h.partialLen then stop else go
    else go) = Prod.snd <$> (if h.partialLen ≠ 0 then
      checkPrefix h key depth >>= fun prefixLen ↦
        if prefixLen ≠ min maxPrefixLen h.partialLen then stop' else go'
    else go') := by
  split_ifs
  · cases checkPrefix h key depth with
    | error e => rfl
    | ok prefixLen =>
      rw [ok_bind, ok_bind]
      split_ifs
      · exact hstop
      · exact hgo
  · exact hgo

theorem removeChild_leaf_returns {s : Slot} {l r : List (BitVec 8 × ArtNode V)} {m : ArtLeaf V}
    (hn : Wf path (.inner h children)) (hfind : children.findChild c = some s)
    (hfound : children.Found c s l (.leaf m) r) :
    ∃ n', removeChild h children c s = .ok n' := by
  obtain ⟨w, rfl, hvalid, hfilled, hchildren⟩ := hn.inner_inv
  obtain ⟨n', hrun, -⟩ := removeChild_removes hvalid hfilled hchildren hfind hfound
    (fun k v hk ↦ (has_leaf.mp hk).1) (prefix_of_child hchildren hfound.mem (.leaf m))
  exact ⟨n', hrun⟩

theorem Alike.snd_recursiveDelete (h : Alike n n') (hn : Wf path n) (hn' : Wf path' n') (fuel : ℕ)
    (key : List (BitVec 8)) (depth : ℕ) :
    Prod.snd <$> recursiveDelete key fuel (some n) depth =
      Prod.snd <$> recursiveDelete key fuel (some n') depth := by
  induction h generalizing path path' fuel depth with
  | leaf l => rfl
  | @inner h children children' hbytes halike ih =>
    cases fuel with
    | zero => rw [recursiveDelete, recursiveDelete]
    | succ fuel =>
      obtain ⟨w, -, hvalid, -, hchildren⟩ := hn.inner_inv
      obtain ⟨w', -, hvalid', -, hchildren'⟩ := hn'.inner_inv
      rw [recursiveDelete, recursiveDelete]
      refine snd_guard h ?_ ?_ key depth
      · rfl
      dsimp only
      cases readByte key (depth + h.partialLen) with
      | error e => rfl
      | ok c =>
        rw [ok_bind, ok_bind]
        rcases lookup_alike hvalid hvalid' hbytes halike c with
          ⟨hnone, hnone'⟩ | ⟨s, s', l, r, l', r', x, y, hs, hs', hfound, hfound', hxy⟩
        · rw [hnone, hnone']
          rfl
        · have hrec := ih c x y hfound.mem hfound'.mem (hchildren _ hfound.mem)
            (hchildren' _ hfound'.mem) fuel (depth + h.partialLen + 1)
          rw [hs, hs']
          dsimp only
          rw [hfound.child_eq, hfound'.child_eq]
          cases hxy with
          | leaf m =>
            dsimp only
            obtain ⟨n₁, hrun⟩ := removeChild_leaf_returns hn hs hfound
            obtain ⟨n₂, hrun'⟩ := removeChild_leaf_returns hn' hs' hfound'
            rw [hrun, hrun']
            split_ifs
            · rfl
            · rfl
          | inner _ _ =>
            dsimp only
            exact snd_bind_congr (fun y ↦ some (ArtNode.inner h (y.elim children (children.setChild s))))
              (fun y ↦ some (ArtNode.inner h (y.elim children' (children'.setChild s')))) hrec

end Descents

section Calls

variable {arch arch' : Arch} {s s' : ArtState V}

inductive ArtCall (V : Type)
  | search (key : List (BitVec 8))
  | update (op : ArtOp V)

def artReply (arch : Arch) (t : ArtTree V) : ArtCall V → Exec (Option V)
  | .search key => artSearch t key
  | .update (.insert fuel key value) => Prod.snd <$> artInsert arch fuel t key value
  | .update (.insertNoReplace fuel key value) =>
    Prod.snd <$> artInsertNoReplace arch fuel t key value
  | .update (.delete key) => Prod.snd <$> artDelete t key

def artCall (arch : Arch) (s : ArtState V) : ArtCall V → Exec (ArtState V × Option V)
  | .search key => do
    let value ← artReply arch s.tree (.search key)
    return (s, value)
  | .update op => do
    let value ← artReply arch s.tree (.update op)
    let s ← artStep arch s op
    return (s, value)

def CallLegal (s : ArtState V) : ArtCall V → Prop
  | .search _ => True
  | .update op => ArtLegal s op

def ArtOp.apply (map : ArtMap V) : ArtOp V → ArtMap V
  | .insert _ key value => insertMap true map key value
  | .insertNoReplace _ key value => insertMap false map key value
  | .delete key => update map key none

theorem ArtLegal.of_map {op : ArtOp V} (hl : ArtLegal s op) (hmap : s.map = s'.map) :
    ArtLegal s' op := by
  cases op with
  | insert fuel key value =>
    rw [ArtLegal, ← hmap]
    exact hl
  | insertNoReplace fuel key value =>
    rw [ArtLegal, ← hmap]
    exact hl
  | delete key => trivial

theorem artStep_map {op : ArtOp V} {s₁ : ArtState V} (h : artStep arch s op = .ok s₁) :
    s₁.map = op.apply s.map := by
  cases op with
  | insert fuel key value =>
    obtain ⟨r, -, hr⟩ := bind_eq_ok.mp h
    cases hr
    rfl
  | insertNoReplace fuel key value =>
    obtain ⟨r, -, hr⟩ := bind_eq_ok.mp h
    cases hr
    rfl
  | delete key =>
    obtain ⟨r, -, hr⟩ := bind_eq_ok.mp h
    cases hr
    rfl

theorem artStep_of_reply {op : ArtOp V} {value : Option V}
    (h : artReply arch s.tree (.update op) = .ok value) : ∃ s₁, artStep arch s op = .ok s₁ := by
  cases op with
  | insert fuel key value =>
    rw [artReply] at h
    rw [artStep]
    cases hrun : artInsert arch fuel s.tree key value with
    | error e => rw [hrun] at h; cases h
    | ok r => exact ⟨_, rfl⟩
  | insertNoReplace fuel key value =>
    rw [artReply] at h
    rw [artStep]
    cases hrun : artInsertNoReplace arch fuel s.tree key value with
    | error e => rw [hrun] at h; cases h
    | ok r => exact ⟨_, rfl⟩
  | delete key =>
    rw [artReply] at h
    rw [artStep]
    cases hrun : artDelete s.tree key with
    | error e => rw [hrun] at h; cases h
    | ok r => exact ⟨_, rfl⟩

theorem Holds.alike {root root' : Option (ArtNode V)} {map : ArtMap V} (h : Holds root map)
    (h' : Holds root' map) : Option.Rel Alike root root' := by
  cases root with
  | none =>
    cases root' with
    | none => exact .none
    | some n' =>
      obtain ⟨k, v, hk⟩ := h'.1.exists_has
      exact absurd (((h'.2 k v).mp hk).symm.trans (h k)) (Option.some_ne_none v)
  | some n =>
    cases root' with
    | none =>
      obtain ⟨k, v, hk⟩ := h.1.exists_has
      exact absurd (((h.2 k v).mp hk).symm.trans (h' k)) (Option.some_ne_none v)
    | some n' => exact .some (h.1.alike h'.1 fun k v ↦ (h.2 k v).trans (h'.2 k v).symm)

theorem Holds.artSearchFrom_eq {root root' : Option (ArtNode V)} {map : ArtMap V}
    (h : Holds root map) (h' : Holds root' map) (fuel : ℕ) (key : List (BitVec 8)) (depth : ℕ) :
    artSearchFrom fuel root key depth = artSearchFrom fuel root' key depth := by
  cases h.alike h' with
  | none => rfl
  | some halike => exact halike.artSearchFrom_eq h.1 h'.1 fuel key depth

theorem Holds.snd_recursiveDelete {root root' : Option (ArtNode V)} {map : ArtMap V}
    (h : Holds root map) (h' : Holds root' map) (fuel : ℕ) (key : List (BitVec 8)) (depth : ℕ) :
    Prod.snd <$> recursiveDelete key fuel root depth =
      Prod.snd <$> recursiveDelete key fuel root' depth := by
  cases h.alike h' with
  | none => rfl
  | some halike => exact halike.snd_recursiveDelete h.1 h'.1 fuel key depth

theorem snd_artDelete (t : ArtTree V) (key : List (BitVec 8)) :
    Prod.snd <$> artDelete t key =
      (fun l : Option (ArtLeaf V) ↦ l.bind ArtLeaf.value) <$>
        Prod.snd <$> recursiveDelete key (key.length + 1) t.root 0 := by
  rw [artDelete]
  rcases recursiveDelete key (key.length + 1) t.root 0 with e | ⟨root, _ | l⟩ <;> rfl

theorem artReply_eq (hs : Sound s) (hs' : Sound s') (hmap : s.map = s'.map) {call : ArtCall V}
    (hl : CallLegal s call) : artReply arch s.tree call = artReply arch' s'.tree call := by
  have hinsert : ∀ replace fuel key value, Fueled s.map fuel key ∧ Separate s.map key →
      Prod.snd <$> insertWith replace arch fuel s.tree key value =
        Prod.snd <$> insertWith replace arch' fuel s'.tree key value := by
    rintro replace fuel key value ⟨hfuel, -⟩
    have hfuel' : Fueled s'.map fuel key := hmap ▸ hfuel
    rcases insertWith_outcome hs hfuel replace arch value with ⟨hone, t, hrun, -⟩ | ⟨hforks, hrun⟩
    · rcases insertWith_outcome hs' hfuel' replace arch' value with
        ⟨-, t', hrun', -⟩ | ⟨hforks, -⟩
      · rw [hrun, hrun', hmap]
        rfl
      · exact absurd (hmap ▸ hforks) hone
    · rcases insertWith_outcome hs' hfuel' replace arch' value with ⟨hone, -⟩ | ⟨-, hrun'⟩
      · exact absurd (hmap ▸ hforks) hone
      · rw [hrun, hrun']
  have hholds' : Holds s'.tree.root s.map := hmap ▸ hs'.holds
  cases call with
  | search key => exact hs.holds.artSearchFrom_eq hholds' _ key 0
  | update op =>
    cases op with
    | insert fuel key value => exact hinsert true fuel key value hl
    | insertNoReplace fuel key value => exact hinsert false fuel key value hl
    | delete key =>
      rw [artReply, artReply, snd_artDelete, snd_artDelete,
        hs.holds.snd_recursiveDelete hholds' _ key 0]

def SameMap (arch arch' : Arch) (s s' : ArtState V) : Prop :=
  ArtReachable arch s ∧ ArtReachable arch' s' ∧ s.map = s'.map

theorem artCall_agree (h : SameMap arch arch' s s') {call : ArtCall V} (hl : CallLegal s call) :
    Agree (SameMap arch arch') (artCall arch s call) (artCall arch' s' call) := by
  obtain ⟨hs, hs', hmap⟩ := h
  have hreply : artReply arch s.tree call = artReply arch' s'.tree call :=
    artReply_eq hs.sound hs'.sound hmap hl
  cases call with
  | search key =>
    rw [artCall, artCall, hreply]
    cases artReply arch' s'.tree (.search key) with
    | error e => exact .fails e
    | ok value => exact .returns value ⟨hs, hs', hmap⟩
  | update op =>
    rw [artCall, artCall, hreply]
    cases hvalue : artReply arch' s'.tree (.update op) with
    | error e => exact .fails e
    | ok value =>
      obtain ⟨s₁, hstep⟩ := artStep_of_reply (hreply.trans hvalue)
      obtain ⟨s₂, hstep'⟩ := artStep_of_reply hvalue
      have hmap₁ := artStep_map hstep
      have hmap₂ := artStep_map hstep'
      rw [ok_bind, ok_bind, hstep, hstep']
      exact .returns value ⟨hs.step hl hstep, hs'.step (hl.of_map hmap) hstep',
        hmap₁.trans ((congrArg (ArtOp.apply · op) hmap).trans hmap₂.symm)⟩

/-- What was done to a tree is not to be seen, nor the machine on which it was done: the stored
entries determine the shape of the tree and the answers to all further calls, also those that
read behind the end of a key. -/
theorem artTree_canonical (h : ArtReachable arch s) (h' : ArtReachable arch' s')
    (hmap : s.map = s'.map) :
    Option.Rel Alike s.tree.root s'.tree.root ∧ s.tree.size = s'.tree.size ∧
      ∀ calls, Lawful (artCall arch) CallLegal s calls →
        answers (artCall arch) s calls = answers (artCall arch') s' calls := by
  have hs := h.sound
  have hs' := h'.sound
  refine ⟨hs.holds.alike (hmap ▸ hs'.holds), ?_, fun calls hcalls ↦ ?_⟩
  · rw [hs.size_eq, hs'.size_eq, hmap]
  · have hrelated : SameMap arch arch' s s' := ⟨h, h', hmap⟩
    exact answers_eq (fun _ _ _ hr hl ↦ artCall_agree hr hl) hrelated hcalls

def reversedPair (arch : Arch) : ArtState Unit :=
  after arch (after arch ⟨artTreeInit, fun _ ↦ none⟩ (.insert 3 [1, 3] (some ())))
    (.insert 3 [1, 2] (some ()))

theorem FixedReachable.after_map {len : ℕ} {s : ArtState V} (h : FixedReachable arch len s)
    (op : ArtOp V) (hl : FixedLegal len s op) : (Art.after arch s op).map = op.apply s.map := by
  obtain ⟨s', hstep, -⟩ := artStep_returns h.sound hl
  rw [Art.after, hstep]
  exact artStep_map hstep

theorem artTree_canonical_pair :
    Option.Rel Alike (pair .x86).tree.root (reversedPair .portable).tree.root ∧
      (pair .x86).tree.size = (reversedPair .portable).tree.size ∧
      answers (artCall .x86) (pair .x86) [.search [1], .update (.delete [1, 3])] =
        answers (artCall .portable) (reversedPair .portable)
          [.search [1], .update (.delete [1, 3])] := by
  have hinit : ∀ arch, FixedReachable arch 2 (⟨artTreeInit, fun _ ↦ none⟩ : ArtState Unit) :=
    fun _ ↦ .init rfl
  have h₁ := (hinit .portable).after (.insert 3 [1, 3] (some ())) ⟨rfl, by decide⟩
  have hmap : (pair .x86).map = (reversedPair .portable).map := by
    rw [pair, reversedPair,
      ((hinit .x86).after (.insert 3 [1, 2] (some ())) ⟨rfl, by decide⟩).after_map
        (.insert 3 [1, 3] (some ())) ⟨rfl, by decide⟩,
      (hinit .x86).after_map (.insert 3 [1, 2] (some ())) ⟨rfl, by decide⟩,
      h₁.after_map (.insert 3 [1, 2] (some ())) ⟨rfl, by decide⟩,
      (hinit .portable).after_map (.insert 3 [1, 3] (some ())) ⟨rfl, by decide⟩]
    exact update_comm (by decide) _ _ _
  obtain ⟨hshape, hsize, hanswers⟩ := artTree_canonical (pair_reachable .x86).reachable
    (h₁.after (.insert 3 [1, 2] (some ())) ⟨rfl, by decide⟩).reachable hmap
  exact ⟨hshape, hsize, hanswers _ ⟨trivial, fun _ _ _ ↦ ⟨trivial, fun _ _ _ ↦ trivial⟩⟩⟩

end Calls

end RadixBench.Art
