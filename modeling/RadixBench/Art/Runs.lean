import RadixBench.Art.Insertion
import RadixBench.Art.Removal
import Mathlib.Data.Set.Card

namespace RadixBench.Art

open Foundation Function

variable {V : Type} {arch : Arch} {key k : List (BitVec 8)} {value : Option V} {fuel : ℕ}

/-- The stored keys with their values. Values are pointers, so that a stored one can be `NULL`. -/
abbrev ArtMap (V : Type) := List (BitVec 8) → Option (Option V)

structure ArtState (V : Type) where
  tree : ArtTree V
  map : ArtMap V

inductive ArtOp (V : Type)
  | insert (fuel : ℕ) (key : List (BitVec 8)) (value : Option V)
  | insertNoReplace (fuel : ℕ) (key : List (BitVec 8)) (value : Option V)
  | delete (key : List (BitVec 8))

/-- The map after an insertion: a value that is there is kept when it is not replaced. -/
def insertMap (replace : Bool) (map : ArtMap V) (key : List (BitVec 8)) (value : Option V) :
    ArtMap V :=
  update map key (some (if replace then value else (map key).getD value))

def artStep (arch : Arch) (s : ArtState V) : ArtOp V → Exec (ArtState V)
  | .insert fuel key value => do
    let (tree, _) ← artInsert arch fuel s.tree key value
    return ⟨tree, insertMap true s.map key value⟩
  | .insertNoReplace fuel key value => do
    let (tree, _) ← artInsertNoReplace arch fuel s.tree key value
    return ⟨tree, insertMap false s.map key value⟩
  | .delete key => do
    let (tree, _) ← artDelete s.tree key
    return ⟨tree, update s.map key none⟩

def Fueled (map : ArtMap V) (fuel : ℕ) (key : List (BitVec 8)) : Prop :=
  key.length < fuel ∧ ∀ k, map k ≠ none → k.length < fuel

/-- No stored key is `key` with a zero byte behind it and maybe more, nor the other way round. Keys
that go on with another byte, as those of a leaf and the one that continues it, are separate. -/
def Separate (map : ArtMap V) (key : List (BitVec 8)) : Prop :=
  ∀ k, map k ≠ none → k ≠ key → ¬ Comparable (terminated k) (terminated key)

def ArtLegal (s : ArtState V) : ArtOp V → Prop
  | .insert fuel key _ => Fueled s.map fuel key ∧ Separate s.map key
  | .insertNoReplace fuel key _ => Fueled s.map fuel key ∧ Separate s.map key
  | .delete _ => True

def ArtReachable (arch : Arch) : ArtState V → Prop :=
  Reachable (fun s ↦ s = ⟨artTreeInit, fun _ ↦ none⟩) ArtLegal (artStep arch)

def ArtOp.Orders (arch : Arch) : ArtOp V → Prop
  | .insert _ key _ => arch.Orders key
  | .insertNoReplace _ key _ => arch.Orders key
  | .delete _ => True

/-- Runs that insert such keys only, which on a portable machine are all keys. -/
def OrderedReachable (arch : Arch) : ArtState V → Prop :=
  Reachable (fun s ↦ s = ⟨artTreeInit, fun _ ↦ none⟩) (fun s op ↦ ArtLegal s op ∧ op.Orders arch)
    (artStep arch)

def Forks (map : ArtMap V) (key : List (BitVec 8)) : Prop :=
  ∃ k k', map k ≠ none ∧ map k' ≠ none ∧ k ≠ k' ∧ key <+: k ∧ key <+: k'

/-- Two stored keys go together at least as far as `key` is long. -/
def RunsPast (map : ArtMap V) (key : List (BitVec 8)) : Prop :=
  ∃ k k' p, map k ≠ none ∧ map k' ≠ none ∧ Parts p (terminated k) (terminated k') ∧
    key.length ≤ p.length

def Holds : Option (ArtNode V) → ArtMap V → Prop
  | none, map => ∀ k, map k = none
  | some n, map => Wf [] n ∧ ∀ k v, Has n k v ↔ map k = some v

/-- The order of the children, which holds as long as it does not depend on the machine. -/
def InOrder (arch : Arch) (root : Option (ArtNode V)) (map : ArtMap V) : Prop :=
  (∀ k, map k ≠ none → arch.Orders k) ∧ ∀ n, root = some n → Ordered n

structure Sound (s : ArtState V) : Prop where
  holds : Holds s.tree.root s.map
  finite : {k | s.map k ≠ none}.Finite
  size_eq : s.tree.size = BitVec.ofNat 64 {k | s.map k ≠ none}.ncard

section Map

variable {map : ArtMap V} {n n' : ArtNode V} {root : Option (ArtNode V)}

theorem stored_iff (hhas : ∀ k v, Has n k v ↔ map k = some v) :
    map k ≠ none ↔ ∃ v, Has n k v := by
  rw [Option.ne_none_iff_exists']
  exact exists_congr fun v ↦ (hhas k v).symm

theorem not_stored_iff (hhas : ∀ k v, Has n k v ↔ map k = some v) :
    map k = none ↔ ∀ v, ¬ Has n k v := by
  rw [Option.eq_none_iff_forall_ne_some]
  exact forall_congr' fun v ↦ not_congr (hhas k v).symm

theorem Inserts.holds {value' : Option V} (h : Inserts arch [] n n' key value')
    (hhas : ∀ k v, Has n k v ↔ map k = some v) :
    Holds (some n') (update map key (some value')) ∧
      (arch.Orders key → InOrder arch (some n) map →
        InOrder arch (some n') (update map key (some value'))) := by
  refine ⟨⟨h.wf, fun k v ↦ ?_⟩, fun hkey ⟨hkeys, hn⟩ ↦ ⟨fun k hk ↦ ?_, ?_⟩⟩
  · rw [h.has_iff, hhas, update_apply]
    split_ifs with hk
    · simp [hk, eq_comm]
    · simp [hk]
  · rw [update_apply] at hk
    split_ifs at hk with heq
    · rwa [heq]
    · exact hkeys k hk
  · rintro _ ⟨⟩
    exact h.ordered hkey (fun k v hk ↦ hkeys k ((stored_iff hhas).mpr ⟨v, hk⟩)) (hn n rfl)

theorem InOrder.erase {root' : Option (ArtNode V)} (h : InOrder arch root map)
    (hn : ∀ n', root' = some n' → Ordered n') : InOrder arch root' (update map key none) := by
  refine ⟨fun k hk ↦ ?_, hn⟩
  rw [update_apply] at hk
  split_ifs at hk with heq
  · exact absurd rfl hk
  · exact h.1 k hk

theorem Removes.holds (h : Removes [] n n' key) (hhas : ∀ k v, Has n k v ↔ map k = some v) :
    Holds (some n') (update map key none) ∧
      (∀ arch, InOrder arch (some n) map → InOrder arch (some n') (update map key none)) := by
  refine ⟨⟨h.wf, fun k v ↦ ?_⟩, fun arch hn ↦ hn.erase ?_⟩
  · rw [h.has_iff, hhas, update_apply]
    split_ifs with hk
    · simp [hk]
    · simp [hk]
  · rintro _ ⟨⟩
    exact h.ordered (hn.2 n rfl)

theorem Overrun.runsPast (h : Overrun n key) (hhas : ∀ k v, Has n k v ↔ map k = some v) :
    RunsPast map key := by
  obtain ⟨k, v, k', v', p, hk, hk', hparts, hlen⟩ := h
  exact ⟨k, k', p, (stored_iff hhas).mpr ⟨v, hk⟩, (stored_iff hhas).mpr ⟨v', hk'⟩, hparts, hlen⟩

theorem forksBelow_iff (hhas : ∀ k v, Has n k v ↔ map k = some v) :
    ForksBelow n key ↔ Forks map key := by
  constructor
  · rintro ⟨k, v, k', v', hk, hk', hrest⟩
    exact ⟨k, k', (stored_iff hhas).mpr ⟨v, hk⟩, (stored_iff hhas).mpr ⟨v', hk'⟩, hrest⟩
  · rintro ⟨k, k', hk, hk', hrest⟩
    obtain ⟨v, hk⟩ := (stored_iff hhas).mp hk
    obtain ⟨v', hk'⟩ := (stored_iff hhas).mp hk'
    exact ⟨k, v, k', v', hk, hk', hrest⟩

theorem forks_of_stored (hhas : ∀ k v, Has n k v ↔ map k = some v)
    (h : ∀ v, Has n key v → ForksBelow n key) (hkey : map key ≠ none) : Forks map key := by
  obtain ⟨v, hv⟩ := (stored_iff hhas).mp hkey
  exact (forksBelow_iff hhas).mp (h v hv)

theorem recursiveInsert_root (h : Holds root map) (hfuel : Fueled map fuel key) (arch : Arch)
    (value : Option V) (replace : Bool) :
    (¬ Forks map key ∧ ∃ n', recursiveInsert arch key value replace fuel root 0 =
      .ok (n', (map key).join, (map key).isSome) ∧
        (Separate map key → Holds (some n') (insertMap replace map key value) ∧
          (arch.Orders key → InOrder arch root map →
            InOrder arch (some n') (insertMap replace map key value)))) ∨
    (Forks map key ∧
      recursiveInsert arch key value replace fuel root 0 = .error .indexOutOfRange) := by
  cases root with
  | none =>
    have hnone : ∀ k, map k = none := h
    have hmap : insertMap replace map key value = update map key (some value) := by
      rw [insertMap, hnone, Option.getD_none, ite_self]
    refine .inl ⟨?_, .leaf (makeLeaf key value), ?_, fun _ ↦ ⟨?_, ?_⟩⟩
    · rintro ⟨k, -, hk, -⟩
      exact hk (hnone k)
    · rw [recursiveInsert, hnone]
      rfl
    · refine ⟨.leaf List.nil_prefix, fun k v ↦ ?_⟩
      rw [has_leaf, hmap, update_apply, hnone]
      split_ifs with hk
      · simp [hk, makeLeaf, eq_comm]
      · simp [hk, makeLeaf]
    · refine fun hkey _ ↦ ⟨fun k hk ↦ ?_, ?_⟩
      · rw [hmap, update_apply, hnone] at hk
        split_ifs at hk with heq
        · rwa [heq]
        · exact absurd rfl hk
      · rintro _ ⟨⟩
        exact .leaf _
  | some n =>
    obtain ⟨hwf, hhas⟩ := h
    have hshort : Shorter n (([] : List (BitVec 8)).length + fuel) := fun k v hk ↦ by
      rw [List.length_nil, Nat.zero_add]
      exact hfuel.2 k ((stored_iff hhas).mpr ⟨v, hk⟩)
    have hlen : key.length < ([] : List (BitVec 8)).length + fuel := by
      rw [List.length_nil, Nat.zero_add]
      exact hfuel.1
    have hrun := recursiveInsert_outcome hwf arch value replace hshort List.nil_prefix hlen
    rw [List.length_nil] at hrun
    generalize recursiveInsert arch key value replace fuel (some n) 0 = result at hrun ⊢
    cases hrun with
    | @found v n' hone hv hins =>
      have hmap : map key = some v := (hhas key v).mp hv
      refine .inl ⟨mt (forksBelow_iff hhas).mpr hone, n', by rw [hmap]; rfl, fun _ ↦ ?_⟩
      rw [insertMap, hmap]
      exact hins.holds hhas
    | @added n' hone hnew hins =>
      have hmap : map key = none := (not_stored_iff hhas).mpr fun v hv ↦
        hnew key v hv (comparable_self _)
      refine .inl ⟨mt (forksBelow_iff hhas).mpr hone, n', by rw [hmap]; rfl, fun _ ↦ ?_⟩
      rw [insertMap, hmap, Option.getD_none, ite_self]
      exact hins.holds hhas
    | @clash k v n' hone hk hne hcomp =>
      have hmap : map key = none := (not_stored_iff hhas).mpr fun v' hv ↦
        hne (hwf.eq_of_comparable hk hv hcomp).1
      refine .inl ⟨mt (forksBelow_iff hhas).mpr hone, n', by rw [hmap]; rfl, fun hsep ↦ ?_⟩
      exact absurd hcomp (hsep k ((stored_iff hhas).mpr ⟨v, hk⟩) hne)
    | overrun hforks => exact .inr ⟨(forksBelow_iff hhas).mp hforks, rfl⟩

theorem recursiveDelete_root (h : Holds root map) (key : List (BitVec 8)) :
    (∃ l root', map key = some l.value ∧ ¬ Forks map key ∧
      recursiveDelete key (key.length + 1) root 0 = .ok (root', some l) ∧
        Holds root' (update map key none) ∧
        (∀ arch, InOrder arch root map → InOrder arch root' (update map key none))) ∨
    (map key = none ∧ recursiveDelete key (key.length + 1) root 0 = .ok (root, none)) ∨
    ((map key ≠ none → Forks map key) ∧ RunsPast map key ∧
      recursiveDelete key (key.length + 1) root 0 = .error .indexOutOfRange) := by
  cases root with
  | none => exact .inr (.inl ⟨h key, by rw [recursiveDelete]⟩)
  | some n =>
    obtain ⟨hwf, hhas⟩ := h
    have hrun : DeleteOutcome [] n key (recursiveDelete key (key.length + 1) (some n) 0) :=
      recursiveDelete_outcome hwf (Nat.zero_le key.length) (by rw [List.length_nil]; omega)
    generalize recursiveDelete key (key.length + 1) (some n) 0 = result at hrun ⊢
    cases hrun with
    | @emptied l hn hkey =>
      subst hn
      refine .inl ⟨l, none, (hhas _ _).mp (hkey ▸ .leaf l),
        mt (forksBelow_iff hhas).mpr (not_forksBelow_leaf l key), rfl, fun k ↦ ?_, fun _ hn ↦
        hn.erase fun _ hnone ↦ absurd hnone.symm (Option.some_ne_none _)⟩
      rw [update_apply]
      split_ifs with hk
      · rfl
      · refine (not_stored_iff hhas).mpr fun v hv ↦ hk ?_
        exact (has_leaf.mp hv).1.trans hkey
    | @removed l n' hk hone hremoves =>
      exact .inl ⟨l, some n', (hhas _ _).mp hk, mt (forksBelow_iff hhas).mpr hone, rfl,
        hremoves.holds hhas⟩
    | missing hnot => exact .inr (.inl ⟨(not_stored_iff hhas).mpr hnot, rfl⟩)
    | overrun hforks hover =>
      exact .inr (.inr ⟨forks_of_stored hhas hforks, hover.runsPast hhas, rfl⟩)

theorem artSearchFrom_root (h : Holds root map) (key : List (BitVec 8)) :
    (map key ≠ none → ¬ Forks map key) ∧
      artSearchFrom (key.length + 1) root key 0 = .ok (map key).join ∨
    (map key ≠ none → Forks map key) ∧ RunsPast map key ∧
      artSearchFrom (key.length + 1) root key 0 = .error .indexOutOfRange := by
  cases root with
  | none =>
    rw [show map key = none from h key, artSearchFrom]
    exact .inl ⟨fun hkey ↦ absurd rfl hkey, rfl⟩
  | some n =>
    obtain ⟨hwf, hhas⟩ := h
    have hrun : SearchOutcome n key (artSearchFrom (key.length + 1) (some n) key 0) :=
      artSearchFrom_outcome hwf (Nat.zero_le key.length) (by rw [List.length_nil]; omega)
    generalize artSearchFrom (key.length + 1) (some n) key 0 = result at hrun ⊢
    cases hrun with
    | found hv hone =>
      exact .inl ⟨fun _ ↦ mt (forksBelow_iff hhas).mpr hone, by rw [(hhas _ _).mp hv]; rfl⟩
    | missing hnot =>
      have hkey := (not_stored_iff hhas).mpr hnot
      exact .inl ⟨fun h ↦ absurd hkey h, by rw [hkey]; rfl⟩
    | overrun hforks hover =>
      exact .inr ⟨forks_of_stored hhas hforks, hover.runsPast hhas, rfl⟩

theorem stored_update (x : Option V) :
    {k | update map key (some x) k ≠ none} = insert key {k | map k ≠ none} := by
  ext k
  show update map key (some x) k ≠ none ↔ k = key ∨ map k ≠ none
  rw [update_apply]
  split_ifs with hk
  · simp [hk]
  · simp [hk]

theorem stored_erase : {k | update map key none k ≠ none} = {k | map k ≠ none} \ {key} := by
  ext k
  show update map key none k ≠ none ↔ map k ≠ none ∧ k ≠ key
  rw [update_apply]
  split_ifs with hk
  · simp [hk]
  · simp [hk]

end Map

section Steps

variable {s : ArtState V}

theorem sound_init : Sound (⟨artTreeInit, fun _ ↦ none⟩ : ArtState V) := by
  have hempty : {k : List (BitVec 8) | (none : Option (Option V)) ≠ none} = ∅ := by simp
  refine ⟨fun _ ↦ rfl, ?_, ?_⟩
  · rw [hempty]
    exact Set.finite_empty
  · rw [hempty, Set.ncard_empty]
    rfl

theorem insertWith_outcome (hs : Sound s) (hfuel : Fueled s.map fuel key) (replace : Bool)
    (arch : Arch) (value : Option V) :
    (¬ Forks s.map key ∧ ∃ t, insertWith replace arch fuel s.tree key value =
      .ok (t, (s.map key).join) ∧ (Separate s.map key →
        Sound ⟨t, insertMap replace s.map key value⟩ ∧
        (arch.Orders key → InOrder arch s.tree.root s.map →
          InOrder arch t.root (insertMap replace s.map key value)))) ∨
    (Forks s.map key ∧
      insertWith replace arch fuel s.tree key value = .error .indexOutOfRange) := by
  rw [insertWith]
  rcases recursiveInsert_root hs.holds hfuel arch value replace with
    ⟨hone, n', hrun, hinserts⟩ | ⟨hforks, hrun⟩
  · rw [hrun]
    refine .inl ⟨hone, _, rfl, fun hsep ↦ ⟨⟨(hinserts hsep).1, ?_, ?_⟩, (hinserts hsep).2⟩⟩
    · rw [insertMap, stored_update]
      exact hs.finite.insert key
    · show _ = BitVec.ofNat 64 {k | update s.map key _ k ≠ none}.ncard
      rw [stored_update]
      by_cases hkey : s.map key = none
      · have hnew : key ∉ {k | s.map k ≠ none} := fun h ↦ h hkey
        rw [Set.ncard_insert_of_notMem hnew hs.finite, BitVec.ofNat_add, ← hs.size_eq, hkey]
        rfl
      · have hold : key ∈ {k | s.map k ≠ none} := hkey
        rw [Set.insert_eq_of_mem hold, ← hs.size_eq]
        exact if_pos (Option.isSome_iff_ne_none.mpr hkey)
  · rw [hrun]
    exact .inr ⟨hforks, rfl⟩

theorem artDelete_outcome (hs : Sound s) (key : List (BitVec 8)) :
    (∃ t, (s.map key ≠ none → ¬ Forks s.map key) ∧
      artDelete s.tree key = .ok (t, (s.map key).join) ∧ Sound ⟨t, update s.map key none⟩ ∧
      (∀ arch, InOrder arch s.tree.root s.map → InOrder arch t.root (update s.map key none)) ∧
      (s.map key = none → t = s.tree)) ∨
    ((s.map key ≠ none → Forks s.map key) ∧ RunsPast s.map key ∧
      artDelete s.tree key = .error .indexOutOfRange) := by
  rw [artDelete]
  rcases recursiveDelete_root hs.holds key with
    ⟨l, root', hkey, hone, hrun, hholds, horder⟩ | ⟨hkey, hrun⟩ | ⟨hforks, hpast, hrun⟩
  · rw [hrun, hkey]
    refine .inl ⟨_, fun _ ↦ hone, rfl, ⟨hholds, ?_, ?_⟩, horder, nofun⟩
    · rw [stored_erase]
      exact hs.finite.subset Set.sdiff_subset
    · have hold : key ∈ {k | s.map k ≠ none} := by
        rw [Set.mem_ofPred_eq, hkey]
        exact Option.some_ne_none _
      show s.tree.size - 1 = _
      rw [stored_erase, hs.size_eq, ← Set.ncard_sdiff_singleton_add_one hold hs.finite,
        BitVec.ofNat_add]
      exact BitVec.add_sub_cancel _ _
  · rw [hrun, hkey, update_eq_self_iff.mpr hkey.symm]
    exact .inl ⟨_, fun h ↦ absurd rfl h, rfl, hs, fun _ ↦ id, fun _ ↦ rfl⟩
  · rw [hrun]
    exact .inr ⟨hforks, hpast, rfl⟩

theorem artStep_sound {s' : ArtState V} (hs : Sound s) {op : ArtOp V} (hl : ArtLegal s op)
    (hstep : artStep arch s op = .ok s') : Sound s' ∧
      (op.Orders arch → InOrder arch s.tree.root s.map → InOrder arch s'.tree.root s'.map) := by
  have hinsert : ∀ {replace fuel key value}, Fueled s.map fuel key ∧ Separate s.map key →
      (insertWith replace arch fuel s.tree key value >>= fun r ↦
        pure ⟨r.1, insertMap replace s.map key value⟩) = Except.ok s' → Sound s' ∧
      (arch.Orders key → InOrder arch s.tree.root s.map → InOrder arch s'.tree.root s'.map) := by
    rintro replace fuel key value ⟨hfuel, hsep⟩ hstep
    rcases insertWith_outcome hs hfuel replace arch value with ⟨-, t, hrun, hs'⟩ | ⟨-, hrun⟩
    · rw [hrun] at hstep
      cases hstep
      exact hs' hsep
    · rw [hrun] at hstep
      cases hstep
  cases op with
  | insert fuel key value => exact hinsert hl hstep
  | insertNoReplace fuel key value => exact hinsert hl hstep
  | delete key =>
    rw [artStep] at hstep
    rcases artDelete_outcome hs key with ⟨t, -, hrun, hs', horder, -⟩ | ⟨-, -, hrun⟩
    · rw [hrun] at hstep
      cases hstep
      exact ⟨hs', fun _ ↦ horder arch⟩
    · rw [hrun] at hstep
      cases hstep

theorem ArtReachable.sound (h : ArtReachable arch s) : Sound s :=
  Reachable.invariant (fun _ hinit ↦ hinit ▸ sound_init)
    (fun _ _ _ hs hl hstep ↦ (artStep_sound hs hl hstep).1) h

end Steps

section FixedLength

variable {len : ℕ} {s : ArtState V}

def FixedLegal (len : ℕ) (_ : ArtState V) : ArtOp V → Prop
  | .insert fuel key _ => key.length = len ∧ len < fuel
  | .insertNoReplace fuel key _ => key.length = len ∧ len < fuel
  | .delete key => key.length = len

def FixedReachable (arch : Arch) (len : ℕ) : ArtState V → Prop :=
  Reachable (fun s ↦ s = ⟨artTreeInit, fun _ ↦ none⟩) (FixedLegal len) (artStep arch)

structure FixedSound (len : ℕ) (s : ArtState V) : Prop where
  sound : Sound s
  length_eq : ∀ k, s.map k ≠ none → k.length = len

theorem FixedSound.fueled (hs : FixedSound len s) (hkey : key.length = len) (hfuel : len < fuel) :
    Fueled s.map fuel key :=
  ⟨hkey.trans_lt hfuel, fun k hk ↦ (hs.length_eq k hk).trans_lt hfuel⟩

theorem FixedSound.separate (hs : FixedSound len s) (hkey : key.length = len) :
    Separate s.map key := fun k hk hne hcomp ↦ by
  have hlen : (terminated k).length = (terminated key).length := by
    rw [length_terminated, length_terminated, hs.length_eq k hk, hkey]
  exact hne (terminated_inj.mp ((comparable_of_length_eq hlen).mp hcomp))

theorem FixedSound.not_forks (hs : FixedSound len s) (hkey : key.length = len) :
    ¬ Forks s.map key := by
  rintro ⟨k, k', hk, hk', hne, hpre, hpre'⟩
  refine hne ((hpre.eq_of_length ?_).symm.trans (hpre'.eq_of_length ?_))
  · rw [hkey, hs.length_eq k hk]
  · rw [hkey, hs.length_eq k' hk']

theorem FixedSound.not_runsPast (hs : FixedSound len s) (hkey : key.length = len) :
    ¬ RunsPast s.map key := by
  rintro ⟨k, k', p, hk, hk', ⟨c, d, hne, hc, hd⟩, hle⟩
  have hend : ∀ {q b}, s.map q ≠ none → p ++ [b] <+: terminated q → b = 0 := fun {q b} hq hb ↦ by
    have hp := prefix_of_terminated hb
    have heq := hp.eq_of_length_le (by rw [hs.length_eq q hq]; omega)
    exact snoc_unique hb (heq ▸ List.prefix_rfl)
  exact hne ((hend hk hc).trans (hend hk' hd).symm)

theorem length_update {map : ArtMap V} {o : Option (Option V)}
    (h : ∀ k, map k ≠ none → k.length = len) (hkey : key.length = len) :
    ∀ k, update map key o k ≠ none → k.length = len := by
  intro k hk
  by_cases heq : k = key
  · rw [heq, hkey]
  · rw [update_of_ne heq] at hk
    exact h k hk

theorem FixedSound.insertWith (hs : FixedSound len s) (hkey : key.length = len) (hfuel : len < fuel)
    (replace : Bool) (arch : Arch) (value : Option V) :
    ∃ t, insertWith replace arch fuel s.tree key value = .ok (t, (s.map key).join) ∧
      FixedSound len ⟨t, insertMap replace s.map key value⟩ := by
  rcases insertWith_outcome hs.sound (hs.fueled hkey hfuel) replace arch value with
    ⟨-, t, hrun, hs'⟩ | ⟨hforks, -⟩
  · exact ⟨t, hrun, (hs' (hs.separate hkey)).1, length_update hs.length_eq hkey⟩
  · exact absurd hforks (hs.not_forks hkey)

theorem FixedSound.artDelete (hs : FixedSound len s) (hkey : key.length = len) :
    ∃ t, artDelete s.tree key = .ok (t, (s.map key).join) ∧
      FixedSound len ⟨t, update s.map key none⟩ := by
  rcases artDelete_outcome hs.sound key with ⟨t, -, hrun, hs', -⟩ | ⟨-, hpast, -⟩
  · exact ⟨t, hrun, hs', length_update hs.length_eq hkey⟩
  · exact absurd hpast (hs.not_runsPast hkey)

theorem FixedSound.artSearch (hs : FixedSound len s) (hkey : key.length = len) :
    artSearch s.tree key = .ok (s.map key).join := by
  rcases artSearchFrom_root hs.sound.holds key with ⟨-, hrun⟩ | ⟨-, hpast, -⟩
  · exact hrun
  · exact absurd hpast (hs.not_runsPast hkey)

theorem artStep_returns (hs : FixedSound len s) {op : ArtOp V} (hl : FixedLegal len s op) :
    ∃ s', artStep arch s op = .ok s' ∧ FixedSound len s' := by
  cases op with
  | insert fuel key value =>
    obtain ⟨t, hrun, hs'⟩ := hs.insertWith hl.1 hl.2 true arch value
    exact ⟨_, by rw [artStep, artInsert, hrun]; rfl, hs'⟩
  | insertNoReplace fuel key value =>
    obtain ⟨t, hrun, hs'⟩ := hs.insertWith hl.1 hl.2 false arch value
    exact ⟨_, by rw [artStep, artInsertNoReplace, hrun]; rfl, hs'⟩
  | delete key =>
    obtain ⟨t, hrun, hs'⟩ := hs.artDelete hl
    exact ⟨_, by rw [artStep, hrun]; rfl, hs'⟩

theorem FixedReachable.sound (h : FixedReachable arch len s) : FixedSound len s :=
  Reachable.invariant_of_returns
    (fun _ hinit ↦ hinit ▸ ⟨sound_init, fun _ hk ↦ absurd rfl hk⟩)
    (fun _ _ hs hl ↦ artStep_returns hs hl) h

theorem FixedReachable.reachable (h : FixedReachable arch len s) : ArtReachable arch s := by
  induction h with
  | init hinit => exact .init hinit
  | @step s s' op h hl hstep ih =>
    have hs : FixedSound len s := FixedReachable.sound h
    refine ih.step ?_ hstep
    cases op with
    | insert fuel key value => exact ⟨hs.fueled hl.1 hl.2, hs.separate hl.1⟩
    | insertNoReplace fuel key value => exact ⟨hs.fueled hl.1 hl.2, hs.separate hl.1⟩
    | delete key => trivial

def fillArt (arch : Arch) (fuel : ℕ) (t : ArtTree V) (keys : List (List (BitVec 8)))
    (value : Option V) : Exec (ArtTree V) :=
  keys.foldlM (fun t key ↦ do
    let (t, _) ← artInsert arch fuel t key value
    return t) t

theorem fillArt_reachable (h : FixedReachable arch len s) (hfuel : len < fuel)
    (keys : List (List (BitVec 8))) (hkeys : ∀ k ∈ keys, k.length = len) (value : Option V) :
    ∃ s', fillArt arch fuel s.tree keys value = .ok s'.tree ∧ FixedReachable arch len s' ∧
      ∀ k, s'.map k = if k ∈ keys then some value else s.map k := by
  induction keys generalizing s with
  | nil => exact ⟨s, rfl, h, by simp⟩
  | cons key keys ih =>
    have hkey : key.length = len := hkeys key List.mem_cons_self
    obtain ⟨t, hrun, -⟩ := h.sound.insertWith hkey hfuel true arch value
    have hstep : FixedReachable arch len ⟨t, insertMap true s.map key value⟩ :=
      h.step (l := .insert fuel key value) ⟨hkey, hfuel⟩ (by rw [artStep, artInsert, hrun]; rfl)
    obtain ⟨s', hfill, hreach, hmap⟩ := ih hstep fun k hk ↦ hkeys k (List.mem_cons_of_mem key hk)
    refine ⟨s', ?_, hreach, fun k ↦ ?_⟩
    · rw [fillArt, List.foldlM_cons, artInsert, hrun]
      exact hfill
    · have hmap' : insertMap true s.map key value k = if k = key then some value else s.map k := by
        rw [insertMap, update_apply, if_pos rfl]
      rw [hmap]
      dsimp only
      rw [hmap']
      by_cases hk : k = key
      · simp [hk]
      · simp [hk]

end FixedLength

end RadixBench.Art
