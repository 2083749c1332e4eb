import RadixBench.WideRadix.Emptiness
import RadixBench.WideRadix.FailureQueries
import RadixBench.WideRadix.QueryRuns

namespace RadixBench.WideRadix

open Foundation Memory

def InsertLegal (A : Allocator) (s : WideState) : WideOp → Prop
  | .insert key value => WideLegal A s (.insert key value)
  | .delete _ => False

abbrev InsertReachable (A : Allocator) := Reachable (WideInitial A) (InsertLegal A) (wideStep A)

theorem InsertReachable.wideReachable {A : Allocator} {s : WideState} (h : InsertReachable A s) :
    WideReachable A s := by
  refine h.mono fun s op hl ↦ ?_
  cases op with
  | insert key value => exact hl
  | delete key => exact hl.elim

theorem InsertReachable.mem_inserted {A : Allocator} {s : WideState} (h : InsertReachable A s)
    (key : BitVec 64) : key ∈ s.inserted ↔ s.map key ≠ none := by
  induction h generalizing key with
  | init h =>
    obtain ⟨_, _, _, _, hmap, hins⟩ := h
    rw [hmap, hins]
    simp
  | @step s s' op _ hl hstep ih =>
    cases op with
    | insert new value =>
      obtain ⟨_, -, heq⟩ := bind_eq_ok.mp hstep
      cases heq
      dsimp only
      rw [List.mem_cons, ih, Function.update_apply]
      by_cases hkey : key = new
      · simp [hkey]
      · simp [hkey]
    | delete _ => exact hl.elim

def SharesBytes (n : ℕ) (key key' : BitVec 64) : Prop :=
  key >>> (8 * (8 - n)) = key' >>> (8 * (8 - n))

/-- A failure of the insertion of `key` at `level` has left no new node, or none that can be
noticed: every greater key shares fewer bytes with `key` than some other key does. -/
def LeavesNoTrace (s : WideState) (key : BitVec 64) (level : ℕ) : Prop :=
  level = 0 ∨ (∃ k, s.map k ≠ none ∧ SharesBytes level k key) ∨
    (∃ k, s.map k ≠ none) ∧ ∀ k, s.map k ≠ none → key < k →
      ∃ n ≤ 8, (∃ k', s.map k' ≠ none ∧ SharesBytes n k' key) ∧ ¬ SharesBytes n k key

structure Unobservable (tree : WideRadixTree) (m m' : Memory WideRadixNode) : Prop where
  lookup : ∀ key, wideRadixLookup m' tree key = wideRadixLookup m tree key
  findGeq : ∀ key, wideRadixFindGeq m' tree key = wideRadixFindGeq m tree key
  empty : wideRadixEmpty m' tree = wideRadixEmpty m tree
  value : ∀ key leaf, wideRadixLookup m tree key = .ok (some leaf) ∨
    wideRadixFindGeq m tree key = .ok (some leaf) → (m'.cell leaf).value = (m.cell leaf).value

theorem sharesBytes_iff {n : ℕ} (hn : n ≤ 8) {key key' : BitVec 64} :
    SharesBytes n key key' ↔ (digits key' 8).take n <+: digits key 8 := by
  have hl : n + (8 - n) = 8 := by omega
  have hlen : ((digits key' 8).take n).length = n := by
    rw [List.length_take, length_digits]
    omega
  have htake := (prefix_key_iff hl hlen key').mp (List.take_prefix _ _)
  rw [SharesBytes, prefix_key_iff hl hlen, htake, shift_eq_iff hl]
  exact eq_comm

section

variable {A : Allocator} {s : WideState} {root : ℕ}

theorem InsertReachable.hasNode_iff (h : InsertReachable A s) (hs : Stores s root)
    {p : List (BitVec 8)} (hp : p.length ≤ 8) :
    HasNode s.memory root p ↔ p = [] ∨ ∃ key, s.map key ≠ none ∧ p <+: digits key 8 := by
  rcases Nat.lt_or_eq_of_le hp with hlt | hlen
  · simp only [hs.hasNode p hlt, h.mem_inserted]
  · obtain ⟨key, -, rfl⟩ := exists_digits le_rfl hlen
    rw [hs.hasNode_key]
    constructor
    · exact fun hkey ↦ .inr ⟨key, hkey, List.prefix_rfl⟩
    · rintro (hnil | ⟨key', hkey', hpre⟩)
      · rw [hnil] at hlen
        cases hlen
      · have heq := hpre.eq_of_length (by rw [length_digits, length_digits])
        rwa [digits_eq_iff.mp heq]

theorem InsertReachable.exists_child (h : InsertReachable A s) (hs : Stores s root)
    {key₀ : BitVec 64} (hkey₀ : s.map key₀ ≠ none) {q : List (BitVec 8)}
    (hq : HasNode s.memory root q) (hlen : q.length < 8) :
    ∃ f, HasNode s.memory root (q ++ [f]) := by
  have hkey : ∃ key, s.map key ≠ none ∧ q <+: digits key 8 := by
    rcases (h.hasNode_iff hs hlen.le).mp hq with rfl | hkey
    · exact ⟨key₀, hkey₀, List.nil_prefix⟩
    · exact hkey
  obtain ⟨key, hmap, hpre⟩ := hkey
  obtain ⟨f, hf⟩ := exists_digit hpre (by rwa [length_digits])
  obtain ⟨y, hy⟩ := (hs.hasNode_key key).mpr hmap
  exact ⟨f, hy.hasNode_prefix hf⟩

theorem LeavesNoTrace.harmless (h : InsertReachable A s) (hs : Stores s root) {key : BitVec 64}
    {level : ℕ} (hlevel : level ≤ 7) (htrace : LeavesNoTrace s key level) :
    Harmless s.memory root ((digits key 8).take level) := by
  rcases htrace with rfl | ⟨k, hk, hshare⟩ | ⟨⟨k₀, hk₀⟩, hall⟩
  · exact .of_hasNode ⟨root, at_nil⟩
  · refine .of_hasNode ((h.hasNode_iff hs ?_).mpr (.inr ⟨k, hk, ?_⟩))
    · rw [List.length_take, length_digits]
      omega
    · exact (sharesBytes_iff (by omega)).mp hshare
  · refine ⟨fun {q b f} hpre hnew hf ↦ ?_, fun _ q hq hlen ↦ h.exists_child hs hk₀ hq hlen⟩
    have hqb : q ++ [b] <+: digits key 8 := hpre.trans (List.take_prefix _ _)
    have hqlen := hqb.length_le
    rw [List.length_append, List.length_singleton, length_digits] at hqlen
    by_contra hfb
    have hne : f ≠ b := by
      rintro rfl
      exact hnew hf
    have hbf : b < f := by
      rw [BitVec.lt_def] at hfb ⊢
      have hne' : f.toNat ≠ b.toNat := fun heq ↦ hne (BitVec.eq_of_toNat_eq heq)
      omega
    obtain ⟨k, hk, hfk⟩ := ((h.hasNode_iff hs (by simpa using hqlen)).mp hf).resolve_left (by simp)
    have hlt : key < k := by
      have hdigits := ofDigits_lt_of_digit hqb hfk
        (by rw [length_digits, length_digits]) hbf
      rwa [ofDigits_key, ofDigits_key, ← BitVec.lt_def] at hdigits
    obtain ⟨n, hn, ⟨k', hk', hshare⟩, hnot⟩ := hall k hk hlt
    rw [sharesBytes_iff hn] at hshare hnot
    -- `k` shares the bytes `q` with `key`, so `k'` shares more than these.
    have hqn : q.length < n := by
      by_contra hle
      refine hnot (List.IsPrefix.trans ?_ ((List.prefix_append q [f]).trans hfk))
      have hqk := (List.prefix_append q [b]).trans hqb
      rw [List.prefix_iff_eq_take.mp hqk]
      exact List.take_prefix_take_left (by omega)
    have hqk' : q ++ [b] <+: (digits key 8).take n := by
      refine List.prefix_take_iff.mpr ⟨hqb, ?_⟩
      rw [List.length_append, List.length_singleton]
      exact hqn
    exact hnew ((h.hasNode_iff hs (by simpa using hqlen)).mpr (.inr ⟨k', hk', hqk'.trans hshare⟩))

theorem InsertReachable.findGeqFrom_some (h : InsertReachable A s) (hs : Stores s root)
    {key k : BitVec 64} (hk : s.map k ≠ none) (hlt : key < k)
    (hmost : ∀ n ≤ 8, ∀ k', s.map k' ≠ none → SharesBytes n k' key → SharesBytes n k key) :
    ∃ leaf, findGeqFrom s.memory key 7 root = .ok (some leaf) := by
  obtain ⟨leaf, hrun, -⟩ | ⟨q, d, -, hq, hnone⟩ | ⟨q, d, e, t, w, hrun, -, ht⟩ :=
    findGeqFrom_outcome hs.sound key
  · exact ⟨leaf, hrun⟩
  · exfalso
    have hqkey : q <+: digits key 8 := (List.prefix_append q [d]).trans hq.pre
    have hqlen := hq.length_lt (length_digits key 8)
    have hqk : q <+: digits k 8 := by
      rcases (h.hasNode_iff hs hqlen.le).mp hq.hasNode with rfl | ⟨k', hk', hpre⟩
      · exact List.nil_prefix
      · have htake := List.prefix_iff_eq_take.mp hqkey
        have hshare := hmost q.length hqlen.le k' hk'
          ((sharesBytes_iff hqlen.le).mpr (htake ▸ hpre))
        rw [sharesBytes_iff hqlen.le, ← htake] at hshare
        exact hshare
    have hnode := (hs.hasNode_key k).mpr hk
    have hge : ofDigits ((digits key 8).take (digits k 8).length) ≤ ofDigits (digits k 8) := by
      rw [length_digits, List.take_of_length_le (length_digits key 8).le, ofDigits_key,
        ofDigits_key]
      exact Nat.le_of_lt hlt
    obtain ⟨f, hf, hdf⟩ := hq.exists_greater (length_digits key 8) hnode hqk
      (by rwa [length_digits]) hge
    obtain ⟨y, hy⟩ := hnode
    exact hnone f hdf (hy.hasNode_prefix hf)
  · have hlen : t.length = 8 := by
      by_contra hne
      have hle := ht.leftmost.hasNode.length
      obtain ⟨f, hf⟩ := h.exists_child hs hk ht.leftmost.hasNode (by omega)
      exact ht.leftmost.stuck (by omega) f hf
    rw [if_pos hlen] at hrun
    exact ⟨w, hrun⟩

theorem Extended.at_full {m m' : Memory WideRadixNode} {path t : List (BitVec 8)}
    (h : Extended m m' root path) (hshort : path.length ≤ 7) (hlen : t.length = 8) {y : ℕ} :
    At m' root t y ↔ At m root t y := by
  refine ⟨fun hy ↦ ?_, h.at_mono⟩
  have hnode : HasNode m root t := by
    by_contra hnew
    have hle := (h.prefix_of_new ⟨y, hy⟩ hnew).length_le
    omega
  exact (h.at_iff hnode).mp hy

theorem Harmless.unobservable {tree : WideRadixTree} {m m' : Memory WideRadixNode}
    {path : List (BitVec 8)} (hroot : tree.root = some root) (h : Sound m root)
    (h' : Sound m' root) (hext : Extended m m' root path) (hshort : path.length ≤ 7)
    (hharm : Harmless m root path) : Unobservable tree m m' := by
  have hlookup : ∀ {m}, Sound m root → ∀ key,
      wideRadixLookup m tree key = .ok (walk (next m) root (digits key 8)) := by
    intro m h key
    rw [wideRadixLookup, hroot, require_some, ok_bind, lookupFrom_walk key 7 h at_nil rfl,
      List.nil_append]
  have hgeq : ∀ m key, wideRadixFindGeq m tree key = findGeqFrom m key 7 root := by
    intro m key
    rw [wideRadixFindGeq, hroot, require_some, ok_bind]
  refine ⟨fun key ↦ ?_, fun key ↦ ?_, ?_, fun key leaf hleaf ↦ ?_⟩
  · rw [hlookup h', hlookup h, Except.ok.injEq]
    refine Option.ext fun y ↦ ?_
    have hat := hext.at_full (y := y) hshort (length_digits key 8)
    rwa [At, At, and_iff_right (length_digits key 8).le,
      and_iff_right (length_digits key 8).le] at hat
  · rw [hgeq, hgeq, findGeqFrom_extended h h' hext hshort hharm]
  · rw [Bool.eq_iff_iff, wideRadixEmpty_iff hroot h', wideRadixEmpty_iff hroot h]
    refine ⟨fun hall d hd ↦ hall d (hext.mono hd), fun hall d hd ↦ ?_⟩
    have hpath := hext.prefix_of_new hd (hall d)
    have hnew : ¬ HasNode m root path := by
      rintro ⟨x, hx⟩
      exact hall d (hx.hasNode_prefix hpath)
    obtain ⟨f, hf⟩ := hharm.filled hnew [] ⟨root, at_nil⟩ (Nat.zero_lt_succ 7)
    exact hall f hf
  · rw [hlookup h, hgeq] at hleaf
    rcases hleaf with hleaf | hleaf
    · exact hext.value ⟨(length_digits key 8).le, Except.ok.inj hleaf⟩
    · obtain ⟨y, hrun, hy⟩ | ⟨-, -, hrun, -⟩ | ⟨-, -, -, t, w, hrun, hw, -⟩ :=
        findGeqFrom_outcome h key
      · rw [hrun, Except.ok.injEq, Option.some.injEq] at hleaf
        exact hleaf ▸ hext.value hy
      · rw [hrun] at hleaf
        cases hleaf
      · rw [hrun, Except.ok.injEq, Option.ite_none_right_eq_some, Option.some.injEq] at hleaf
        exact hleaf.2 ▸ hext.value hw

def FailsAtLevel (A : Allocator) (s : WideState) (key : BitVec 64) (level : ℕ) : Prop :=
  ∃ root, s.tree.root = some root ∧ FailsAt A key 7 s.memory root level

/-- A failed insertion is not noticed afterwards exactly when it leaves no trace. -/
theorem wideRadixInsert_unobservable_iff (A : Allocator) {s : WideState}
    (h : InsertReachable A s) (key value : BitVec 64) {level : ℕ}
    (hfail : FailsAtLevel A s key level) : ∃ m',
      wideRadixInsert A s.memory s.tree key value = .ok (false, m') ∧
        (Unobservable s.tree s.memory m' ↔ LeavesNoTrace s key level) := by
  obtain ⟨root, hs⟩ := h.wideReachable.stores
  obtain ⟨root', hroot', hfail⟩ := hfail
  obtain rfl : root' = root := Option.some.inj (hroot'.symm.trans hs.root_eq)
  obtain ⟨-, hlevel, m', hrun, hs', hext⟩ := insertFrom_failed value hfail hs.sound at_nil rfl
  rw [List.nil_append] at hext
  set path := (digits key 8).take level with hpath
  have hlen : path.length = level := by
    rw [hpath, List.length_take, length_digits]
    omega
  refine ⟨m', by rw [wideRadixInsert, hroot', require_some, ok_bind, hrun], fun hun ↦ ?_,
    fun htrace ↦ (htrace.harmless h hs hlevel).unobservable hroot' hs.sound hs' hext (by omega)⟩
  by_contra htrace
  simp only [LeavesNoTrace, not_or, not_and, not_forall, not_exists] at htrace
  obtain ⟨hpos, hapart, hmore⟩ := htrace
  have hnew : ¬ HasNode s.memory root' path := by
    rw [h.hasNode_iff hs (by omega)]
    rintro (hnil | ⟨k, hk, hpre⟩)
    · rw [hnil] at hlen
      exact hpos hlen.symm
    · exact hapart k hk ((sharesBytes_iff (by omega)).mpr hpre)
  by_cases hsome : ∃ k, s.map k ≠ none
  · -- The search for the key itself has lost its answer.
    obtain ⟨k, hk, hlt, hmost⟩ := hmore hsome
    obtain ⟨leaf, hfound⟩ := h.findGeqFrom_some hs hk hlt
      fun n hn k' hk' hshare ↦ by_contra fun hnot ↦ hmost n hn ⟨k', hk', hshare⟩ hnot
    have hlost := findGeqFrom_dead hs' hext hnew (by omega) (List.take_prefix level (digits key 8))
    have hsame := hun.findGeq key
    rw [wideRadixFindGeq, wideRadixFindGeq, hroot', require_some, ok_bind, ok_bind, hfound,
      hlost] at hsame
    cases hsame
  · -- The tree no longer counts as empty.
    have hins : s.inserted = [] := by
      by_contra hne
      obtain ⟨k, hk⟩ := List.exists_mem_of_ne_nil _ hne
      exact hsome ⟨k, (h.mem_inserted k).mp hk⟩
    have hempty := hun.empty.trans (hs.empty_iff.mpr hins)
    obtain ⟨d, hd⟩ := exists_digit (List.nil_prefix (l := path)) (by simp; omega)
    exact (wideRadixEmpty_iff hroot' hs').mp hempty d ((hext.hasNode _).mpr (.inr hd))

end

def tight : WideState :=
  let (tree, m) := wideRadixInit (bumpAllocator.failFrom 10) Memory.empty 64
  ⟨tree, m, fun _ ↦ none, []⟩

/-- The only key is 2 ^ 57, and one more node can be allocated. -/
def lone : WideState := afterInsert (bumpAllocator.failFrom 10) tight 0x0200000000000000 1

theorem lone_reachable : InsertReachable (bumpAllocator.failFrom 10) lone := by
  have htight : InsertReachable (bumpAllocator.failFrom 10) tight :=
    .init ⟨Memory.empty, 64, rfl, by decide +kernel, rfl, rfl⟩
  have hinsert : InsertLegal (bumpAllocator.failFrom 10) tight (.insert 0x0200000000000000 1) ∧
      wideStep (bumpAllocator.failFrom 10) tight (.insert 0x0200000000000000 1) = .ok lone :=
    afterInsert_step (by decide +kernel) (by decide +kernel)
  exact .step htight hinsert.1 hinsert.2

def loneFailed : Memory WideRadixNode :=
  ((wideRadixInsert (bumpAllocator.failFrom 10) lone.memory lone.tree 5 1).toOption.map
    (·.2)).getD lone.memory

theorem lone_failed : wideRadixInsert (bumpAllocator.failFrom 10) lone.memory lone.tree 5 1 =
    .ok (false, loneFailed) := by
  have hfalse : (wideRadixInsert (bumpAllocator.failFrom 10) lone.memory lone.tree 5 1).toOption.map
      (·.1) = some false := by decide +kernel
  rw [loneFailed]
  cases hrun : wideRadixInsert (bumpAllocator.failFrom 10) lone.memory lone.tree 5 1 with
  | error e =>
    rw [hrun] at hfalse
    cases hfalse
  | ok r =>
    rw [hrun] at hfalse
    cases r
    cases hfalse
    rfl

theorem lone_failsAtLevel : ∃ level, FailsAtLevel (bumpAllocator.failFrom 10) lone 5 level := by
  obtain ⟨root, hs⟩ := lone_reachable.wideReachable.stores
  have hrun := lone_failed
  rw [wideRadixInsert, hs.root_eq, require_some, ok_bind] at hrun
  obtain ⟨level, hfail⟩ := exists_failsAt hs.sound at_nil rfl hrun
  exact ⟨level, root, hs.root_eq, hfail⟩

theorem wideRadixInsert_unobservable_iff_lone : ∃ level m',
    wideRadixInsert (bumpAllocator.failFrom 10) lone.memory lone.tree 5 1 = .ok (false, m') ∧
      (Unobservable lone.tree lone.memory m' ↔ LeavesNoTrace lone 5 level) := by
  obtain ⟨level, hfail⟩ := lone_failsAtLevel
  exact ⟨level, wideRadixInsert_unobservable_iff _ lone_reachable 5 1 hfail⟩

/-- A range query no longer finds a key that is present, after an insertion has failed. -/
theorem wideRadixInsert_hides_key : ∃ A s key value level m', InsertReachable A s ∧
    FailsAtLevel A s key level ∧
    wideRadixInsert A s.memory s.tree key value = .ok (false, m') ∧
    (∃ leaf, wideRadixFindGeq s.memory s.tree key = .ok (some leaf)) ∧
    wideRadixFindGeq m' s.tree key = .ok none := by
  obtain ⟨level, hfail⟩ := lone_failsAtLevel
  have hlost : wideRadixFindGeq loneFailed lone.tree 5 = .ok none := by decide +kernel
  have hfound : ((wideRadixFindGeq lone.memory lone.tree 5).toOption.bind id).isSome = true := by
    decide +kernel
  refine ⟨_, lone, 5, 1, level, loneFailed, lone_reachable, hfail, lone_failed, ?_, hlost⟩
  cases hrun : wideRadixFindGeq lone.memory lone.tree 5 with
  | error e =>
    rw [hrun] at hfound
    cases hfound
  | ok leaf =>
    cases leaf with
    | none =>
      rw [hrun] at hfound
      cases hfound
    | some leaf => exact ⟨leaf, rfl⟩

end RadixBench.WideRadix
