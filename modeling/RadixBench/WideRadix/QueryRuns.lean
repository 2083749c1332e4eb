import RadixBench.WideRadix.LowerBound
import RadixBench.WideRadix.Runs

namespace RadixBench.WideRadix

open Foundation Memory

def Candidate (s : WideState) (query key : BitVec 64) : Prop := s.map key ≠ none ∧ query ≤ key

instance (s : WideState) (query key : BitVec 64) : Decidable (Candidate s query key) :=
  inferInstanceAs (Decidable (_ ∧ _))

/-- What a query for `query` has to return: the pointer to the value of the least present
key from there on, or `NULL` when there is none. -/
def AnswersGeq (s : WideState) (query : BitVec 64) (r : Exec (Option ℕ)) : Prop :=
  (∃ key leaf, r = .ok (some leaf) ∧ Candidate s query key ∧
    (∀ key', Candidate s query key' → key ≤ key') ∧
    wideRadixLookup s.memory s.tree key = .ok (some leaf) ∧
    s.map key = some (s.memory.cell leaf).value) ∨
  (r = .ok none ∧ ∀ key, ¬ Candidate s query key)

/-- What the insertion of `inserted` has left behind is no dead end for `query`: the
leading bytes that both share are also those of a candidate, and if the first seven
bytes of `inserted` are greater than those of `query`, some candidate has no greater ones. -/
structure NoDeadEnd (s : WideState) (query inserted : BitVec 64) : Prop where
  shared : ∀ l, 1 ≤ l → l ≤ 8 → inserted >>> (8 * l) = query >>> (8 * l) →
    ∃ key, Candidate s query key ∧ key >>> (8 * l) = query >>> (8 * l)
  between : query >>> 8 < inserted >>> 8 →
    ∃ key, Candidate s query key ∧ key >>> 8 ≤ inserted >>> 8

def QueryClear (s : WideState) (query : BitVec 64) : Prop :=
  s.map query ≠ none ∨ (∀ key, ¬ Candidate s query key) ∨
    ∀ inserted ∈ s.inserted, NoDeadEnd s query inserted

theorem ofDigits_key (key : BitVec 64) : ofDigits (digits key 8) = key.toNat := by
  rw [ofDigits_digits]
  exact Nat.mod_eq_of_lt key.isLt

theorem prefix_key_iff {p : List (BitVec 8)} {n l : ℕ} (hl : n + l = 8) (hn : p.length = n)
    (key : BitVec 64) : p <+: digits key 8 ↔ p = digits (key >>> (8 * l)) n := by
  have htake := take_digits key n l
  rw [hl] at htake
  rw [List.prefix_iff_eq_take, hn, htake]

theorem shift_eq_iff {n l : ℕ} (hl : n + l = 8) {key key' : BitVec 64} :
    digits (key >>> (8 * l)) n = digits (key' >>> (8 * l)) n ↔
      key >>> (8 * l) = key' >>> (8 * l) := by
  have hlt : ∀ key : BitVec 64, (key >>> (8 * l)).toNat < 256 ^ n := by
    intro key
    have hkey : key.toNat < 256 ^ (n + l) := hl ▸ key.isLt
    rw [pow_add] at hkey
    rw [toNat_ushiftRight_byte]
    exact Nat.div_lt_of_lt_mul (by rwa [Nat.mul_comm])
  exact ⟨digits_injective (hlt key) (hlt key'), fun h ↦ by rw [h]⟩

theorem take_seven (key : BitVec 64) : ofDigits ((digits key 8).take 7) = (key >>> 8).toNat := by
  rw [ofDigits_take, ofDigits_key, length_digits]
  exact (toNat_ushiftRight_byte key 1).symm

namespace Stores

variable {s : WideState} {root : ℕ}

theorem hasNode_key (h : Stores s root) (key : BitVec 64) :
    HasNode s.memory root (digits key 8) ↔ s.map key ≠ none := by
  rw [← stored_isSome (length_digits key 8).le, h.stored, Option.isSome_iff_ne_none]

theorem from_iff (h : Stores s root) {query : BitVec 64} {t : List (BitVec 8)} :
    From s.memory root (digits query 8) t ↔ ∃ key, digits key 8 = t ∧ Candidate s query key := by
  constructor
  · intro ht
    obtain ⟨key, -, rfl⟩ := exists_digits le_rfl ht.length
    refine ⟨key, rfl, (h.hasNode_key key).mp ht.hasNode, ?_⟩
    have hge := ht.ge
    rwa [ofDigits_key, ofDigits_key] at hge
  · rintro ⟨key, rfl, hmap, hle⟩
    refine ⟨(h.hasNode_key key).mpr hmap, length_digits key 8, ?_⟩
    rwa [ofDigits_key, ofDigits_key]

theorem grown (h : Stores s root) : Grown s.memory root := by
  intro p hp hne hlen
  obtain ⟨key, hkey, hpre⟩ := ((h.hasNode p (by omega)).mp hp).resolve_left hne
  obtain ⟨d, hd⟩ := exists_digit hpre (by rw [length_digits]; omega)
  refine ⟨d, (h.hasNode _ ?_).mpr (.inr ⟨key, hkey, hd⟩)⟩
  rw [List.length_append, List.length_singleton]
  omega

theorem none_iff (h : Stores s root) (query : BitVec 64) :
    (∀ p, HasNode s.memory root p → p.length = 8 → ofDigits p < ofDigits (digits query 8)) ↔
      ∀ key, ¬ Candidate s query key := by
  constructor
  · intro hall key hkey
    have hfrom := h.from_iff.mpr ⟨key, rfl, hkey⟩
    have hlt := hall _ hfrom.hasNode hfrom.length
    have hge := hfrom.ge
    omega
  · intro hnone p hp hlen
    by_contra hge
    obtain ⟨key, -, hkey⟩ := h.from_iff.mp ⟨hp, hlen, Nat.not_lt.mp hge⟩
    exact hnone key hkey

theorem lookup_iff (h : Stores s root) (key : BitVec 64) (leaf : ℕ) :
    At s.memory root (digits key 8) leaf ↔
      wideRadixLookup s.memory s.tree key = .ok (some leaf) := by
  rw [h.lookup, At, and_iff_right (length_digits key 8).le, Except.ok.injEq]

theorem answers_iff (h : Stores s root) (query : BitVec 64) (r : Exec (Option ℕ)) :
    Answers s.memory root (digits query 8) r ↔ AnswersGeq s query r := by
  rw [Answers, AnswersGeq, h.none_iff]
  refine or_congr_left ?_
  constructor
  · rintro ⟨path, leaf, hr, hat, hlen, hge, hleast⟩
    obtain ⟨key, rfl, hkey⟩ := h.from_iff.mp ⟨⟨leaf, hat⟩, hlen, hge⟩
    refine ⟨key, leaf, hr, hkey, fun key' hkey' ↦ ?_, (h.lookup_iff key leaf).mp hat, ?_⟩
    · have hfrom := h.from_iff.mpr ⟨key', rfl, hkey'⟩
      have hle := hleast _ hfrom.hasNode hfrom.length hfrom.ge
      rwa [ofDigits_key, ofDigits_key] at hle
    · rw [← h.stored, stored_of_at hat]
  · rintro ⟨key, leaf, hr, hkey, hleast, hlookup, -⟩
    have hfrom := h.from_iff.mpr ⟨key, rfl, hkey⟩
    refine ⟨_, leaf, hr, (h.lookup_iff key leaf).mpr hlookup, hfrom.length, hfrom.ge,
      fun p hp hlen hge ↦ ?_⟩
    obtain ⟨key', rfl, hkey'⟩ := h.from_iff.mp ⟨hp, hlen, hge⟩
    rw [ofDigits_key, ofDigits_key]
    exact hleast key' hkey'

theorem unobstructed_iff (h : Stores s root) {query key₀ : BitVec 64}
    (hkey₀ : Candidate s query key₀) :
    Unobstructed s.memory root (digits query 8) ↔
      ∀ inserted ∈ s.inserted, NoDeadEnd s query inserted := by
  constructor
  · refine fun hun inserted hins ↦ ⟨fun l hl₁ hl₈ heq ↦ ?_, fun hlt ↦ ?_⟩
    · have hl : (8 - l) + l = 8 := by omega
      have hlen := length_digits (query >>> (8 * l)) (8 - l)
      have hpre := (prefix_key_iff hl hlen inserted).mpr (by rw [heq])
      have hnode := (h.hasNode _ (by omega)).mpr (.inr ⟨inserted, hins, hpre⟩)
      obtain ⟨t, ht, hpt⟩ :=
        hun.shared _ hnode (by omega) ((prefix_key_iff hl hlen query).mpr rfl)
      obtain ⟨key, rfl, hkey⟩ := h.from_iff.mp ht
      exact ⟨key, hkey, ((shift_eq_iff hl).mp ((prefix_key_iff hl hlen key).mp hpt)).symm⟩
    · have hlen : ((digits inserted 8).take 7).length = 7 := by
        rw [List.length_take, length_digits]
        rfl
      have hnode := (h.hasNode _ (by omega)).mpr (.inr ⟨inserted, hins, List.take_prefix 7 _⟩)
      obtain ⟨t, ht, hle⟩ := hun.between _ hnode hlen (by rwa [take_seven, take_seven])
      obtain ⟨key, rfl, hkey⟩ := h.from_iff.mp ht
      rw [take_seven, take_seven] at hle
      exact ⟨key, hkey, hle⟩
  · refine fun hall ↦ ⟨fun p hp hlen hpre ↦ ?_, fun u hu hlen hlt ↦ ?_⟩
    · rcases (h.hasNode p (by omega)).mp hp with rfl | ⟨inserted, hins, hpre'⟩
      · exact ⟨_, h.from_iff.mpr ⟨key₀, rfl, hkey₀⟩, List.nil_prefix⟩
      · have hl : p.length + (8 - p.length) = 8 := by omega
        have hquery := (prefix_key_iff hl rfl query).mp hpre
        have heq := (shift_eq_iff hl).mp (((prefix_key_iff hl rfl inserted).mp hpre').symm.trans hquery)
        obtain ⟨key, hkey, hshift⟩ := (hall inserted hins).shared _ (by omega) (by omega) heq
        exact ⟨_, h.from_iff.mpr ⟨key, rfl, hkey⟩, (prefix_key_iff hl rfl key).mpr
          (hquery.trans ((shift_eq_iff hl).mpr hshift.symm))⟩
    · have hne : u ≠ [] := List.ne_nil_of_length_pos (by omega)
      obtain ⟨inserted, hins, hpre⟩ := ((h.hasNode u (by omega)).mp hu).resolve_left hne
      rw [List.prefix_iff_eq_take, hlen] at hpre
      rw [hpre, take_seven, take_seven] at hlt
      obtain ⟨key, hkey, hle⟩ := (hall inserted hins).between hlt
      refine ⟨_, h.from_iff.mpr ⟨key, rfl, hkey⟩, ?_⟩
      rwa [hpre, take_seven, take_seven]

end Stores

/-- In every run, a query is answered rightly exactly when no dead end that an insertion has
left behind lies in its way. -/
theorem wideRadixFindGeq_answers_iff (A : Allocator) {s : WideState} (h : WideReachable A s)
    (query : BitVec 64) :
    AnswersGeq s query (wideRadixFindGeq s.memory s.tree query) ↔ QueryClear s query := by
  obtain ⟨root, hs⟩ := WideReachable.stores h
  rw [wideRadixFindGeq, hs.root_eq, require_some, ok_bind, ← hs.answers_iff,
    WideRadix.answers_iff hs.sound hs.grown, hs.hasNode_key, hs.none_iff, QueryClear]
  refine or_congr_right ?_
  by_cases hnone : ∀ key, ¬ Candidate s query key
  · exact iff_of_true (.inl hnone) (.inl hnone)
  · push Not at hnone
    obtain ⟨key₀, hkey₀⟩ := hnone
    exact or_congr_right (hs.unobstructed_iff hkey₀)

def apart : WideState := afterInsert bumpAllocator single 0x0100000000000000 1

theorem apart_reachable : WideReachable bumpAllocator apart :=
  single_reachable.afterInsert (by decide +kernel) (by decide +kernel)

theorem wideRadixFindGeq_answers_iff_apart :
    AnswersGeq apart 6 (wideRadixFindGeq apart.memory apart.tree 6) ↔ QueryClear apart 6 :=
  wideRadixFindGeq_answers_iff bumpAllocator apart_reachable 6

/-- A query between two keys that have no byte in common with the greater one is answered
with `NULL`. -/
theorem wideRadixFindGeq_gives_up :
    ∃ s query, WideReachable bumpAllocator s ∧ (∃ key, Candidate s query key) ∧
      wideRadixFindGeq s.memory s.tree query = .ok none ∧
      ¬ AnswersGeq s query (wideRadixFindGeq s.memory s.tree query) := by
  have hrun : wideRadixFindGeq apart.memory apart.tree 6 = .ok none := by decide +kernel
  have hkey : Candidate apart 6 0x0100000000000000 := by decide +kernel
  refine ⟨apart, 6, apart_reachable, ⟨_, hkey⟩, hrun, ?_⟩
  rw [hrun]
  rintro (⟨key, leaf, heq, -⟩ | ⟨-, hnone⟩)
  · cases heq
  · exact hnone _ hkey

end RadixBench.WideRadix
