import RadixBench.Art.Runs

namespace RadixBench.Art

open Foundation Function

variable {V : Type} {arch : Arch} {s : ArtState V} {key : List (BitVec 8)} {fuel len : ℕ}

def after (arch : Arch) (s : ArtState V) (op : ArtOp V) : ArtState V :=
  (artStep arch s op).toOption.getD s

theorem FixedReachable.after (h : FixedReachable arch len s) (op : ArtOp V)
    (hl : FixedLegal len s op) : FixedReachable arch len (after arch s op) := by
  obtain ⟨s', hstep, -⟩ := artStep_returns h.sound hl
  have heq : Art.after arch s op = s' := by
    rw [Art.after, hstep]
    rfl
  exact heq ▸ .step h hl hstep

def pair (arch : Arch) : ArtState Unit :=
  after arch (after arch ⟨artTreeInit, fun _ ↦ none⟩ (.insert 3 [1, 2] (some ())))
    (.insert 3 [1, 3] (some ()))

theorem pair_reachable (arch : Arch) : FixedReachable arch 2 (pair arch) :=
  (FixedReachable.after (.init rfl) (.insert 3 [1, 2] (some ())) ⟨rfl, by decide⟩).after
    (.insert 3 [1, 3] (some ())) ⟨rfl, by decide⟩

theorem pair_shorter (arch : Arch) : ∀ k, (pair arch).map k ≠ none → k.length < 3 := fun k hk ↦ by
  rw [(pair_reachable arch).sound.length_eq k hk]
  decide

theorem pair_stored : (pair .x86).map [1, 2] = some (some ()) := by decide +kernel

/-- A search gives the stored value, or `NULL`, or it reads behind the end of the key. That takes a
key which is not longer than what two stored keys share, and a stored key that another one goes on
from. -/
theorem artSearch_refines (h : ArtReachable arch s) (key : List (BitVec 8)) :
    (artSearch s.tree key = .ok (s.map key).join ∨
      RunsPast s.map key ∧ artSearch s.tree key = .error .indexOutOfRange) ∧
    (s.map key ≠ none →
      (artSearch s.tree key = .error .indexOutOfRange ↔ Forks s.map key)) := by
  rw [artSearch]
  rcases artSearchFrom_root h.sound.holds key with ⟨hone, hrun⟩ | ⟨hforks, hpast, hrun⟩
  · exact ⟨.inl hrun, fun hkey ↦ iff_of_false (by rw [hrun]; nofun) (hone hkey)⟩
  · exact ⟨.inr ⟨hpast, hrun⟩, fun hkey ↦ iff_of_true hrun (hforks hkey)⟩

theorem artSearch_refines_pair : artSearch (pair .x86).tree [1, 2] = .ok (some ()) ∧
    artSearch (pair .x86).tree [1, 2] ≠ .error .indexOutOfRange := by
  have hstored : (pair .x86).map [1, 2] ≠ none := by
    rw [pair_stored]
    exact Option.some_ne_none _
  obtain ⟨hrun, hiff⟩ := artSearch_refines (pair_reachable .x86).reachable [1, 2]
  have hreturns := mt (hiff hstored).mp ((pair_reachable .x86).sound.not_forks rfl)
  refine ⟨(hrun.resolve_right fun h ↦ hreturns h.2).trans ?_, hreturns⟩
  rw [pair_stored]
  rfl

/-- Both ways of inserting read behind the end of the key when two stored keys start with it, and
only then. Otherwise they give the value that was there, and they lead to the changed map unless
the key and a stored one differ in zeros at the end. -/
theorem artInsert_refines (h : ArtReachable arch s) (hfuel : Fueled s.map fuel key)
    (value : Option V) :
    (¬ Forks s.map key →
      (∃ t, artInsert arch fuel s.tree key value = .ok (t, (s.map key).join) ∧
        (Separate s.map key → ArtReachable arch ⟨t, update s.map key (some value)⟩)) ∧
      ∃ t, artInsertNoReplace arch fuel s.tree key value = .ok (t, (s.map key).join) ∧
        (Separate s.map key →
          ArtReachable arch ⟨t, update s.map key (some ((s.map key).getD value))⟩)) ∧
    (Forks s.map key →
      artInsert arch fuel s.tree key value = .error .indexOutOfRange ∧
        artInsertNoReplace arch fuel s.tree key value = .error .indexOutOfRange) := by
  refine ⟨fun hone ↦ ⟨?_, ?_⟩, fun hforks ↦ ⟨?_, ?_⟩⟩
  · rcases insertWith_outcome h.sound hfuel true arch value with ⟨-, t, hrun, -⟩ | ⟨hforks, -⟩
    · refine ⟨t, hrun, fun hsep ↦ h.step (l := .insert fuel key value) ⟨hfuel, hsep⟩ ?_⟩
      rw [artStep, artInsert, hrun]
      rfl
    · exact absurd hforks hone
  · rcases insertWith_outcome h.sound hfuel false arch value with ⟨-, t, hrun, -⟩ | ⟨hforks, -⟩
    · refine ⟨t, hrun, fun hsep ↦ h.step (l := .insertNoReplace fuel key value) ⟨hfuel, hsep⟩ ?_⟩
      rw [artStep, artInsertNoReplace, hrun]
      rfl
    · exact absurd hforks hone
  · rcases insertWith_outcome h.sound hfuel true arch value with ⟨hone, -⟩ | ⟨-, hrun⟩
    · exact absurd hforks hone
    · exact hrun
  · rcases insertWith_outcome h.sound hfuel false arch value with ⟨hone, -⟩ | ⟨-, hrun⟩
    · exact absurd hforks hone
    · exact hrun

theorem artInsert_refines_pair :
    (∃ t, artInsert .x86 4 (pair .x86).tree [1, 2, 5] none = .ok (t, none) ∧
      ArtReachable .x86 ⟨t, update (pair .x86).map [1, 2, 5] (some none)⟩) ∧
    artInsert .x86 4 (pair .x86).tree [1] none = .error .indexOutOfRange := by
  have hlen := (pair_reachable .x86).sound.length_eq
  have hfuel : ∀ key : List (BitVec 8), key.length < 4 → Fueled (pair .x86).map 4 key :=
    fun key hkey ↦ ⟨hkey, fun k hk ↦ (hlen k hk).trans_lt (by decide)⟩
  have hnone : (pair .x86).map [1, 2, 5] = none := by
    by_contra hk
    exact absurd (hlen _ hk) (by decide)
  have hone : ¬ Forks (pair .x86).map [1, 2, 5] := by
    rintro ⟨k, -, hk, -, -, hpre, -⟩
    exact absurd (hpre.length_le.trans_eq (hlen k hk)) (by decide)
  have hsep : Separate (pair .x86).map [1, 2, 5] := by
    rintro k hk - (hpre | hpre)
    · have htake := List.prefix_iff_eq_take.mp hpre
      rw [length_terminated, hlen k hk] at htake
      have hlast : k ++ [0] = [1, 2] ++ [5] := htake
      exact absurd (List.append_singleton_inj.mp hlast).2 (by decide)
    · exact absurd (hpre.length_le.trans_eq (by rw [length_terminated, hlen k hk])) (by decide)
  have hforks : Forks (pair .x86).map [1] := by
    refine ⟨[1, 2], [1, 3], ?_, ?_, by decide, by decide, by decide⟩
    · rw [pair_stored]
      exact Option.some_ne_none _
    · decide +kernel
  obtain ⟨t, hrun, hreach⟩ := ((artInsert_refines (pair_reachable .x86).reachable
    (hfuel [1, 2, 5] (by decide)) none).1 hone).1
  rw [hnone] at hrun
  exact ⟨⟨t, hrun, hreach hsep⟩, ((artInsert_refines (pair_reachable .x86).reachable
    (hfuel [1] (by decide)) none).2 hforks).1⟩

/-- A deletion gives the value that was there and leads to the map without it. It leaves the tree
alone when the key is not stored. It can read behind the end of the key where a search does. -/
theorem artDelete_refines (h : ArtReachable arch s) (key : List (BitVec 8)) :
    ((∃ t, artDelete s.tree key = .ok (t, (s.map key).join) ∧
      ArtReachable arch ⟨t, update s.map key none⟩ ∧ (s.map key = none → t = s.tree)) ∨
    RunsPast s.map key ∧ artDelete s.tree key = .error .indexOutOfRange) ∧
    (s.map key ≠ none →
      (artDelete s.tree key = .error .indexOutOfRange ↔ Forks s.map key)) := by
  rcases artDelete_outcome h.sound key with ⟨t, hone, hrun, -, -, hsame⟩ | ⟨hforks, hpast, hrun⟩
  · refine ⟨.inl ⟨t, hrun, h.step (l := .delete key) trivial ?_, hsame⟩, fun hkey ↦
      iff_of_false (by rw [hrun]; nofun) (hone hkey)⟩
    rw [artStep, hrun]
    rfl
  · exact ⟨.inr ⟨hpast, hrun⟩, fun hkey ↦ iff_of_true hrun (hforks hkey)⟩

theorem artDelete_refines_pair : ∃ t, artDelete (pair .x86).tree [1, 2] = .ok (t, some ()) ∧
    ArtReachable .x86 ⟨t, update (pair .x86).map [1, 2] none⟩ := by
  have hstored : (pair .x86).map [1, 2] ≠ none := by
    rw [pair_stored]
    exact Option.some_ne_none _
  obtain ⟨hrun, hiff⟩ := artDelete_refines (pair_reachable .x86).reachable [1, 2]
  have hreturns := mt (hiff hstored).mp ((pair_reachable .x86).sound.not_forks rfl)
  obtain ⟨t, hrun, hreach, -⟩ := hrun.resolve_right fun h ↦ hreturns h.2
  rw [pair_stored] at hrun
  exact ⟨t, hrun, hreach⟩

/-- Where all keys have one length every call returns: nothing is read outside of a key, in a
search, a deletion or an insertion, and all results are exact. -/
theorem artTree_fixedLength (h : FixedReachable arch len s) (hkey : key.length = len) :
    artSearch s.tree key = .ok (s.map key).join ∧
      (∃ t, artDelete s.tree key = .ok (t, (s.map key).join) ∧
        FixedReachable arch len ⟨t, update s.map key none⟩) ∧
      ∀ fuel value, len < fuel →
        (∃ t, artInsert arch fuel s.tree key value = .ok (t, (s.map key).join) ∧
          FixedReachable arch len ⟨t, update s.map key (some value)⟩) ∧
        ∃ t, artInsertNoReplace arch fuel s.tree key value = .ok (t, (s.map key).join) ∧
          FixedReachable arch len ⟨t, update s.map key (some ((s.map key).getD value))⟩ := by
  have hs := h.sound
  refine ⟨hs.artSearch hkey, ?_, fun fuel value hfuel ↦ ⟨?_, ?_⟩⟩
  · obtain ⟨t, hrun, -⟩ := hs.artDelete hkey
    refine ⟨t, hrun, h.step (l := .delete key) hkey ?_⟩
    rw [artStep, hrun]
    rfl
  · obtain ⟨t, hrun, -⟩ := hs.insertWith hkey hfuel true arch value
    refine ⟨t, hrun, h.step (l := .insert fuel key value) ⟨hkey, hfuel⟩ ?_⟩
    rw [artStep, artInsert, hrun]
    rfl
  · obtain ⟨t, hrun, -⟩ := hs.insertWith hkey hfuel false arch value
    refine ⟨t, hrun, h.step (l := .insertNoReplace fuel key value) ⟨hkey, hfuel⟩ ?_⟩
    rw [artStep, artInsertNoReplace, hrun]
    rfl

theorem artTree_fixedLength_pair : artSearch (pair .x86).tree [1, 2] = .ok (some ()) ∧
    (∃ t, artDelete (pair .x86).tree [1, 2] = .ok (t, some ()) ∧
      FixedReachable .x86 2 ⟨t, update (pair .x86).map [1, 2] none⟩) ∧
    ∃ t, artInsert .x86 3 (pair .x86).tree [1, 2] none = .ok (t, some ()) ∧
      FixedReachable .x86 2 ⟨t, update (pair .x86).map [1, 2] (some none)⟩ := by
  obtain ⟨hsearch, hdelete, hinsert⟩ :=
    artTree_fixedLength (pair_reachable .x86) (show [1, 2].length = 2 from rfl)
  have hreplace := (hinsert 3 none (by decide)).1
  rw [pair_stored] at hsearch hdelete hreplace
  exact ⟨hsearch, hdelete, hreplace⟩

end RadixBench.Art
