import RadixBench.Foundation.Release

namespace RadixBench.Foundation

section Owns

variable {C : Type} {m m' : Memory C} {S T : List Region} {old : List Region} {r r' : Region}
  {a n : ℕ}

/-- The regions in `S` are live, each of them in a place of its own, and `old` is what is live
beside them. -/
structure Owns (m : Memory C) (S old : List Region) : Prop where
  nodup : (S.map Region.base).Nodup
  live : ∀ r ∈ S, r ∈ m.live
  pos : ∀ r ∈ S, 0 < r.size
  rest : Rest m {a | a ∈ S.map Region.base} old

def Keeps (m m' : Memory C) (F : List Region) : Prop := ∀ r ∈ F, m'.cell r.base = m.cell r.base

theorem Keeps.refl (m : Memory C) (F : List Region) : Keeps m m F := fun _ _ ↦ rfl

theorem Keeps.trans {m'' : Memory C} {F : List Region} (h : Keeps m m' F) (h' : Keeps m' m'' F) :
    Keeps m m'' F := fun r hr ↦ (h' r hr).trans (h r hr)

theorem Keeps.tail {F : List Region} (h : Keeps m m' (r :: F)) : Keeps m m' F :=
  fun q hq ↦ h q (List.mem_cons_of_mem r hq)

theorem Keeps.left {F G : List Region} (h : Keeps m m' (F ++ G)) : Keeps m m' F :=
  fun q hq ↦ h q (List.mem_append_left G hq)

theorem Keeps.right {F G : List Region} (h : Keeps m m' (F ++ G)) : Keeps m m' G :=
  fun q hq ↦ h q (List.mem_append_right F hq)

namespace Owns

theorem nil (m : Memory C) : Owns m [] m.live :=
  ⟨List.nodup_nil, nofun, nofun, by simp [Rest]⟩

theorem live_eq (h : Owns m [] old) : m.live = old := by
  have hrest := h.rest
  simpa [Rest] using hrest

theorem isLive (h : Owns m S old) (hr : r ∈ S) : m.IsLive r.base := ⟨r, h.live r hr, rfl⟩

theorem held (h : Owns m S old) (hr : r ∈ S) : m.Held r.base :=
  ⟨r, h.live r hr, rfl, h.pos r hr⟩

theorem perm (h : Owns m S old) (hperm : S.Perm T) : Owns m T old := by
  have hbase := hperm.map Region.base
  have hset : {a | a ∈ T.map Region.base} = {a | a ∈ S.map Region.base} :=
    Set.ext fun a ↦ hbase.mem_iff.symm
  exact ⟨hbase.nodup_iff.mp h.nodup, fun r hr ↦ h.live r (hperm.mem_iff.mpr hr),
    fun r hr ↦ h.pos r (hperm.mem_iff.mpr hr), hset ▸ h.rest⟩

theorem ne_of_mem (h : Owns m (r :: S) old) (hr : r' ∈ S) : r'.base ≠ r.base := by
  intro heq
  exact (List.nodup_cons.mp h.nodup).1 (heq ▸ List.mem_map_of_mem hr)

theorem write (h : Owns m S old) (a : ℕ) (c : C) : Owns (m.write a c) S old :=
  ⟨h.nodup, h.live, h.pos, h.rest⟩

theorem keeps_write (h : Owns m (r :: S) old) (c : C) : Keeps m (m.write r.base c) S :=
  fun _ hr' ↦ m.write_cell_of_ne c (h.ne_of_mem hr')

theorem free (h : Owns m (r :: S) old) : Owns (m.free r.base) S old := by
  have hset : {a | a ∈ S.map Region.base} = {a | a ∈ (r :: S).map Region.base} \ {r.base} := by
    ext a
    simp only [Set.mem_ofPred_eq, Set.mem_sdiff, List.map_cons, List.mem_cons,
      Set.mem_singleton_iff]
    constructor
    · intro ha
      obtain ⟨r', hr', rfl⟩ := List.mem_map.mp ha
      exact ⟨.inr ha, h.ne_of_mem hr'⟩
    · rintro ⟨ha | ha, hne⟩
      · exact absurd ha hne
      · exact ha
  refine ⟨h.nodup.of_cons, fun r' hr' ↦ ?_, fun r' hr' ↦ h.pos r' (List.mem_cons_of_mem r hr'),
    hset ▸ h.rest.free List.mem_cons_self⟩
  exact List.mem_filter.mpr ⟨h.live r' (List.mem_cons_of_mem r hr'),
    decide_eq_true (h.ne_of_mem hr')⟩

/-- A region that was live nowhere before comes to the owned ones. -/
theorem cons (h : Owns m S old) (hlive : m'.live = ⟨a, n⟩ :: m.live)
    (hfresh : ∀ r ∈ m.live, r.base ≠ a) (hn : 0 < n) : Owns m' (⟨a, n⟩ :: S) old := by
  have hnew : a ∉ S.map Region.base := by
    intro ha
    obtain ⟨r, hr, hbase⟩ := List.mem_map.mp ha
    exact hfresh r (h.live r hr) hbase
  have hset : {b | b ∈ (⟨a, n⟩ :: S : List Region).map Region.base} =
      {b | b ∈ S.map Region.base} ∪ {a} := by
    ext b
    simp
  refine ⟨List.nodup_cons.mpr ⟨hnew, h.nodup⟩, fun r hr ↦ ?_, fun r hr ↦ ?_, ?_⟩
  · rw [hlive]
    exact List.mem_cons.mpr ((List.mem_cons.mp hr).imp_right (h.live r))
  · rcases List.mem_cons.mp hr with rfl | hr
    · exact hn
    · exact h.pos r hr
  · rw [hset]
    refine h.rest.append [⟨a, n⟩] hlive (fun r hr ↦ ?_) fun r hr hbase ↦
      hfresh r hr (Set.mem_singleton_iff.mp hbase)
    rw [List.mem_singleton.mp hr]
    exact rfl

end Owns

variable {A : Allocator}

/-- One of the next `n` requests, each of them for at most `b` bytes, is answered `NULL`. -/
def Refuses (A : Allocator) (b : ℕ) : ℕ → ℕ → List Region → Prop
  | 0, _, _ => False
  | n + 1, k, live => ∃ size, 0 < size ∧ size ≤ b ∧
      ∀ a, A.answer k live size = some a → Refuses A b n (k + 1) (⟨a, size⟩ :: live)

theorem Refuses.now {b n k size : ℕ} {live : List Region} (hpos : 0 < size) (hle : size ≤ b)
    (hnone : A.answer k live size = none) : Refuses A b (n + 1) k live :=
  ⟨size, hpos, hle, fun a ha ↦ by rw [hnone] at ha; cases ha⟩

theorem Refuses.later {b n k size a : ℕ} {live : List Region} (hpos : 0 < size) (hle : size ≤ b)
    (ha : A.answer k live size = some a) (h : Refuses A b n (k + 1) (⟨a, size⟩ :: live)) :
    Refuses A b (n + 1) k live :=
  ⟨size, hpos, hle, fun a' ha' ↦ by rw [ha] at ha'; cases ha'; exact h⟩

theorem Refuses.mono {b b' n k : ℕ} {live : List Region} (h : Refuses A b n k live)
    (hle : b ≤ b') : Refuses A b' n k live := by
  induction n generalizing k live with
  | zero => exact h
  | succ n ih =>
    obtain ⟨size, hpos, hsize, hnext⟩ := h
    exact ⟨size, hpos, hsize.trans hle, fun a ha ↦ ih (hnext a ha)⟩

theorem Refuses.succ {b n k : ℕ} {live : List Region} (h : Refuses A b n k live) :
    Refuses A b (n + 1) k live := by
  induction n generalizing k live with
  | zero => exact h.elim
  | succ n ih =>
    obtain ⟨size, hpos, hsize, hnext⟩ := h
    exact ⟨size, hpos, hsize, fun a ha ↦ ih (hnext a ha)⟩

/-- What a caller can rely on after an allocation. -/
structure Allocates (A : Allocator) (n : ℕ) (m m' : Memory C) (a : ℕ) : Prop where
  answer : A.answer m.calls m.live n = some a
  calls : m'.calls = m.calls + 1
  live : m'.live = ⟨a, n⟩ :: m.live
  owns : ∀ {S old}, Owns m S old → Owns m' (⟨a, n⟩ :: S) old
  keeps : ∀ {S old}, Owns m S old → Keeps m m' S

theorem Allocates.refuses {b k : ℕ} (h : Allocates A n m m' a) (hpos : 0 < n) (hle : n ≤ b)
    (hrefuses : Refuses A b k m'.calls m'.live) : Refuses A b (k + 1) m.calls m.live := by
  rw [h.calls, h.live] at hrefuses
  exact .later hpos hle h.answer hrefuses

variable [Zero C]

/-- `calloc`, where the caller writes to the region without a look at the pointer. -/
def Memory.allocate (A : Allocator) (m : Memory C) (n : ℕ) : Exec (ℕ × Memory C) := do
  let (a, m) := m.calloc A n
  let a ← deref a
  .ok (a, m)

theorem calloc_of_none {k : ℕ} (h : A.answer m.calls m.live k = none) :
    m.calloc A k = (none, { m with calls := m.calls + 1, failures := m.failures + 1 }) := by
  rw [Memory.calloc, h]

theorem calloc_of_some {k : ℕ} (h : A.answer m.calls m.live k = some a) :
    ∃ m', m.calloc A k = (some a, m') ∧ m'.calls = m.calls + 1 := by
  rw [Memory.calloc, h]
  exact ⟨_, rfl, rfl⟩

theorem allocate_cases (A : Allocator) (m : Memory C) (hn : 0 < n) :
    (A.answer m.calls m.live n = none ∧ m.allocate A n = .error .nullDereference) ∨
      ∃ a m', m.allocate A n = .ok (a, m') ∧ Allocates A n m m' a := by
  cases hanswer : A.answer m.calls m.live n with
  | none => exact .inl ⟨rfl, by rw [Memory.allocate, calloc_of_none hanswer]; rfl⟩
  | some a =>
    obtain ⟨m', hrun, hcalls⟩ := calloc_of_some hanswer
    obtain ⟨m'', hrun', -⟩ | ⟨a', m'', hrun', -, -, hfresh, hlive, -, hsame, -⟩ :=
      m.calloc_cases A n
    · rw [hrun] at hrun'
      cases hrun'
    rw [hrun] at hrun'
    cases hrun'
    exact .inr ⟨a, m', by rw [Memory.allocate, hrun]; rfl, hanswer, hcalls, hlive,
      fun howns ↦ howns.cons hlive (fun r hr ↦ (hfresh r hr).1.symm) hn,
      fun howns r hr ↦ hsame _ (howns.held hr).contains⟩

end Owns

section Lockstep

variable {α β γ δ : Type} {P P' : Prop} {Q Q' : α → β → Prop} {R : γ → δ → Prop} {x : Exec α}
  {y : Exec β} {f : α → Exec γ} {g : β → Exec δ}

/-- Two runs end in the same way, or the first one has written through a pointer that a refused
allocation left `NULL`, of which `P` tells. -/
inductive Lockstep (P : Prop) (Q : α → β → Prop) : Exec α → Exec β → Prop
  | returns {a : α} {b : β} : Q a b → Lockstep P Q (.ok a) (.ok b)
  | fails (e : Fault) : Lockstep P Q (.error e) (.error e)
  | refused (y : Exec β) : P → Lockstep P Q (.error .nullDereference) y

namespace Lockstep

theorem bind (h : Lockstep P Q x y) (hf : ∀ a b, Q a b → Lockstep P R (f a) (g b)) :
    Lockstep P R (x >>= f) (y >>= g) := by
  cases h with
  | returns hQ => exact hf _ _ hQ
  | fails e => exact .fails e
  | refused y hP => exact .refused _ hP

theorem mono (h : Lockstep P Q x y) (hP : P → P') (hQ : ∀ a b, Q a b → Q' a b) :
    Lockstep P' Q' x y := by
  cases h with
  | returns hab => exact .returns (hQ _ _ hab)
  | fails e => exact .fails e
  | refused y hr => exact .refused y (hP hr)

/-- A computation that both runs make. -/
theorem bind_same {z : Exec α} {g : α → Exec δ} (hf : ∀ a, Lockstep P R (f a) (g a)) :
    Lockstep P R (z >>= f) (z >>= g) := by
  cases z with
  | ok a => exact hf a
  | error e => exact .fails e

theorem ok_inv {a : α} (h : Lockstep P Q (.ok a) y) : ∃ b, y = .ok b ∧ Q a b := by
  cases h with
  | returns hQ => exact ⟨_, rfl, hQ⟩

end Lockstep

/-- An allocation that only the first run makes. -/
theorem lockstep_allocate {C : Type} [Zero C] {A : Allocator} {m : Memory C} {n : ℕ} (hn : 0 < n)
    (hP : A.answer m.calls m.live n = none → P) {f : ℕ × Memory C → Exec γ} {z : Exec δ}
    (hf : ∀ a m', Allocates A n m m' a → Lockstep P R (f (a, m')) z) :
    Lockstep P R (m.allocate A n >>= f) z := by
  rcases allocate_cases A m hn with ⟨hnone, hrun⟩ | ⟨a, m', hrun, halloc⟩
  · rw [hrun]
    exact .refused _ (hP hnone)
  · rw [hrun]
    exact hf a m' halloc

end Lockstep

end RadixBench.Foundation
