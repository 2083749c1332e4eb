import Mathlib.Logic.Function.Basic
import Mathlib.Data.Option.Basic
import Mathlib.Data.Int.Notation

namespace RadixBench.Foundation

variable {α β S L : Type}

/-- The ways in which a run of a C function can fail to return. -/
inductive Fault
  | nullDereference
  | indexOutOfRange
  | uninitializedRead
  | shiftOutOfRange
  | assertionFailed
  | outOfFuel
  deriving DecidableEq, Repr

abbrev Exec (α : Type) := Except Fault α

/-- Reading through a pointer, `none` being `NULL`. -/
def deref : Option α → Exec α
  | some a => .ok a
  | none => .error .nullDereference

def check (P : Prop) [Decidable P] : Exec Unit :=
  if P then .ok () else .error .assertionFailed

def require : Option α → Exec α
  | some a => .ok a
  | none => .error .assertionFailed

@[simp] theorem require_some (a : α) : require (some a) = .ok a := rfl

@[simp] theorem deref_some (a : α) : deref (some a) = .ok a := rfl

@[simp] theorem deref_none : deref (none : Option α) = .error .nullDereference := rfl

theorem check_of {P : Prop} [Decidable P] (h : P) : check P = .ok () := if_pos h

@[simp] theorem ok_bind (a : α) (f : α → Exec β) : (Except.ok a >>= f) = f a := rfl

@[simp] theorem error_bind (e : Fault) (f : α → Exec β) : (Except.error e >>= f) = .error e := rfl

theorem bind_eq_ok {x : Exec α} {f : α → Exec β} {b : β} :
    (x >>= f) = .ok b ↔ ∃ a, x = .ok a ∧ f a = .ok b := by
  cases x <;> simp

/-- A run whose assertions hold exactly when `P` does. -/
structure Asserts (P : Prop) (x : Exec α) (a : α) : Prop where
  returns : P → x = .ok a
  fails : ¬ P → x = .error .assertionFailed

theorem asserts_ok (a : α) : Asserts True (.ok a) a := ⟨fun _ ↦ rfl, fun h ↦ absurd trivial h⟩

theorem asserts_check (P : Prop) [Decidable P] : Asserts P (check P) () :=
  ⟨check_of, fun h ↦ if_neg h⟩

/-- What follows an assertion runs only when the assertion holds. -/
theorem Asserts.bind {P Q : Prop} {x : Exec α} {a : α} {f : α → Exec β} {b : β}
    (h : Asserts P x a) (h' : P → Asserts Q (f a) b) : Asserts (P ∧ Q) (x >>= f) b := by
  by_cases hP : P
  · rw [h.returns hP, ok_bind]
    exact ⟨fun hand ↦ (h' hP).returns hand.2, fun hand ↦ (h' hP).fails fun hQ ↦ hand ⟨hP, hQ⟩⟩
  · rw [h.fails hP, error_bind]
    exact ⟨fun hand ↦ absurd hand.1 hP, fun _ ↦ rfl⟩

theorem Asserts.congr {P Q : Prop} {x : Exec α} {a : α} (h : Asserts P x a) (hiff : P ↔ Q) :
    Asserts Q x a :=
  ⟨fun hQ ↦ h.returns (hiff.mpr hQ), fun hQ ↦ h.fails fun hP ↦ hQ (hiff.mp hP)⟩

theorem asserts_check_ok (P : Prop) [Decidable P] (a : α) :
    Asserts P (do check P; .ok a) a :=
  ((asserts_check P).bind fun _ ↦ asserts_ok a).congr (and_iff_left trivial)

theorem Asserts.ok_iff {P : Prop} {x : Exec α} {a : α} (h : Asserts P x a) : x = .ok a ↔ P := by
  refine ⟨fun hok ↦ ?_, h.returns⟩
  by_contra hP
  cases hok.symm.trans (h.fails hP)

inductive Reachable (Init : S → Prop) (Legal : S → L → Prop) (step : S → L → Exec S) : S → Prop
  | init {s : S} : Init s → Reachable Init Legal step s
  | step {s s' : S} {l : L} :
      Reachable Init Legal step s → Legal s l → step s l = .ok s' → Reachable Init Legal step s'

theorem Reachable.invariant {Init I : S → Prop} {Legal : S → L → Prop} {step : S → L → Exec S}
    (hinit : ∀ s, Init s → I s)
    (hstep : ∀ s l s', I s → Legal s l → step s l = .ok s' → I s') {s : S}
    (h : Reachable Init Legal step s) : I s := by
  induction h with
  | init hs => exact hinit _ hs
  | step _ hl hs ih => exact hstep _ _ _ ih hl hs

theorem Reachable.mono {Init : S → Prop} {Legal Legal' : S → L → Prop} {step : S → L → Exec S}
    (hlegal : ∀ s l, Legal s l → Legal' s l) {s : S} (h : Reachable Init Legal step s) :
    Reachable Init Legal' step s := by
  induction h with
  | init hs => exact .init hs
  | step _ hl hs ih => exact .step ih (hlegal _ _ hl) hs

/-- The rule used for programs whose steps are also shown to return: one step
lemma gives both the next state and the invariant there. -/
theorem Reachable.invariant_of_returns {Init I : S → Prop} {Legal : S → L → Prop}
    {step : S → L → Exec S} (hinit : ∀ s, Init s → I s)
    (hstep : ∀ s l, I s → Legal s l → ∃ s', step s l = .ok s' ∧ I s') {s : S}
    (h : Reachable Init Legal step s) : I s := by
  refine h.invariant hinit fun s l s' hi hl hs ↦ ?_
  obtain ⟨s'', hs', hi'⟩ := hstep s l hi hl
  rw [hs] at hs'
  cases hs'
  exact hi'

section Trace

variable {T O : Type} {R : S → T → Prop} {step : S → L → Exec (S × O)}
  {step' : T → L → Exec (T × O)} {Legal : S → L → Prop}

/-- What a caller sees of a component: the answers to its calls, up to one that does not return. -/
def answers (step : S → L → Exec (S × O)) : S → List L → List (Exec O)
  | _, [] => []
  | s, l :: ls =>
    match step s l with
    | .ok (s', o) => .ok o :: answers step s' ls
    | .error e => [.error e]

def Lawful (step : S → L → Exec (S × O)) (Legal : S → L → Prop) : S → List L → Prop
  | _, [] => True
  | s, l :: ls => Legal s l ∧ ∀ s' o, step s l = .ok (s', o) → Lawful step Legal s' ls

theorem lawful_cons {s : S} {l : L} {ls : List L} : Lawful step Legal s (l :: ls) ↔
    Legal s l ∧ ∀ r ∈ (step s l).toOption, Lawful step Legal r.1 ls := by
  rw [Lawful]
  refine and_congr_right fun _ ↦ ?_
  cases step s l with
  | error e => simp [Except.toOption]
  | ok r =>
    obtain ⟨s', o⟩ := r
    simp [Except.toOption]

instance decidableLawful [∀ s l, Decidable (Legal s l)] :
    (ls : List L) → (s : S) → Decidable (Lawful step Legal s ls)
  | [], _ => instDecidableTrue
  | l :: ls, s =>
    have := decidableLawful ls
    decidable_of_iff (Legal s l ∧ ∀ r ∈ (step s l).toOption, Lawful step Legal r.1 ls)
      lawful_cons.symm

inductive Agree (R : S → T → Prop) : Exec (S × O) → Exec (T × O) → Prop
  | returns {s : S} {t : T} (o : O) : R s t → Agree R (.ok (s, o)) (.ok (t, o))
  | fails (e : Fault) : Agree R (.error e) (.error e)

/-- Components of which no legal call shows a difference are not told apart by any run. -/
theorem answers_eq (hstep : ∀ s t l, R s t → Legal s l → Agree R (step s l) (step' t l)) {s : S}
    {t : T} (hR : R s t) {ls : List L} (hls : Lawful step Legal s ls) :
    answers step s ls = answers step' t ls := by
  induction ls generalizing s t with
  | nil => rfl
  | cons l ls ih =>
    obtain ⟨hl, hrest⟩ := hls
    have hagree := hstep s t l hR hl
    rw [answers, answers]
    generalize step s l = x at hagree hrest
    generalize step' t l = y at hagree
    cases hagree with
    | returns o hR' => exact congrArg _ (ih hR' (hrest _ o rfl))
    | fails e => rfl

/-- Where all calls return, both components give one list of answers. -/
theorem answers_return (hstep : ∀ s t l, R s t → Legal s l →
      ∃ s' t' o, step s l = .ok (s', o) ∧ step' t l = .ok (t', o) ∧ R s' t')
    {s : S} {t : T} (hR : R s t) {ls : List L} (hls : Lawful step Legal s ls) :
    ∃ os : List O, os.length = ls.length ∧ answers step s ls = os.map .ok ∧
      answers step' t ls = os.map .ok := by
  induction ls generalizing s t with
  | nil => exact ⟨[], rfl, rfl, rfl⟩
  | cons l ls ih =>
    obtain ⟨hl, hrest⟩ := hls
    obtain ⟨s', t', o, hrun, hrun', hR'⟩ := hstep s t l hR hl
    obtain ⟨os, hlen, hos, hos'⟩ := ih hR' (hrest s' o hrun)
    refine ⟨o :: os, congrArg (· + 1) hlen, ?_, ?_⟩
    · rw [answers, hrun, List.map_cons, ← hos]
    · rw [answers, hrun', List.map_cons, ← hos']

end Trace

end RadixBench.Foundation
