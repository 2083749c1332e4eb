import Mathlib.Data.List.Nodup
import Mathlib.Data.List.Perm.Basic
import Mathlib.Data.List.Pairwise
import Mathlib.Data.Prod.Basic
import Mathlib.Logic.Function.Basic
import Mathlib.Tactic.Common

namespace RadixBench.Foundation

open Function

variable {K C : Type} {keys : List K} {f g : K → Option C} {k : K} {x y : C} {es : List (K × C)}

/-- The values of a partial function at the keys of a list, each with its key. -/
def table (keys : List K) (f : K → Option C) : List (K × C) :=
  keys.filterMap fun k ↦ (f k).map (k, ·)

theorem mem_table : (k, x) ∈ table keys f ↔ k ∈ keys ∧ f k = some x := by
  rw [table, List.mem_filterMap]
  constructor
  · rintro ⟨k', hk', h⟩
    obtain ⟨x', hx', heq⟩ := Option.map_eq_some_iff.mp h
    cases heq
    exact ⟨hk', hx'⟩
  · rintro ⟨hk, hx⟩
    exact ⟨k, hk, Option.map_eq_some_iff.mpr ⟨x, hx, rfl⟩⟩

theorem table_cons : table (k :: keys) f = ((f k).map (k, ·)).toList ++ table keys f := by
  rw [table, List.filterMap_cons]
  cases f k <;> rfl

theorem map_fst_table : (table keys f).map Prod.fst = keys.filter fun k ↦ (f k).isSome := by
  induction keys with
  | nil => rfl
  | cons k keys ih =>
    rw [table_cons, List.map_append, ih, List.filter_cons]
    cases f k <;> rfl

theorem nodup_table (h : keys.Nodup) : ((table keys f).map Prod.fst).Nodup := by
  rw [map_fst_table]
  exact h.filter _

theorem pairwise_table {R : K → K → Prop} (h : keys.Pairwise R) :
    ((table keys f).map Prod.fst).Pairwise R := by
  rw [map_fst_table]
  exact h.filter _

theorem table_append (keys keys' : List K) :
    table (keys ++ keys') f = table keys f ++ table keys' f := List.filterMap_append

theorem table_congr (h : ∀ k ∈ keys, f k = g k) : table keys f = table keys g :=
  List.filterMap_congr fun k hk ↦ by rw [h k hk]

theorem table_split [DecidableEq K] (hnodup : keys.Nodup) (hk : k ∈ keys) (f : K → Option C) :
    ∃ l r, ∀ o : Option C,
      table keys (update f k o) = l ++ ((o.map (k, ·)).toList ++ r) := by
  obtain ⟨ks, ks', rfl⟩ := List.append_of_mem hk
  have hparts := (List.nodup_append.mp hnodup)
  have hleft : ∀ o : Option C, table ks (update f k o) = table ks f := by
    intro o
    refine table_congr fun j hj ↦ update_of_ne ?_ _ _
    exact hparts.2.2 j hj k List.mem_cons_self
  have hright : ∀ o : Option C, table ks' (update f k o) = table ks' f := by
    intro o
    refine table_congr fun j hj ↦ update_of_ne ?_ _ _
    rintro rfl
    exact (List.nodup_cons.mp hparts.2.1).1 hj
  refine ⟨table ks f, table ks' f, fun o ↦ ?_⟩
  rw [table_append, table_cons, hleft, hright, update_self]

theorem table_erase [DecidableEq K] :
    table keys (update f k none) = (table keys f).filter fun e ↦ e.1 ≠ k := by
  induction keys with
  | nil => rfl
  | cons j keys ih =>
    rw [table_cons, table_cons, List.filter_append, ih]
    congr 1
    by_cases hj : j = k
    · rw [hj, update_self]
      cases f k <;> simp
    · rw [update_of_ne hj]
      cases f j <;> simp [hj]

theorem value_unique (h : (es.map Prod.fst).Nodup) (hx : (k, x) ∈ es) (hy : (k, y) ∈ es) :
    x = y := (Prod.ext_iff.mp (List.inj_on_of_nodup_map h hx hy rfl)).2

theorem mem_map_fst : k ∈ es.map Prod.fst ↔ ∃ x, (k, x) ∈ es := by
  rw [List.mem_map]
  constructor
  · rintro ⟨⟨k', x⟩, h, rfl⟩
    exact ⟨x, h⟩
  · rintro ⟨x, h⟩
    exact ⟨_, h, rfl⟩

theorem perm_of_entries {es' : List (K × C)} (h : (es.map Prod.fst).Nodup)
    (h' : (es'.map Prod.fst).Nodup) (hmem : ∀ k x, (k, x) ∈ es ↔ (k, x) ∈ es') : es.Perm es' :=
  (List.perm_ext_iff_of_nodup h.of_map h'.of_map).mpr fun e ↦ hmem e.1 e.2

/-- The first entry that a search by key stops at. -/
theorem exists_split_of_findIdx [DecidableEq K] {i : ℕ}
    (h : es.findIdx? (fun e ↦ e.1 == k) = some i) :
    ∃ l x r, es = l ++ (k, x) :: r ∧ l.length = i := by
  obtain ⟨hi, hk, -⟩ := List.findIdx?_eq_some_iff_getElem.mp h
  refine ⟨es.take i, es[i].2, es.drop (i + 1), ?_, by rw [List.length_take]; omega⟩
  have hfst : es[i].1 = k := beq_iff_eq.mp hk
  rw [← hfst]
  exact (List.take_append_drop i es).symm.trans (by rw [List.drop_eq_getElem_cons hi])

theorem notMem_of_findIdx [DecidableEq K] (h : es.findIdx? (fun e ↦ e.1 == k) = none) (x : C) :
    (k, x) ∉ es := fun hmem ↦ by
  have hfalse := List.findIdx?_eq_none_iff.mp h _ hmem
  simp at hfalse

section

variable {l r : List (K × C)}

theorem modify_split (x y : C) :
    (l ++ (k, x) :: r).modify l.length (fun e ↦ (e.1, y)) = l ++ (k, y) :: r := by
  induction l with
  | nil => rfl
  | cons e l ih =>
    rw [List.cons_append, List.length_cons, List.modify_succ_cons, ih]
    rfl

theorem eraseIdx_split (e : K × C) : (l ++ e :: r).eraseIdx l.length = l ++ r := by
  rw [List.eraseIdx_append_of_length_le (Nat.le_refl _), Nat.sub_self]
  rfl

theorem getElem?_split (e : K × C) : (l ++ e :: r)[l.length]? = some e := by
  rw [List.getElem?_append_right (Nat.le_refl _), Nat.sub_self]
  rfl

theorem filter_split [DecidableEq K] (h : ((l ++ (k, x) :: r).map Prod.fst).Nodup) :
    (l ++ (k, x) :: r).filter (fun e ↦ e.1 ≠ k) = l ++ r := by
  rw [List.map_append, List.map_cons, List.nodup_append] at h
  have hl : ∀ e ∈ l, e.1 ≠ k := fun e he ↦
    h.2.2 e.1 (List.mem_map_of_mem he) k List.mem_cons_self
  have hr : ∀ e ∈ r, e.1 ≠ k := by
    rintro e he rfl
    exact (List.nodup_cons.mp h.2.1).1 (mem_map_fst.mpr ⟨e.2, he⟩)
  rw [List.filter_append, List.filter_cons_of_neg (by simp), List.filter_eq_self.mpr,
    List.filter_eq_self.mpr]
  · exact fun e he ↦ decide_eq_true (hr e he)
  · exact fun e he ↦ decide_eq_true (hl e he)

end

theorem pairwise_insertIdx {R : K → K → Prop} (htrans : ∀ {a b c}, R a b → R b c → R a c)
    {p : K × C → Bool} (hp : ∀ e ∈ es, p e = true → R k e.1)
    (hnp : ∀ e ∈ es, p e = false → R e.1 k) (h : (es.map Prod.fst).Pairwise R) :
    ((es.insertIdx (es.findIdx p) (k, x)).map Prod.fst).Pairwise R := by
  induction es with
  | nil => simp
  | cons e es ih =>
    obtain ⟨hhead, htail⟩ := List.pairwise_cons.mp h
    rw [List.findIdx_cons]
    cases hpe : p e with
    | true =>
      have hke := hp e List.mem_cons_self hpe
      refine List.pairwise_cons.mpr ⟨fun j hj ↦ ?_, h⟩
      rcases List.mem_cons.mp hj with rfl | hj
      · exact hke
      · exact htrans hke (hhead j hj)
    | false =>
      have hperm := List.perm_insertIdx (k, x) es List.findIdx_le_length (i := es.findIdx p)
      refine List.pairwise_cons.mpr ⟨fun j hj ↦ ?_, ih (fun d hd ↦ hp d (List.mem_cons_of_mem e hd))
        (fun d hd ↦ hnp d (List.mem_cons_of_mem e hd)) htail⟩
      rcases List.mem_cons.mp ((hperm.map Prod.fst).mem_iff.mp hj) with rfl | hj
      · exact hnp e List.mem_cons_self hpe
      · exact hhead j hj

end RadixBench.Foundation
