import PortfolioLab.Schedule.Prices
import PortfolioLab.Stop.Book
import Mathlib.Data.List.Sort
import Mathlib.Data.String.Basic

/-!
# Orders of instants, symbols and rows

Instants are ordered by time, symbols by code points, price rows by instant and then symbol. All
sorting is by merging; the same lists come out of sorting by insertion, which a kernel can run.
-/

namespace PortfolioLab

namespace Instant

instance : LinearOrder Instant where
  le a b := a.nanoseconds ≤ b.nanoseconds
  lt a b := a.nanoseconds < b.nanoseconds
  le_refl _ := Int.le_refl _
  le_trans _ _ _ := Int.le_trans
  lt_iff_le_not_ge _ _ := Int.lt_iff_le_and_not_ge
  le_antisymm a b hab hba := by
    cases a
    cases b
    exact congrArg Instant.mk (Int.le_antisymm hab hba)
  le_total _ _ := Int.le_total _ _
  toDecidableLE a b := inferInstanceAs (Decidable (a.nanoseconds ≤ b.nanoseconds))
  toDecidableLT a b := inferInstanceAs (Decidable (a.nanoseconds < b.nanoseconds))
  toDecidableEq := inferInstance

@[simp] theorem le_eq_true_iff {a b : Instant} : a.le b = true ↔ a ≤ b := decide_eq_true_iff

end Instant

section Sorting

variable {α : Type} {le : α → α → Bool}

private theorem orderedInsert_append {a : α} {l₁ l₂ : List α} (h₁ : ∀ b ∈ l₁, le a b = false)
    (h₂ : ∀ b ∈ l₂, le a b = true) :
    (l₁ ++ l₂).orderedInsert (fun a b => le a b = true) a = l₁ ++ a :: l₂ := by
  induction l₁ with
  | nil =>
    cases l₂ with
    | nil => rfl
    | cons b l₂ => simp [h₂ b List.mem_cons_self]
  | cons b l₁ ih =>
    have hb := h₁ b List.mem_cons_self
    simp [hb, ih fun c hc => h₁ c (List.mem_cons_of_mem _ hc)]

/-- Both sorts are stable, so they agree on every total preorder. -/
theorem mergeSort_eq_insertionSort (trans : ∀ a b c, le a b → le b c → le a c)
    (total : ∀ a b, le a b || le b a) (l : List α) :
    l.mergeSort le = l.insertionSort (fun a b => le a b = true) := by
  induction l with
  | nil => simp
  | cons a l ih =>
    obtain ⟨l₁, l₂, hcons, htail, hfirst⟩ := List.mergeSort_cons trans total a l
    have hsorted := List.pairwise_mergeSort trans total (a :: l)
    rw [hcons, List.pairwise_append] at hsorted
    rw [List.insertionSort_cons, ← ih, htail, hcons]
    refine (orderedInsert_append (fun b hb => ?_) fun b hb => ?_).symm
    · simpa using hfirst b hb
    · exact (List.pairwise_cons.mp hsorted.2.1).1 b hb

/-- Two arrangements of entries that do not tie come out in the same order. -/
theorem mergeSort_congr (trans : ∀ a b c, le a b → le b c → le a c)
    (total : ∀ a b, le a b || le b a) {xs ys : List α} (h : xs.Perm ys)
    (hties : ∀ a ∈ xs, ∀ b ∈ xs, le a b → le b a → a = b) : xs.mergeSort le = ys.mergeSort le := by
  have hperm : (xs.mergeSort le).Perm (ys.mergeSort le) :=
    (List.mergeSort_perm xs le).trans (h.trans (List.mergeSort_perm ys le).symm)
  refine hperm.eq_of_pairwise (fun a b ha hb => ?_) (List.pairwise_mergeSort trans total xs)
    (List.pairwise_mergeSort trans total ys)
  exact hties a (List.mem_mergeSort.mp ha) b (h.mem_iff.mpr (List.mem_mergeSort.mp hb))

/-- Entries in pairs stay so if the pairs compare alike. -/
theorem forall₂_mergeSort {β : Type} {le' : β → β → Bool} {R : α → β → Prop} {xs : List α} {ys : List β}
    (hle : ∀ a b c d, R a b → R c d → le a c = le' b d) (h : List.Forall₂ R xs ys) :
    List.Forall₂ R (xs.mergeSort le) (ys.mergeSort le') := by
  obtain ⟨hlength, hR⟩ := List.forall₂_iff_zip.mp h
  -- the pairs are sorted by their first parts, which is also by their second
  let pairs := (xs.zip ys).mergeSort fun p q => le p.1 q.1
  have hfst : pairs.map Prod.fst = ((xs.zip ys).map Prod.fst).mergeSort le :=
    List.map_mergeSort fun _ _ _ _ => rfl
  have hsnd : pairs.map Prod.snd = ((xs.zip ys).map Prod.snd).mergeSort le' :=
    List.map_mergeSort fun p hp q hq => hle p.1 p.2 q.1 q.2 (hR hp) (hR hq)
  rw [List.map_fst_zip hlength.le] at hfst
  rw [List.map_snd_zip hlength.ge] at hsnd
  rw [← hfst, ← hsnd, List.forall₂_map_left_iff, List.forall₂_map_right_iff]
  exact List.forall₂_same.mpr fun p hp => hR (List.mem_mergeSort.mp hp)

end Sorting

/-! ## Symbols -/

theorem ascending_perm (symbols : List String) : (ascending symbols).Perm symbols :=
  List.mergeSort_perm _ _

@[simp] theorem mem_ascending {symbols : List String} {symbol : String} :
    symbol ∈ ascending symbols ↔ symbol ∈ symbols := List.mem_mergeSort

theorem nodup_ascending {symbols : List String} (h : symbols.Nodup) : (ascending symbols).Nodup :=
  (ascending_perm symbols).nodup_iff.mpr h

theorem pairwise_ascending (symbols : List String) : (ascending symbols).Pairwise (· ≤ ·) :=
  List.pairwise_mergeSort' (· ≤ ·) symbols

theorem pairwise_lt_ascending {symbols : List String} (h : symbols.Nodup) :
    (ascending symbols).Pairwise (· < ·) :=
  (pairwise_ascending symbols).imp₂ (fun _ _ => lt_of_le_of_ne) (nodup_ascending h)

theorem ascending_eq_insertionSort (symbols : List String) :
    ascending symbols = symbols.insertionSort (· ≤ ·) :=
  List.mergeSort_eq_insertionSort (· ≤ ·) symbols

/-- Symbols in ascending order depend on which symbols there are and not on how they come. -/
theorem ascending_congr {xs ys : List String} (hx : xs.Nodup) (hy : ys.Nodup)
    (h : ∀ symbol, symbol ∈ xs ↔ symbol ∈ ys) : ascending xs = ascending ys := by
  have hp := (List.perm_ext_iff_of_nodup hx hy).mpr h
  exact ((ascending_perm xs).trans (hp.trans (ascending_perm ys).symm)).eq_of_pairwise'
    (pairwise_ascending xs) (pairwise_ascending ys)

theorem nodup_eraseDups {α : Type} [BEq α] [LawfulBEq α] (xs : List α) : xs.eraseDups.Nodup := by
  induction h : xs.length using Nat.strong_induction_on generalizing xs with
  | _ n ih =>
    cases xs with
    | nil => simp
    | cons a as =>
      rw [List.eraseDups_cons, List.nodup_cons]
      have hl := List.length_filter_le (fun b => !b == a) as
      refine ⟨by simp [List.mem_eraseDups], ih _ ?_ _ rfl⟩
      rw [← h, List.length_cons]
      omega

theorem eraseDups_append_singleton {α : Type} [DecidableEq α] (xs : List α) (x : α) :
    (xs ++ [x]).eraseDups = if x ∈ xs then xs.eraseDups else xs.eraseDups ++ [x] := by
  rw [List.eraseDups_append]
  split
  · next h => simp [List.removeAll, h]
  · next h => simp [List.removeAll, List.eraseDups_cons, h]

theorem stopOrder_perm (symbols priority : List String) : (stopOrder symbols priority).Perm symbols :=
  List.mergeSort_perm _ _

theorem precedes_trans (priority : List String) (a b c : String) (hab : precedes priority a b)
    (hbc : precedes priority b c) : precedes priority a c := by
  unfold precedes at *
  cases ha : lastIndex? priority a <;> cases hb : lastIndex? priority b <;>
    cases hc : lastIndex? priority c <;> simp only [ha, hb, hc, decide_eq_true_eq] at hab hbc ⊢ <;>
    grind

theorem precedes_total (priority : List String) (a b : String) :
    precedes priority a b || precedes priority b a := by
  unfold precedes
  cases ha : lastIndex? priority a <;> cases hb : lastIndex? priority b <;> grind

/-- Symbols that come in the order of stops are in order. -/
theorem stopOrder_of_sublist {xs symbols priority : List String}
    (h : xs.Sublist (stopOrder symbols priority)) : stopOrder xs priority = xs :=
  List.mergeSort_of_pairwise
    ((List.pairwise_mergeSort (precedes_trans priority) (precedes_total priority) symbols).sublist h)

theorem stopOrder_eq_insertionSort (symbols priority : List String) :
    stopOrder symbols priority = symbols.insertionSort (fun a b => precedes priority a b = true) :=
  mergeSort_eq_insertionSort (precedes_trans priority) (precedes_total priority) symbols

/-! ## Rows and entries -/

namespace PriceSchedule

theorem rowLe_iff {a b : PriceRow} :
    rowLe a b = true ↔ a.time < b.time ∨ a.time = b.time ∧ a.symbol ≤ b.symbol := by
  unfold rowLe
  split
  · next h => simp [h]
  · next h => simp [h, lt_iff_le_and_ne]

theorem rowLe_trans (a b c : PriceRow) (hab : rowLe a b) (hbc : rowLe b c) : rowLe a c := by
  rw [rowLe_iff] at *
  grind

theorem rowLe_total (a b : PriceRow) : rowLe a b || rowLe b a := by
  rw [Bool.or_eq_true, rowLe_iff, rowLe_iff]
  grind

end PriceSchedule

namespace WeightSchedule

theorem sortByTime_eq_insertionSort (schedule : WeightSchedule) :
    sortByTime schedule = schedule.insertionSort (fun a b => a.1.le b.1 = true) :=
  mergeSort_eq_insertionSort (fun a b c => by simpa using le_trans)
    (fun a b => by simpa using le_total a.1 b.1) schedule

theorem sortByTime_perm (schedule : WeightSchedule) : (sortByTime schedule).Perm schedule :=
  List.mergeSort_perm _ _

theorem pairwise_lt_sortByTime {schedule : WeightSchedule} (hn : (schedule.map (·.1)).Nodup) :
    (sortByTime schedule).Pairwise (·.1 < ·.1) := by
  have hdistinct : (sortByTime schedule).Pairwise (·.1 ≠ ·.1) :=
    List.pairwise_map.mp (((sortByTime_perm schedule).map Prod.fst).nodup_iff.mpr hn)
  have hsorted : (sortByTime schedule).Pairwise fun a b => a.1.le b.1 = true :=
    List.pairwise_mergeSort (fun a b c => by simpa using le_trans)
      (fun a b => by simpa using le_total a.1 b.1) schedule
  exact hsorted.imp₂ (fun a b hle hne => lt_of_le_of_ne (Instant.le_eq_true_iff.mp hle) hne) hdistinct

end WeightSchedule
end PortfolioLab
