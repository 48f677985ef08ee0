import PortfolioLab.Register
import Mathlib.Data.List.Nodup

/-!
# Registers as maps

Look-up through `put` and `remove`, and the symbols of a register. Both operations keep every symbol
at one place, and then look-up and membership say the same.
-/

namespace PortfolioLab.Register

variable {α : Type}

theorem find?_put (r : Register α) (symbol other : String) (new : α) :
    find? (put r symbol new) other = if other = symbol then some new else find? r other := by
  split
  · next h => rw [h, find?_put_same]
  · next h => exact find?_put_other r new h

theorem find?_remove (r : Register α) (symbol other : String) :
    find? (remove r symbol) other = if other = symbol then none else find? r other := by
  split
  · next h => rw [h, find?_remove_same]
  · next h => exact find?_remove_other r h

@[simp] theorem symbols_nil : symbols ([] : Register α) = [] := rfl

@[simp] theorem symbols_cons (entry : String × α) (r : Register α) :
    symbols (entry :: r) = entry.1 :: symbols r := rfl

theorem isSome_find?_iff {r : Register α} {symbol : String} :
    (find? r symbol).isSome ↔ symbol ∈ symbols r := by
  induction r with
  | nil => simp [find?]
  | cons entry rest ih =>
    by_cases h : entry.1 = symbol
    · simp [find?, h]
    · have h' : symbol ≠ entry.1 := fun he => h he.symm
      simp [find?, h, h', ih]

theorem exists_find?_iff {r : Register α} {symbol : String} :
    (∃ value, find? r symbol = some value) ↔ symbol ∈ symbols r := by
  rw [← isSome_find?_iff, Option.isSome_iff_exists]

theorem find?_eq_none_iff {r : Register α} {symbol : String} :
    find? r symbol = none ↔ symbol ∉ symbols r := by
  rw [← isSome_find?_iff, Option.not_isSome_iff_eq_none]

theorem mem_of_find? {r : Register α} {symbol : String} {value : α}
    (h : find? r symbol = some value) : (symbol, value) ∈ r := by
  induction r with
  | nil => simp [find?] at h
  | cons entry rest ih =>
    by_cases hk : entry.1 = symbol
    · simp only [find?, hk, if_true, Option.some.injEq] at h
      subst hk h
      exact List.mem_cons_self
    · simp only [find?, hk, if_false] at h
      exact List.mem_cons_of_mem _ (ih h)

theorem mem_symbols_put {r : Register α} {symbol other : String} {new : α} :
    other ∈ symbols (put r symbol new) ↔ other = symbol ∨ other ∈ symbols r := by
  rw [← isSome_find?_iff, ← isSome_find?_iff, find?_put]
  split
  · next h => simp [h]
  · next h => simp [h]

theorem mem_symbols_remove {r : Register α} {symbol other : String} :
    other ∈ symbols (remove r symbol) ↔ other ≠ symbol ∧ other ∈ symbols r := by
  rw [← isSome_find?_iff, ← isSome_find?_iff, find?_remove]
  split
  · next h => simp [h]
  · next h => simp [h]

theorem put_eq_self {r : Register α} {symbol : String} {value : α}
    (h : find? r symbol = some value) : put r symbol value = r := by
  induction r with
  | nil => simp [find?] at h
  | cons entry rest ih =>
    by_cases hk : entry.1 = symbol
    · simp only [find?, hk, if_true, Option.some.injEq] at h
      subst hk h
      simp [put]
    · simp only [find?, hk, if_false] at h
      simp [put, hk, ih h]

theorem put_of_notMem {r : Register α} {symbol : String} {value : α} (h : symbol ∉ symbols r) :
    put r symbol value = r ++ [(symbol, value)] := by
  induction r with
  | nil => rfl
  | cons entry rest ih =>
    rw [symbols_cons, List.mem_cons, not_or] at h
    simp [put, Ne.symm h.1, ih h.2]

/-- Replacing a value keeps the symbols. -/
theorem symbols_put_of_mem {r : Register α} {symbol : String} {new : α} (h : symbol ∈ symbols r) :
    symbols (put r symbol new) = symbols r := by
  induction r with
  | nil => cases h
  | cons entry rest ih =>
    by_cases hk : entry.1 = symbol
    · simp [put, hk]
    · have hr : symbol ∈ symbols rest := (List.mem_cons.mp h).resolve_left fun he => hk he.symm
      simp [put, hk, ih hr]

theorem nodup_put {r : Register α} {symbol : String} {new : α} (h : (symbols r).Nodup) :
    (symbols (put r symbol new)).Nodup := by
  induction r with
  | nil => simp [put]
  | cons entry rest ih =>
    obtain ⟨hn, hr⟩ := List.nodup_cons.mp h
    by_cases hk : entry.1 = symbol
    · simpa [put, hk] using h
    · simp only [put, hk, if_false, symbols_cons, List.nodup_cons]
      refine ⟨fun hm => ?_, ih hr⟩
      rcases mem_symbols_put.mp hm with he | hm
      · exact hk he
      · exact hn hm

theorem nodup_remove {r : Register α} {symbol : String} (h : (symbols r).Nodup) :
    (symbols (remove r symbol)).Nodup := by
  induction r with
  | nil => simp [remove]
  | cons entry rest ih =>
    obtain ⟨hn, hr⟩ := List.nodup_cons.mp h
    by_cases hk : entry.1 = symbol
    · simpa [remove, hk] using ih hr
    · simp only [remove, hk, if_false, symbols_cons, List.nodup_cons]
      exact ⟨fun hm => hn (mem_symbols_remove.mp hm).2, ih hr⟩

/-- Among distinct symbols, look-up finds exactly the entries. -/
theorem find?_eq_some_iff {r : Register α} (h : (symbols r).Nodup) {symbol : String} {value : α} :
    find? r symbol = some value ↔ (symbol, value) ∈ r := by
  refine ⟨mem_of_find?, fun hm => ?_⟩
  induction r with
  | nil => cases hm
  | cons entry rest ih =>
    obtain ⟨hn, hr⟩ := List.nodup_cons.mp h
    rcases List.mem_cons.mp hm with rfl | hm
    · simp [find?]
    · have hk : entry.1 ≠ symbol := by
        rintro rfl
        exact hn (List.mem_map.mpr ⟨(entry.1, value), hm, rfl⟩)
      simpa [find?, hk] using ih hr hm

theorem remove_eq_filter (r : Register α) (symbol : String) :
    remove r symbol = r.filter (fun entry => entry.1 ≠ symbol) := by
  induction r with
  | nil => rfl
  | cons entry rest ih => by_cases hk : entry.1 = symbol <;> simp [remove, hk, ih]

theorem remove_comm (r : Register α) (x y : String) : (r.remove x).remove y = (r.remove y).remove x := by
  simp only [remove_eq_filter, List.filter_filter, Bool.and_comm]

instance : RightCommutative (remove (α := α)) := ⟨remove_comm⟩

theorem mem_symbols_foldl_remove {r : Register α} {xs : List String} {symbol : String}
    (h : symbol ∈ symbols (xs.foldl remove r)) : symbol ∈ symbols r := by
  induction xs generalizing r with
  | nil => exact h
  | cons x xs ih => exact (mem_symbols_remove.mp (ih h)).2

/-- Registers of the same distinct symbols in the same order are equal if look-up does not tell them
apart. -/
theorem eq_of_find? {r r' : Register α} (hn : (symbols r).Nodup) (hs : symbols r' = symbols r)
    (h : ∀ symbol, find? r' symbol = find? r symbol) : r' = r := by
  induction r generalizing r' with
  | nil => exact List.map_eq_nil_iff.mp hs
  | cons entry rest ih =>
    cases r' with
    | nil => cases hs
    | cons entry' rest' =>
      rw [symbols_cons, symbols_cons, List.cons.injEq] at hs
      rw [symbols_cons, List.nodup_cons] at hn
      obtain ⟨hkey, hsymbols⟩ := hs
      obtain ⟨hnot, hn'⟩ := hn
      have hvalue := h entry.1
      simp only [find?, hkey, if_true, Option.some.injEq] at hvalue
      have hentry : entry' = entry := Prod.ext hkey hvalue
      subst hentry
      congr 1
      refine ih hn' hsymbols fun symbol => ?_
      by_cases hsymbol : entry'.1 = symbol
      · subst hsymbol
        have hnot' : entry'.1 ∉ symbols rest' := by rwa [hsymbols]
        rw [find?_eq_none_iff.mpr hnot, find?_eq_none_iff.mpr hnot']
      · have hrest := h symbol
        simpa only [find?, hsymbol, if_false] using hrest

def All (P : α → Prop) (r : Register α) : Prop := ∀ entry ∈ r, P entry.2

section All

variable {P : α → Prop} {r : Register α} {symbol : String} {value : α}

theorem all_nil : All P [] := fun _ h => absurd h List.not_mem_nil

theorem all_cons {entry : String × α} : All P (entry :: r) ↔ P entry.2 ∧ All P r :=
  List.forall_mem_cons

theorem All.of_find? (h : All P r) (hfind : find? r symbol = some value) : P value :=
  h _ (mem_of_find? hfind)

theorem All.put (h : All P r) (hvalue : P value) : All P (put r symbol value) := by
  induction r with
  | nil => exact all_cons.mpr ⟨hvalue, all_nil⟩
  | cons entry rest ih =>
    obtain ⟨hentry, hrest⟩ := all_cons.mp h
    by_cases hk : entry.1 = symbol
    · simpa only [Register.put, if_pos hk] using all_cons.mpr ⟨hvalue, hrest⟩
    · simpa only [Register.put, if_neg hk] using all_cons.mpr ⟨hentry, ih hrest⟩

theorem All.remove (h : All P r) : All P (remove r symbol) := by
  induction r with
  | nil => exact h
  | cons entry rest ih =>
    obtain ⟨hentry, hrest⟩ := all_cons.mp h
    by_cases hk : entry.1 = symbol
    · simpa only [Register.remove, if_pos hk] using ih hrest
    · simpa only [Register.remove, if_neg hk] using all_cons.mpr ⟨hentry, ih hrest⟩

end All

/-- Putting one entry after the other: the entries of distinct symbols come before what was there. -/
theorem find?_foldl_put {β : Type} (f : β → α) {entries : Register β} (h : (symbols entries).Nodup)
    (r : Register α) (symbol : String) :
    find? (entries.foldl (fun r entry => put r entry.1 (f entry.2)) r) symbol =
      ((find? entries symbol).map f).or (find? r symbol) := by
  induction entries generalizing r with
  | nil => rfl
  | cons entry rest ih =>
    obtain ⟨hnot, hn⟩ := List.nodup_cons.mp h
    rw [List.foldl_cons, ih hn, find?_put]
    by_cases hs : symbol = entry.1
    · rw [hs, find?_eq_none_iff.mpr hnot]
      simp [find?]
    · have hs' : entry.1 ≠ symbol := fun he => hs he.symm
      simp [find?, hs, hs']

end PortfolioLab.Register
