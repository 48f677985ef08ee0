import PortfolioLab.Proofs.Doubles
import PortfolioLab.Proofs.Rearrangements

/-!
# The checks of a price table

The columns of a price table are checked as wholes: every cell is read as a double, closing prices are
finite and the others not infinite, and no low is above and no high below the opening and closing prices.
An accepted table has passed these checks row by row.
-/

namespace PortfolioLab

/-- The double that a cell holds; not-a-number if it holds none. -/
def Value.double (v : Value) : Float := v.cellNumber.toOption.getD (0 / 0)

theorem Value.double_of_cellNumber {v : Value} {x : Float} (h : v.cellNumber = .ok x) : v.double = x := by
  rw [double, h]
  rfl

/-- The double with which the low or the high of a row is compared. -/
def PriceRow.limit (pick : Float → Float → Float) (row : PriceRow) : Float :=
  (row.opening.map fun v => pick v.double row.close.double).getD row.close.double

/-- What the checks of a price table say of one of its rows. -/
structure PriceRow.Checked (row : PriceRow) : Prop where
  reads : ∀ v ∈ row.cells, v.cellNumber = .ok v.double
  bounded : ∀ v ∈ row.cells, v.double.isInf = false
  close : row.close.double.isFinite
  low : ∀ v ∈ row.low, ¬ row.limit PriceSchedule.lesser < v.double
  high : ∀ v ∈ row.high, ¬ v.double < row.limit PriceSchedule.greater

namespace PriceSchedule

variable {t : Table} {rows : PriceSchedule} {input : PriceInput} {name : String} {r : List Value}
  {v : Value}

/-! ## Columns -/

theorem mapM_cellNumber {cells : List Value} {numbers : List Float}
    (h : cells.mapM Value.cellNumber = .ok numbers) :
    numbers = cells.map Value.double ∧ ∀ v ∈ cells, v.cellNumber = .ok v.double := by
  have hcells := forall₂_of_mapM h
  clear h
  induction hcells with
  | nil => simp
  | cons hv _ ih =>
    obtain ⟨rfl, hreads⟩ := ih
    have hdouble := Value.double_of_cellNumber hv
    subst hdouble
    exact ⟨rfl, List.forall_mem_cons.mpr ⟨hv, hreads⟩⟩

theorem mem_priceIn_iff : v ∈ priceIn t name r ↔ t.columns.contains name = true ∧ t.cell name r = v := by
  unfold priceIn
  split
  · next hname => rw [Option.mem_some_iff, and_iff_right hname]
  · next hname => exact iff_of_false (fun h => nomatch h) fun h => hname h.1

theorem column?_eq (t : Table) (name : String) :
    t.column? name = if t.columns.contains name then some (t.rows.map (t.cell name)) else none := by
  unfold Table.column?
  split
  · next hname => rw [Table.column_eq (List.contains_iff_mem.mp hname)]
  · rfl

def doublesOf (t : Table) (name : String) : Option (List Float) :=
  if t.columns.contains name then some (t.rows.map fun r => (t.cell name r).double) else none

theorem doublesOf_of_contains (h : t.columns.contains name = true) :
    doublesOf t name = some (t.rows.map fun r => (t.cell name r).double) := if_pos h

theorem of_columnNumbers {numbers : Option (List Float)}
    (h : columnNumbers (t.column? name) = .ok numbers) :
    numbers = doublesOf t name ∧ ∀ r ∈ t.rows, ∀ v ∈ priceIn t name r, v.cellNumber = .ok v.double := by
  rw [column?_eq] at h
  split at h
  · next hname =>
    obtain ⟨numbers, hnumbers, h⟩ := bind_eq_ok.mp h
    cases h
    obtain ⟨rfl, hreads⟩ := mapM_cellNumber hnumbers
    rw [doublesOf_of_contains hname, List.map_map]
    refine ⟨rfl, fun r hr v hv => ?_⟩
    obtain ⟨_, rfl⟩ := mem_priceIn_iff.mp hv
    exact hreads _ (List.mem_map_of_mem hr)
  · next hname =>
    cases h
    exact ⟨(if_neg hname).symm, fun r _ v hv => absurd (mem_priceIn_iff.mp hv).1 hname⟩

theorem of_checkFinite {label : String} (h : checkFinite label (doublesOf t name) = .ok ()) :
    ∀ r ∈ t.rows, ∀ v ∈ priceIn t name r, v.double.isInf = false := by
  intro r hr v hv
  obtain ⟨hname, rfl⟩ := mem_priceIn_iff.mp hv
  unfold checkFinite at h
  rw [doublesOf_of_contains hname, Option.getD_some, List.any_map] at h
  split at h
  · cases h
  · next hany =>
    refine eq_false_of_ne_true fun hinf => hany ?_
    exact List.any_eq_true.mpr ⟨r, hr, hinf⟩

/-- The doubles with which the lows or the highs of a table are compared. -/
theorem limits_eq (pick : Float → Float → Float) (t : Table) :
    ((doublesOf t "open").map fun xs => List.zipWith pick xs
        (t.rows.map fun r => (t.cell "close" r).double)).getD
      (t.rows.map fun r => (t.cell "close" r).double) =
    t.rows.map fun r => (rowIn t r).limit pick := by
  unfold doublesOf PriceRow.limit rowIn priceIn
  split
  · rw [Option.map_some, Option.getD_some, List.zipWith_map, List.zipWith_self]
    rfl
  · rfl

/-- A comparison of two columns compares them row by row. -/
theorem of_any_zip {limits : List Value → Float} {test : Float × Float → Bool}
    (h : ¬ (((doublesOf t name).getD []).zip (t.rows.map limits)).any test) :
    ∀ r ∈ t.rows, ∀ v ∈ priceIn t name r, ¬ test (v.double, limits r) = true := by
  intro r hr v hv htest
  obtain ⟨hname, rfl⟩ := mem_priceIn_iff.mp hv
  rw [doublesOf_of_contains hname, Option.getD_some, List.zip_map', List.any_map] at h
  exact h (List.any_eq_true.mpr ⟨r, hr, htest⟩)

theorem of_checkRanges (h : checkRanges (doublesOf t "open") (doublesOf t "high") (doublesOf t "low")
      (t.rows.map fun r => (t.cell "close" r).double) = .ok ()) (hr : r ∈ t.rows) :
    (∀ v ∈ (rowIn t r).opening, v.double.isInf = false) ∧
      (∀ v ∈ (rowIn t r).high, v.double.isInf = false) ∧
      (∀ v ∈ (rowIn t r).low, v.double.isInf = false) ∧
      (∀ v ∈ (rowIn t r).low, ¬ (rowIn t r).limit lesser < v.double) ∧
      ∀ v ∈ (rowIn t r).high, ¬ v.double < (rowIn t r).limit greater := by
  obtain ⟨_, hopening, h⟩ := bind_eq_ok.mp h
  obtain ⟨_, hhigh, h⟩ := bind_eq_ok.mp h
  obtain ⟨_, hlow, h⟩ := bind_eq_ok.mp h
  dsimp only at h
  rw [limits_eq lesser, limits_eq greater] at h
  refine ⟨of_checkFinite hopening r hr, of_checkFinite hhigh r hr, of_checkFinite hlow r hr, ?_⟩
  split at h
  · cases h
  · next hfloors =>
    split at h
    · cases h
    · next hroofs =>
      refine ⟨fun v hv => ?_, fun v hv => ?_⟩
      · simpa using of_any_zip hfloors r hr v hv
      · simpa using of_any_zip hroofs r hr v hv

/-! ## Rows -/

/-- An accepted table has passed the checks row by row. -/
theorem checked_of_ofRows (hclose : "close" ∈ t.columns) (h : ofRows t = .ok rows) (hr : r ∈ t.rows) :
    (rowIn t r).Checked := by
  obtain ⟨_, _, h⟩ := bind_eq_ok.mp h
  dsimp only at h
  split at h
  · cases h
  · obtain ⟨closes, hcloses, h⟩ := bind_eq_ok.mp h
    rw [Table.column_eq hclose] at hcloses
    obtain ⟨rfl, hreads⟩ := mapM_cellNumber hcloses
    rw [List.map_map] at h
    split at h
    · cases h
    · next hfinite =>
      obtain ⟨_, hopening, h⟩ := bind_eq_ok.mp h
      obtain ⟨_, hhigh, h⟩ := bind_eq_ok.mp h
      obtain ⟨_, hlow, h⟩ := bind_eq_ok.mp h
      obtain ⟨_, hchecks, _⟩ := bind_eq_ok.mp h
      obtain ⟨rfl, hopenings⟩ := of_columnNumbers hopening
      obtain ⟨rfl, hhighs⟩ := of_columnNumbers hhigh
      obtain ⟨rfl, hlows⟩ := of_columnNumbers hlow
      obtain ⟨hopening', hhigh', hlow', hfloor, hroof⟩ := of_checkRanges hchecks hr
      have hclose' : (t.cell "close" r).double.isFinite := by
        by_contra hnot
        exact hfinite (List.any_eq_true.mpr ⟨_, List.mem_map_of_mem hr, by simpa using hnot⟩)
      refine ⟨?_, ?_, hclose', hfloor, hroof⟩
      · simp only [PriceRow.cells, List.forall_mem_cons, List.forall_mem_append, Option.mem_toList]
        exact ⟨hreads _ (List.mem_map_of_mem hr), ⟨hopenings r hr, hhighs r hr⟩, hlows r hr⟩
      · simp only [PriceRow.cells, List.forall_mem_cons, List.forall_mem_append, Option.mem_toList]
        exact ⟨Binary64.isInf_of_isFinite hclose', ⟨hopening', hhigh'⟩, hlow'⟩

/-- The rows of an accepted schedule have passed the checks. -/
theorem checked_of_ofInput (h : ofInput input = .ok rows) : ∀ row ∈ rows, row.Checked := by
  obtain ⟨t, ht, _⟩ := bind_eq_ok.mp h
  obtain ⟨hmissing, hrows⟩ := ofRows_of_ofInput ht h
  obtain ⟨hclose, htime, hsymbol⟩ := columns_of_missing hmissing
  intro row hrow
  rw [(rows_of_ofRows hrows).1, List.mem_mergeSort, tableRows_eq_map htime hsymbol hclose] at hrow
  obtain ⟨r, hr, rfl⟩ := List.mem_map.mp hrow
  exact checked_of_ofRows hclose hrows hr

end PriceSchedule
end PortfolioLab
