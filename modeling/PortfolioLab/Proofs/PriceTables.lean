import PortfolioLab.Proofs.Quotes

/-!
# Price tables

The rows of a price table are read cell by cell and then sorted. No two of them have both instant and
symbol in common, so the order in which a table gives them does not matter, and a schedule keeps the rows
of a symbol apart from all others.
-/

namespace PortfolioLab

def Value.instant : Value → Instant
  | .text s => ((Instant.read? s).map (·.instant)).getD default
  | _ => default

private theorem Instant.eq_of_following {first : Reading} {v : Value} {time : Instant}
    (h : following first v = .ok time) : v.instant = time := by
  unfold following at h
  split at h
  · split at h
    · next hread =>
      split at h
      · cases h
        rw [Value.instant, hread]
        rfl
      · cases h
    · cases h
  · cases h

theorem Instant.eq_of_ofColumn {cells : List Value} {times : List Instant}
    (h : ofColumn cells = .ok times) : times = cells.map Value.instant := by
  unfold ofColumn at h
  split at h
  · cases h
    rfl
  · split at h
    · next hread =>
      obtain ⟨rest, hrest, h⟩ := bind_eq_ok.mp h
      cases h
      have hcells := (forall₂_of_mapM hrest).imp fun _ _ => Instant.eq_of_following
      rw [← List.forall₂_map_left_iff, List.forall₂_eq_eq_eq] at hcells
      rw [List.map_cons, hcells, Value.instant, hread]
      rfl
    · cases h
  · cases h

theorem WeightSchedule.hasDuplicates_eq_false_iff {keys : List (Instant × String)} :
    hasDuplicates keys = false ↔ keys.Nodup := by
  induction keys with
  | nil => simp [hasDuplicates]
  | cons key rest ih => simp [hasDuplicates, ih]

def PriceRow.cells (row : PriceRow) : List Value :=
  row.close :: (row.opening.toList ++ row.high.toList ++ row.low.toList)

namespace PriceSchedule

variable {t t₁ t₂ : Table} {rows rows₁ rows₂ : PriceSchedule} {input : PriceInput} {z : String}

def tableRows (t : Table) : List PriceRow :=
  (((t.column "event_time").zip (t.column "symbol")).zip (t.column "close")).zipIdx.map
    fun (((time, symbol), close), i) =>
      { time := time.instant, symbol := symbol.display, close
        opening := cellAt (t.column? "open") i
        high := cellAt (t.column? "high") i
        low := cellAt (t.column? "low") i }

def key (row : PriceRow) : Instant × String := (row.time, row.symbol)

/-! ## The rows of an accepted table -/

private def keysOf (t : Table) : List (Instant × String) :=
  ((t.column "event_time").map Value.instant).zip ((t.column "symbol").map Value.display)

private theorem tableRows_eq (t : Table) :
    tableRows t = (((keysOf t).zip (t.column "close")).zipIdx.map fun (((time, symbol), close), i) =>
      { time, symbol, opening := cellAt (t.column? "open") i, high := cellAt (t.column? "high") i,
        low := cellAt (t.column? "low") i, close : PriceRow }) := by
  rw [keysOf, List.zip_map, List.zip_map_left, List.zipIdx_map, List.map_map]
  rfl

private theorem map_fst_zip_sublist {α β : Type} (xs : List α) (ys : List β) :
    ((xs.zip ys).map Prod.fst).Sublist xs := by
  induction xs generalizing ys with
  | nil => simp
  | cons x xs ih =>
    cases ys with
    | nil => simp
    | cons y ys => simpa using ih ys

private theorem map_key_tableRows (t : Table) :
    ((tableRows t).map key).Sublist (keysOf t) := by
  have hkeys : (tableRows t).map key = ((keysOf t).zip (t.column "close")).map Prod.fst := by
    rw [tableRows_eq, List.map_map, ← List.zipIdx_map_fst 0 ((keysOf t).zip (t.column "close")),
      List.map_map, List.zipIdx_map_fst]
    rfl
  rw [hkeys]
  exact map_fst_zip_sublist _ _

/-- A schedule has the rows of its table, sorted, no two of them of one symbol at one instant. -/
theorem rows_of_ofRows (h : ofRows t = .ok rows) :
    rows = (tableRows t).mergeSort rowLe ∧ ((tableRows t).map key).Nodup := by
  obtain ⟨times, htimes, h⟩ := bind_eq_ok.mp h
  dsimp only at h
  split at h
  · cases h
  · next hkeys =>
    obtain ⟨numbers, _, h⟩ := bind_eq_ok.mp h
    split at h
    · cases h
    · obtain ⟨_, _, h⟩ := bind_eq_ok.mp h
      obtain ⟨_, _, h⟩ := bind_eq_ok.mp h
      obtain ⟨_, _, h⟩ := bind_eq_ok.mp h
      obtain ⟨_, _, h⟩ := bind_eq_ok.mp h
      cases h
      rw [Instant.eq_of_ofColumn htimes] at hkeys ⊢
      have hn := WeightSchedule.hasDuplicates_eq_false_iff.mp (eq_false_of_ne_true hkeys)
      refine ⟨?_, hn.sublist (map_key_tableRows t)⟩
      rw [tableRows_eq]
      rfl

/-- An accepted table has the columns that are required, and its rows are accepted. -/
theorem ofRows_of_ofInput (ht : tableOf input = .ok t) (h : ofInput input = .ok rows) :
    t.missing ["close", "event_time", "symbol"] = [] ∧ ofRows t = .ok rows := by
  rw [ofInput, ht, ok_bind] at h
  split at h
  · next hmissing =>
    split at h
    · cases h
    · exact ⟨hmissing, h⟩
  · cases h

theorem rows_of_ofInput (ht : tableOf input = .ok t) (h : ofInput input = .ok rows) :
    rows = (tableRows t).mergeSort rowLe ∧ ((tableRows t).map key).Nodup :=
  rows_of_ofRows (ofRows_of_ofInput ht h).2

/-! ## Rows of one symbol -/

/-- Rows of distinct keys come out in the same order however they are given. -/
theorem mergeSort_rowLe_congr (hn : (rows₁.map key).Nodup) (h : rows₁.Perm rows₂) :
    rows₁.mergeSort rowLe = rows₂.mergeSort rowLe := by
  refine mergeSort_congr rowLe_trans rowLe_total h fun a ha b hb hab hba => ?_
  refine List.inj_on_of_nodup_map hn ha hb ?_
  rcases rowLe_iff.mp hab with hlt | ⟨htime, hle⟩
  · rcases rowLe_iff.mp hba with hlt' | ⟨htime, _⟩
    · exact absurd hlt' hlt.asymm
    · exact absurd htime hlt.ne'
  · rcases rowLe_iff.mp hba with hlt | ⟨_, hle'⟩
    · exact absurd htime hlt.ne'
    · exact Prod.ext htime (le_antisymm hle hle')

/-- Rows may be taken away before they are sorted. -/
private theorem filter_mergeSort_rowLe (hn : (rows.map key).Nodup) (p : PriceRow → Bool) :
    (rows.mergeSort rowLe).filter p = (rows.filter p).mergeSort rowLe := by
  have hsorted := (List.pairwise_mergeSort rowLe_trans rowLe_total rows).filter p
  have hperm : (rows.filter p).Perm ((rows.mergeSort rowLe).filter p) :=
    ((List.mergeSort_perm rows rowLe).filter p).symm
  rw [mergeSort_rowLe_congr (hn.sublist (List.filter_sublist.map key)) hperm,
    List.mergeSort_of_pairwise hsorted]

/-- Tables with the same rows but for those of one symbol make such schedules. -/
theorem SameBut.ofInput {input₁ input₂ : PriceInput} (h : SameBut z (tableRows t₁) (tableRows t₂))
    (ht₁ : tableOf input₁ = .ok t₁) (ht₂ : tableOf input₂ = .ok t₂)
    (h₁ : ofInput input₁ = .ok rows₁) (h₂ : ofInput input₂ = .ok rows₂) : SameBut z rows₁ rows₂ := by
  obtain ⟨rfl, hn₁⟩ := rows_of_ofInput ht₁ h₁
  obtain ⟨rfl, hn₂⟩ := rows_of_ofInput ht₂ h₂
  refine ⟨?_, fun time => by simpa using h.times time⟩
  rw [filter_mergeSort_rowLe hn₁, filter_mergeSort_rowLe hn₂]
  refine forall₂_mergeSort (fun a b c d hab hcd => ?_) h.rows
  rw [rowLe, rowLe, hab.time, hab.symbol, hcd.time, hcd.symbol]

end PriceSchedule
end PortfolioLab
