import PortfolioLab.Proofs.PriceTables

/-!
# Rearranged inputs

A price table has its rows in some order, a weight mapping its instants and the symbols of each, and a
mapping of rules its symbols. What is made of them does not show that order: rows and entries are sorted,
no two of them alike, and weights and rules are only looked up.
-/

namespace PortfolioLab

/-- The lists correspond entry by entry once the first is put in another order. -/
def Rearranged {α β : Type} (R : α → β → Prop) (xs : List α) (ys : List β) : Prop :=
  ∃ zs, xs.Perm zs ∧ List.Forall₂ R zs ys

namespace Rearranged

variable {α β γ δ : Type} {R : α → β → Prop} {xs : List α} {ys : List β}

theorem map {S : γ → δ → Prop} {f : α → γ} {g : β → δ} (h : Rearranged R xs ys)
    (hR : ∀ a b, R a b → S (f a) (g b)) : Rearranged S (xs.map f) (ys.map g) := by
  obtain ⟨zs, hperm, hzs⟩ := h
  refine ⟨zs.map f, hperm.map f, ?_⟩
  rw [List.forall₂_map_left_iff, List.forall₂_map_right_iff]
  exact hzs.imp hR

theorem perm_map {f : α → γ} {g : β → γ} (h : Rearranged R xs ys) (hR : ∀ a b, R a b → f a = g b) :
    (xs.map f).Perm (ys.map g) := by
  obtain ⟨zs, hperm, hzs⟩ := h.map (S := Eq) hR
  rw [List.forall₂_eq_eq_eq] at hzs
  exact hzs ▸ hperm

/-- Sorted, they correspond entry by entry, if no two entries of the first tie. -/
theorem mergeSort {le : α → α → Bool} {le' : β → β → Bool}
    (trans : ∀ a b c, le a b → le b c → le a c) (total : ∀ a b, le a b || le b a)
    (hle : ∀ a b c d, R a b → R c d → le a c = le' b d) (h : Rearranged R xs ys)
    (hties : ∀ a ∈ xs, ∀ b ∈ xs, le a b → le b a → a = b) :
    List.Forall₂ R (xs.mergeSort le) (ys.mergeSort le') := by
  obtain ⟨zs, hperm, hzs⟩ := h
  rw [mergeSort_congr trans total hperm hties]
  exact forall₂_mergeSort hle hzs

end Rearranged

/-! ## Tables -/

namespace Table

variable {t : Table} {cells cells' : List Value} {name : String}

/-- How a column with these cells holds each of them. -/
def unifyCell (cells : List Value) : Value → Value :=
  if cells.all isNumberCell && !cells.all isIntegerCell && !cells.all isMissingCell then toRealCell
  else id

theorem unifyCells_eq (cells : List Value) : unifyCells cells = cells.map (unifyCell cells) := by
  unfold unifyCells unifyCell
  split <;> simp

theorem unifyCell_congr (h : cells.Perm cells') : unifyCell cells = unifyCell cells' := by
  simp only [unifyCell, h.all_eq]

theorem instant_unifyCell (cells : List Value) (v : Value) : (unifyCell cells v).instant = v.instant := by
  unfold unifyCell
  split
  · cases v <;> rfl
  · rfl

def cellIn (columns : List String) (name : String) (row : List Value) : Value :=
  match columns.findIdx? (· == name) with
  | some i => row[i]?.getD .null
  | none => .null

/-- The cell that a row has under a name, as its column holds it. -/
def cell (t : Table) (name : String) (row : List Value) : Value :=
  unifyCell (t.rows.map (cellIn t.columns name)) (cellIn t.columns name row)

theorem column_eq (h : name ∈ t.columns) : t.column name = t.rows.map (t.cell name) := by
  unfold column
  split
  · next i hi =>
    have hcells : cellIn t.columns name = fun row => row[i]?.getD .null := by
      funext row
      simp only [cellIn, hi]
    rw [← hcells, unifyCells_eq, List.map_map]
    rfl
  · next hnone =>
    have hnot := List.findIdx?_eq_none_iff.mp hnone name h
    simp at hnot

end Table

namespace PriceSchedule

open Table (cellIn)

variable {t t₁ t₂ : Table} {rows₁ rows₂ : PriceSchedule} {r s : List Value}

def priceIn (t : Table) (name : String) (row : List Value) : Option Value :=
  if t.columns.contains name then some (t.cell name row) else none

def rowIn (t : Table) (row : List Value) : PriceRow where
  time := (cellIn t.columns "event_time" row).instant
  symbol := (t.cell "symbol" row).display
  opening := priceIn t "open" row
  high := priceIn t "high" row
  low := priceIn t "low" row
  close := t.cell "close" row

private theorem cellAt_column? {row : List Value} {i : Nat} (name : String) (h : t.rows[i]? = some row) :
    cellAt (t.column? name) i = priceIn t name row := by
  unfold Table.column? priceIn
  split
  · next hname =>
    rw [Table.column_eq (List.contains_iff_mem.mp hname)]
    simp [cellAt, h]
  · rfl

theorem tableRows_eq_map (htime : "event_time" ∈ t.columns) (hsymbol : "symbol" ∈ t.columns)
    (hclose : "close" ∈ t.columns) : tableRows t = t.rows.map (rowIn t) := by
  rw [tableRows, Table.column_eq htime, Table.column_eq hsymbol, Table.column_eq hclose, List.zip_map',
    List.zip_map', List.zipIdx_map, List.map_map]
  conv_rhs => rw [← List.zipIdx_map_fst 0 t.rows, List.map_map]
  refine List.map_congr_left fun ⟨row, i⟩ hrow => ?_
  have hi : t.rows[i]? = some row := List.mem_zipIdx_iff_getElem?.mp hrow
  simp only [Function.comp_apply, Prod.map_apply, id_eq, cellAt_column? _ hi, rowIn, Table.cell,
    Table.instant_unifyCell]

/-- Rows with the same cells, but for how their instant is written. -/
structure SameCells (columns : List String) (r s : List Value) : Prop where
  time : (cellIn columns "event_time" r).instant = (cellIn columns "event_time" s).instant
  others : ∀ name, name ≠ "event_time" → cellIn columns name r = cellIn columns name s

/-- Price tables with the same columns and the same rows in any order. -/
structure SameTable (t₁ t₂ : Table) : Prop where
  columns : t₁.columns = t₂.columns
  rows : Rearranged (SameCells t₁.columns) t₁.rows t₂.rows

private theorem SameTable.cell (h : SameTable t₁ t₂) {name : String} (hname : name ≠ "event_time")
    (hrow : SameCells t₁.columns r s) : t₁.cell name r = t₂.cell name s := by
  have hcells : (t₁.rows.map (cellIn t₁.columns name)).Perm (t₂.rows.map (cellIn t₁.columns name)) :=
    h.rows.perm_map fun a b hab => hab.others name hname
  rw [Table.cell, Table.cell, ← h.columns, hrow.others name hname, Table.unifyCell_congr hcells]

private theorem SameTable.rowIn (h : SameTable t₁ t₂) (hrow : SameCells t₁.columns r s) :
    rowIn t₁ r = rowIn t₂ s := by
  have hprice : ∀ name, name ≠ "event_time" → priceIn t₁ name r = priceIn t₂ name s := by
    intro name hname
    rw [priceIn, priceIn, h.columns, h.cell hname hrow]
  rw [PriceSchedule.rowIn, PriceSchedule.rowIn, ← h.columns, hrow.time, h.cell (by decide) hrow,
    h.cell (by decide) hrow, hprice _ (by decide), hprice _ (by decide), hprice _ (by decide)]

theorem columns_of_missing (h : t.missing ["close", "event_time", "symbol"] = []) :
    "close" ∈ t.columns ∧ "event_time" ∈ t.columns ∧ "symbol" ∈ t.columns := by
  simpa [Table.missing] using h

/-- The order of its rows does not show in the schedule of a table. -/
theorem SameTable.ofInput (h : SameTable t₁ t₂) (h₁ : ofInput (.table t₁) = .ok rows₁)
    (h₂ : ofInput (.table t₂) = .ok rows₂) : rows₁ = rows₂ := by
  obtain ⟨hclose₁, htime₁, hsymbol₁⟩ := columns_of_missing (ofRows_of_ofInput rfl h₁).1
  obtain ⟨hclose₂, htime₂, hsymbol₂⟩ := columns_of_missing (ofRows_of_ofInput rfl h₂).1
  obtain ⟨rfl, hn⟩ := rows_of_ofInput rfl h₁
  obtain ⟨rfl, _⟩ := rows_of_ofInput rfl h₂
  apply mergeSort_rowLe_congr hn
  rw [tableRows_eq_map htime₁ hsymbol₁ hclose₁, tableRows_eq_map htime₂ hsymbol₂ hclose₂]
  exact h.rows.perm_map fun a b hab => h.rowIn hab

end PriceSchedule

/-! ## Weights -/

/-- Among distinct symbols the order of the entries does not matter to look-up. -/
theorem Register.find?_perm {α : Type} {r r' : Register α} (hn : r.symbols.Nodup) (h : r.Perm r')
    (symbol : String) : r.find? symbol = r'.find? symbol := by
  have hn' : r'.symbols.Nodup := (h.map Prod.fst).nodup_iff.mp hn
  refine Option.ext fun value => ?_
  rw [find?_eq_some_iff hn, find?_eq_some_iff hn', h.mem_iff]

theorem Instant.ofText_of_read? {s : String} {reading : Reading} {time : Instant}
    (h : read? s = some reading) (htime : reading.instant = time) : ofText s = .ok time := by
  rw [ofText, h, ← htime]

namespace WeightSchedule

variable {entries entries₁ entries₂ : List (String × Targets)}
  {schedule schedule₁ schedule₂ before groups : WeightSchedule} {time : Instant} {targets : Targets}

/-- Weights that one instant may have: finite, not negative, and with a sum that exceeds one by no more than
the tolerance. -/
structure Admissible (targets : Targets) : Prop where
  weights : Register.All (fun w => w.isFinite = true ∧ ¬ w < 0) targets
  sum : ¬ 1 + tolerance < (targets.map (·.2)).foldl (· + ·) 0

instance (targets : Targets) : Decidable (Admissible targets) :=
  decidable_of_iff ((∀ entry ∈ targets, entry.2.isFinite = true ∧ ¬ entry.2 < 0) ∧
    ¬ 1 + tolerance < (targets.map (·.2)).foldl (· + ·) 0) ⟨fun h => ⟨h.1, h.2⟩, fun h => ⟨h.1, h.2⟩⟩

theorem checkWeights_eq_ok_iff :
    checkWeights time targets = .ok () ↔ Register.All (fun w => w.isFinite = true ∧ ¬ w < 0) targets := by
  induction targets with
  | nil => exact ⟨fun _ => Register.all_nil, fun _ => rfl⟩
  | cons entry rest ih =>
    rw [Register.all_cons, ← ih, checkWeights]
    split
    · next h =>
      have hinfinite : ¬ entry.2.isFinite = true := by simpa using h
      simp [refuse, hinfinite]
    · next h =>
      have hfinite : entry.2.isFinite = true := by simpa using h
      split
      · next hsign => simp [refuse, hsign]
      · next hsign => simp [hfinite, hsign]

theorem checkEntry_eq_ok_iff : checkEntry time targets = .ok () ↔ Admissible targets := by
  rw [checkEntry, bind_eq_ok]
  constructor
  · rintro ⟨⟨⟩, hweights, hsum⟩
    refine ⟨checkWeights_eq_ok_iff.mp hweights, fun h => ?_⟩
    rw [if_pos h] at hsum
    cases hsum
  · rintro ⟨hweights, hsum⟩
    exact ⟨(), checkWeights_eq_ok_iff.mpr hweights, if_neg hsum⟩

theorem addEntry_eq_ok_iff : addEntry before time targets = .ok schedule ↔
    time ∉ before.map (·.1) ∧ Admissible targets ∧ schedule = before ++ [(time, targets)] := by
  have htime : before.any (·.1 = time) = true ↔ time ∈ before.map (·.1) := by simp
  unfold addEntry
  split
  · next h => simp [refuse, htime.mp h]
  · next h =>
    rw [bind_eq_ok, and_iff_right (mt htime.mpr h)]
    constructor
    · rintro ⟨⟨⟩, hcheck, hschedule⟩
      exact ⟨checkEntry_eq_ok_iff.mp hcheck, (Except.ok.inj hschedule).symm⟩
    · rintro ⟨hadmissible, rfl⟩
      exact ⟨(), checkEntry_eq_ok_iff.mpr hadmissible, rfl⟩

theorem foldlM_addEntry_eq_ok_iff (hn : (before.map (·.1)).Nodup) :
    groups.foldlM (fun schedule entry => addEntry schedule entry.1 entry.2) before = .ok schedule ↔
      ((before ++ groups).map (·.1)).Nodup ∧ (∀ group ∈ groups, Admissible group.2) ∧
        schedule = before ++ groups := by
  induction groups generalizing before with
  | nil => simpa [pure, Except.pure, hn] using eq_comm
  | cons group rest ih =>
    have hsplit : before ++ group :: rest = before ++ [group] ++ rest := by simp
    have hfirst : ((before ++ [group]).map (·.1)).Nodup ↔ group.1 ∉ before.map (·.1) := by
      rw [List.map_append, List.map_singleton, ← List.concat_eq_append, List.nodup_concat, and_iff_left hn]
    rw [List.foldlM_cons, bind_eq_ok, hsplit, List.forall_mem_cons]
    constructor
    · rintro ⟨next, hadd, hrest⟩
      obtain ⟨hnew, hgroup, rfl⟩ := addEntry_eq_ok_iff.mp hadd
      obtain ⟨hall, hgroups, rfl⟩ := (ih (hfirst.mpr hnew)).mp hrest
      exact ⟨hall, ⟨hgroup, hgroups⟩, rfl⟩
    · rintro ⟨hall, ⟨hgroup, hgroups⟩, rfl⟩
      have hbefore := hall.sublist ((List.sublist_append_left (before ++ [group]) rest).map _)
      exact ⟨_, addEntry_eq_ok_iff.mpr ⟨hfirst.mp hbefore, hgroup, rfl⟩, (ih hbefore).mpr ⟨hall, hgroups, rfl⟩⟩

/-- Entries are accepted if their instants are distinct and the weights of each are admissible, and then
sorted. -/
theorem ofEntries_eq_ok_iff : ofEntries groups = .ok schedule ↔
    (groups.map (·.1)).Nodup ∧ (∀ group ∈ groups, Admissible group.2) ∧ schedule = sortByTime groups := by
  have hempty : (([] : WeightSchedule).map (·.1)).Nodup := List.nodup_nil
  rw [ofEntries, bind_eq_ok]
  constructor
  · rintro ⟨all, hall, h⟩
    obtain ⟨hn, hgroups, rfl⟩ := (foldlM_addEntry_eq_ok_iff hempty).mp hall
    exact ⟨hn, hgroups, (Except.ok.inj h).symm⟩
  · rintro ⟨hn, hgroups, rfl⟩
    exact ⟨groups, (foldlM_addEntry_eq_ok_iff hempty).mpr ⟨hn, hgroups, rfl⟩, rfl⟩

/-- A mapping with these groups as its entries, each under a text of its instant. -/
def Spells (entries : List (String × Targets)) (groups : List (Instant × Targets)) : Prop :=
  List.Forall₂ (fun entry group => Instant.ofText entry.1 = .ok group.1 ∧ entry.2 = group.2) entries groups

/-- Entries under texts of their instants make the schedule of these instants. -/
theorem Spells.ofMapping_eq (h : Spells entries groups) : ofMapping entries = ofEntries groups := by
  have hstep : ∀ (schedule : WeightSchedule) (entry : String × Targets) (group : Instant × Targets),
      Instant.ofText entry.1 = .ok group.1 ∧ entry.2 = group.2 →
        (do addEntry schedule (← Instant.ofText entry.1) entry.2) = addEntry schedule group.1 group.2 := by
    rintro schedule entry group ⟨htime, htargets⟩
    rw [htime, ok_bind, htargets]
  rw [ofMapping, ofEntries, foldlM_congr_of_forall₂ h hstep]

def read (entry : String × Targets) : Instant × Targets := ((Value.text entry.1).instant, entry.2)

private theorem eq_instant_of_ofText {s : String} {time : Instant} (h : Instant.ofText s = .ok time) :
    time = (Value.text s).instant := by
  unfold Instant.ofText at h
  split at h
  · next hread =>
    cases h
    rw [Value.instant, hread]
    rfl
  · cases h

/-- The texts of an accepted mapping are all read. -/
private theorem spells_of_ofMapping (h : ofMapping entries = .ok schedule) :
    Spells entries (entries.map read) := by
  obtain ⟨all, hall, _⟩ := bind_eq_ok.mp h
  rw [Spells, List.forall₂_map_right_iff]
  refine List.forall₂_same.mpr fun entry hentry => ?_
  obtain ⟨before, after, hstep⟩ := exists_step_of_foldlM hall entry hentry
  obtain ⟨time, htime, _⟩ := bind_eq_ok.mp hstep
  rw [htime, eq_instant_of_ofText htime]
  exact ⟨rfl, rfl⟩

/-- The schedule of a mapping has its entries in order of time, no two of them of one instant. -/
theorem entries_of_ofMapping (h : ofMapping entries = .ok schedule) :
    schedule = sortByTime (entries.map read) ∧ ((entries.map read).map (·.1)).Nodup := by
  rw [(spells_of_ofMapping h).ofMapping_eq] at h
  obtain ⟨hn, _, hschedule⟩ := ofEntries_eq_ok_iff.mp h
  exact ⟨hschedule, hn⟩

/-- Entries of distinct instants come out in the same order however they are given. -/
theorem forall₂_sortByTime (hn : (schedule₁.map (·.1)).Nodup) (h : Rearranged SameEntry schedule₁ schedule₂) :
    List.Forall₂ SameEntry (sortByTime schedule₁) (sortByTime schedule₂) := by
  refine h.mergeSort (fun a b c => by simpa using le_trans) (fun a b => by simpa using le_total a.1 b.1)
    (fun a b c d hab hcd => by rw [hab.1, hcd.1]) fun a ha b hb hab hba => ?_
  exact List.inj_on_of_nodup_map hn ha hb
    (le_antisymm (Instant.le_eq_true_iff.mp hab) (Instant.le_eq_true_iff.mp hba))

/-- Entries of one text, with the same weights of distinct symbols in any order. -/
structure SameMapping (e f : String × Targets) : Prop where
  text : e.1 = f.1
  distinct : e.2.symbols.Nodup
  targets : e.2.Perm f.2

/-- The order of a mapping does not show in its schedule, but for the symbols of an entry. -/
theorem forall₂_sameEntry (h : Rearranged SameMapping entries₁ entries₂)
    (h₁ : ofMapping entries₁ = .ok schedule₁) (h₂ : ofMapping entries₂ = .ok schedule₂) :
    List.Forall₂ SameEntry schedule₁ schedule₂ := by
  obtain ⟨rfl, hn⟩ := entries_of_ofMapping h₁
  obtain ⟨rfl, _⟩ := entries_of_ofMapping h₂
  have hread : Rearranged SameEntry (entries₁.map read) (entries₂.map read) := h.map fun e f hef =>
    ⟨by rw [read, read, hef.text], Register.find?_perm hef.distinct hef.targets⟩
  exact forall₂_sortByTime hn hread

end WeightSchedule
end PortfolioLab
