import PortfolioLab.Proofs.Rearrangements

/-!
# Weight tables

A weight table has a row for each instant and symbol, a weight mapping an entry for each instant. The rows of
a table, grouped by instant, are the entries of a mapping, and both are accepted or refused alike, however
the rows of different instants come between each other. What tells them apart is how instants are written:
each text of a mapping is read on its own, while all texts of a table have to follow the first in its layout
and its distance from universal time.
-/

namespace PortfolioLab

inductive NumberCell where
  | int (n : Int)
  | real (x : Float)
  | truth (b : Bool)
  | decimal (d : Decimal)

namespace NumberCell

def cell : NumberCell → Value
  | int n => .int n
  | real x => .real x
  | truth b => .bool b
  | decimal d => .decimal (.finite d)

def value : NumberCell → Float
  | int n => Binary64.ofInt n
  | real x => x
  | truth b => if b then 1 else 0
  | decimal d => Binary64.ofDecimal d

/-- The common type of a column does not change the numbers in it. -/
theorem weightOf_unifyCell (w : NumberCell) (cells : List Value) :
    WeightSchedule.weightOf (Table.unifyCell cells w.cell) = .ok w.value := by
  unfold Table.unifyCell
  split <;> cases w <;> rfl

end NumberCell

namespace Table

variable {t : Table} {name : String}

theorem unifyCells_text {α : Type} (f : α → String) (xs : List α) :
    unifyCells (xs.map fun x => .text (f x)) = xs.map fun x => .text (f x) := by
  rw [unifyCells_eq, List.map_map]
  refine List.map_congr_left fun x _ => ?_
  unfold unifyCell
  dsimp only [Function.comp_apply]
  split <;> rfl

theorem column_eq_unifyCells (h : name ∈ t.columns) :
    t.column name = unifyCells (t.rows.map (cellIn t.columns name)) := by
  rw [column_eq h, unifyCells_eq, List.map_map]
  rfl

end Table

namespace WeightSchedule

open Table (cellIn)

/-! ## Rows grouped by instant -/

section Groups

variable {rows : List Row} {row : Row} {times : List Instant} {time : Instant} {targets : Instant → Targets}

def Row.key (row : Row) : Instant × String := (row.time, row.symbol)

def targetsOf (rows : List Row) (time : Instant) : Targets :=
  (rows.filter (·.time = time)).map fun row => (row.symbol, row.weight)

/-- The weights of every instant that has a row, in the order of the first rows. -/
def groupsOf (rows : List Row) : List (Instant × Targets) :=
  (rows.map (·.time)).eraseDups.map fun time => (time, targetsOf rows time)

theorem nodup_map_fst_groupsOf (rows : List Row) : ((groupsOf rows).map (·.1)).Nodup := by
  have htimes : (groupsOf rows).map (·.1) = (rows.map (·.time)).eraseDups := by
    simp [groupsOf, Function.comp_def]
  rw [htimes]
  exact nodup_eraseDups _

theorem targetsOf_append_singleton (rows : List Row) (row : Row) (time : Instant) :
    targetsOf (rows ++ [row]) time =
      if row.time = time then targetsOf rows time ++ [(row.symbol, row.weight)]
      else targetsOf rows time := by
  by_cases h : row.time = time <;> simp [targetsOf, h]

private theorem insert_of_mem (hn : times.Nodup) (h : row.time ∈ times) :
    groupRows.insert (times.map fun time => (time, targets time)) row =
      times.map fun time =>
        (time, if row.time = time then (targets time).put row.symbol row.weight else targets time) := by
  induction times with
  | nil => cases h
  | cons first rest ih =>
    obtain ⟨hnot, hn⟩ := List.nodup_cons.mp hn
    by_cases hfirst : first = row.time
    · have hrest : ∀ time ∈ rest, row.time ≠ time := by
        rintro time htime rfl
        exact hnot (hfirst ▸ htime)
      simp +contextual [groupRows.insert, hfirst, hrest]
    · have hmem := (List.mem_cons.mp h).resolve_left (Ne.symm hfirst)
      simp [groupRows.insert, hfirst, Ne.symm hfirst, ih hn hmem]

private theorem insert_of_notMem (h : row.time ∉ times) :
    groupRows.insert (times.map fun time => (time, targets time)) row =
      times.map (fun time => (time, targets time)) ++ [(row.time, [(row.symbol, row.weight)])] := by
  induction times with
  | nil => rfl
  | cons first rest ih =>
    obtain ⟨hfirst, hrest⟩ := not_or.mp (mt List.mem_cons.mpr h)
    simp [groupRows.insert, Ne.symm hfirst, ih hrest]

private theorem symbol_notMem_targetsOf (h : row.key ∉ rows.map Row.key) :
    row.symbol ∉ (targetsOf rows row.time).symbols := by
  intro hsymbol
  obtain ⟨entry, hentry, hname⟩ := List.mem_map.mp hsymbol
  obtain ⟨other, hother, rfl⟩ := List.mem_map.mp hentry
  obtain ⟨hmem, htime⟩ := List.mem_filter.mp hother
  exact h (List.mem_map.mpr ⟨other, hmem, Prod.ext (of_decide_eq_true htime) hname⟩)

private theorem targetsOf_of_notMem (h : time ∉ rows.map (·.time)) : targetsOf rows time = [] := by
  have hnone : ∀ row ∈ rows, row.time ≠ time := by
    rintro row hrow rfl
    exact h (List.mem_map_of_mem hrow)
  simpa [targetsOf] using hnone

/-- A row whose instant and symbol are new goes to the end of the group of its instant, or starts one. -/
theorem insert_groupsOf (hkey : row.key ∉ rows.map Row.key) :
    groupRows.insert (groupsOf rows) row = groupsOf (rows ++ [row]) := by
  rw [groupsOf, groupsOf, List.map_append, List.map_singleton, eraseDups_append_singleton]
  split
  · next htime =>
    rw [insert_of_mem (nodup_eraseDups _) (List.mem_eraseDups.mpr htime)]
    refine List.map_congr_left fun time _ => ?_
    rw [targetsOf_append_singleton]
    split
    · next htime =>
      subst htime
      rw [Register.put_of_notMem (symbol_notMem_targetsOf hkey)]
    · rfl
  · next htime =>
    have hothers : ∀ time ∈ (rows.map (·.time)).eraseDups,
        targetsOf (rows ++ [row]) time = targetsOf rows time := by
      intro time hm
      rw [targetsOf_append_singleton, if_neg]
      rintro rfl
      exact htime (List.mem_eraseDups.mp hm)
    rw [insert_of_notMem (mt List.mem_eraseDups.mp htime), List.map_append, List.map_singleton,
      targetsOf_append_singleton, if_pos rfl, targetsOf_of_notMem htime, List.nil_append]
    congr 1
    exact List.map_congr_left fun time hm => by rw [hothers time hm]

/-- Rows of distinct instants and symbols are grouped without any of them replacing another. -/
theorem groupRows_eq_groupsOf (h : (rows.map Row.key).Nodup) : groupRows rows = groupsOf rows := by
  -- the rows are taken from the front, so the last one is put into the groups of all others
  induction rows using List.reverseRecOn with
  | nil => rfl
  | append_singleton rows row ih =>
    rw [List.map_append, List.map_singleton, List.nodup_append] at h
    obtain ⟨hrows, _, hnew⟩ := h
    have hkey : row.key ∉ rows.map Row.key := fun hm => hnew _ hm _ (List.mem_singleton.mpr rfl) rfl
    rw [← insert_groupsOf hkey, ← ih hrows, groupRows, List.foldl_append]
    rfl

private theorem nodup_symbols_targetsOf (h : (rows.map Row.key).Nodup) (time : Instant) :
    (targetsOf rows time).symbols.Nodup := by
  have hkeys : (rows.filter (·.time = time)).map Row.key = (targetsOf rows time).symbols.map (time, ·) := by
    rw [Register.symbols, targetsOf, List.map_map, List.map_map]
    exact List.map_congr_left fun row hrow => Prod.ext (of_decide_eq_true (List.mem_filter.mp hrow).2) rfl
  have hfiltered := h.sublist ((List.filter_sublist (p := (·.time = time))).map Row.key)
  rw [hkeys] at hfiltered
  exact hfiltered.of_map

/-- The order of the rows does not show in the groups, but for the order in them and among them. -/
theorem rearranged_groupsOf {rows' : List Row} (h : (rows.map Row.key).Nodup) (hperm : rows.Perm rows') :
    Rearranged SameEntry (groupsOf rows) (groupsOf rows') := by
  have htimes : (rows.map (·.time)).eraseDups.Perm (rows'.map (·.time)).eraseDups := by
    refine (List.perm_ext_iff_of_nodup (nodup_eraseDups _) (nodup_eraseDups _)).mpr fun time => ?_
    rw [List.mem_eraseDups, List.mem_eraseDups, (hperm.map (·.time)).mem_iff]
  have hsame : Rearranged Eq (rows.map (·.time)).eraseDups (rows'.map (·.time)).eraseDups :=
    ⟨_, htimes, List.forall₂_same.mpr fun _ _ => rfl⟩
  refine hsame.map ?_
  rintro time _ rfl
  exact ⟨rfl, Register.find?_perm (nodup_symbols_targetsOf h time) ((hperm.filter _).map _)⟩

end Groups

/-! ## Tables and mappings of the same rows -/

structure WrittenRow where
  text : String
  reading : Instant.Reading
  readable : Instant.read? text = some reading
  symbol : String
  weight : NumberCell

def rowsOf (written : List WrittenRow) : List Row :=
  written.map fun r => ⟨r.reading.instant, r.symbol, r.weight.value⟩

/-- The cells that a row of a table has under the three names that are read. -/
structure WrittenRow.Fills (r : WrittenRow) (columns : List String) (cells : List Value) : Prop where
  time : cellIn columns "event_time" cells = .text r.text
  symbol : cellIn columns "symbol" cells = .text r.symbol
  weight : cellIn columns "weight" cells = r.weight.cell

/-- A table with these rows. It may have other columns too. -/
structure Tabulates (t : Table) (rows : List WrittenRow) : Prop where
  columns : ∀ name ∈ ["event_time", "symbol", "weight"], name ∈ t.columns
  rows : List.Forall₂ (fun cells r => r.Fills t.columns cells) t.rows rows

/-- All texts of the rows have one layout and one distance from universal time. -/
def Uniform (rows : List WrittenRow) : Prop :=
  ∀ r ∈ rows, ∀ s ∈ rows, s.reading.layout = r.reading.layout ∧ s.reading.offset = r.reading.offset

instance (rows : List WrittenRow) : Decidable (Uniform rows) :=
  inferInstanceAs (Decidable (∀ r ∈ rows, ∀ s ∈ rows, _ ∧ _))

section Agreement

variable {t : Table} {rows : List WrittenRow} {entries : List (String × Targets)}

theorem following_text (first : Instant.Reading) (r : WrittenRow) :
    Instant.following first (.text r.text) =
      if r.reading.layout = first.layout ∧ r.reading.offset = first.offset then .ok r.reading.instant
      else .error .badValue := by
  simp only [Instant.following, r.readable]

theorem uniform_cons_iff {first : WrittenRow} {rest : List WrittenRow} : Uniform (first :: rest) ↔
    ∀ r ∈ rest, r.reading.layout = first.reading.layout ∧ r.reading.offset = first.reading.offset := by
  constructor
  · exact fun h r hr => h first List.mem_cons_self r (List.mem_cons_of_mem _ hr)
  · intro h r hr s hs
    have hfirst : ∀ r ∈ first :: rest, r.reading.layout = first.reading.layout ∧
        r.reading.offset = first.reading.offset := List.forall_mem_cons.mpr ⟨⟨rfl, rfl⟩, h⟩
    rw [(hfirst s hs).1, (hfirst s hs).2, (hfirst r hr).1, (hfirst r hr).2]
    exact ⟨rfl, rfl⟩

theorem ofColumn_of_uniform (h : Uniform rows) :
    Instant.ofColumn (rows.map fun r => .text r.text) = .ok (rows.map (·.reading.instant)) := by
  cases rows with
  | nil => rfl
  | cons first rest =>
    have hrest : (rest.map fun r => Value.text r.text).mapM (Instant.following first.reading) =
        .ok (rest.map (·.reading.instant)) := by
      apply mapM_of_forall₂
      rw [List.forall₂_map_left_iff, List.forall₂_map_right_iff]
      refine List.forall₂_same.mpr fun r hr => ?_
      rw [following_text, if_pos (uniform_cons_iff.mp h r hr)]
    simp only [List.map_cons, Instant.ofColumn, first.readable]
    rw [hrest]
    rfl

/-- A text that does not follow the first one makes the whole column unreadable. -/
theorem ofColumn_of_not_uniform (h : ¬ Uniform rows) :
    Instant.ofColumn (rows.map fun r => .text r.text) = .error .badValue := by
  cases rows with
  | nil => exact absurd (fun r hr => absurd hr List.not_mem_nil) h
  | cons first rest =>
    rw [uniform_cons_iff] at h
    obtain ⟨other, hother, hform⟩ := not_forall₂.mp h
    have hrest : (rest.map fun r => Value.text r.text).mapM (Instant.following first.reading) =
        .error .badValue := by
      refine mapM_eq_error ?_ (List.mem_map_of_mem hother) ((following_text _ other).trans (if_neg hform))
      rw [List.forall_mem_map]
      intro r _
      rw [following_text]
      split
      · exact .inr ⟨_, rfl⟩
      · exact .inl rfl
    simp only [List.map_cons, Instant.ofColumn, first.readable]
    rw [hrest]
    rfl

namespace Tabulates

theorem missing_eq_nil (h : Tabulates t rows) : t.missing ["event_time", "symbol", "weight"] = [] := by
  refine List.filter_eq_nil_iff.mpr fun name hname => ?_
  simpa using h.columns name hname

theorem column_eq (h : Tabulates t rows) {name : String} (hname : name ∈ t.columns)
    {f : WrittenRow → Value} (hf : ∀ r cells, r.Fills t.columns cells → cellIn t.columns name cells = f r) :
    t.column name = Table.unifyCells (rows.map f) := by
  have hcells : t.rows.map (cellIn t.columns name) = rows.map f := by
    rw [← List.forall₂_eq_eq_eq, List.forall₂_map_left_iff, List.forall₂_map_right_iff]
    exact h.rows.imp fun cells r => hf r cells
  rw [Table.column_eq_unifyCells hname, hcells]

theorem texts (h : Tabulates t rows) : t.column "event_time" = rows.map fun r => .text r.text := by
  rw [h.column_eq (h.columns _ (by simp)) fun _ _ hfills => hfills.time, Table.unifyCells_text]

theorem symbols (h : Tabulates t rows) : (t.column "symbol").map Value.display = rows.map (·.symbol) := by
  rw [h.column_eq (h.columns _ (by simp)) fun _ _ hfills => hfills.symbol, Table.unifyCells_text, List.map_map]
  rfl

theorem weights (h : Tabulates t rows) :
    (t.column "weight").mapM weightOf = .ok (rows.map (·.weight.value)) := by
  rw [h.column_eq (h.columns _ (by simp)) fun _ _ hfills => hfills.weight, Table.unifyCells_eq, List.map_map]
  apply mapM_of_forall₂
  rw [List.forall₂_map_left_iff, List.forall₂_map_right_iff]
  exact List.forall₂_same.mpr fun r _ => r.weight.weightOf_unifyCell _

theorem ofTable_of_uniform (h : Tabulates t rows) (hkeys : ((rowsOf rows).map Row.key).Nodup)
    (huniform : Uniform rows) : ofTable t = ofEntries (groupsOf (rowsOf rows)) := by
  have hdistinct : hasDuplicates ((rows.map (·.reading.instant)).zip (rows.map (·.symbol))) = false := by
    rw [hasDuplicates_eq_false_iff, List.zip_map']
    rwa [rowsOf, List.map_map] at hkeys
  unfold ofTable
  rw [h.missing_eq_nil]
  dsimp only
  rw [h.texts, ofColumn_of_uniform huniform, ok_bind, h.symbols, hdistinct, if_neg Bool.false_ne_true,
    h.weights, ok_bind, List.zip_map', List.zip_map', List.map_map, ← groupRows_eq_groupsOf hkeys]
  rfl

theorem ofTable_of_not_uniform (h : Tabulates t rows) (huniform : ¬ Uniform rows) :
    ofTable t = .error .badValue := by
  unfold ofTable
  rw [h.missing_eq_nil]
  dsimp only
  rw [h.texts, ofColumn_of_not_uniform huniform, error_bind]

end Tabulates

/-- A table and the mapping of its rows, grouped by instant, make the same schedule or fail alike if all texts
of the table have one layout and one distance from universal time; other tables are refused. The mapping is
accepted if the weights of every instant are admissible. Its schedule has the groups in ascending order of
time, and is also that of every accepted table with these rows, however they come and however their instants
are written. -/
theorem table_agrees_with_mapping (htable : Tabulates t rows) (hkeys : ((rowsOf rows).map Row.key).Nodup)
    (hentries : Spells entries (groupsOf (rowsOf rows))) :
    (Uniform rows → ofInput (.table t) = ofInput (.mapping entries)) ∧
    (¬ Uniform rows → ofInput (.table t) = .error .badValue) ∧
    ((∃ s, ofInput (.mapping entries) = .ok s) ↔ ∀ group ∈ groupsOf (rowsOf rows), Admissible group.2) ∧
    ∀ s, ofInput (.mapping entries) = .ok s →
      s.Pairwise (·.1 < ·.1) ∧ s.Perm (groupsOf (rowsOf rows)) ∧
      ∀ t' rows' s', Tabulates t' rows' → (rowsOf rows).Perm (rowsOf rows') →
        ofInput (.table t') = .ok s' → List.Forall₂ SameEntry s s' := by
  have htimes := nodup_map_fst_groupsOf (rowsOf rows)
  have hmapping : ∀ s, ofInput (.mapping entries) = .ok s ↔
      (∀ group ∈ groupsOf (rowsOf rows), Admissible group.2) ∧ s = sortByTime (groupsOf (rowsOf rows)) := by
    intro s
    rw [ofInput, hentries.ofMapping_eq, ofEntries_eq_ok_iff, and_iff_right htimes]
  refine ⟨fun huniform => ?_, htable.ofTable_of_not_uniform, ?_, fun s hs => ?_⟩
  · rw [ofInput, ofInput, htable.ofTable_of_uniform hkeys huniform, hentries.ofMapping_eq]
  · exact ⟨fun ⟨s, hs⟩ => ((hmapping s).mp hs).1, fun hgroups => ⟨_, (hmapping _).mpr ⟨hgroups, rfl⟩⟩⟩
  · obtain ⟨_, rfl⟩ := (hmapping s).mp hs
    refine ⟨pairwise_lt_sortByTime htimes, sortByTime_perm _, fun t' rows' s' htable' hperm hs' => ?_⟩
    have hkeys' : ((rowsOf rows').map Row.key).Nodup := (hperm.map Row.key).nodup_iff.mp hkeys
    have huniform : Uniform rows' := by
      by_contra h
      rw [ofInput, htable'.ofTable_of_not_uniform h] at hs'
      cases hs'
    rw [ofInput, htable'.ofTable_of_uniform hkeys' huniform] at hs'
    obtain ⟨_, _, rfl⟩ := ofEntries_eq_ok_iff.mp hs'
    exact forall₂_sortByTime htimes (rearranged_groupsOf hkeys hperm)

private def dateReading (day : Int) : Instant.Reading :=
  ⟨⟨day * Instant.nanosecondsPerDay⟩, ⟨some '-', 3, none, false, 0, false, false⟩, 0⟩

/-- The reading of a date, a time of day in seconds and a distance from universal time, when the day starts. -/
private def zonedReading (day offset : Int) : Instant.Reading :=
  ⟨⟨day * Instant.nanosecondsPerDay⟩, ⟨some '-', 3, some 'T', true, 3, false, true⟩, offset⟩

private theorem read?_shifted :
    Instant.read? "2024-01-02T02:00:00+02:00" = some (zonedReading 19724 120) := by decide +kernel

/-- Rows of two days, of which the later one comes before and after the other. -/
def interleavedRows : List WrittenRow :=
  [⟨"2024-01-03", dateReading 19725, by decide +kernel, "B", .real 0.5⟩,
    ⟨"2024-01-02", dateReading 19724, by decide +kernel, "A", .int 1⟩,
    ⟨"2024-01-03", dateReading 19725, by decide +kernel, "A", .real 0.25⟩]

def interleavedTable : Table where
  columns := ["symbol", "weight", "event_time"]
  rows := [[.text "B", .real 0.5, .text "2024-01-03"], [.text "A", .int 1, .text "2024-01-02"],
    [.text "A", .real 0.25, .text "2024-01-03"]]

/-- The groups of the rows, under other texts of their instants. -/
def interleavedEntries : List (String × Targets) :=
  [("2024-01-03T00:00:00Z", [("B", 0.5), ("A", 0.25)]),
    ("2024-01-02T02:00:00+02:00", [("A", Binary64.ofInt 1)])]

theorem table_agrees_with_mapping_interleaved : ∃ s, ofInput (.table interleavedTable) = .ok s ∧
    ofInput (.mapping interleavedEntries) = .ok s ∧ s.Pairwise (·.1 < ·.1) ∧
    s.Perm (groupsOf (rowsOf interleavedRows)) := by
  have htable : Tabulates interleavedTable interleavedRows :=
    ⟨by decide, .cons ⟨rfl, rfl, rfl⟩ (.cons ⟨rfl, rfl, rfl⟩ (.cons ⟨rfl, rfl, rfl⟩ .nil))⟩
  have hkeys : ((rowsOf interleavedRows).map Row.key).Nodup := by decide
  have hlater : Instant.read? "2024-01-03T00:00:00Z" = some (zonedReading 19725 0) := by decide +kernel
  have hentries : Spells interleavedEntries (groupsOf (rowsOf interleavedRows)) :=
    .cons ⟨Instant.ofText_of_read? hlater rfl, rfl⟩
      (.cons ⟨Instant.ofText_of_read? read?_shifted rfl, rfl⟩ .nil)
  have huniform : Uniform interleavedRows := by decide
  have hadmissible : ∀ group ∈ groupsOf (rowsOf interleavedRows), Admissible group.2 := by decide +kernel
  obtain ⟨hagree, _, haccepts, hschedule⟩ := table_agrees_with_mapping htable hkeys hentries
  obtain ⟨s, hs⟩ := haccepts.mpr hadmissible
  obtain ⟨hsorted, hperm, _⟩ := hschedule s hs
  exact ⟨s, (hagree huniform).trans hs, hs, hsorted, hperm⟩

/-- Two rows of one instant, which the second writes at another distance from universal time. -/
def shiftedRows : List WrittenRow :=
  [⟨"2024-01-02T00:00:00Z", zonedReading 19724 0, by decide +kernel, "A", .real 0.5⟩,
    ⟨"2024-01-02T02:00:00+02:00", zonedReading 19724 120, read?_shifted, "B", .real 0.5⟩]

def shiftedTable : Table where
  columns := ["event_time", "symbol", "weight"]
  rows := [[.text "2024-01-02T00:00:00Z", .text "A", .real 0.5],
    [.text "2024-01-02T02:00:00+02:00", .text "B", .real 0.5]]

def shiftedEntries : List (String × Targets) := [("2024-01-02T00:00:00Z", [("A", 0.5), ("B", 0.5)])]

/-- The table is refused, and the mapping of its rows is accepted. -/
theorem shifted_table_refused : Tabulates shiftedTable shiftedRows ∧
    ((rowsOf shiftedRows).map Row.key).Nodup ∧ Spells shiftedEntries (groupsOf (rowsOf shiftedRows)) ∧
    ofInput (.table shiftedTable) = .error .badValue ∧ ∃ s, ofInput (.mapping shiftedEntries) = .ok s := by
  have htable : Tabulates shiftedTable shiftedRows :=
    ⟨by decide, .cons ⟨rfl, rfl, rfl⟩ (.cons ⟨rfl, rfl, rfl⟩ .nil)⟩
  have hread : Instant.read? "2024-01-02T00:00:00Z" = some (zonedReading 19724 0) := by decide +kernel
  have hentries : Spells shiftedEntries (groupsOf (rowsOf shiftedRows)) :=
    .cons ⟨Instant.ofText_of_read? hread rfl, rfl⟩ .nil
  have hadmissible : ∀ group ∈ groupsOf (rowsOf shiftedRows), Admissible group.2 := by decide +kernel
  refine ⟨htable, by decide, hentries, htable.ofTable_of_not_uniform (by decide), ?_⟩
  rw [ofInput, hentries.ofMapping_eq]
  exact ⟨_, ofEntries_eq_ok_iff.mpr ⟨nodup_map_fst_groupsOf _, hadmissible, rfl⟩⟩

end Agreement
end WeightSchedule
end PortfolioLab
