import PortfolioLab.Backtest.Report
import PortfolioLab.Proofs.Journal

/-!
# Schedules that are accepted

Price rows are sorted, so their bars come in strictly ascending periods, each with one bar for a
symbol and no negative close. The weights of an entry that is accepted are finite and not below zero.
-/

namespace PortfolioLab

open Account (Quoted LongOnly)

@[simp] theorem Keyed.refuse {α : Type} {P : α → Prop} (cause : InvalidInput) :
    Keyed P (refuse cause) := fun h => nomatch h

theorem Keyed.mapM_any {α β : Type} {f : β → Except Failure α} {xs : List β}
    (hf : ∀ x, Keyed (fun _ => True) (f x)) : Keyed (fun _ => True) (xs.mapM f) :=
  (Keyed.mapM fun x _ => hf x).any

theorem Value.cellNumber_keyed (v : Value) : Keyed (fun _ => True) v.cellNumber := by
  unfold cellNumber
  split
  · trivial
  · trivial
  · trivial
  · trivial
  · split <;> simp
  · split <;> simp
  · simp

theorem Instant.ofText_keyed (s : String) : Keyed (fun _ => True) (ofText s) := by
  unfold ofText
  split <;> simp

theorem Instant.ofColumn_keyed (cells : List Value) : Keyed (fun _ => True) (ofColumn cells) := by
  have hfollowing : ∀ first v, Keyed (fun _ => True) (following first v) := by
    intro first v
    unfold following
    split
    · split
      · split <;> simp
      · simp
    · simp
  unfold ofColumn
  split
  · trivial
  · split
    · exact (Keyed.mapM_any (hfollowing _)).bind fun _ _ => trivial
    · simp
  · simp

/-! ## Prices -/

namespace PriceSchedule

/-- The bars of periods in strictly ascending order, one for each symbol, with closes that are not
negative. -/
structure Ordered (periods : List PeriodBars) : Prop where
  ascending : periods.Pairwise (·.time < ·.time)
  distinct : ∀ p ∈ periods, p.bars.symbols.Nodup
  quoted : ∀ p ∈ periods, Quoted p.bars

theorem Ordered.cons_iff {first : PeriodBars} {rest : List PeriodBars} :
    Ordered (first :: rest) ↔ (∀ p ∈ rest, first.time < p.time) ∧ first.bars.symbols.Nodup ∧
      Quoted first.bars ∧ Ordered rest := by
  constructor
  · intro h
    obtain ⟨hlt, hrest⟩ := List.pairwise_cons.mp h.ascending
    exact ⟨hlt, h.distinct first List.mem_cons_self, h.quoted first List.mem_cons_self, hrest,
      fun p hp => h.distinct p (List.mem_cons_of_mem _ hp),
      fun p hp => h.quoted p (List.mem_cons_of_mem _ hp)⟩
  · rintro ⟨hlt, hd, hq, h⟩
    exact ⟨List.pairwise_cons.mpr ⟨hlt, h.ascending⟩, List.forall_mem_cons.mpr ⟨hd, h.distinct⟩,
      List.forall_mem_cons.mpr ⟨hq, h.quoted⟩⟩

private theorem ordered_nil : Ordered [] := ⟨.nil, by simp, by simp⟩

private theorem quoted_put {bars : Register Bar} {symbol : String} {bar : Bar} (h : Quoted bars)
    (hb : 0 ≤ bar.close) : Quoted (bars.put symbol bar) := by
  intro other b ho
  rw [Register.find?_put] at ho
  split at ho
  · cases ho
    exact hb
  · exact h other b ho

private theorem ordered_single {row : PriceRow} {bar : Bar} (hb : 0 ≤ bar.close) :
    Ordered [⟨row.time, [(row.symbol, bar)]⟩] :=
  have hempty : Quoted [] := fun _ _ h => nomatch h
  Ordered.cons_iff.mpr ⟨by simp, by simp, quoted_put hempty hb, ordered_nil⟩

/-- Rows that come in order of time add their bars to the last period or to a new one after it. -/
theorem Ordered.addBar {periods : List PeriodBars} {row : PriceRow} {bar : Bar}
    (h : Ordered periods) (hle : ∀ p ∈ periods, p.time ≤ row.time) (hb : 0 ≤ bar.close) :
    Ordered (addBar periods row bar) ∧
      ∀ p ∈ addBar periods row bar, p.time = row.time ∨ ∃ q ∈ periods, p.time = q.time := by
  fun_induction PriceSchedule.addBar periods row bar with
  | case1 => exact ⟨ordered_single hb, by simp⟩
  | case2 last heq =>
    obtain ⟨hlt, hd, hq, hnil⟩ := Ordered.cons_iff.mp h
    exact ⟨Ordered.cons_iff.mpr ⟨hlt, Register.nodup_put hd, quoted_put hq hb, hnil⟩, by simp⟩
  | case3 last hne =>
    obtain ⟨_, hd, hq, _⟩ := Ordered.cons_iff.mp h
    have hlt : last.time < row.time := lt_of_le_of_ne (hle last List.mem_cons_self) hne
    exact ⟨Ordered.cons_iff.mpr ⟨by simpa using hlt, hd, hq, ordered_single hb⟩, by simp⟩
  | case4 first rest hrest ih =>
    obtain ⟨hlt, hd, hq, hordered⟩ := Ordered.cons_iff.mp h
    obtain ⟨hadded, htimes⟩ := ih hordered fun p hp => hle p (List.mem_cons_of_mem _ hp)
    -- the first of the rest, which is not empty here, lies between the first period and the row
    obtain ⟨next, hnext⟩ := List.exists_mem_of_ne_nil rest hrest
    have hrow : first.time < row.time :=
      (hlt next hnext).trans_le (hle next (List.mem_cons_of_mem _ hnext))
    refine ⟨Ordered.cons_iff.mpr ⟨fun p hp => ?_, hd, hq, hadded⟩, fun p hp => ?_⟩
    · rcases htimes p hp with ht | ⟨q, hm, ht⟩
      · exact ht ▸ hrow
      · exact ht ▸ hlt q hm
    · rcases List.mem_cons.mp hp with rfl | hp
      · exact .inr ⟨_, List.mem_cons_self, rfl⟩
      · rcases htimes p hp with ht | ⟨q, hm, ht⟩
        · exact .inl ht
        · exact .inr ⟨q, List.mem_cons_of_mem _ hm, ht⟩

theorem priceOf_keyed (v : Value) : Keyed (fun _ => True) (Price.ofValue v) := by
  refine (Money.toCents_keyed v).bind fun n _ => ?_
  unfold Price.ofCents
  split
  · split <;> simp
  · simp

theorem optionalCents_keyed (cell : Option Value) : Keyed (fun _ => True) (optionalCents cell) := by
  unfold optionalCents
  split
  · trivial
  · trivial
  · split
    · trivial
    · exact (priceOf_keyed _).bind fun _ _ => trivial
  · exact (priceOf_keyed _).bind fun _ _ => trivial

theorem barOf_keyed (row : PriceRow) : Keyed (fun bar => 0 ≤ bar.close) (barOf row) := by
  refine (priceOf_keyed _).bind fun close _ => ?_
  refine (optionalCents_keyed _).bind fun opening _ => ?_
  refine (optionalCents_keyed _).bind fun high _ => ?_
  exact (optionalCents_keyed _).bind fun low _ => close.nonneg

/-- The bars of sorted rows. -/
theorem periods_keyed {schedule : PriceSchedule} (h : schedule.Pairwise (·.time ≤ ·.time)) :
    Keyed Ordered schedule.periods := by
  refine (Keyed.foldlM (I := fun rest periods => Ordered periods ∧ rest.Pairwise (·.time ≤ ·.time) ∧
    ∀ p ∈ periods, ∀ row ∈ rest, p.time ≤ row.time) ⟨ordered_nil, h, by simp⟩ ?_).imp
      fun periods hp => hp.1
  intro row rest periods ⟨hordered, hsorted, hle⟩
  obtain ⟨hrow, hrest⟩ := List.pairwise_cons.mp hsorted
  refine (barOf_keyed row).bind fun bar hb => ?_
  obtain ⟨hadded, htimes⟩ := hordered.addBar (fun p hp => hle p hp row List.mem_cons_self) hb
  refine ⟨hadded, hrest, fun p hp other ho => ?_⟩
  rcases htimes p hp with ht | ⟨q, hq, ht⟩
  · exact ht ▸ hrow other ho
  · exact ht ▸ hle q hq other (List.mem_cons_of_mem _ ho)

private theorem columnNumbers_keyed (cells : Option (List Value)) :
    Keyed (fun _ => True) (columnNumbers cells) := by
  unfold columnNumbers
  split
  · trivial
  · exact (Keyed.mapM_any Value.cellNumber_keyed).bind fun _ _ => trivial

private theorem checkFinite_keyed (name : String) (values : Option (List Float)) :
    Keyed (fun _ => True) (checkFinite name values) := by
  unfold checkFinite
  split <;> simp

private theorem checkRanges_keyed (opening high low : Option (List Float)) (closes : List Float) :
    Keyed (fun _ => True) (checkRanges opening high low closes) := by
  refine (checkFinite_keyed _ _).bind fun _ _ => ?_
  refine (checkFinite_keyed _ _).bind fun _ _ => ?_
  refine (checkFinite_keyed _ _).bind fun _ _ => ?_
  dsimp only
  split
  · simp
  · split <;> simp

/-- The rows of a schedule are in order of time. -/
theorem ofRows_keyed (t : Table) : Keyed (·.Pairwise (·.time ≤ ·.time)) (ofRows t) := by
  refine (Instant.ofColumn_keyed _).bind fun times _ => ?_
  dsimp only
  split
  · simp
  · refine (Keyed.mapM_any Value.cellNumber_keyed).bind fun numbers _ => ?_
    split
    · simp
    · refine (columnNumbers_keyed _).bind fun opening _ => ?_
      refine (columnNumbers_keyed _).bind fun high _ => ?_
      refine (columnNumbers_keyed _).bind fun low _ => ?_
      refine (checkRanges_keyed _ _ _ _).bind fun _ _ => ?_
      rw [Keyed.pure_iff]
      refine (List.pairwise_mergeSort rowLe_trans rowLe_total _).imp fun {a b} h => ?_
      rcases rowLe_iff.mp h with hlt | ⟨heq, _⟩
      · exact hlt.le
      · exact heq.le

theorem ofInput_keyed (input : PriceInput) : Keyed (·.Pairwise (·.time ≤ ·.time)) (ofInput input) := by
  have htable : Keyed (fun _ => True) (tableOf input) := by
    unfold tableOf
    split <;> simp
  refine htable.bind fun t _ => ?_
  split
  · split
    · simp
    · exact ofRows_keyed t
  · simp

end PriceSchedule

/-! ## Weights -/

namespace WeightSchedule

def AllLong (schedule : WeightSchedule) : Prop := ∀ entry ∈ schedule, LongOnly entry.2

private theorem checkWeights_keyed (time : Instant) (targets : Targets) :
    Keyed (fun _ => LongOnly targets) (checkWeights time targets) := by
  induction targets with
  | nil => exact fun _ _ h => nomatch h
  | cons entry rest ih =>
    obtain ⟨symbol, w⟩ := entry
    unfold checkWeights
    split
    · simp
    · next hfinite =>
      split
      · simp
      · next hsign =>
        refine ih.imp fun _ hrest other v hv => ?_
        simp only [Register.find?] at hv
        split at hv
        · cases hv
          exact ⟨by simpa using hfinite, hsign⟩
        · exact hrest other v hv

private theorem addEntry_keyed {schedule : WeightSchedule} (time : Instant) (targets : Targets)
    (h : AllLong schedule) : Keyed AllLong (addEntry schedule time targets) := by
  have hentry : Keyed (fun _ => LongOnly targets) (checkEntry time targets) := by
    refine (checkWeights_keyed time targets).bind fun _ hlong => ?_
    split <;> simp [hlong]
  unfold addEntry
  split
  · simp
  · refine hentry.bind fun _ hlong entry hm => ?_
    rcases List.mem_append.mp hm with hm | hm
    · exact h entry hm
    · rw [List.mem_singleton.mp hm]
      exact hlong

private theorem sorted_keyed {r : Except Failure WeightSchedule} (h : Keyed AllLong r) :
    Keyed AllLong (r >>= fun s => return sortByTime s) :=
  h.bind fun _ hs entry hm => hs entry (List.mem_mergeSort.mp hm)

private theorem ofEntries_keyed (entries : List (Instant × Targets)) :
    Keyed AllLong (ofEntries entries) :=
  sorted_keyed (Keyed.foldlM (I := fun _ => AllLong) (fun _ h => nomatch h)
    fun entry _ _ hs => addEntry_keyed entry.1 entry.2 hs)

private theorem ofMapping_keyed (entries : List (String × Targets)) :
    Keyed AllLong (ofMapping entries) :=
  sorted_keyed (Keyed.foldlM (I := fun _ => AllLong) (fun _ h => nomatch h)
    fun entry _ _ hs => (Instant.ofText_keyed entry.1).bind fun time _ =>
      addEntry_keyed time entry.2 hs)

private theorem weightOf_keyed (v : Value) : Keyed (fun _ => True) (weightOf v) := by
  unfold weightOf
  split
  · simp
  · exact v.cellNumber_keyed

theorem ofInput_keyed (input : WeightInput) : Keyed AllLong (ofInput input) := by
  cases input with
  | mapping entries => exact ofMapping_keyed entries
  | table t =>
    show Keyed _ (ofTable t)
    unfold ofTable
    split
    · refine (Instant.ofColumn_keyed _).bind fun times _ => ?_
      dsimp only
      split
      · simp
      · exact (Keyed.mapM_any weightOf_keyed).bind fun weights _ => ofEntries_keyed _
    · simp

theorem AllLong.targetsAt? {schedule : WeightSchedule} (h : AllLong schedule) {time : Instant}
    {targets : Targets} (ht : schedule.targetsAt? time = some targets) : LongOnly targets := by
  obtain ⟨entry, he, rfl⟩ := Option.map_eq_some_iff.mp ht
  exact h entry (List.mem_of_find?_eq_some he)

end WeightSchedule

namespace Backtest

/-- The periods of accepted schedules are valid and in strictly ascending order. -/
theorem valid_periodsOf {schedule : WeightSchedule} {bars : List PeriodBars}
    (hs : schedule.AllLong) (hb : PriceSchedule.Ordered bars) :
    (∀ p ∈ periodsOf schedule bars, p.Valid) ∧
      (periodsOf schedule bars).Pairwise (·.time < ·.time) := by
  refine ⟨fun p hp => ?_, List.pairwise_map.mpr hb.ascending⟩
  obtain ⟨q, hq, rfl⟩ := List.mem_map.mp hp
  exact ⟨hb.distinct q hq, hb.quoted q hq, fun targets ht => hs.targetsAt? ht⟩

end Backtest
end PortfolioLab
