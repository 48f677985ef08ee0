import PortfolioLab.Proofs.Bystanders
import PortfolioLab.Proofs.Rearrangements

/-!
# Orders of inputs

Two simulations of the same rows, weights and rules, given in different orders, end alike. Their schedules
differ in the order of the symbols of an entry at most and their rules in the order of the symbols, and
both are only looked up: every loop of a run goes by sorted symbols or by what earlier loops put in.
-/

namespace PortfolioLab

/-! ## Results of one kind -/

/-- Failures of one kind: the same failure, or refusals of the caller's data for whatever cause. -/
inductive Failure.SameKind : Failure → Failure → Prop
  | same (e : Failure) : SameKind e e
  | refused (c d : InvalidInput) : SameKind (.invalidInput c) (.invalidInput d)

inductive SameEnd {α β : Type} (R : α → β → Prop) : Except Failure α → Except Failure β → Prop
  | ok {a : α} {b : β} (h : R a b) : SameEnd R (.ok a) (.ok b)
  | error {e f : Failure} (h : e.SameKind f) : SameEnd R (.error e) (.error f)

namespace SameEnd

variable {α β γ δ : Type} {R : α → β → Prop} {S : γ → δ → Prop}

theorem bind {r₁ : Except Failure α} {r₂ : Except Failure β} {f₁ : α → Except Failure γ}
    {f₂ : β → Except Failure δ} (h : SameEnd R r₁ r₂) (hf : ∀ a b, R a b → SameEnd S (f₁ a) (f₂ b)) :
    SameEnd S (r₁ >>= f₁) (r₂ >>= f₂) := by
  cases h with
  | ok h => exact hf _ _ h
  | error h => exact .error h

/-- One outcome, followed by steps that end alike on its value. -/
theorem bind_same {r : Except Failure α} {f₁ : α → Except Failure γ} {f₂ : α → Except Failure δ}
    (hf : ∀ a, r = .ok a → SameEnd S (f₁ a) (f₂ a)) : SameEnd S (r >>= f₁) (r >>= f₂) := by
  cases r with
  | ok a => exact hf a rfl
  | error e => exact .error (.same e)

theorem of_twins {g₁ g₂ : α → α} {r₁ r₂ : Except Failure α} (h : Twins g₁ g₂ r₁ r₂) :
    SameEnd (fun a b => ∃ c, a = g₁ c ∧ b = g₂ c) r₁ r₂ := by
  obtain ⟨r, rfl, rfl⟩ := h
  cases r with
  | ok c => exact .ok ⟨c, rfl, rfl⟩
  | error e => exact .error (.same e)

theorem exists_ok {r₁ : Except Failure α} {r₂ : Except Failure β} (h : SameEnd R r₁ r₂) {a : α}
    (ha : r₁ = .ok a) : ∃ b, r₂ = .ok b ∧ R a b := by
  subst ha
  cases h with
  | ok h => exact ⟨_, rfl, h⟩

end SameEnd

/-! ## Rules by symbol -/

/-- The same rules, those of distinct symbols in any order. -/
inductive StopAssignment.SameRules : StopAssignment → StopAssignment → Prop
  | same (stops : StopAssignment) : SameRules stops stops
  | mapping {entries₁ entries₂ : List (String × RuleEntry)} (hn : (entries₁.map (·.1)).Nodup)
      (h : entries₁.Perm entries₂) : SameRules (.bySymbol entries₁) (.bySymbol entries₂)

def ruled (pair : String × StopRule) : String × RuleEntry := (pair.1, some pair.2)

private theorem ruled_injective : Function.Injective ruled := by
  intro a b h
  simpa [ruled, Prod.ext_iff] using h

private def ruleOf : String × RuleEntry → Except Failure (String × StopRule)
  | (symbol, some rule) => .ok (symbol, rule)
  | (symbol, none) => refuse (.notAStopRule symbol)

private theorem resolve_eq (entries : List (String × RuleEntry)) (symbols : List String) :
    (StopAssignment.bySymbol entries).resolve symbols =
      entries.mapM ruleOf >>= fun rules => .ok (Register.ofPairs rules) := by
  unfold StopAssignment.resolve
  refine congrArg (· >>= _) (mapM_congr fun ⟨symbol, rule⟩ _ => ?_)
  cases rule <;> rfl

/-- Every symbol has a rule, or one without is refused. -/
private theorem mapM_ruleOf (entries : List (String × RuleEntry)) :
    (∃ pairs, entries = pairs.map ruled ∧ entries.mapM ruleOf = .ok pairs) ∨
      ∃ symbol, (symbol, none) ∈ entries ∧ entries.mapM ruleOf = refuse (.notAStopRule symbol) := by
  induction entries with
  | nil => exact .inl ⟨[], rfl, rfl⟩
  | cons entry rest ih =>
    rw [List.mapM_cons]
    obtain ⟨symbol, _ | rule⟩ := entry
    · exact .inr ⟨symbol, List.mem_cons_self, rfl⟩
    · rcases ih with ⟨pairs, rfl, hrest⟩ | ⟨other, hm, hrest⟩
      · exact .inl ⟨(symbol, rule) :: pairs, rfl, by rw [hrest]; rfl⟩
      · exact .inr ⟨other, List.mem_cons_of_mem _ hm, by rw [hrest]; rfl⟩

private theorem find?_ofPairs {pairs : Register StopRule} (hn : pairs.symbols.Nodup) (symbol : String) :
    (Register.ofPairs pairs).find? symbol = pairs.find? symbol := by
  have h := Register.find?_foldl_put id hn [] symbol
  rw [Option.map_id_fun, id_eq, Register.find?, Option.or_none] at h
  exact h

/-- The order of a mapping of rules does not show in what is looked up. -/
theorem StopAssignment.SameRules.resolve {stops₁ stops₂ : StopAssignment} (h : stops₁.SameRules stops₂)
    (symbols : List String) :
    SameEnd (fun r₁ r₂ : Register StopRule => ∀ symbol, r₁.find? symbol = r₂.find? symbol)
      (stops₁.resolve symbols) (stops₂.resolve symbols) := by
  cases h with
  | same =>
    cases stops₁.resolve symbols with
    | ok rules => exact .ok fun _ => rfl
    | error e => exact .error (.same e)
  | @mapping entries₁ entries₂ hn h =>
    rw [resolve_eq, resolve_eq]
    rcases mapM_ruleOf entries₁ with ⟨pairs₁, rfl, h₁⟩ | ⟨symbol₁, hm₁, h₁⟩
    · rcases mapM_ruleOf entries₂ with ⟨pairs₂, rfl, h₂⟩ | ⟨symbol₂, hm₂, _⟩
      · have hpairs : pairs₁.Perm pairs₂ := (List.map_perm_map_iff ruled_injective).mp h
        have hn₁ : (Register.symbols pairs₁).Nodup := by rwa [List.map_map] at hn
        have hn₂ : (Register.symbols pairs₂).Nodup := (hpairs.map Prod.fst).nodup_iff.mp hn₁
        rw [h₁, h₂]
        refine .ok fun symbol => ?_
        rw [find?_ofPairs hn₁, find?_ofPairs hn₂, Register.find?_perm hn₁ hpairs]
      · obtain ⟨pair, _, hpair⟩ := List.mem_map.mp (h.mem_iff.mpr hm₂)
        cases hpair
    · rcases mapM_ruleOf entries₂ with ⟨pairs₂, rfl, _⟩ | ⟨symbol₂, _, h₂⟩
      · obtain ⟨pair, _, hpair⟩ := List.mem_map.mp (h.mem_iff.mp hm₁)
        cases hpair
      · rw [h₁, h₂]
        exact .error (.refused _ _)

/-! ## Simulations -/

namespace WeightSchedule

variable {s t : WeightSchedule}

theorem exists_entry_congr (h : List.Forall₂ SameEntry s t) (symbol : String) :
    (∃ entry ∈ s, symbol ∈ entry.2.symbols) ↔ ∃ entry ∈ t, symbol ∈ entry.2.symbols := by
  induction h with
  | nil => simp
  | cons hentry _ ih =>
    rw [List.exists_mem_cons_iff, List.exists_mem_cons_iff, ih, ← Register.isSome_find?_iff,
      hentry.2 symbol, Register.isSome_find?_iff]

theorem times_congr (h : List.Forall₂ SameEntry s t) : s.map (·.1) = t.map (·.1) := by
  rw [← List.forall₂_eq_eq_eq, List.forall₂_map_left_iff, List.forall₂_map_right_iff]
  exact h.imp fun _ _ hentry => hentry.1

end WeightSchedule

namespace Backtest

open PriceSchedule (SameTable)
open WeightSchedule (SameEntry SameMapping)

variable {settings : RunSettings} {model : CostModel} {initialCash : Option Value} {t₁ t₂ : Table}
  {entries₁ entries₂ : List (String × Targets)} {stops₁ stops₂ : StopAssignment}
  {targets₁ targets₂ : WeightSchedule} {bars : List PeriodBars}

private theorem allSymbols_congr (h : List.Forall₂ SameEntry targets₁ targets₂) (rows : PriceSchedule) :
    allSymbols rows targets₁ = allSymbols rows targets₂ := by
  refine ascending_congr (nodup_eraseDups _) (nodup_eraseDups _) fun symbol => ?_
  have hmem : symbol ∈ allSymbols rows targets₁ ↔ symbol ∈ allSymbols rows targets₂ := by
    rw [mem_allSymbols, mem_allSymbols, WeightSchedule.exists_entry_congr h]
  rwa [allSymbols, allSymbols, mem_ascending, mem_ascending] at hmem

private theorem isEmpty_congr {rules₁ rules₂ : Register StopRule}
    (h : ∀ symbol, rules₁.find? symbol = rules₂.find? symbol) : rules₁.isEmpty = rules₂.isEmpty := by
  cases rules₁ with
  | nil =>
    cases rules₂ with
    | nil => rfl
    | cons entry rest => simpa [Register.find?] using h entry.1
  | cons entry rest =>
    cases rules₂ with
    | nil => simpa [Register.find?] using h entry.1
    | cons entry' rest' => rfl

/-- Runs over the same bars, with entries and rules that look-up does not tell apart. -/
private theorem run_twins (model : CostModel) {rules₁ rules₂ : Register StopRule}
    (hrules : ∀ symbol, rules₁.find? symbol = rules₂.find? symbol)
    (htargets : List.Forall₂ SameEntry targets₁ targets₂)
    (hvalid : ∀ p ∈ periodsOf targets₁ bars, p.Valid) (cash : Cents) (book : Option StopBook) :
    Twins (Run.withRules rules₁) (Run.withRules rules₂)
      (Run.ofPeriods model cash (book.map (StopBook.withRules rules₁)) (periodsOf targets₁ bars))
      (Run.ofPeriods model cash (book.map (StopBook.withRules rules₂)) (periodsOf targets₂ bars)) := by
  have hsame : List.Forall₂ Period.Same (periodsOf targets₁ bars) (periodsOf targets₂ bars) := by
    rw [periodsOf, periodsOf, List.forall₂_map_left_iff, List.forall₂_map_right_iff]
    exact List.forall₂_same.mpr fun p _ => ⟨rfl, rfl, WeightSchedule.targetsAt?_congr htargets p.time⟩
  have hrun : Run.ofPeriods model cash (book.map (StopBook.withRules rules₂)) (periodsOf targets₁ bars) =
      Run.ofPeriods model cash (book.map (StopBook.withRules rules₂)) (periodsOf targets₂ bars) :=
    Run.foldlM_step_congr hsame model _
  rw [← hrun]
  exact Run.ofPeriods_twins hvalid (fun p _ symbol _ => hrules symbol) model cash book

/-- The order of the inputs does not matter: two simulations whose price tables have the same rows, whose
weight mappings have the same entries and whose stops have the same rules, each in any order, report the
same or fail in one kind, if both accept their prices and their weights. -/
theorem input_order_irrelevant {rows₁ rows₂ : PriceSchedule} (hprices : SameTable t₁ t₂)
    (hweights : Rearranged SameMapping entries₁ entries₂) (hstops : stops₁.SameRules stops₂)
    (hrows₁ : PriceSchedule.ofInput (.table t₁) = .ok rows₁)
    (hrows₂ : PriceSchedule.ofInput (.table t₂) = .ok rows₂)
    (htargets₁ : WeightSchedule.ofInput (.mapping entries₁) = .ok targets₁)
    (htargets₂ : WeightSchedule.ofInput (.mapping entries₂) = .ok targets₂) :
    SameEnd Report.SameOutcome
      (simulate settings model (.mapping entries₁) (.table t₁) initialCash stops₁)
      (simulate settings model (.mapping entries₂) (.table t₂) initialCash stops₂) := by
  obtain rfl := hprices.ofInput hrows₁ hrows₂
  have htargets := WeightSchedule.forall₂_sameEntry hweights htargets₁ htargets₂
  have hsorted := (PriceSchedule.ofInput_keyed _).of_ok hrows₁
  have hlong := (WeightSchedule.ofInput_keyed _).of_ok htargets₁
  unfold simulate
  rw [hrows₁, hrows₂, htargets₁, htargets₂]
  simp only [ok_bind]
  refine .bind_same fun bars hbars => ?_
  have hvalid := (valid_periodsOf hlong ((PriceSchedule.periods_keyed hsorted).of_ok hbars)).1
  have hunmatched : unmatched targets₁ bars = unmatched targets₂ bars := by
    rw [unmatched, unmatched, WeightSchedule.times_congr htargets]
  rw [hunmatched, allSymbols_congr htargets]
  split
  · exact .error (.same _)
  · refine .bind_same fun cash _ => ?_
    split
    · exact .error (.same _)
    · refine (hstops.resolve _).bind fun rules₁ rules₂ hrules => ?_
      -- the two books differ in their rules, and so do the runs from them
      have hbooks := bookOf_twins (isEmpty_congr hrules) settings
      refine (SameEnd.of_twins hbooks).bind fun book₁ book₂ ⟨book, hbook₁, hbook₂⟩ => ?_
      rw [hbook₁, hbook₂]
      have hruns := run_twins model hrules htargets hvalid cash book
      refine (SameEnd.of_twins hruns).bind fun run₁ run₂ ⟨run, hrun₁, hrun₂⟩ => ?_
      rw [hrun₁, hrun₂]
      refine .bind_same fun metrics _ => .bind_same fun returns _ => .ok ?_
      exact ⟨Report.balances_congr rfl rfl rfl rfl rfl, rfl, rfl, rfl⟩

/-- Prices of the sample, and the same from the last row to the first, written two hours ahead. -/
def dailyTable : Table :=
  ⟨["event_time", "symbol", "close"],
    [[.text "2024-01-01", .text "A", .real 10], [.text "2024-01-01", .text "B", .int 10],
      [.text "2024-01-02", .text "A", .real 1], [.text "2024-01-02", .text "B", .real 12]]⟩

def reversedTable : Table :=
  ⟨["event_time", "symbol", "close"],
    [[.text "2024-01-02T02:00:00+02:00", .text "B", .real 12],
      [.text "2024-01-02T02:00:00+02:00", .text "A", .real 1],
      [.text "2024-01-01T02:00:00+02:00", .text "B", .int 10],
      [.text "2024-01-01T02:00:00+02:00", .text "A", .real 10]]⟩

def dailyWeights : List (String × Targets) :=
  [("2024-01-01", [("A", 0.5), ("B", 0.5)]), ("2024-01-02", [("A", 0.25), ("B", 0.5)])]

def reversedWeights : List (String × Targets) :=
  [("2024-01-02", [("B", 0.5), ("A", 0.25)]), ("2024-01-01", [("B", 0.5), ("A", 0.5)])]

def stopsOf (symbols : List String) : StopAssignment :=
  .bySymbol (symbols.map fun symbol => (symbol, some ⟨.fixed 0.1, 14⟩))

theorem daily_exits :
    (simulate {} .zero (.mapping dailyWeights) (.table dailyTable) (some (.int 100))
      (stopsOf ["A", "B"])).toOption.any (·.run.account.events.map (·.symbol) = ["A"]) = true ∧
    (PriceSchedule.ofInput (.table reversedTable)).toOption.any (·.length = 4) = true ∧
    (WeightSchedule.ofInput (.mapping reversedWeights)).toOption.any (·.length = 2) = true := by
  unfold simulate PriceSchedule.ofInput PriceSchedule.ofRows WeightSchedule.ofInput
    WeightSchedule.ofMapping allSymbols Run.ofPeriods Run.step Run.record Run.takeStock
    Account.rebalance Account.orders Account.concerned Account.runStops StopBook.evaluate
    SymbolReturns.ofSchedule dailyTable reversedTable dailyWeights reversedWeights stopsOf
  simp only [ascending_eq_insertionSort, stopOrder_eq_insertionSort,
    WeightSchedule.sortByTime_eq_insertionSort,
    mergeSort_eq_insertionSort PriceSchedule.rowLe_trans PriceSchedule.rowLe_total]
  decide +kernel

private theorem sameTable_reversed : SameTable dailyTable reversedTable := by
  refine ⟨rfl, dailyTable.rows.reverse, (List.reverse_perm _).symm, ?_⟩
  have hcells : ∀ (x y : String) (symbol close : Value),
      (Value.text x).instant = (Value.text y).instant →
      PriceSchedule.SameCells ["event_time", "symbol", "close"] [.text x, symbol, close]
        [.text y, symbol, close] := by
    intro x y symbol close htime
    refine ⟨htime, fun name hname => ?_⟩
    unfold Table.cellIn
    rw [List.findIdx?_cons, if_neg (by simpa using hname.symm)]
    cases List.findIdx? (· == name) ["symbol", "close"] <;> rfl
  exact .cons (hcells _ _ _ _ (by decide +kernel)) (.cons (hcells _ _ _ _ (by decide +kernel))
    (.cons (hcells _ _ _ _ (by decide +kernel)) (.cons (hcells _ _ _ _ (by decide +kernel)) .nil)))

/-- With all inputs reversed the sample reports the same. -/
theorem input_order_irrelevant_reversed : ∃ report₁ report₂,
    simulate {} .zero (.mapping dailyWeights) (.table dailyTable) (some (.int 100))
      (stopsOf ["A", "B"]) = .ok report₁ ∧
    simulate {} .zero (.mapping reversedWeights) (.table reversedTable) (some (.int 100))
      (stopsOf ["B", "A"]) = .ok report₂ ∧
    report₁.run.account.events.map (·.symbol) = ["A"] ∧ report₁.SameOutcome report₂ := by
  obtain ⟨report₁, h₁, hexits⟩ := exists_of_check daily_exits.1
  obtain ⟨rows, hrows, _⟩ := exists_of_check daily_exits.2.1
  obtain ⟨targets, htargets, _⟩ := exists_of_check daily_exits.2.2
  obtain ⟨setup, haccepted, _⟩ := exists_setup h₁
  have hweights : Rearranged SameMapping dailyWeights reversedWeights := by
    refine ⟨dailyWeights.reverse, (List.reverse_perm _).symm, ?_⟩
    exact .cons ⟨rfl, by decide, .swap _ _ _⟩ (.cons ⟨rfl, by decide, .swap _ _ _⟩ .nil)
  have hstops : (stopsOf ["A", "B"]).SameRules (stopsOf ["B", "A"]) := .mapping (by decide) (.swap _ _ _)
  obtain ⟨report₂, h₂, hsame⟩ := (input_order_irrelevant sameTable_reversed hweights hstops
    haccepted.prices hrows haccepted.targets htargets).exists_ok h₁
  exact ⟨report₁, report₂, h₁, h₂, of_decide_eq_true hexits, hsame⟩

end Backtest
end PortfolioLab
