import PortfolioLab.Proofs.Foresight
import PortfolioLab.Proofs.Postings

/-!
# The bar of a symbol at an instant

The bar that a schedule has for a symbol at an instant is that of the last of its rows for both, and
the periods are the instants of its rows. So the rows of one symbol have no part in the bars of another,
unless they bring an instant that no other row has.
-/

namespace PortfolioLab.PriceSchedule

variable {rows rows₁ rows₂ : PriceSchedule} {periods bars bars₁ bars₂ : List PeriodBars}
  {row : PriceRow} {bar : Bar} {time : Instant} {symbol z : String}

def barAt (periods : List PeriodBars) (time : Instant) (symbol : String) : Option Bar :=
  (periods.find? (·.time = time)).bind (·.bars.find? symbol)

theorem barAt_cons (first : PeriodBars) (rest : List PeriodBars) :
    barAt (first :: rest) time symbol =
      if first.time = time then first.bars.find? symbol else barAt rest time symbol := by
  by_cases h : first.time = time <;> simp [barAt, h]

theorem barAt_of_mem (h : periods.Pairwise (·.time < ·.time)) {p : PeriodBars} (hp : p ∈ periods)
    (symbol : String) : barAt periods p.time symbol = p.bars.find? symbol := by
  induction periods with
  | nil => cases hp
  | cons first rest ih =>
    obtain ⟨hlt, hrest⟩ := List.pairwise_cons.mp h
    rw [barAt_cons]
    rcases List.mem_cons.mp hp with rfl | hp
    · rw [if_pos rfl]
    · rw [if_neg (hlt p hp).ne, ih hrest hp]

/-- The bar known of a symbol at an instant, after one more row. -/
def quote (time : Instant) (symbol : String) (known : Option Bar) (row : PriceRow) : Option Bar :=
  if row.time = time ∧ row.symbol = symbol then (barOf row).toOption else known

theorem barAt_addBar (h : Ordered periods) (hle : ∀ p ∈ periods, p.time ≤ row.time) :
    barAt (addBar periods row bar) time symbol =
      if row.time = time ∧ row.symbol = symbol then some bar else barAt periods time symbol := by
  have hnew : barAt [⟨row.time, [(row.symbol, bar)]⟩] time symbol =
      if row.time = time ∧ row.symbol = symbol then some bar else none := by
    rw [barAt_cons]
    by_cases ht : row.time = time <;> simp [ht, barAt, Register.find?]
  fun_induction PriceSchedule.addBar periods row bar with
  | case1 => exact hnew
  | case2 last heq =>
    rw [barAt_cons, barAt_cons, Register.find?_put]
    by_cases ht : last.time = time
    · simp [ht, ← heq, eq_comm]
    · simp [ht, ← heq]
  | case3 last hne =>
    rw [barAt_cons, hnew, barAt_cons]
    by_cases ht : last.time = time
    · have hrow : row.time ≠ time := fun he => hne (ht.trans he.symm)
      simp [ht, hrow]
    · simp [ht, barAt]
  | case4 first rest hrest ih =>
    obtain ⟨hlt, _, _, hordered⟩ := Ordered.cons_iff.mp h
    obtain ⟨next, hnext⟩ := List.exists_mem_of_ne_nil rest hrest
    have hrow : first.time < row.time :=
      (hlt next hnext).trans_le (hle next (List.mem_cons_of_mem _ hnext))
    rw [barAt_cons, barAt_cons, ih hordered fun p hp => hle p (List.mem_cons_of_mem _ hp)]
    by_cases ht : first.time = time
    · have hlater : row.time ≠ time := fun he => (ht.trans he.symm).not_lt hrow
      simp [ht, hlater]
    · simp [ht]

theorem mem_times_addBar :
    time ∈ (addBar periods row bar).map (·.time) ↔ time = row.time ∨ time ∈ periods.map (·.time) := by
  fun_induction PriceSchedule.addBar periods row bar with
  | case1 => simp
  | case2 last heq => simp [heq]
  | case3 last hne => simp [or_comm]
  | case4 first rest hrest ih => simp [ih, or_left_comm]

/-- What rows add to the bars of some periods that come no later. -/
private theorem quotes_of_foldlM (hordered : Ordered periods) (hsorted : rows.Pairwise (·.time ≤ ·.time))
    (hle : ∀ p ∈ periods, ∀ row ∈ rows, p.time ≤ row.time)
    (h : rows.foldlM (fun periods row => do return addBar periods row (← barOf row)) periods = .ok bars) :
    (∀ time symbol, barAt bars time symbol = rows.foldl (quote time symbol) (barAt periods time symbol)) ∧
      ∀ time, time ∈ bars.map (·.time) ↔ time ∈ periods.map (·.time) ∨ ∃ row ∈ rows, row.time = time := by
  -- rows to come are not before the periods so far, so each is added at the end
  induction rows generalizing periods with
  | nil =>
    cases h
    simp
  | cons row rows ih =>
    obtain ⟨hfirst, hrest⟩ := List.pairwise_cons.mp hsorted
    rw [List.foldlM_cons, bind_assoc] at h
    obtain ⟨bar, hbar, h⟩ := bind_eq_ok.mp h
    rw [pure_bind] at h
    have hquoted : 0 ≤ bar.close := (barOf_keyed row).of_ok hbar
    have hbefore : ∀ p ∈ periods, p.time ≤ row.time := fun p hp => hle p hp row List.mem_cons_self
    obtain ⟨hadded, htimes⟩ := hordered.addBar hbefore hquoted
    have hle' : ∀ p ∈ addBar periods row bar, ∀ other ∈ rows, p.time ≤ other.time := by
      intro p hp other ho
      rcases htimes p hp with ht | ⟨q, hq, ht⟩
      · exact ht ▸ hfirst other ho
      · exact ht ▸ hle q hq other (List.mem_cons_of_mem _ ho)
    obtain ⟨hbars, hmem⟩ := ih hadded hrest hle' h
    refine ⟨fun time symbol => ?_, fun time => ?_⟩
    · rw [hbars, barAt_addBar hordered hbefore, List.foldl_cons, quote, hbar]
      rfl
    · rw [hmem, mem_times_addBar, List.exists_mem_cons_iff]
      grind

/-- The bars of sorted rows. -/
theorem barAt_periods (hsorted : rows.Pairwise (·.time ≤ ·.time)) (h : rows.periods = .ok bars) :
    (∀ time symbol, barAt bars time symbol = rows.foldl (quote time symbol) none) ∧
      ∀ time, time ∈ bars.map (·.time) ↔ ∃ row ∈ rows, row.time = time := by
  have hempty : Ordered [] := ⟨.nil, by simp, by simp⟩
  obtain ⟨hbars, htimes⟩ := quotes_of_foldlM hempty hsorted (by simp) h
  exact ⟨hbars, fun time => by simpa using htimes time⟩

/-! ## Rows of other symbols -/

/-- Rows of the same instant and symbol, with the same prices in cents. -/
structure SameRow (a b : PriceRow) : Prop where
  time : a.time = b.time
  symbol : a.symbol = b.symbol
  bar : barOf a = barOf b

/-- Schedules with the same rows but for those of one symbol, and with the same instants. -/
structure SameBut (z : String) (rows₁ rows₂ : PriceSchedule) : Prop where
  rows : List.Forall₂ SameRow (rows₁.filter (·.symbol ≠ z)) (rows₂.filter (·.symbol ≠ z))
  times : ∀ time, (∃ row ∈ rows₁, row.time = time) ↔ ∃ row ∈ rows₂, row.time = time

theorem SameRow.symm {a b : PriceRow} (h : SameRow a b) : SameRow b a :=
  ⟨h.time.symm, h.symbol.symm, h.bar.symm⟩

theorem SameBut.symm (h : SameBut z rows₁ rows₂) : SameBut z rows₂ rows₁ :=
  ⟨(h.rows.imp fun _ _ hrow => hrow.symm).flip, fun time => (h.times time).symm⟩

theorem SameBut.exists_row (h : SameBut z rows₁ rows₂) (hs : symbol ≠ z)
    (hrow : ∃ row ∈ rows₁, row.symbol = symbol) : ∃ row ∈ rows₂, row.symbol = symbol := by
  obtain ⟨row, hm, hsymbol⟩ := hrow
  have hkept : row ∈ rows₁.filter (·.symbol ≠ z) := by
    rw [List.mem_filter, hsymbol]
    exact ⟨hm, decide_eq_true hs⟩
  obtain ⟨other, ho, hsame⟩ := exists_of_forall₂ h.rows.flip row hkept
  exact ⟨other, (List.mem_filter.mp ho).1, hsame.symbol.symm.trans hsymbol⟩

private theorem foldl_quote_filter (hs : symbol ≠ z) (rows : PriceSchedule) (known : Option Bar) :
    rows.foldl (quote time symbol) known =
      (rows.filter (·.symbol ≠ z)).foldl (quote time symbol) known := by
  induction rows generalizing known with
  | nil => rfl
  | cons row rows ih =>
    by_cases hz : row.symbol = z
    · have hother : ¬ (row.time = time ∧ row.symbol = symbol) := fun he => hs (he.2.symm.trans hz)
      rw [List.filter_cons_of_neg (by simpa using hz), List.foldl_cons, quote, if_neg hother, ih]
    · rw [List.filter_cons_of_pos (by simpa using hz), List.foldl_cons, List.foldl_cons, ih]

private theorem foldl_quote_congr (h : List.Forall₂ SameRow rows₁ rows₂) (known : Option Bar) :
    rows₁.foldl (quote time symbol) known = rows₂.foldl (quote time symbol) known := by
  induction h generalizing known with
  | nil => rfl
  | cons hrow _ ih =>
    rw [List.foldl_cons, List.foldl_cons, ih, quote, quote, hrow.time, hrow.symbol, hrow.bar]

/-- The periods of schedules that differ in the rows of one symbol: the same instants, and the same bars
of every other symbol. -/
theorem SameBut.forall₂_periods (h : SameBut z rows₁ rows₂) (hsorted₁ : rows₁.Pairwise (·.time ≤ ·.time))
    (hsorted₂ : rows₂.Pairwise (·.time ≤ ·.time)) (h₁ : rows₁.periods = .ok bars₁)
    (h₂ : rows₂.periods = .ok bars₂) :
    List.Forall₂ (fun p q => p.time = q.time ∧
      ∀ symbol, symbol ≠ z → p.bars.find? symbol = q.bars.find? symbol) bars₁ bars₂ := by
  obtain ⟨hbars₁, hmem₁⟩ := barAt_periods hsorted₁ h₁
  obtain ⟨hbars₂, hmem₂⟩ := barAt_periods hsorted₂ h₂
  have hascending₁ := ((periods_keyed hsorted₁).of_ok h₁).ascending
  have hascending₂ := ((periods_keyed hsorted₂).of_ok h₂).ascending
  have htimes : bars₁.map (·.time) = bars₂.map (·.time) :=
    (List.pairwise_map.mpr hascending₁).eq_of_mem_iff (List.pairwise_map.mpr hascending₂)
      fun time => by rw [hmem₁, hmem₂, h.times]
  have hsame : ∀ time symbol, symbol ≠ z → barAt bars₁ time symbol = barAt bars₂ time symbol := by
    intro time symbol hs
    rw [hbars₁, hbars₂, foldl_quote_filter hs rows₁, foldl_quote_filter hs rows₂,
      foldl_quote_congr h.rows]
  have hpairs : List.Forall₂ (fun p q : PeriodBars => p.time = q.time) bars₁ bars₂ := by
    rwa [← List.forall₂_eq_eq_eq, List.forall₂_map_left_iff, List.forall₂_map_right_iff] at htimes
  rw [List.forall₂_iff_zip] at hpairs ⊢
  refine ⟨hpairs.1, fun {p q} hpq => ⟨hpairs.2 hpq, fun symbol hs => ?_⟩⟩
  obtain ⟨hp, hq⟩ := List.of_mem_zip hpq
  rw [← barAt_of_mem hascending₁ hp, ← barAt_of_mem hascending₂ hq, ← hpairs.2 hpq]
  exact hsame p.time symbol hs

end PortfolioLab.PriceSchedule
