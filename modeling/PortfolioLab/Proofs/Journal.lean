import PortfolioLab.Proofs.Runs

/-!
# The journal of a run

Records, holdings, trades and stop events are only ever appended, and a period appends entries of its
own instant. Over periods in ascending order of time, the entries up to some instant are therefore
the journal of the run over the periods up to it, and every record is the account at the end of its
period.
-/

namespace PortfolioLab

structure Journal where
  curve : List EquityRecord
  holdings : List Holding
  trades : List Trade
  events : List StopEvent

namespace Journal

def append (j k : Journal) : Journal :=
  ⟨j.curve ++ k.curve, j.holdings ++ k.holdings, j.trades ++ k.trades, j.events ++ k.events⟩

def upTo (time : Instant) (j : Journal) : Journal :=
  ⟨j.curve.filter (·.time ≤ time), j.holdings.filter (·.time ≤ time),
    j.trades.filter (·.time ≤ time), j.events.filter (·.time ≤ time)⟩

structure Within (P : Instant → Prop) (j : Journal) : Prop where
  curve : ∀ e ∈ j.curve, P e.time
  holdings : ∀ h ∈ j.holdings, P h.time
  trades : ∀ t ∈ j.trades, P t.time
  events : ∀ e ∈ j.events, P e.time

variable {j k : Journal} {P Q : Instant → Prop} {time : Instant}

theorem Within.mono (h : j.Within P) (hPQ : ∀ time, P time → Q time) : j.Within Q :=
  ⟨fun e he => hPQ _ (h.curve e he), fun e he => hPQ _ (h.holdings e he),
    fun e he => hPQ _ (h.trades e he), fun e he => hPQ _ (h.events e he)⟩

theorem Within.append (hj : j.Within P) (hk : k.Within P) : (j.append k).Within P :=
  ⟨fun e he => (List.mem_append.mp he).elim (hj.curve e) (hk.curve e),
    fun e he => (List.mem_append.mp he).elim (hj.holdings e) (hk.holdings e),
    fun e he => (List.mem_append.mp he).elim (hj.trades e) (hk.trades e),
    fun e he => (List.mem_append.mp he).elim (hj.events e) (hk.events e)⟩

theorem append_assoc (i j k : Journal) : (i.append j).append k = i.append (j.append k) := by
  simp [append]

theorem upTo_of_within (h : j.Within (· ≤ time)) : j.upTo time = j := by
  unfold upTo
  rw [List.filter_eq_self.mpr fun e he => decide_eq_true (h.curve e he),
    List.filter_eq_self.mpr fun e he => decide_eq_true (h.holdings e he),
    List.filter_eq_self.mpr fun e he => decide_eq_true (h.trades e he),
    List.filter_eq_self.mpr fun e he => decide_eq_true (h.events e he)]

private theorem filter_later {α : Type} {f : α → Instant} {xs ys : List α}
    (h : ∀ y ∈ ys, time < f y) : (xs ++ ys).filter (f · ≤ time) = xs.filter (f · ≤ time) := by
  have hys : ys.filter (f · ≤ time) = [] := List.filter_eq_nil_iff.mpr fun y hy => by
    simpa using h y hy
  rw [List.filter_append, hys, List.append_nil]

/-- Entries of later instants change nothing. -/
theorem upTo_append_of_later (h : k.Within (time < ·)) : (j.append k).upTo time = j.upTo time := by
  simp only [upTo, append, filter_later h.curve, filter_later h.holdings, filter_later h.trades,
    filter_later h.events]

end Journal

namespace Run

open Account

def journal (run : Run) : Journal :=
  ⟨run.curve, run.holdings, run.account.trades, run.account.events⟩

variable {model : CostModel} {initial : Int} {rules : Option (Register StopRule)} {run run' : Run}
  {done rest : List Period}

/-- The second run extends the first by some periods: one record for each, and no entry of another
instant. -/
def Extends (periods : List Period) (run run' : Run) : Prop :=
  ∃ k : Journal, run'.journal = run.journal.append k ∧
    k.Within (fun time => ∃ p ∈ periods, time = p.time) ∧
    k.curve.map (·.time) = periods.map (·.time)

theorem Recorded.extends {p : Period} (h : Recorded p run run') : Extends [p] run run' := by
  obtain ⟨trades, htrades, ht⟩ := h.trades
  obtain ⟨events, hevents, he⟩ := h.events
  refine ⟨⟨[run'.account.worth p.time], run'.account.stock p.time, trades, events⟩, ?_, ⟨?_, ?_, ?_,
    ?_⟩, rfl⟩
  · simp only [journal, Journal.append, h.curve, h.holdings, htrades, hevents]
  · rintro e he
    exact ⟨p, List.mem_singleton_self p, by rw [List.mem_singleton.mp he]; rfl⟩
  · rintro h hh
    obtain ⟨symbol, _, rfl⟩ := List.mem_map.mp hh
    exact ⟨p, List.mem_singleton_self p, rfl⟩
  · exact fun t hm => ⟨p, List.mem_singleton_self p, ht t hm⟩
  · exact fun e hm => ⟨p, List.mem_singleton_self p, he e hm⟩

theorem Extends.trans {run'' : Run} {ps qs : List Period} (h : Extends ps run run')
    (h' : Extends qs run' run'') : Extends (ps ++ qs) run run'' := by
  obtain ⟨j, hj, hjw, hjc⟩ := h
  obtain ⟨k, hk, hkw, hkc⟩ := h'
  refine ⟨j.append k, by rw [hk, hj, Journal.append_assoc], ?_, ?_⟩
  · refine (hjw.mono ?_).append (hkw.mono ?_)
    · rintro time ⟨p, hp, rfl⟩
      exact ⟨p, List.mem_append_left _ hp, rfl⟩
    · rintro time ⟨p, hp, rfl⟩
      exact ⟨p, List.mem_append_right _ hp, rfl⟩
  · rw [Journal.append, List.map_append, hjc, hkc, List.map_append]

theorem foldlM_step_keyed (h : Sound initial rules done run) (hv : ∀ p ∈ rest, p.Valid) :
    Keyed (fun run' => Sound initial rules (done ++ rest) run' ∧ Extends rest run run')
      (rest.foldlM (step model) run) := by
  induction rest generalizing done run with
  | nil => exact ⟨by rwa [List.append_nil], ⟨[], [], [], []⟩, by simp [journal, Journal.append],
      ⟨by simp, by simp, by simp, by simp⟩, rfl⟩
  | cons p rest ih =>
    rw [List.foldlM_cons]
    refine (step_keyed h (hv p List.mem_cons_self)).bind fun next ⟨hnext, hrecorded⟩ => ?_
    refine (ih hnext fun q hq => hv q (List.mem_cons_of_mem _ hq)).imp fun last ⟨hlast, hext⟩ => ?_
    exact ⟨by rwa [List.append_assoc] at hlast, hrecorded.extends.trans hext⟩

variable {book : Option StopBook} {periods pre post : List Period}

theorem sound_start (initial : Int) (hb : ∀ b, book = some b → b.states = []) :
    Sound initial (book.map (·.rules)) [] { account := { cash := initial, book } } := by
  have hbalanced : Balanced initial { cash := initial, book } := by
    refine ⟨by simp, List.nodup_nil, fun _ => rfl, ?_, ?_, ?_, TradeLog.buysFunded_nil initial⟩
    · exact fun _ _ h => nomatch h
    · exact fun _ h => nomatch h
    · exact fun _ h => nomatch h
  refine ⟨⟨hbalanced, fun b hb' => ?_⟩, rfl, fun _ => rfl⟩
  have hempty := hb b hb'
  refine ⟨by simp [hempty], by simp [hempty], ?_, ?_⟩ <;> simp [hempty, Register.find?]

/-- A run over valid periods is sound, and no look-up in it fails. -/
theorem ofPeriods_keyed (hb : ∀ b, book = some b → b.states = []) (hv : ∀ p ∈ periods, p.Valid) :
    Keyed (fun run => Sound initial (book.map (·.rules)) periods run ∧
        run.curve.map (·.time) = periods.map (·.time) ∧
        run.journal.Within (fun time => ∃ p ∈ periods, time = p.time))
      (ofPeriods model initial book periods) := by
  refine (foldlM_step_keyed (sound_start initial hb) hv).imp fun run ⟨hsound, k, hk, hw, hc⟩ => ?_
  have hj : run.journal = k := by rw [hk]; rfl
  exact ⟨hsound, by rw [← hc, ← hj]; rfl, hj ▸ hw⟩

theorem ofPeriods_append {cash : Cents} (h : ofPeriods model cash book (pre ++ post) = .ok run) :
    ∃ run₀, ofPeriods model cash book pre = .ok run₀ ∧ post.foldlM (step model) run₀ = .ok run := by
  rw [ofPeriods, List.foldlM_append] at h
  exact bind_eq_ok.mp h

/-- Periods after an instant add to the journal of the periods up to it entries after that instant. -/
theorem journal_split {run₀ : Run} {time : Instant} (hb : ∀ b, book = some b → b.states = [])
    (hv : ∀ p ∈ pre ++ post, p.Valid) (h₀ : ofPeriods model initial book pre = .ok run₀)
    (h : ofPeriods model initial book (pre ++ post) = .ok run) (hpre : ∀ p ∈ pre, p.time ≤ time)
    (hpost : ∀ p ∈ post, time < p.time) :
    run₀.journal.Within (· ≤ time) ∧
      ∃ k : Journal, run.journal = run₀.journal.append k ∧ k.Within (time < ·) := by
  obtain ⟨run₁, h₁, hrest⟩ := ofPeriods_append h
  cases h₀.symm.trans h₁
  obtain ⟨hsound, _, hwithin⟩ := (ofPeriods_keyed hb fun p hp =>
    hv p (List.mem_append_left _ hp)).of_ok h₀
  obtain ⟨_, k, hk, hkw, _⟩ := (foldlM_step_keyed hsound fun p hp =>
    hv p (List.mem_append_right _ hp)).of_ok hrest
  refine ⟨hwithin.mono ?_, k, hk, hkw.mono ?_⟩
  · rintro _ ⟨p, hp, rfl⟩
    exact hpre p hp
  · rintro _ ⟨p, hp, rfl⟩
    exact hpost p hp

/-- The periods before and after one of ascending periods. -/
theorem exists_split_of_mem {p : Period} (hsorted : periods.Pairwise (·.time < ·.time))
    (hp : p ∈ periods) : ∃ pre post, periods = pre ++ p :: post ∧
      (∀ q ∈ pre, q.time < p.time) ∧ (∀ q ∈ pre ++ [p], q.time ≤ p.time) ∧
      ∀ q ∈ post, p.time < q.time := by
  obtain ⟨pre, post, rfl⟩ := List.append_of_mem hp
  have hparts := List.pairwise_append.mp hsorted
  have hbefore : ∀ q ∈ pre, q.time < p.time := fun q hq => hparts.2.2 q hq p List.mem_cons_self
  refine ⟨pre, post, rfl, hbefore, fun q hq => ?_, (List.pairwise_cons.mp hparts.2.1).1⟩
  rcases List.mem_append.mp hq with hq | hq
  · exact (hbefore q hq).le
  · rw [List.mem_singleton.mp hq]

/-- The run after a last period: its last record and its holdings of that period are those of its
account, and all others are of periods before. -/
theorem last_period {p : Period} {last : Run} (hb : ∀ b, book = some b → b.states = [])
    (hv : ∀ q ∈ pre ++ [p], q.Valid) (hbefore : ∀ q ∈ pre, q.time < p.time)
    (h : ofPeriods model initial book (pre ++ [p]) = .ok last) :
    (∃ curve, last.curve = curve ++ [last.account.worth p.time] ∧ ∀ e ∈ curve, e.time < p.time) ∧
      last.holdings.filter (·.time = p.time) = last.account.stock p.time := by
  obtain ⟨before, h₀, hlast⟩ := ofPeriods_append h
  obtain ⟨hsound, _, hwithin⟩ := (ofPeriods_keyed hb fun q hq =>
    hv q (List.mem_append_left _ hq)).of_ok h₀
  have hearlier : before.journal.Within (· < p.time) := hwithin.mono fun time ⟨q, hq, ht⟩ => by
    rw [ht]
    exact hbefore q hq
  simp only [List.foldlM_cons, List.foldlM_nil, bind_pure] at hlast
  obtain ⟨_, hrecorded⟩ := (step_keyed hsound (hv p (by simp))).of_ok hlast
  refine ⟨⟨before.curve, hrecorded.curve, hearlier.curve⟩, ?_⟩
  have hnone : before.holdings.filter (·.time = p.time) = [] :=
    List.filter_eq_nil_iff.mpr fun holding hm => by simpa using (hearlier.holdings holding hm).ne
  have hall : (last.account.stock p.time).filter (·.time = p.time) = last.account.stock p.time :=
    List.filter_eq_self.mpr fun holding hm => by
      obtain ⟨symbol, _, rfl⟩ := List.mem_map.mp hm
      exact decide_eq_true rfl
  rw [hrecorded.holdings, List.filter_append, hnone, hall, List.nil_append]

/-- Every record of a run is the account at the end of its period: the account of the run over the
periods up to it, whose journal is what the run wrote up to then. -/
theorem record_of_period (hb : ∀ b, book = some b → b.states = []) (hv : ∀ p ∈ periods, p.Valid)
    (hsorted : periods.Pairwise (·.time < ·.time))
    (h : ofPeriods model initial book periods = .ok run) {e : EquityRecord} (he : e ∈ run.curve) :
    ∃ pre p post last, periods = pre ++ p :: post ∧
      Sound initial (book.map (·.rules)) (pre ++ [p]) last ∧ e = last.account.worth p.time ∧
      run.journal.upTo p.time = last.journal ∧
      run.holdings.filter (·.time = p.time) = last.account.stock p.time := by
  obtain ⟨_, hcurve, _⟩ := (ofPeriods_keyed hb hv).of_ok h
  obtain ⟨p, hp, htime⟩ := List.mem_map.mp (hcurve ▸ List.mem_map_of_mem he)
  obtain ⟨pre, post, rfl, hbefore, hpre, hafter⟩ := exists_split_of_mem hsorted hp
  rw [List.append_cons] at h hv
  obtain ⟨last, hlast, _⟩ := ofPeriods_append h
  obtain ⟨hwithin, k, hk, hlater⟩ := journal_split hb hv hlast h hpre hafter
  have hj : run.journal.upTo p.time = last.journal := by
    rw [hk, Journal.upTo_append_of_later hlater, Journal.upTo_of_within hwithin]
  have hv' : ∀ q ∈ pre ++ [p], q.Valid := fun q hq => hv q (List.mem_append_left _ hq)
  obtain ⟨⟨curve, hc, hearlier⟩, hholdings⟩ := last_period hb hv' hbefore hlast
  refine ⟨pre, p, post, last, rfl, ((ofPeriods_keyed hb hv').of_ok hlast).1, ?_, hj, ?_⟩
  · have hupTo : run.curve.filter (·.time ≤ p.time) = last.curve := congrArg Journal.curve hj
    have hm : e ∈ last.curve := by
      rw [← hupTo]
      exact List.mem_filter.mpr ⟨he, by simp [htime]⟩
    rw [hc] at hm
    rcases List.mem_append.mp hm with hm | hm
    · exact absurd (hearlier e hm) (by rw [htime]; exact lt_irrefl _)
    · exact List.mem_singleton.mp hm
  · have hupTo : run.holdings.filter (·.time ≤ p.time) = last.holdings := congrArg Journal.holdings hj
    rw [← hholdings, ← hupTo, List.filter_filter]
    refine List.filter_congr fun holding _ => ?_
    by_cases heq : holding.time = p.time <;> simp [heq]

end Run
end PortfolioLab
