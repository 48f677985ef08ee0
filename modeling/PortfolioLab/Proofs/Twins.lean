import PortfolioLab.Proofs.Runs

/-!
# Runs with different rules

Of everything in a run, only the entry of a stop reads the rules, and it reads the rule of its own
symbol. All other steps commute with a change of the rules. So two runs over the same periods, whose
rules agree on every symbol that has a bar, differ in their rules and in nothing else.
-/

namespace PortfolioLab

/-! ## Steps that commute with a change -/

namespace Transition

variable {σ α β : Type} {g : σ → σ}

/-- A step does the same before and after a change of the state. -/
def Commutes (g : σ → σ) (step : Transition σ α) : Prop :=
  ∀ s, step.commit (g s) = (step.commit s).map fun p => (p.1, g p.2)

theorem Commutes.pure (a : α) : Commutes g (pure a : Transition σ α) := fun _ => rfl

theorem Commutes.bind {step : Transition σ α} {next : α → Transition σ β} (h : Commutes g step)
    (hn : ∀ a, Commutes g (next a)) : Commutes g (step >>= next) := by
  intro s
  rw [commit_bind, commit_bind, h s]
  cases step.commit s with
  | error e => rfl
  | ok p => exact hn p.1 p.2

/-- A read that the change does not affect. -/
theorem Commutes.get_bind {f : σ → Transition σ α} (hf : ∀ s, f (g s) = f s)
    (h : ∀ s, Commutes g (f s)) : Commutes g (get >>= f) := by
  intro s
  rw [commit_bind, commit_bind, commit_get, commit_get, ok_bind, ok_bind, hf]
  exact h s s

theorem Commutes.mapM {γ : Type} {f : γ → Transition σ α} (h : ∀ x, Commutes g (f x))
    (xs : List γ) : Commutes g (xs.mapM f) := by
  induction xs with
  | nil => exact .pure []
  | cons x xs ih =>
    rw [List.mapM_cons]
    exact (h x).bind fun a => ih.bind fun as => .pure (a :: as)

end Transition

/-- Two outcomes are the two images of one outcome. -/
def Twins {α : Type} (g₁ g₂ : α → α) (r₁ r₂ : Except Failure α) : Prop :=
  ∃ r : Except Failure α, r₁ = r.map g₁ ∧ r₂ = r.map g₂

namespace Twins

variable {α β γ : Type} {g₁ g₂ : α → α} {h₁ h₂ : β → β}

theorem ok (a : α) : Twins g₁ g₂ (.ok (g₁ a)) (.ok (g₂ a)) := ⟨.ok a, rfl, rfl⟩

theorem bind {r₁ r₂ : Except Failure α} {f₁ f₂ : α → Except Failure β} (h : Twins g₁ g₂ r₁ r₂)
    (hf : ∀ a, Twins h₁ h₂ (f₁ (g₁ a)) (f₂ (g₂ a))) : Twins h₁ h₂ (r₁ >>= f₁) (r₂ >>= f₂) := by
  obtain ⟨r, rfl, rfl⟩ := h
  cases r with
  | error e => exact ⟨.error e, rfl, rfl⟩
  | ok a => exact hf a

/-- A common outcome, followed by twins on its values. -/
theorem bind_same {r : Except Failure γ} {f₁ f₂ : γ → Except Failure β}
    (hf : ∀ c, r = .ok c → Twins h₁ h₂ (f₁ c) (f₂ c)) : Twins h₁ h₂ (r >>= f₁) (r >>= f₂) := by
  cases r with
  | error e => exact ⟨.error e, rfl, rfl⟩
  | ok c => exact hf c rfl

theorem foldlM {f : α → γ → Except Failure α} {xs : List γ}
    (hf : ∀ x ∈ xs, ∀ a, Twins g₁ g₂ (f (g₁ a) x) (f (g₂ a) x)) (a : α) :
    Twins g₁ g₂ (xs.foldlM f (g₁ a)) (xs.foldlM f (g₂ a)) := by
  induction xs generalizing a with
  | nil => exact .ok a
  | cons x xs ih =>
    rw [List.foldlM_cons, List.foldlM_cons]
    exact (hf x List.mem_cons_self a).bind (ih fun y hy => hf y (List.mem_cons_of_mem _ hy))

/-- Twins that both have a value are the images of one value. -/
theorem of_ok {a₁ a₂ : α} (h : Twins g₁ g₂ (.ok a₁) (.ok a₂)) : ∃ a, a₁ = g₁ a ∧ a₂ = g₂ a := by
  obtain ⟨r, hr₁, hr₂⟩ := h
  cases r with
  | error e => cases hr₁
  | ok a => exact ⟨a, Except.ok.inj hr₁, Except.ok.inj hr₂⟩

/-- If one of two twins has a value, so has the other. -/
theorem of_ok_left {a₁ : α} {r₂ : Except Failure α} (h : Twins g₁ g₂ (.ok a₁) r₂) :
    ∃ a, a₁ = g₁ a ∧ r₂ = .ok (g₂ a) := by
  obtain ⟨r, hr₁, hr₂⟩ := h
  cases r with
  | error e => cases hr₁
  | ok a => exact ⟨a, Except.ok.inj hr₁, hr₂⟩

theorem of_commutes {σ : Type} {k₁ k₂ : σ → σ} {step : Transition σ α}
    (c₁ : Transition.Commutes k₁ step) (c₂ : Transition.Commutes k₂ step) (s : σ) :
    Twins (fun p : α × σ => (p.1, k₁ p.2)) (fun p => (p.1, k₂ p.2)) (step.commit (k₁ s))
      (step.commit (k₂ s)) := ⟨step.commit s, c₁ s, c₂ s⟩

end Twins

/-! ## Other rules for stops -/

namespace StopBook

open Transition

def withRules (rules : Register StopRule) (book : StopBook) : StopBook := { book with rules }

variable {rules : Register StopRule}

private theorem onState_commutes {α : Type} (symbol : String) (state : StopState)
    (step : Transition StopState α) : Commutes (withRules rules) (onState symbol state step) := by
  intro book
  rw [commit_onState, commit_onState]
  cases step.commit state <;> rfl

private theorem visit_commutes (bars : Register Bar) (histories : Register (List Bar))
    (symbol : String) : Commutes (withRules rules) (visit bars histories symbol) := by
  refine .get_bind (fun _ => rfl) fun book => ?_
  dsimp only
  split
  · split
    · exact (onState_commutes _ _ _).bind fun _ => .pure _
    · exact .pure none
  · exact .pure none

theorem evaluate_commutes (bars : Register Bar) (histories : Register (List Bar)) :
    Commutes (withRules rules) (evaluate bars histories) :=
  .get_bind (fun _ => rfl) fun _ =>
    (Commutes.mapM (visit_commutes bars histories) _).bind fun _ => .pure _

theorem close_commutes (symbol : String) : Commutes (withRules rules) (close symbol) := by
  intro book
  rw [close, commit_bind, commit_bind, commit_get, commit_get, ok_bind, ok_bind]
  dsimp only [withRules]
  cases book.states.find? symbol <;> rfl

/-- Entering a position reads the rule of its symbol and no other. -/
theorem commit_enter (symbol : String) (entry : Cents) (history : List Bar) (book : StopBook) :
    (enter symbol entry history).commit book = match book.rules.find? symbol with
      | none => .ok (false, book)
      | some rule =>
        (StopState.arm (if rule.kind.usesRange then Bar.averageTrueRange history rule.lookback
          else none)).commit (.fresh rule entry) >>= fun p =>
            .ok (true, { book with states := book.states.put symbol p.2 }) := by
  rw [enter, commit_bind, commit_get, ok_bind]
  dsimp only
  cases book.rules.find? symbol with
  | none => rfl
  | some rule =>
    dsimp only
    rw [commit_bind, commit_require, bind_assoc]
    rfl

theorem enter_twins {rules₁ rules₂ : Register StopRule} {symbol : String}
    (h : rules₁.find? symbol = rules₂.find? symbol) (entry : Cents) (history : List Bar)
    (book : StopBook) :
    Twins (fun p => (p.1, withRules rules₁ p.2)) (fun p => (p.1, withRules rules₂ p.2))
      ((enter symbol entry history).commit (book.withRules rules₁))
      ((enter symbol entry history).commit (book.withRules rules₂)) := by
  rw [commit_enter, commit_enter]
  simp only [withRules, ← h]
  cases rules₁.find? symbol with
  | none => exact ⟨.ok (false, book), rfl, rfl⟩
  | some rule =>
    exact .bind_same fun p _ =>
      ⟨.ok (true, { book with states := book.states.put symbol p.2 }), rfl, rfl⟩

end StopBook

namespace Account

def withRules (rules : Register StopRule) (a : Account) : Account :=
  { a with book := a.book.map (StopBook.withRules rules) }

variable {rules₁ rules₂ : Register StopRule} {model : CostModel} {time : Instant}

private theorem leave_twins (trigger : StopTrigger) (a : Account) :
    Twins (withRules rules₁) (withRules rules₂) (leave model time (a.withRules rules₁) trigger)
      (leave model time (a.withRules rules₂) trigger) := by
  unfold leave
  simp only [withRules]
  cases a.positions.find? trigger.symbol with
  | none => exact ⟨.error .unknownKey, rfl, rfl⟩
  | some position =>
    cases a.book with
    | none => exact ⟨.error .unknownKey, rfl, rfl⟩
    | some book =>
      refine Twins.bind_same fun r _ => ?_
      refine (Twins.of_commutes (StopBook.close_commutes _) (StopBook.close_commutes _) book).bind
        fun p => ?_
      exact ⟨.ok { a with
        cash := _, book := some p.2, positions := _, trades := _, events := _ }, rfl, rfl⟩

theorem runStops_twins (bars : Register Bar) (a : Account) :
    Twins (fun r => (withRules rules₁ r.1, r.2)) (fun r => (withRules rules₂ r.1, r.2))
      (runStops model time bars (a.withRules rules₁))
      (runStops model time bars (a.withRules rules₂)) := by
  unfold runStops
  simp only [withRules]
  cases hb : a.book with
  | none => exact ⟨.ok (a, []), by simp [hb, Except.map], by simp [hb, Except.map]⟩
  | some book =>
    refine (Twins.of_commutes (StopBook.evaluate_commutes bars a.histories)
      (StopBook.evaluate_commutes bars a.histories) book).bind fun p => ?_
    refine (Twins.foldlM (fun trigger _ a => leave_twins trigger a)
      { a with book := some p.2 }).bind fun after => ?_
    exact ⟨.ok (after, p.1.map (·.symbol)), rfl, rfl⟩

private theorem sell_twins (order : Order) (a : Account) :
    Twins (withRules rules₁) (withRules rules₂) (sell model time (a.withRules rules₁) order)
      (sell model time (a.withRules rules₂) order) := by
  have hrelease : ∀ rules, (a.book.map (StopBook.withRules rules)).map (StopBook.release order.symbol) =
      (a.book.map (StopBook.release order.symbol)).map (StopBook.withRules rules) := by
    intro rules
    cases a.book <;> rfl
  unfold sell
  simp only [withRules, hrelease]
  cases a.positions.find? order.symbol with
  | none => exact ⟨.error .unknownKey, rfl, rfl⟩
  | some position =>
    refine Twins.bind_same fun r _ => ?_
    split
    · exact ⟨.ok { a with cash := _, book := _, positions := _, trades := _ }, rfl, rfl⟩
    · exact ⟨.ok { a with cash := _, positions := _, trades := _ }, rfl, rfl⟩

private theorem enterStop_twins {symbol : String}
    (h : rules₁.find? symbol = rules₂.find? symbol) (price : Cents) (a : Account) :
    Twins (withRules rules₁) (withRules rules₂) (enterStop symbol price (a.withRules rules₁))
      (enterStop symbol price (a.withRules rules₂)) := by
  unfold enterStop
  simp only [withRules]
  cases hb : a.book with
  | none => exact ⟨.ok a, by simp [withRules, hb, Except.map], by simp [withRules, hb, Except.map]⟩
  | some book =>
    exact (StopBook.enter_twins h price _ book).bind fun p => ⟨.ok { a with book := some p.2 }, rfl, rfl⟩

private theorem buy_twins {order : Order}
    (h : rules₁.find? order.symbol = rules₂.find? order.symbol) (a : Account) :
    Twins (withRules rules₁) (withRules rules₂) (buy model time (a.withRules rules₁) order)
      (buy model time (a.withRules rules₂) order) := by
  unfold buy
  refine Twins.bind_same fun quantity _ => ?_
  split
  · exact .ok a
  · refine Twins.bind_same fun r _ => ?_
    show Twins _ _ (if (a.positions.find? order.symbol).isNone = true then _ else _)
      (if (a.positions.find? order.symbol).isNone = true then _ else _)
    split
    · exact enterStop_twins h order.price { a with cash := _, positions := _, trades := _ }
    · exact ⟨.ok { a with cash := _, positions := _, trades := _ }, rfl, rfl⟩

/-- A rebalance reads the rules of symbols that have a bar. -/
theorem retarget_twins {targets : Option Targets} {bars : Register Bar}
    (hl : ∀ t, targets = some t → LongOnly t) (hb : Quoted bars)
    (hr : ∀ symbol ∈ bars.symbols, rules₁.find? symbol = rules₂.find? symbol)
    (stopped : List String) (a : Account) :
    Twins (withRules rules₁) (withRules rules₂)
      (retarget model time targets bars stopped (a.withRules rules₁))
      (retarget model time targets bars stopped (a.withRules rules₂)) := by
  cases targets with
  | none => exact .ok a
  | some targets =>
    refine Twins.bind_same (r := a.equity) fun equity _ => ?_
    split
    · exact .ok a
    · next he =>
      refine Twins.bind_same (r := a.orders equity targets bars stopped) fun os hos => ?_
      obtain ⟨_, hfits⟩ :=
        (orders_keyed (Int.le_of_lt (Int.not_le.mp he)) (hl targets rfl) hb stopped).of_ok hos
      refine (Twins.foldlM (fun o _ a => sell_twins o a) a).bind fun sold => ?_
      exact Twins.foldlM (fun o ho a =>
        buy_twins (hr o.symbol (hfits o (List.mem_filter.mp ho).1).quoted) a) sold

theorem learn_withRules (rules : Register StopRule) (bars : Register Bar) (a : Account) :
    (a.withRules rules).learn bars = (a.learn bars).withRules rules := by
  induction bars generalizing a with
  | nil => rfl
  | cons entry rest ih => exact ih { a with histories := _, lastClose := _ }

end Account

namespace Run

def withRules (rules : Register StopRule) (run : Run) : Run :=
  { run with account := run.account.withRules rules }

variable {rules₁ rules₂ : Register StopRule} {model : CostModel}

theorem step_twins {p : Period} (hp : p.Valid)
    (hr : ∀ symbol ∈ p.bars.symbols, rules₁.find? symbol = rules₂.find? symbol) (run : Run) :
    Twins (withRules rules₁) (withRules rules₂) (step model (run.withRules rules₁) p)
      (step model (run.withRules rules₂) p) := by
  rw [step_eq, step_eq]
  simp only [withRules, Account.learn_withRules]
  refine (Account.runStops_twins p.bars (run.account.learn p.bars)).bind fun r => ?_
  refine (Account.retarget_twins hp.longOnly hp.quoted hr r.2 r.1).bind fun a => ?_
  refine Twins.bind_same (r := takeStock p.time a) fun stock _ => ?_
  refine Twins.bind_same (r := Cents.sum [a.cash, stock.2]) fun equity _ => ?_
  exact ⟨.ok { account := a, holdings := _, curve := _ }, rfl, rfl⟩

/-- Runs over the same periods, with rules that agree on the symbols of their bars, differ in their
rules and in nothing else. -/
theorem ofPeriods_twins {periods : List Period} (hv : ∀ p ∈ periods, p.Valid)
    (hr : ∀ p ∈ periods, ∀ symbol ∈ p.bars.symbols, rules₁.find? symbol = rules₂.find? symbol)
    (model : CostModel) (cash : Cents) (book : Option StopBook) :
    Twins (withRules rules₁) (withRules rules₂)
      (ofPeriods model cash (book.map (StopBook.withRules rules₁)) periods)
      (ofPeriods model cash (book.map (StopBook.withRules rules₂)) periods) :=
  Twins.foldlM (fun p hp run => step_twins (hv p hp) (hr p hp) run) { account := { cash, book } }

end Run
end PortfolioLab
