import PortfolioLab.Proofs.Surroundings
import Mathlib.Data.List.Perm.Basic

/-!
# Exits in any order

The exits of one stop phase share the cash, the positions and the book. Each takes away one position
and one stop and changes the cash by an amount that depends on its own position alone, so in whatever
order they are made they leave the same account, and only the log tells the order.
-/

namespace PortfolioLab

/-! ## Logs up to the order of some entries -/

/-- Lists that differ by exchanges of neighbours that are related by `R`. -/
inductive Reordered {α : Type} (R : α → α → Prop) : List α → List α → Prop
  | nil : Reordered R [] []
  | cons (x : α) {xs ys : List α} : Reordered R xs ys → Reordered R (x :: xs) (x :: ys)
  | swap {x y : α} (xs : List α) : R x y → Reordered R (x :: y :: xs) (y :: x :: xs)
  | trans {xs ys zs : List α} : Reordered R xs ys → Reordered R ys zs → Reordered R xs zs

namespace Reordered

variable {α : Type} {R : α → α → Prop} {xs ys zs : List α}

theorem refl (xs : List α) : Reordered R xs xs := by
  induction xs with
  | nil => exact .nil
  | cons x xs ih => exact .cons x ih

theorem append_left (zs : List α) (h : Reordered R xs ys) : Reordered R (zs ++ xs) (zs ++ ys) := by
  induction zs with
  | nil => exact h
  | cons z zs ih => exact .cons z ih

theorem append_right (zs : List α) (h : Reordered R xs ys) : Reordered R (xs ++ zs) (ys ++ zs) := by
  induction h with
  | nil => exact .refl zs
  | cons x _ ih => exact .cons x ih
  | swap xs hxy => exact .swap (xs ++ zs) hxy
  | trans _ _ ih ih' => exact ih.trans ih'

theorem of_perm (h : xs.Perm ys) (hR : ∀ x ∈ xs, ∀ y ∈ xs, R x y) : Reordered R xs ys := by
  induction h with
  | nil => exact .nil
  | cons x _ ih =>
    exact .cons x (ih fun y hy z hz => hR y (List.mem_cons_of_mem _ hy) z (List.mem_cons_of_mem _ hz))
  | swap x y xs => exact .swap xs (hR y (by simp) x (by simp))
  | trans h _ ih ih' =>
    exact (ih hR).trans (ih' fun x hx y hy => hR x (h.mem_iff.mpr hx) y (h.mem_iff.mpr hy))

end Reordered

/-- Trades that leave a position for a stop at one instant. -/
structure Trade.Ties (t u : Trade) : Prop where
  stop : t.reason = .stop ∧ u.reason = .stop
  time : t.time = u.time

def StopEvent.Ties (e f : StopEvent) : Prop := e.time = f.time

/-! ## What an exit does -/

def StopBook.releaseAll (symbols : List String) (book : StopBook) : StopBook :=
  { book with states := symbols.foldl Register.remove book.states }

namespace StopTrigger

def exit (model : CostModel) (time : Instant) (held : String → Int) (trigger : StopTrigger) : Trade where
  symbol := trigger.symbol
  time
  quantity := -held trigger.symbol
  price := trigger.breach.exitPrice
  fee := (model.fee (-held trigger.symbol * trigger.breach.exitPrice)).toOption.getD 0
  reason := .stop

def event (time : Instant) (held : String → Int) (trigger : StopTrigger) : StopEvent where
  symbol := trigger.symbol
  time
  kind := trigger.kind
  threshold := trigger.breach.threshold
  exitPrice := trigger.breach.exitPrice
  quantity := held trigger.symbol
  gapped := trigger.breach.gapped

end StopTrigger

namespace Account

open TradeLog

variable {a a' : Account} {model : CostModel}
  {time : Instant} {held : String → Int} {triggers triggers₁ triggers₂ : List StopTrigger}

def afterExits (model : CostModel) (time : Instant) (held : String → Int) (triggers : List StopTrigger)
    (a : Account) : Account where
  cash := a.cash - outlay (triggers.map (·.exit model time held))
  positions := (triggers.map (·.symbol)).foldl Register.remove a.positions
  lastClose := a.lastClose
  histories := a.histories
  book := a.book.map (StopBook.releaseAll (triggers.map (·.symbol)))
  trades := a.trades ++ triggers.map (·.exit model time held)
  events := a.events ++ triggers.map (·.event time held)

theorem afterExits_nil (model : CostModel) (time : Instant) (held : String → Int) (a : Account) :
    a.afterExits model time held [] = a := by
  have hbook : a.book.map (StopBook.releaseAll []) = a.book := by cases a.book <;> rfl
  simp [afterExits, hbook]

theorem afterExits_cons (model : CostModel) (time : Instant) (held : String → Int)
    (trigger : StopTrigger) (rest : List StopTrigger) (a : Account) :
    a.afterExits model time held (trigger :: rest) =
      (a.afterExits model time held [trigger]).afterExits model time held rest := by
  have hcash : a.cash - outlay ((trigger :: rest).map (·.exit model time held)) =
      a.cash - outlay ([trigger].map (·.exit model time held)) -
        outlay (rest.map (·.exit model time held)) := by
    rw [List.map_cons, ← List.singleton_append, outlay_append, List.map_singleton, Int.sub_sub]
  have hbook : a.book.map (StopBook.releaseAll ((trigger :: rest).map (·.symbol))) =
      (a.book.map (StopBook.releaseAll ([trigger].map (·.symbol)))).map
        (StopBook.releaseAll (rest.map (·.symbol))) := by
    cases a.book <;> rfl
  simp only [afterExits, hcash, hbook]
  simp

theorem leave_eq {trigger : StopTrigger} (h : leave model time a trigger = .ok a')
    (hheld : a.held trigger.symbol = held trigger.symbol) :
    a' = a.afterExits model time held [trigger] := by
  unfold leave at h
  cases hp : a.positions.find? trigger.symbol with
  | none =>
    simp only [hp] at h
    cases h
  | some position =>
    cases hb : a.book with
    | none =>
      simp only [hp, hb] at h
      cases h
    | some book =>
      simp only [hp, hb] at h
      obtain ⟨⟨cash, filled, trade⟩, hsettle, h⟩ := bind_eq_ok.mp h
      obtain ⟨fee, hfee, hcash, _, htrade⟩ := (settle_keyed _ _ _ _ _ _ _ _).of_ok hsettle
      obtain ⟨⟨closed, after⟩, hclose, h⟩ := bind_eq_ok.mp h
      have hquantity : position.quantity = held trigger.symbol := by rw [← hheld, held_of_find? hp]
      have hexit : trade = trigger.exit model time held := by
        rw [show trade = _ from htrade]
        simp only [StopTrigger.exit, ← hquantity, hfee]
        rfl
      have hpaid : cash = a.cash - (trigger.exit model time held).outlay := by
        rw [← hexit, show trade = _ from htrade]
        exact hcash
      rw [← Except.ok.inj h, StopBook.eq_release_of_close hclose]
      simp only [afterExits, hb, hexit, hpaid, List.map_singleton, outlay_singleton, StopTrigger.event,
        ← hquantity]
      rfl

/-- Exits of distinct stops, of positions as they were before the first. -/
theorem leaves_eq (hn : (triggers.map (·.symbol)).Nodup)
    (hheld : ∀ trigger ∈ triggers, a.held trigger.symbol = held trigger.symbol)
    (h : triggers.foldlM (leave model time) a = .ok a') : a' = a.afterExits model time held triggers := by
  induction triggers generalizing a with
  | nil =>
    cases h
    exact (afterExits_nil _ _ _ _).symm
  | cons trigger rest ih =>
    obtain ⟨hnot, hn⟩ := List.nodup_cons.mp hn
    rw [List.foldlM_cons] at h
    obtain ⟨next, hleave, h⟩ := bind_eq_ok.mp h
    have hnext := leave_eq hleave (hheld trigger List.mem_cons_self)
    obtain ⟨_, hothers⟩ := leave_writes hleave
    -- the exits to come are of other symbols, whose positions this one leaves as they were
    rw [afterExits_cons, ← hnext]
    refine ih hn (fun other ho => ?_) h
    have hne : other.symbol ≠ trigger.symbol := fun he => hnot (List.mem_map.mpr ⟨other, ho, he⟩)
    rw [hothers _ hne]
    exact hheld other (List.mem_cons_of_mem _ ho)

def unlogged (a : Account) : Account := { a with trades := [], events := [] }

theorem afterExits_perm (h : triggers₁.Perm triggers₂) :
    (a.afterExits model time held triggers₁).unlogged =
      (a.afterExits model time held triggers₂).unlogged := by
  have houtlay : outlay (triggers₁.map (·.exit model time held)) =
      outlay (triggers₂.map (·.exit model time held)) := ((h.map _).map _).sum_eq
  have hpositions := (h.map (·.symbol)).foldl_eq (f := Register.remove) a.positions
  have hbook : StopBook.releaseAll (triggers₁.map (·.symbol)) =
      StopBook.releaseAll (triggers₂.map (·.symbol)) := by
    funext book
    rw [StopBook.releaseAll, StopBook.releaseAll, (h.map (·.symbol)).foldl_eq]
  simp only [unlogged, afterExits, houtlay, hpositions, hbook]

theorem afterExits_within (s : Surroundings) (a : Account) :
    (a.within s).afterExits model time held triggers =
      (a.afterExits model time held triggers).within s := by
  have hbook : (a.book.map (StopBook.withPriority s.priority)).map
        (StopBook.releaseAll (triggers.map (·.symbol))) =
      (a.book.map (StopBook.releaseAll (triggers.map (·.symbol)))).map
        (StopBook.withPriority s.priority) := by
    cases a.book <;> rfl
  simp only [within, afterExits, hbook, List.append_assoc]

/-- The log of an account may be counted to its surroundings. -/
theorem within_logged (s : Surroundings) (a : Account) :
    a.within s = a.unlogged.within (s.logged a.trades a.events) := by
  simp only [within, unlogged, Surroundings.logged, List.append_nil]

end Account

/-! ## A pass with other priorities -/

namespace StopBook

variable {priority₁ priority₂ : List String} {book after₁ after₂ : StopBook} {bars bars₁ bars₂ : Register Bar}
  {histories histories₁ histories₂ : Register (List Bar)} {triggers₁ triggers₂ : List StopTrigger}

/-- A pass reads the bars and the histories of the stops of the book. -/
private theorem evaluate_congr
    (hbars : ∀ symbol ∈ book.states.symbols, bars₁.find? symbol = bars₂.find? symbol)
    (hhistories : ∀ symbol ∈ book.states.symbols, histories₁.find? symbol = histories₂.find? symbol) :
    (evaluate bars₁ histories₁).commit book = (evaluate bars₂ histories₂).commit book := by
  have hpass : (stopOrder book.states.symbols book.priority).mapM (visit bars₁ histories₁) =
      (stopOrder book.states.symbols book.priority).mapM (visit bars₂ histories₂) := by
    refine mapM_congr fun symbol hm => ?_
    have hstop : symbol ∈ book.states.symbols := (stopOrder_perm _ _).mem_iff.mp hm
    rw [visit, visit, hbars symbol hstop, hhistories symbol hstop]
  rw [evaluate, evaluate, Transition.commit_bind, Transition.commit_bind, Transition.commit_get,
    ok_bind, ok_bind]
  dsimp only
  rw [hpass]

/-- Passes in two orders make the same of every stop, and fire the same stops. -/
private theorem evaluate_withPriority (hn : book.states.symbols.Nodup)
    (h₁ : (evaluate bars histories).commit (book.withPriority priority₁) = .ok (triggers₁, after₁))
    (h₂ : (evaluate bars histories).commit (book.withPriority priority₂) = .ok (triggers₂, after₂)) :
    ∃ after : StopBook, after₁ = after.withPriority priority₁ ∧ after₂ = after.withPriority priority₂ ∧
      triggers₁.Perm triggers₂ := by
  have hp₁ : Passed bars histories (book.withPriority priority₁)
      (stopOrder book.states.symbols priority₁) triggers₁ after₁ := passed_of_evaluate hn h₁
  have hp₂ : Passed bars histories (book.withPriority priority₂)
      (stopOrder book.states.symbols priority₂) triggers₂ after₂ := passed_of_evaluate hn h₂
  -- a pass tests every stop on its own, so symbol by symbol both come to the same
  have hsame : ∀ symbol, after₁.states.find? symbol = after₂.states.find? symbol ∧
      triggers₁.filter (·.symbol = symbol) = triggers₂.filter (·.symbol = symbol) := by
    intro symbol
    have hdone : ∀ priority, symbol ∈ stopOrder book.states.symbols priority ↔
        symbol ∈ book.states.symbols := fun priority => (stopOrder_perm _ priority).mem_iff
    by_cases hm : symbol ∈ book.states.symbols
    · obtain ⟨state, hstate⟩ := Register.exists_find?_iff.mpr hm
      obtain ⟨found, t, htest, hfind, hfilter⟩ := hp₁.tested symbol ((hdone _).mpr hm) state hstate
      obtain ⟨found', t', htest', hfind', hfilter'⟩ :=
        hp₂.tested symbol ((hdone _).mpr hm) state hstate
      cases htest.symm.trans htest'
      exact ⟨hfind.trans hfind'.symm, hfilter.trans hfilter'.symm⟩
    · obtain ⟨hfind, hfilter⟩ := hp₁.untested symbol fun h => hm ((hdone _).mp h)
      obtain ⟨hfind', hfilter'⟩ := hp₂.untested symbol fun h => hm ((hdone _).mp h)
      exact ⟨hfind.trans hfind'.symm, hfilter.trans hfilter'.symm⟩
  have hstates : after₁.states = after₂.states := by
    refine Register.eq_of_find? ?_ (hp₁.symbols.trans hp₂.symbols.symm) fun symbol => (hsame symbol).1
    rw [hp₂.symbols]
    exact hn
  refine ⟨{ book with states := after₂.states }, ?_, ?_, List.perm_iff_count.mpr fun trigger => ?_⟩
  · rw [hp₁.rest, hstates]
    rfl
  · rw [hp₂.rest]
    rfl
  · have hcount : ∀ triggers : List StopTrigger,
        (triggers.filter (·.symbol = trigger.symbol)).count trigger = triggers.count trigger :=
      fun triggers => List.count_filter (decide_eq_true rfl)
    rw [← hcount triggers₁, (hsame trigger.symbol).2, hcount]

/-- Passes that read the same of the market: the order of the priorities does not matter but to the order
of the triggers. -/
theorem evaluate_parallel (hn : book.states.symbols.Nodup)
    (hbars : ∀ symbol ∈ book.states.symbols, bars₁.find? symbol = bars₂.find? symbol)
    (hhistories : ∀ symbol ∈ book.states.symbols, histories₁.find? symbol = histories₂.find? symbol)
    (h₁ : (evaluate bars₁ histories₁).commit (book.withPriority priority₁) = .ok (triggers₁, after₁))
    (h₂ : (evaluate bars₂ histories₂).commit (book.withPriority priority₂) = .ok (triggers₂, after₂)) :
    ∃ after : StopBook, after₁ = after.withPriority priority₁ ∧ after₂ = after.withPriority priority₂ ∧
      triggers₁.Perm triggers₂ ∧ (triggers₁.map (·.symbol)).Nodup ∧
      (priority₁ = priority₂ → triggers₁ = triggers₂) := by
  have hsame : (evaluate bars₁ histories₁).commit (book.withPriority priority₁) =
      (evaluate bars₂ histories₂).commit (book.withPriority priority₁) := evaluate_congr hbars hhistories
  rw [hsame] at h₁
  obtain ⟨after, hafter₁, hafter₂, hperm⟩ := evaluate_withPriority hn h₁ h₂
  refine ⟨after, hafter₁, hafter₂, hperm, ((evaluate_keyed _ _ _).of_ok h₁).nodup hn, ?_⟩
  rintro rfl
  exact congrArg Prod.fst (Except.ok.inj (h₁.symm.trans h₂))

end StopBook
end PortfolioLab
