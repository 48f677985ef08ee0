import PortfolioLab.Proofs.StopPass
import PortfolioLab.Proofs.Twins

/-!
# Calls on a book

Whoever uses a book enters, tests, releases and closes stops in any order. A call that spares a symbol,
that is, neither enters nor drops its stop, can only test that stop, and only against a bar of the
symbol.
-/

namespace PortfolioLab.StopBook

inductive Call where
  | enter (symbol : String) (entry : Cents) (history : List Bar)
  | evaluate (bars : Register Bar) (histories : Register (List Bar))
  | release (symbol : String)
  | close (symbol : String)

namespace Call

/-- The call as a step on the book; only a pass of tests reports triggers. -/
def apply : Call → Transition StopBook (List StopTrigger)
  | enter symbol entry history => do
    let _ ← StopBook.enter symbol entry history
    return []
  | evaluate bars histories => StopBook.evaluate bars histories
  | release symbol => do
    modify (StopBook.release symbol)
    return []
  | close symbol => do
    let _ ← StopBook.close symbol
    return []

/-- The call neither enters nor drops the stop of this symbol. -/
def Spares (symbol : String) : Call → Prop
  | enter other _ _ => other ≠ symbol
  | evaluate _ _ => True
  | release other => other ≠ symbol
  | close other => other ≠ symbol

def bar? (symbol : String) : Call → Option Bar
  | evaluate bars _ => bars.find? symbol
  | _ => none

def barsOf (symbol : String) (calls : List Call) : List Bar := calls.filterMap (bar? symbol)

/-- The call shows this history of a symbol to the test, with the bar of the test at its end. -/
def Shows (symbol : String) (history : List Bar) : Call → Prop
  | evaluate bars histories =>
    ∀ bar, bars.find? symbol = some bar → histories.find? symbol = some (history ++ [bar])
  | _ => True

/-- The calls show the history of a symbol as it grows bar by bar. -/
def Fed (symbol : String) : List Bar → List Call → Prop
  | _, [] => True
  | history, call :: calls =>
    call.Shows symbol history ∧ Fed symbol (history ++ (call.bar? symbol).toList) calls

theorem barsOf_cons (symbol : String) (call : Call) (calls : List Call) :
    barsOf symbol (call :: calls) = (call.bar? symbol).toList ++ barsOf symbol calls := by
  cases h : call.bar? symbol <;> simp [barsOf, h]

/-- What the call makes of an active stop of this symbol, if it spares it. -/
def testOf (policy : GapPolicy) (symbol : String) (s : StopState) :
    Call → Except Failure (Option Breach × StopState)
  | evaluate bars histories => test policy bars histories symbol s
  | _ => .ok (none, s)

theorem testOf_eq {policy : GapPolicy} {symbol : String} {history : List Bar} {s : StopState}
    {call : Call} (h : call.Shows symbol history) :
    call.testOf policy symbol s = match call.bar? symbol with
      | some bar =>
        if s.status = .active then
          (StopState.observe policy (history ++ [bar]) bar).commit s
        else .ok (none, s)
      | none => .ok (none, s) := by
  cases call with
  | evaluate bars histories =>
    simp only [testOf, test, bar?]
    cases hb : bars.find? symbol with
    | none => rfl
    | some bar =>
      simp only [h bar hb, Option.getD_some]
  | enter other entry past => rfl
  | release other => rfl
  | close other => rfl

structure Tested (call : Call) (symbol : String) (book : StopBook) (s : StopState)
    (report : List StopTrigger) (after : StopBook) : Prop where
  distinct : after.states.symbols.Nodup
  tested : ∃ found t, call.testOf book.policy symbol s = .ok (found, t) ∧
    after.states.find? symbol = some t ∧
    report.filter (·.symbol = symbol) = (triggerOf symbol s found).toList

private theorem tested_of_untouched {call : Call} {symbol : String} {book after : StopBook}
    {s : StopState} (hn : after.states.symbols.Nodup)
    (hcall : call.testOf book.policy symbol s = .ok (none, s))
    (hs : after.states.find? symbol = some s) : Tested call symbol book s [] after :=
  ⟨hn, none, s, hcall, hs, rfl⟩

theorem tested_of_apply {call : Call} {symbol : String} {book after : StopBook} {s : StopState}
    {report : List StopTrigger} (hspares : call.Spares symbol) (hn : book.states.symbols.Nodup)
    (hs : book.states.find? symbol = some s) (h : call.apply.commit book = .ok (report, after)) :
    Tested call symbol book s report after := by
  cases call with
  | enter other entry history =>
    rw [apply, Transition.commit_bind, commit_enter] at h
    obtain ⟨⟨entered, next⟩, henter, h⟩ := bind_eq_ok.mp h
    cases h
    cases hrule : book.rules.find? other with
    | none =>
      simp only [hrule] at henter
      cases henter
      exact tested_of_untouched hn rfl hs
    | some rule =>
      simp only [hrule] at henter
      obtain ⟨p, _, hp⟩ := bind_eq_ok.mp henter
      cases hp
      refine tested_of_untouched (Register.nodup_put hn) rfl ?_
      rw [Register.find?_put_other _ _ fun he => hspares he.symm, hs]
  | evaluate bars histories =>
    have hpassed := passed_of_evaluate hn h
    have hmem : symbol ∈ stopOrder book.states.symbols book.priority :=
      (stopOrder_perm _ _).mem_iff.mpr (Register.exists_find?_iff.mp ⟨s, hs⟩)
    exact ⟨hpassed.symbols ▸ hn, hpassed.tested symbol hmem s hs⟩
  | release other =>
    cases h
    refine tested_of_untouched (Register.nodup_remove hn) rfl ?_
    exact (Register.find?_remove_other _ fun he => hspares he.symm).trans hs
  | close other =>
    rw [apply, Transition.commit_bind] at h
    obtain ⟨⟨closed, next⟩, hclose, h⟩ := bind_eq_ok.mp h
    cases h
    rw [eq_release_of_close hclose]
    refine tested_of_untouched (Register.nodup_remove hn) rfl ?_
    exact (Register.find?_remove_other _ fun he => hspares he.symm).trans hs

end Call
end PortfolioLab.StopBook
