import PortfolioLab.Backtest.Report

/-!
# Sweeps

A sweep applies one task to many independent inputs and returns the results in order; the first
failure ends it. How the tasks are spread over workers does not show in the results, but a pool
that cannot be set up is refused.
-/

namespace PortfolioLab.Sweep

/-- How many workers a sweep may use, and the kind of its pool. -/
structure Workers where
  count : Option Int := none
  pool : String := "process"

def Workers.isInline (w : Workers) : Bool := w.count == some 1

def pools : List String := ["process", "thread"]

/-- Refuse a pool of an unknown kind or without workers. -/
def Workers.check (w : Workers) : Except Failure Unit :=
  if w.isInline then .ok ()
  else if !pools.contains w.pool then refuse (.executor w.pool)
  else
    match w.count with
    | some n => if n ≤ 0 then .error .badValue else .ok ()
    | none => .ok ()

/-- The results of a task on every input, in order. Without inputs no pool is needed. -/
def run {ι ρ : Type} (workers : Workers) (task : ι → Except Failure ρ) (inputs : List ι) :
    Except Failure (List ρ) :=
  if inputs.isEmpty then .ok []
  else do
    workers.check
    inputs.mapM task

end PortfolioLab.Sweep
