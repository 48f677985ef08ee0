import PortfolioLab.Proofs.Amounts
import PortfolioLab.Proofs.Balance
import Mathlib.Algebra.BigOperators.Group.List.Basic

/-!
# What an account is worth

The equity of an account is cash and positions at their last closes, added up one by one in the range of
an amount. Net worth is the same sum without a range: equity is net worth whenever it can be computed,
and a trade at the last close costs the account its fee and nothing else.
-/

namespace PortfolioLab

/-! ## Sums over a register -/

namespace Register

variable {α : Type} {f : String → α → Int} {r : Register α} {symbol : String}

def amount (f : String → α → Int) (r : Register α) : Int := (r.map fun entry => f entry.1 entry.2).sum

def amountOf (f : String → α → Int) (r : Register α) (symbol : String) : Int :=
  ((find? r symbol).map (f symbol)).getD 0

@[simp] theorem amount_nil : amount f [] = 0 := rfl

@[simp] theorem amount_cons (entry : String × α) :
    amount f (entry :: r) = f entry.1 entry.2 + amount f r := by
  simp [amount]

theorem amountOf_cons_same (value : α) : amountOf f ((symbol, value) :: r) symbol = f symbol value := by
  simp [amountOf, find?]

theorem amountOf_cons_other {entry : String × α} (h : entry.1 ≠ symbol) :
    amountOf f (entry :: r) symbol = amountOf f r symbol := by
  simp [amountOf, find?, h]

/-- A value that is put takes the place of the value that its symbol had. -/
theorem amount_put (f : String → α → Int) (r : Register α) (symbol : String) (value : α) :
    amount f (put r symbol value) + amountOf f r symbol = amount f r + f symbol value := by
  induction r with
  | nil => simp [put, amountOf, find?]
  | cons entry rest ih =>
    by_cases hk : entry.1 = symbol
    · obtain ⟨key, old⟩ := entry
      obtain rfl : key = symbol := hk
      simp only [put, if_true, amount_cons, amountOf_cons_same]
      omega
    · simp only [put, hk, if_false, amount_cons, amountOf_cons_other hk]
      omega

theorem amount_remove (f : String → α → Int) (symbol : String) (h : (symbols r).Nodup) :
    amount f (remove r symbol) + amountOf f r symbol = amount f r := by
  induction r with
  | nil => rfl
  | cons entry rest ih =>
    obtain ⟨hnot, hn⟩ := List.nodup_cons.mp h
    by_cases hk : entry.1 = symbol
    · obtain ⟨key, old⟩ := entry
      obtain rfl : key = symbol := hk
      have hrest : amountOf f rest key = 0 := by
        simp [amountOf, find?_eq_none_iff.mpr hnot]
      have hremove := ih hn
      simp only [remove, if_true, amount_cons, amountOf_cons_same]
      omega
    · have hremove := ih hn
      simp only [remove, hk, if_false, amount_cons, amountOf_cons_other hk]
      omega

theorem amount_nonneg (h : ∀ entry ∈ r, 0 ≤ f entry.1 entry.2) : 0 ≤ amount f r := by
  induction r with
  | nil => exact Int.le_refl 0
  | cons entry rest ih =>
    obtain ⟨hentry, hrest⟩ := List.forall_mem_cons.mp h
    rw [amount_cons]
    exact Int.add_nonneg hentry (ih hrest)

end Register

namespace Cents

theorem sum_pair {n m : Int} (hn : InRange n) (hm : InRange m) (hsum : InRange (n + m)) :
    sum [n, m] = .ok (n + m) := by
  simp only [sum, List.mapM_cons, List.mapM_nil, check_of_inRange hn, check_of_inRange hm]
  show check (n + (m + 0)) = _
  rw [Int.add_zero, check_of_inRange hsum]

theorem eq_of_sum_pair {n m s : Int} (h : sum [n, m] = .ok s) : s = n + m := by
  have hs := ((sum_keyed [n, m]).of_ok h).1
  rw [hs]
  show n + (m + 0) = n + m
  rw [Int.add_zero]

end Cents

/-! ## Net worth -/

namespace Account

def valueAt (lastClose : Register Cents) (symbol : String) (position : Position) : Int :=
  position.quantity * (lastClose.find? symbol).getD 0

/-- Cash, and the value of all positions at their last closes, in no range. -/
def netWorth (a : Account) : Int := a.cash + a.positions.amount (valueAt a.lastClose)

def Valued (lastClose : Register Cents) (positions : Register Position) : Prop :=
  ∀ entry ∈ positions, entry.1 ∈ lastClose.symbols ∧
    Cents.InRange (valueAt lastClose entry.1 entry.2)

variable {a a' : Account} {t : Trade} {equity : Cents}

private theorem valueAt_of_find? {lastClose : Register Cents} {symbol : String} {price : Cents}
    (h : lastClose.find? symbol = some price) (position : Position) :
    valueAt lastClose symbol position = position.quantity * price := by
  rw [valueAt, h]
  rfl

/-- An equity that is computed is the net worth, and every value in it is an amount. -/
theorem netWorth_of_equity (h : a.equity = .ok equity) :
    equity = a.netWorth ∧ Valued a.lastClose a.positions := by
  unfold Account.equity at h
  unfold netWorth
  generalize a.cash = start at h ⊢
  generalize a.positions = positions at h ⊢
  induction positions generalizing start with
  | nil =>
    cases h
    exact ⟨(Int.add_zero _).symm, fun _ hm => absurd hm List.not_mem_nil⟩
  | cons entry rest ih =>
    rw [List.foldlM_cons] at h
    obtain ⟨total, hfirst, hrest⟩ := bind_eq_ok.mp h
    obtain ⟨heq, hvalued⟩ := ih total hrest
    cases hprice : a.lastClose.find? entry.1 with
    | none =>
      simp only [hprice] at hfirst
      cases hfirst
    | some price =>
      simp only [hprice] at hfirst
      obtain ⟨value, hvalue, hsum⟩ := bind_eq_ok.mp hfirst
      obtain ⟨rfl, hrange⟩ := Cents.eq_of_check hvalue
      rw [← valueAt_of_find? hprice] at hrange hsum
      refine ⟨?_, List.forall_mem_cons.mpr ⟨⟨?_, hrange⟩, hvalued⟩⟩
      · rw [heq, Cents.eq_of_sum_pair hsum, Register.amount_cons, Int.add_assoc]
      · exact Register.exists_find?_iff.mp ⟨price, hprice⟩

/-- Net worth can be computed as equity if no position has a negative value: the sums on the way lie
between the cash and the whole. -/
theorem equity_eq_netWorth (hvalued : Valued a.lastClose a.positions)
    (hsign : ∀ entry ∈ a.positions, 0 ≤ valueAt a.lastClose entry.1 entry.2)
    (hcash : Cents.InRange a.cash) (hworth : Cents.InRange a.netWorth) :
    a.equity = .ok a.netWorth := by
  unfold Account.equity
  unfold netWorth at hworth ⊢
  generalize a.cash = start at hcash hworth ⊢
  generalize a.positions = positions at hvalued hsign hworth ⊢
  induction positions generalizing start with
  | nil => exact congrArg Except.ok (Int.add_zero _).symm
  | cons entry rest ih =>
    obtain ⟨⟨hm, hrange⟩, hvalued⟩ := List.forall_mem_cons.mp hvalued
    obtain ⟨hpos, hsign⟩ := List.forall_mem_cons.mp hsign
    obtain ⟨price, hprice⟩ := Register.exists_find?_iff.mpr hm
    have hrest := Register.amount_nonneg hsign
    rw [Register.amount_cons, ← Int.add_assoc] at hworth ⊢
    have htotal : Cents.InRange (start + valueAt a.lastClose entry.1 entry.2) :=
      ⟨Int.le_trans hcash.1 (Int.le_add_of_nonneg_right hpos),
        Int.le_trans (Int.le_add_of_nonneg_right hrest) hworth.2⟩
    have hmark : entry.2.marketValue price = .ok (valueAt a.lastClose entry.1 entry.2) := by
      rw [valueAt_of_find? hprice] at hrange ⊢
      exact Cents.check_of_inRange hrange
    rw [List.foldlM_cons]
    simp only [hprice, hmark, ok_bind, Cents.sum_pair hcash hrange htotal]
    exact ih _ htotal hvalued hsign hworth

theorem Posted.netWorth (h : Posted t a a') (ha : a.Long)
    (hprice : a.lastClose.find? t.symbol = some t.price) : a'.netWorth = a.netWorth - t.fee := by
  have hbefore : a.positions.amountOf (valueAt a.lastClose) t.symbol = a.held t.symbol * t.price := by
    rw [Register.amountOf, held]
    cases a.positions.find? t.symbol with
    | none => exact (Int.zero_mul _).symm
    | some position => exact valueAt_of_find? hprice position
  have hafter : a'.positions.amount (valueAt a.lastClose) =
      a.positions.amount (valueAt a.lastClose) + t.quantity * t.price := by
    rcases h.position with ⟨hp, hq⟩ | ⟨p, hp, hq, _⟩
    · have hremove := Register.amount_remove (valueAt a.lastClose) t.symbol ha.distinct
      have hzero := Int.add_mul (a.held t.symbol) t.quantity t.price
      rw [hq, Int.zero_mul] at hzero
      rw [hp]
      omega
    · have hput := Register.amount_put (valueAt a.lastClose) a.positions t.symbol p
      rw [valueAt_of_find? hprice, hq, Int.add_mul] at hput
      rw [hp]
      omega
  rw [Account.netWorth, Account.netWorth, h.lastClose, hafter, h.cash, Trade.outlay]
  omega

end Account
end PortfolioLab
