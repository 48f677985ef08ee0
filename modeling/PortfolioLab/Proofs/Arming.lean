import PortfolioLab.Proofs.FailedPasses
import PortfolioLab.Proofs.NearestCents
import PortfolioLab.Proofs.StopRanges
import PortfolioLab.Proofs.TrueRanges

/-!
# Arming

The check of a multiplier and of a trailing amount looks for numbers that are zero or below, so it lets
infinity and not-a-number through. They are refused only when a stop is to be armed with them. The check of
a fixed fraction excludes both. With a finite number a stop fails to be armed only because an amount leaves
the range, and a fixed one does not fail at all.
-/

namespace PortfolioLab

open Cents (InRange IsPrice)

/-! ## True ranges -/

namespace Bar

structure InRange (b : Bar) : Prop where
  close : Cents.InRange b.close
  opening : ∀ p ∈ b.opening, Cents.InRange p
  high : ∀ p ∈ b.high, Cents.InRange p
  low : ∀ p ∈ b.low, Cents.InRange p

theorem Priced.inRange {b : Bar} (h : b.Priced) : b.InRange :=
  ⟨h.close.inRange, fun p hp => (h.opening p hp).inRange, fun p hp => (h.high p hp).inRange,
    fun p hp => (h.low p hp).inRange⟩

variable {b : Bar} {previous : Option Cents} {history : List Bar}

private theorem sub_le_of_inRange {n m : Int} (hn : Cents.InRange n) (hm : Cents.InRange m) :
    n - m ≤ 2 ^ 64 := by
  have hhigh := (abs_le.mp (Cents.abs_le_of_inRange hn)).2
  have hlow := (abs_le.mp (Cents.abs_le_of_inRange hm)).1
  omega

private theorem abs_sub_le_of_inRange {n m : Int} (hn : Cents.InRange n) (hm : Cents.InRange m) :
    trueRange?.abs (n - m) ≤ 2 ^ 64 := by
  have hup := sub_le_of_inRange hn hm
  have hdown := sub_le_of_inRange hm hn
  unfold trueRange?.abs
  omega

/-- Prices in range are no further apart than the width of a word. -/
theorem trueRange?_le (hb : b.InRange) (hprevious : ∀ p ∈ previous, Cents.InRange p) :
    ∀ r ∈ b.trueRange? previous, r ≤ 2 ^ 64 := by
  intro r hr
  unfold trueRange? at hr
  split at hr
  · next high low p hhigh hlow =>
    rw [← Option.mem_some_iff.mp hr]
    have hp := hprevious p rfl
    exact max_le (sub_le_of_inRange (hb.high _ hhigh) (hb.low _ hlow))
      (max_le (abs_sub_le_of_inRange (hb.high _ hhigh) hp) (abs_sub_le_of_inRange (hb.low _ hlow) hp))
  · next high low hhigh hlow =>
    rw [← Option.mem_some_iff.mp hr]
    exact sub_le_of_inRange (hb.high _ hhigh) (hb.low _ hlow)
  · rw [← Option.mem_some_iff.mp hr]
    exact abs_sub_le_of_inRange hb.close (hprevious _ rfl)
  · cases hr

theorem averageTrueRange_le (hhistory : ∀ b ∈ history, b.InRange) (lookback : Int) :
    ∀ r ∈ averageTrueRange history lookback, r ≤ 2 ^ 64 := by
  intro r hr
  refine averageTrueRange_le_of_forall (Option.mem_def.mp hr) fun range hrange => ?_
  have hfirst : ∀ p ∈ (none : Option Cents), Cents.InRange p := by simp
  refine forall_mem_trueRangesFrom (fun previous => ∀ p ∈ previous, Cents.InRange p)
    (fun b hb _ => trueRange?_le (hhistory b hb)) (fun b hb p hp => ?_) hfirst range
    (mem_of_mem_lastEntries hrange)
  exact Option.mem_some_iff.mp hp ▸ (hhistory b hb).close

end Bar

/-! ## Amounts made with a number -/

namespace Binary64

variable {x : Float} {d : Decimal}

theorem shortest?_of_not_isFinite (h : ¬ x.isFinite) : shortest? x = none := by
  cases hs : shortest? x with
  | none => rfl
  | some d =>
    obtain ⟨dyadic, hdecode, _⟩ := Option.map_eq_some_iff.mp hs
    exact absurd (isFinite_of_decode? hdecode) h

/-- The exponents of doubles keep their decimals far below the sizes that cannot be judged. -/
theorem abs_value_shortest?_le (h : shortest? x = some d) : |d.value| ≤ 10 ^ (400 : ℤ) := by
  obtain ⟨dyadic, hdecode, rfl⟩ := Option.map_eq_some_iff.mp h
  have hmantissa : 4 * dyadic.mantissa + 2 ≤ 2 ^ 55 := by
    have hlt := (regular_of_decode? hdecode).mantissa_lt
    omega
  have hexponent : (2 : ℚ) ^ (dyadic.exponent - 2) ≤ 2 ^ (969 : ℤ) := by
    refine zpow_le_zpow_right₀ (by norm_num) ?_
    have hle := (regular_of_decode? hdecode).le_greatest
    omega
  have htwo : (2 : ℚ) ^ (969 : ℤ) ≤ 10 ^ (323 : ℤ) := by
    have hcubes : (2 : ℚ) ^ (969 : ℤ) = (2 ^ (3 : ℤ)) ^ (323 : ℤ) := by
      rw [← zpow_mul]
      rfl
    rw [hcubes]
    exact zpow_le_zpow_left₀ (by norm_num) (by norm_num) (by norm_num)
  calc |dyadic.shortest.value| ≤ (4 * dyadic.mantissa + 2) * 2 ^ (dyadic.exponent - 2) :=
        dyadic.high_eq ▸ (regular_of_decode? hdecode).abs_shortest_bounds.2
    _ ≤ 10 ^ (77 : ℤ) * 10 ^ (323 : ℤ) := by
        refine mul_le_mul ?_ (hexponent.trans htwo) (by positivity) (by norm_num)
        have hrat : ((4 * dyadic.mantissa + 2 : ℕ) : ℚ) ≤ 2 ^ 55 := by exact_mod_cast hmantissa
        push_cast at hrat
        refine hrat.trans (by norm_num)
    _ = 10 ^ (400 : ℤ) := by rw [← zpow_add₀ (by norm_num)]; norm_num

end Binary64

/-- What the number `x` may make of a computation: as a finite number it lets it fail only for an amount
out of range, and otherwise it is refused. -/
structure UsesNumber {α : Type} (x : Float) (r : Except Failure α) : Prop where
  outOfRange : x.isFinite → ∀ e, r = .error e → ∃ fault, e.surfaced = .outOfRange fault
  refused : ¬ x.isFinite → r = .error (.invalidInput (.nonFiniteAmount (.real x)))

theorem UsesNumber.bind {α β : Type} {x : Float} {r : Except Failure α} {f : α → Except Failure β}
    (h : UsesNumber x r)
    (hf : ∀ a, r = .ok a → ∀ e, f a = .error e → ∃ fault, e.surfaced = .outOfRange fault) :
    UsesNumber x (r >>= f) where
  outOfRange hfinite e he := by
    rcases bind_eq_error.mp he with hr | ⟨a, ha, hlater⟩
    · exact h.outOfRange hfinite e hr
    · exact hf a ha e hlater
  refused hx := by rw [h.refused hx, error_bind]

namespace Money

variable {x : Float} {units : Cents}

theorem surfaced_of_check {n : Int} {e : Failure} (hn : |n| < 10 ^ 100) (h : Cents.check n = .error e) :
    ∃ fault, e.surfaced = .outOfRange fault := by
  unfold Cents.check at h
  split at h
  · cases h
  · cases h
    exact ⟨_, if_pos (isShownInt_of_lt (by decide) hn)⟩

/-- The guard of an amount refuses a double only if it is not finite. -/
private theorem usesNumber_guarded {limit : Nat} {fault : RangeFault}
    {rest : Decimal → Except Failure Cents} (hx : ¬ x < 0) (hpos : 0 < limit) (hlimit : limit + 1 < 10 ^ 28)
    (hfault : fault.isShown = true)
    (hrest : ∀ d : Decimal, |d.value| * 10 ^ (2 : ℤ) < limit + 1 → ∀ e, rest d = .error e →
      ∃ fault, e.surfaced = .outOfRange fault) :
    UsesNumber x (do
      let d ← decimalOf (.real x)
      let size ← magnitude d
      if size.exceeds 2 limit then .error (.outOfRange fault) else rest d) where
  outOfRange hfinite e he := by
    obtain ⟨d, hd, _⟩ := Binary64.shortest?_of_not_lt_zero hfinite hx
    have hsize : |d.value| < 10 ^ (999999 : ℤ) :=
      (Binary64.abs_value_shortest?_le hd).trans_lt (zpow_lt_zpow_right₀ (by norm_num) (by norm_num))
    have hdecimal : decimalOf (.real x) = .ok d := by rw [decimalOf, hd]
    rw [hdecimal, ok_bind, magnitude_of_lt hsize, ok_bind] at he
    split at he
    · cases he
      exact ⟨fault, if_pos hfault⟩
    · next hwithin => exact hrest d (lt_of_not_exceeds hpos hlimit hwithin) e he
  refused hinfinite := by
    rw [decimalOf, Binary64.shortest?_of_not_isFinite hinfinite]
    rfl

theorem usesNumber_toCents (hx : ¬ x < 0) : UsesNumber x (toCents (.real x)) := by
  have hlimit : maxCents.toNat + 100 = 9223372036854775907 := rfl
  unfold toCents
  exact usesNumber_guarded hx (Nat.succ_pos _) (by norm_num [hlimit]) rfl fun d hd e he =>
    surfaced_of_check (abs_scaledInt_lt hd) he

theorem usesNumber_scale (hx : ¬ x < 0) (hunits : |units| < 10 ^ 100) :
    UsesNumber x (scale units (.real x)) := by
  have hlimit : maxCents.toNat = 9223372036854775807 := rfl
  unfold scale
  refine usesNumber_guarded hx (by norm_num [hlimit]) (by norm_num [hlimit]) rfl fun d hd e he => ?_
  by_cases hr : Cents.InRange units
  · rw [scaleBy_of_inRange hr] at he
    exact surfaced_of_check (abs_scaledInt_product_lt hr hd) he
  · have hcheck : Cents.check units = .error (.outOfRange (.cents units)) := if_neg hr
    rw [scaleBy, hcheck, error_bind] at he
    cases he
    exact surfaced_of_check hunits hcheck

/-- A price has a share by any fraction. -/
theorem exists_scale_of_fraction (hunits : IsPrice units) (hpos : 0 < x) (hone : x < 1) :
    ∃ n, scale units (.real x) = .ok n := by
  obtain ⟨d, hd, _⟩ := Binary64.shortest?_of_not_lt_zero (Binary64.isFinite_of_between hpos hone)
    (Binary64.not_lt_zero_of_pos hpos)
  have hlimit : maxCents.toNat = 9223372036854775807 := rfl
  have hfactor : |d.value| ≤ 1 := by
    rw [Decimal.abs_value]
    exact Binary64.size_le_one_of_lt_one hd hpos hone
  have hsmall : |d.value| * 10 ^ (2 : ℤ) ≤ (100 : ℕ) := by
    norm_num
    linarith
  obtain ⟨size, hsize, hle⟩ := magnitude_of_le (by norm_num [sizeDigits]) hsmall
  have hpasses : ¬ size.exceeds 2 maxCents.toNat = true := by
    rw [Decimal.exceeds_iff (by norm_num [hlimit]), not_lt, hlimit]
    refine hle.trans (by norm_num)
  have hnonneg : (0 : ℚ) ≤ units := by exact_mod_cast hunits.nonneg
  have hcast : ((units.toNat : ℕ) : ℚ) = units := by exact_mod_cast Int.toNat_of_nonneg hunits.nonneg
  have hexact : |(d.mul (Decimal.ofInt units)).value| * 10 ^ (0 : ℤ) ≤ (units.toNat : ℕ) := by
    rw [zpow_zero, mul_one, Decimal.value_mul, Decimal.value_ofInt, abs_mul, abs_of_nonneg hnonneg, hcast]
    exact mul_le_of_le_one_left hnonneg hfactor
  have hproduct : |(product units d).value| * 10 ^ (0 : ℤ) ≤ (units.toNat : ℕ) := by
    refine Decimal.roundToDigits_le (by norm_num [productDigits]) ?_ hexact
    calc units.toNat ≤ maxCents.toNat := Int.toNat_le_toNat hunits.le_max
      _ < 10 ^ productDigits := by norm_num [hlimit, productDigits]
  rw [hcast, zpow_zero, mul_one] at hproduct
  have hnear := ((product units d).isNearest_scaledInt 0).abs_intCast_le
  rw [zpow_zero, mul_one] at hnear
  have hshare : |(product units d).scaledInt 0| ≤ units := by
    have hlt : |(((product units d).scaledInt 0 : ℤ) : ℚ)| < units + 1 := by linarith
    exact Int.lt_add_one_iff.mp (by exact_mod_cast hlt)
  have hrange : InRange ((product units d).scaledInt 0) := by
    obtain ⟨hlow, hhigh⟩ := abs_le.mp (hshare.trans hunits.le_max)
    exact ⟨(by decide : minCents ≤ -maxCents).trans hlow, hhigh⟩
  refine ⟨(product units d).scaledInt 0, ?_⟩
  rw [scale, decimalOf, hd, ok_bind, hsize, ok_bind, if_neg hpasses, scaleBy_of_inRange hunits.inRange,
    Cents.check_of_inRange hrange]

end Money

/-! ## Stops -/

/-- The number that the distance of a threshold is made with. -/
def StopKind.number : StopKind → Float
  | fixed fraction => fraction
  | atr multiplier => multiplier
  | trailing amount => amount
  | trailingAtr multiplier => multiplier

theorem StopKind.Usable.not_lt_zero {kind : StopKind} (h : kind.Usable) : ¬ kind.number < 0 := by
  cases kind with
  | fixed fraction => exact Binary64.not_lt_zero_of_pos h.1
  | atr multiplier => exact Binary64.not_lt_zero_of_not_le_zero h
  | trailing amount => exact Binary64.not_lt_zero_of_not_le_zero h
  | trailingAtr multiplier => exact Binary64.not_lt_zero_of_not_le_zero h

namespace StopRule

variable {α : Type} {rule : StopRule} {range : Option Cents}

/-- If the distance is a multiple of a range, then there is a positive one. -/
def Measured (rule : StopRule) (range : Option Cents) : Prop :=
  rule.kind.usesRange = true → ∃ r ∈ range, 0 < r

/-- How it may end for the caller that a stop is armed by a rule. -/
structure Arms (rule : StopRule) (range : Option Cents) (r : Except Failure α) : Prop where
  waits : ¬ rule.Measured range → ∃ a, r = .ok a
  fixed : ∀ fraction, rule.kind = .fixed fraction → ∃ a, r = .ok a
  outOfRange : rule.kind.number.isFinite → ∀ e, r = .error e → ∃ fault, e = .outOfRange fault
  refused : rule.Measured range → ¬ rule.kind.number.isFinite →
    r = .error (.invalidInput (.nonFiniteAmount (.real rule.kind.number)))

theorem Arms.of_usesNumber {r : Except Failure α} (hwaits : ¬ rule.Measured range → ∃ a, r = .ok a)
    (hfixed : ∀ fraction, rule.kind = .fixed fraction → ∃ a, r = .ok a)
    (huses : rule.Measured range → UsesNumber rule.kind.number r) : rule.Arms range (surface r) where
  waits h := by
    obtain ⟨a, rfl⟩ := hwaits h
    exact ⟨a, rfl⟩
  fixed fraction h := by
    obtain ⟨a, rfl⟩ := hfixed fraction h
    exact ⟨a, rfl⟩
  outOfRange hfinite e he := by
    by_cases hmeasured : rule.Measured range
    · cases r with
      | ok a => cases he
      | error cause =>
        cases he
        exact (huses hmeasured).outOfRange hfinite cause rfl
    · obtain ⟨a, rfl⟩ := hwaits hmeasured
      cases he
  refused hmeasured hx := by
    rw [(huses hmeasured).refused hx]
    rfl

/-- What a failed step says about arming is said of any other step that fails so. -/
theorem Arms.of_error {β : Type} {e : Failure} (h : rule.Arms range (.error e : Except Failure α)) :
    rule.Arms range (.error e : Except Failure β) where
  waits hwaits := by
    obtain ⟨_, hok⟩ := h.waits hwaits
    cases hok
  fixed fraction hkind := by
    obtain ⟨_, hok⟩ := h.fixed fraction hkind
    cases hok
  outOfRange hfinite e' he := by
    cases he
    exact h.outOfRange hfinite e rfl
  refused hmeasured hx := by
    cases h.refused hmeasured hx
    rfl

theorem Arms.map {β : Type} {r : Except Failure α} (h : rule.Arms range (surface r)) (f : α → β) :
    rule.Arms range (surface (r >>= fun a => .ok (f a))) := by
  cases r with
  | error e => exact h.of_error
  | ok a =>
    refine ⟨fun _ => ⟨_, rfl⟩, fun _ _ => ⟨_, rfl⟩, fun _ e he => (nomatch he), fun hmeasured hx => ?_⟩
    exact nomatch h.refused hmeasured hx

/-- A rule that needs no range does not look at one. -/
theorem Arms.of_not_usesRange {r : Except Failure α} {other : Option Cents}
    (hrange : rule.kind.usesRange = false) (h : rule.Arms other r) : rule.Arms range r := by
  have hmeasured : ∀ range, rule.Measured range := fun range h => by
    rw [hrange] at h
    cases h
  exact ⟨fun hnone => absurd (hmeasured _) hnone, h.fixed, h.outOfRange, fun _ => h.refused (hmeasured _)⟩

end StopRule

namespace StopState

variable {s : StopState} {x : Float} {reference : Cents} {range : Option Cents}

private theorem usesNumber_place {result : Except Failure Cents} (hresult : UsesNumber x result)
    (hrange : ∀ d, result = .ok d → InRange d) (hreference : IsPrice reference) :
    UsesNumber x (Transition.commit (do
      let distance ← Transition.require result
      setOffset distance
      setBelow reference distance) s) := by
  rw [Transition.commit_bind, Transition.commit_require, bind_assoc]
  refine hresult.bind fun d hd e he => ?_
  rw [ok_bind, setOffset, Transition.commit_bind, Transition.commit_modify, ok_bind, setBelow,
    Transition.commit_bind, Transition.commit_require, bind_assoc] at he
  rcases bind_eq_error.mp he with hcheck | ⟨_, _, hset⟩
  · refine Money.surfaced_of_check ?_ hcheck
    calc |reference - d| ≤ |reference| + |d| := abs_sub reference d
      _ ≤ 2 ^ 63 + 2 ^ 63 :=
        add_le_add (Cents.abs_le_of_inRange hreference.inRange) (Cents.abs_le_of_inRange (hrange d hd))
      _ < 10 ^ 100 := by norm_num
  · cases hset

def placeRange (reference : Cents) (multiplier : Float) (range : Option Cents) :
    Transition StopState Unit :=
  match range with
  | none => pure ()
  | some r =>
    if 0 < r then do
      let distance ← Transition.require (Money.scale r (.real multiplier))
      setOffset distance
      setBelow reference distance
    else pure ()

private theorem placeRange_waits (h : ¬ ∃ r ∈ range, 0 < r) :
    (placeRange reference x range).commit s = .ok ((), s) := by
  cases range with
  | none => rfl
  | some r =>
    have hr : ¬ 0 < r := fun hr => h ⟨r, rfl, hr⟩
    simp only [placeRange, if_neg hr]
    rfl

private theorem usesNumber_placeRange (hx : ¬ x < 0) (hreference : IsPrice reference)
    (hwide : ∀ r ∈ range, r ≤ 2 ^ 64) (h : ∃ r ∈ range, 0 < r) :
    UsesNumber x ((placeRange reference x range).commit s) := by
  obtain ⟨r, hmem, hr⟩ := h
  obtain rfl := Option.mem_def.mp hmem
  simp only [placeRange, if_pos hr]
  refine usesNumber_place (Money.usesNumber_scale hx ?_) (fun d hd => Money.inRange_of_scale hd) hreference
  rw [abs_of_pos hr]
  exact (hwide r hmem).trans_lt (by norm_num)

private theorem arms_placeRange (hnumber : s.rule.kind.number = x) (hrange : s.rule.kind.usesRange = true)
    (hx : ¬ x < 0) (hreference : IsPrice reference) (hwide : ∀ r ∈ range, r ≤ 2 ^ 64) :
    s.rule.Arms range (surface ((placeRange reference x range).commit s)) := by
  refine .of_usesNumber (fun hwaits => ?_) (fun fraction hkind => ?_) fun hmeasured => ?_
  · exact ⟨_, placeRange_waits fun h => hwaits fun _ => h⟩
  · rw [hkind] at hrange
    cases hrange
  · rw [hnumber]
    exact usesNumber_placeRange hx hreference hwide (hmeasured hrange)

/-- A fraction of the entry price is no more than that, so the threshold is in range. -/
private theorem exists_commit_fixed {fraction : Float} (hentry : IsPrice s.entry) (hpos : 0 < fraction)
    (hone : fraction < 1) : ∃ p, Transition.commit (do
      let distance ← Transition.require (Money.scale s.entry (.real fraction))
      let level ← Transition.require (Cents.check (s.entry - distance))
      modify ({ · with threshold := some level })) s = .ok p := by
  obtain ⟨distance, hdistance⟩ := Money.exists_scale_of_fraction hentry hpos hone
  have hlow := Money.times_nonneg hentry.nonneg (Binary64.not_lt_zero_of_pos hpos)
  have hhigh := Money.times_le hentry.nonneg hpos hone
  rw [← Money.scale_eq_times hdistance] at hlow hhigh
  have hlevel : IsPrice (s.entry - distance) :=
    ⟨Int.sub_nonneg_of_le hhigh, (Int.sub_le_self s.entry hlow).trans hentry.le_max⟩
  refine ⟨((), { s with threshold := some (s.entry - distance) }), ?_⟩
  rw [Transition.commit_bind, Transition.commit_require, hdistance, ok_bind, ok_bind, Transition.commit_bind,
    Transition.commit_require, Cents.check_of_inRange hlevel.inRange]
  rfl

/-- A stop in order is armed, or fails to be, as its rule says. -/
theorem arms_arm (hrule : s.rule.Accepted) (hentry : IsPrice s.entry) (hpeak : IsPrice s.peak)
    (hwide : ∀ r ∈ range, r ≤ 2 ^ 64) : s.rule.Arms range (surface ((arm range).commit s)) := by
  have husable := hrule.usable
  have hx := husable.not_lt_zero
  rw [arm, Transition.commit_bind, Transition.commit_get, ok_bind]
  dsimp only
  cases hkind : s.rule.kind with
  | fixed fraction =>
    rw [hkind] at husable
    obtain ⟨p, hp⟩ := exists_commit_fixed hentry husable.1 husable.2
    refine .of_usesNumber (fun _ => ⟨p, hp⟩) (fun _ _ => ⟨p, hp⟩) fun _ => ⟨fun _ e he => ?_, fun hfinite => ?_⟩
    · rw [hp] at he
      cases he
    · rw [hkind] at hfinite
      exact absurd (Binary64.isFinite_of_between husable.1 husable.2) hfinite
  | atr multiplier =>
    have hnumber : s.rule.kind.number = multiplier := by rw [hkind]; rfl
    exact arms_placeRange hnumber (by rw [hkind]; rfl) (hnumber ▸ hx) hentry hwide
  | trailing amount =>
    have hnumber : s.rule.kind.number = amount := by rw [hkind]; rfl
    refine .of_usesNumber (fun hwaits => absurd (fun h => ?_) hwaits) (fun _ h => ?_) fun _ => ?_
    · rw [hkind] at h
      cases h
    · rw [hkind] at h
      cases h
    · rw [hnumber]
      exact usesNumber_place (Money.usesNumber_toCents (hnumber ▸ hx)) (fun d hd => Money.inRange_of_toCents hd)
        hpeak
  | trailingAtr multiplier =>
    have hnumber : s.rule.kind.number = multiplier := by rw [hkind]; rfl
    exact arms_placeRange hnumber (by rw [hkind]; rfl) (hnumber ▸ hx) hpeak hwide

end StopState

namespace StopBook

variable {book : StopBook} {rule : StopRule} {symbol : String} {entry : Cents} {history : List Bar}
  {bars : Register Bar} {histories : Register (List Bar)} {e : Failure}

theorem arms_enter (hrule : book.rules.find? symbol = some rule) (haccepted : rule.Accepted)
    (hentry : IsPrice entry) (hhistory : ∀ b ∈ history, b.InRange) :
    rule.Arms (Bar.averageTrueRange history rule.lookback)
      (surface ((enter symbol entry history).commit book)) := by
  rw [commit_enter, hrule]
  dsimp only
  have harm : ∀ {range : Option Cents}, (∀ r ∈ range, r ≤ 2 ^ 64) →
      rule.Arms range (surface ((StopState.arm range).commit (.fresh rule entry))) := fun hwide =>
    StopState.arms_arm (s := .fresh rule entry) haccepted hentry hentry hwide
  have hnone : ∀ r ∈ (none : Option Cents), r ≤ 2 ^ 64 := by simp
  cases hrange : rule.kind.usesRange with
  | true => exact (harm (Bar.averageTrueRange_le hhistory _)).map _
  | false => exact ((harm hnone).map _).of_not_usesRange hrange

theorem arms_of_failed_pass (hbook : book.Bounded) (hn : book.states.symbols.Nodup)
    (hhistories : ∀ symbol, ∀ b ∈ (histories.find? symbol).getD [], b.InRange)
    (h : (evaluate bars histories).commit book = .error e) :
    ∃ symbol s, book.states.find? symbol = some s ∧ s.threshold = none ∧
      s.rule.Arms (Bar.averageTrueRange ((histories.find? symbol).getD []) s.rule.lookback)
        (.error e.surfaced : Except Failure Unit) := by
  obtain ⟨after, hfails⟩ := Transition.commit_eq_error.mp h
  obtain ⟨_, symbol, _, _, hhalted⟩ := exists_halted hn hfails
  obtain ⟨s, t, hs, harming, _⟩ := hhalted.failed
  have hbounded := hbook.states.of_find? hs
  have hentry : IsPrice s.entry :=
    ⟨hbounded.orderly.entry, hbounded.orderly.peak.trans hbounded.peak⟩
  have harms := StopState.arms_arm hbounded.orderly.accepted hentry hbounded.isPrice_peak
    (Bar.averageTrueRange_le (hhistories symbol) s.rule.lookback)
  rw [Transition.commit_eq_error.mpr ⟨t, harming.arm⟩] at harms
  exact ⟨symbol, s, hs, harming.waits, harms.of_error⟩

/-- A rule that was accepted arms a stop, or waits for a range, unless an amount leaves the range or the
number of the rule is not finite, which only a fixed fraction cannot be; then the number is refused. This
holds when a position is entered and when a stop that waits is armed, and nothing else fails a pass. -/
theorem accepted_rules_arm (haccepted : rule.Accepted) (hhistory : ∀ b ∈ history, b.InRange) :
    (∀ (book : StopBook) symbol entry, book.rules.find? symbol = some rule → IsPrice entry →
      rule.Arms (Bar.averageTrueRange history rule.lookback)
        (surface ((enter symbol entry history).commit book))) ∧
    (∀ s : StopState, s.rule = rule → IsPrice s.entry → IsPrice s.peak →
      rule.Arms (Bar.averageTrueRange history rule.lookback)
        (surface ((StopState.arm (Bar.averageTrueRange history rule.lookback)).commit s))) ∧
    ∀ (book : StopBook) (bars : Register Bar) (histories : Register (List Bar)) (e : Failure),
      book.Bounded → book.states.symbols.Nodup →
      (∀ symbol, ∀ b ∈ (histories.find? symbol).getD [], b.InRange) →
      (evaluate bars histories).commit book = .error e →
      ∃ symbol s, book.states.find? symbol = some s ∧ s.threshold = none ∧
        s.rule.Arms (Bar.averageTrueRange ((histories.find? symbol).getD []) s.rule.lookback)
          (.error e.surfaced : Except Failure Unit) := by
  refine ⟨fun book symbol entry hrule hentry => ?_, fun s hs hentry hpeak => ?_,
    fun book bars histories e hbook hn hhistories h => ?_⟩
  · exact arms_enter hrule haccepted hentry hhistory
  · subst hs
    exact StopState.arms_arm haccepted hentry hpeak (Bar.averageTrueRange_le hhistory _)
  · exact arms_of_failed_pass hbook hn hhistories h

private theorem accepted_mixed : mixedRules.All StopRule.Accepted := by
  have hfraction : (0 : Float) < 0.05 ∧ (0.05 : Float) < 1 := by decide +kernel
  have husable : StopRule.isUsable 1e17 = true := by decide +kernel
  refine Register.all_cons.mpr ⟨⟨.text "fixed", some 0.05, none, none, .int 14, ?_⟩,
    Register.all_cons.mpr ⟨⟨.text "atr", none, some 1e17, none, .int 14, ?_⟩, Register.all_nil⟩⟩
  · simp [StopRule.ofFields, StopRule.kindName, StopRule.kindOf, Value.integer?, hfraction]
  · simp [StopRule.ofFields, StopRule.kindName, StopRule.kindOf, Value.integer?, husable]

private theorem bounded_mixedBook : mixedBook.Bounded := by
  have hentry : IsPrice 10000 := ⟨by decide, by decide⟩
  have hfresh : Bounded { rules := mixedRules } := ⟨accepted_mixed, Register.all_nil⟩
  exact (Transition.commit_mapM_keeps (I := Bounded) (Q := fun _ : Bool => True)
    (fun _ _ _ _ hbook henter => ⟨hbook.enter hentry henter, trivial⟩) hfresh commit_enter_mixedBook).1

def wideBar : Bar := { close := 10000, high := some 10100, low := some 9900 }

private theorem inRange_wideBar : wideBar.InRange := by
  refine ⟨by decide, by simp [wideBar], fun p hp => ?_, fun p hp => ?_⟩
  · rw [← Option.mem_some_iff.mp hp]
    decide
  · rw [← Option.mem_some_iff.mp hp]
    decide

private theorem inRange_mixedHistories (symbol : String) :
    ∀ b ∈ (mixedHistories.find? symbol).getD [], b.InRange := by
  cases hfind : mixedHistories.find? symbol with
  | none => simp
  | some history =>
    have hentry := Register.mem_of_find? hfind
    simp only [mixedHistories, mixedBars, List.map_cons, List.map_nil, List.mem_cons, List.not_mem_nil,
      or_false, Prod.mk.injEq] at hentry
    rcases hentry with ⟨_, rfl⟩ | ⟨_, rfl⟩
    · exact List.forall_mem_singleton.mpr ⟨by decide, by simp, by simp, by simp⟩
    · exact List.forall_mem_singleton.mpr inRange_wideBar

/-- A stop many ranges below the entry price, and a pass over two stops that fails at the one that
waits, whose number is finite. -/
theorem accepted_rules_arm_mixed :
    StopRule.Accepted ⟨.atr 1e17, 14⟩ ∧ wideBar.InRange ∧
    (∀ entry, IsPrice entry → StopRule.Arms ⟨.atr 1e17, 14⟩ (Bar.averageTrueRange [wideBar] 14)
      (surface ((enter "B" entry [wideBar]).commit { rules := mixedRules }))) ∧
    mixedBook.Bounded ∧ ∃ e, (evaluate mixedBars mixedHistories).commit mixedBook = .error e ∧
      ∃ fault, e.surfaced = .outOfRange fault := by
  have haccepted : StopRule.Accepted ⟨.atr 1e17, 14⟩ :=
    (Register.all_cons.mp accepted_mixed).2 _ List.mem_cons_self
  have hbars : ∀ b ∈ [wideBar], b.InRange := List.forall_mem_singleton.mpr inRange_wideBar
  obtain ⟨henter, _, hpass⟩ := accepted_rules_arm haccepted hbars
  refine ⟨haccepted, inRange_wideBar, fun entry hentry => henter _ "B" entry rfl hentry,
    bounded_mixedBook, ?_⟩
  obtain ⟨e, after, hfails, _⟩ := mixedBook_fails
  have hcommit := Transition.commit_eq_error.mpr ⟨after, hfails⟩
  obtain ⟨symbol, s, hs, hwaits, harms⟩ :=
    hpass mixedBook mixedBars mixedHistories e bounded_mixedBook (by decide) inRange_mixedHistories hcommit
  refine ⟨e, hcommit, harms.outOfRange ?_ e.surfaced rfl⟩
  have hstate := Register.mem_of_find? hs
  simp only [mixedBook, List.mem_cons, List.not_mem_nil, or_false, Prod.mk.injEq] at hstate
  rcases hstate with ⟨_, rfl⟩ | ⟨_, rfl⟩
  · cases hwaits
  · change (1e17 : Float).isFinite = true
    decide +kernel

/-- A multiplier that is not a number is accepted, and refused when the first position is entered. A
fraction that is not a number is not accepted. -/
theorem not_a_number_accepted :
    StopRule.ofFields (.text "atr") none (some (0 / 0)) none (.int 14) = .ok ⟨.atr (0 / 0), 14⟩ ∧
      surface ((enter "A" 10000 [wideBar]).commit { rules := [("A", ⟨.atr (0 / 0), 14⟩)] }) =
        .error (.invalidInput (.nonFiniteAmount (.real (0 / 0)))) ∧
      StopRule.ofFields (.text "fixed") (some (0 / 0)) none none (.int 14) =
        .error (.invalidInput .fixedFraction) := by
  have husable : StopRule.isUsable (0 / 0) = true := by decide +kernel
  have hfraction : ¬ (0 : Float) < 0 / 0 := by decide +kernel
  have hmade : StopRule.ofFields (.text "atr") none (some (0 / 0)) none (.int 14) =
      .ok ⟨.atr (0 / 0), 14⟩ := by
    simp [StopRule.ofFields, StopRule.kindName, StopRule.kindOf, Value.integer?, husable]
  refine ⟨hmade, ?_, ?_⟩
  · have hrule : ({ rules := [("A", ⟨.atr (0 / 0), 14⟩)] } : StopBook).rules.find? "A" =
        some ⟨.atr (0 / 0), 14⟩ := rfl
    have hentry : IsPrice 10000 := ⟨by decide, by decide⟩
    have harms := arms_enter hrule ⟨_, _, _, _, _, hmade⟩ hentry
      (List.forall_mem_singleton.mpr inRange_wideBar)
    refine harms.refused (fun _ => ⟨200, by decide, by decide⟩) ?_
    change ¬ (0 / 0 : Float).isFinite = true
    decide +kernel
  · simp [StopRule.ofFields, StopRule.kindName, StopRule.kindOf, Value.integer?, hfraction, refuse]

end StopBook
end PortfolioLab
