import PortfolioLab.Proofs.Fractions
import PortfolioLab.Proofs.StopPass

/-!
# Rules that were accepted

The numbers of a rule that was made from fields are in order: a fixed fraction lies between zero and
one, and no other number is zero or below. So the distance of a threshold is not negative, and the
threshold lies between zero and the larger of entry price and best price.
-/

namespace PortfolioLab

def StopKind.Usable : StopKind → Prop
  | fixed fraction => 0 < fraction ∧ fraction < 1
  | atr multiplier => ¬ multiplier ≤ 0
  | trailing amount => ¬ amount ≤ 0
  | trailingAtr multiplier => ¬ multiplier ≤ 0

namespace StopRule

/-- The rule was made from fields. -/
def Accepted (rule : StopRule) : Prop :=
  ∃ kind fraction multiplier offset lookback,
    ofFields kind fraction multiplier offset lookback = .ok rule

variable {rule : StopRule} {entry peak d l : Cents} {distance range : Option Cents}

private theorem not_le_zero_of_isUsable {x : Float} (h : isUsable x = true) : ¬ x ≤ 0 := by
  simpa [isUsable] using h

private theorem usable_of_kindOf {name : String} {fraction multiplier offset : Option Float}
    {kind : StopKind} (h : kindOf name fraction multiplier offset = .ok kind) : kind.Usable := by
  unfold kindOf at h
  split at h
  · split at h
    · split at h
      · next hx =>
        cases h
        simpa [StopKind.Usable] using hx
      · cases h
    · cases h
  · split at h
    · split at h
      · next hx =>
        cases h
        exact not_le_zero_of_isUsable hx
      · cases h
    · cases h
  · split at h
    · split at h
      · next hx =>
        cases h
        exact not_le_zero_of_isUsable hx
      · cases h
    · split at h
      · next hx =>
        cases h
        exact not_le_zero_of_isUsable hx
      · cases h
    · cases h
  · cases h

theorem Accepted.usable (h : rule.Accepted) : rule.kind.Usable := by
  obtain ⟨kind, fraction, multiplier, offset, lookback, h⟩ := h
  obtain ⟨name, _, h⟩ := bind_eq_ok.mp h
  split at h
  · cases h
  · split at h
    · cases h
    · obtain ⟨made, hmade, h⟩ := bind_eq_ok.mp h
      cases h
      exact usable_of_kindOf hmade

theorem Accepted.distance_nonneg (h : rule.Accepted) (hrange : ∀ r ∈ range, 0 ≤ r)
    (hd : rule.distance range = some d) : 0 ≤ d := by
  have husable := h.usable
  unfold StopKind.Usable at husable
  unfold distance at hd
  cases hkind : rule.kind with
  | fixed fraction => simp [hkind] at hd
  | trailing amount =>
    simp only [hkind] at hd husable
    cases hcents : Money.toCents (.real amount) with
    | error e => simp [hcents, Except.toOption] at hd
    | ok n =>
      rw [hcents] at hd
      cases hd
      exact Money.toCents_nonneg (Binary64.not_lt_zero_of_not_le_zero husable) hcents
  | atr multiplier =>
    simp only [hkind] at hd husable
    obtain ⟨r, hr, rfl⟩ := Option.map_eq_some_iff.mp hd
    exact Money.times_nonneg (hrange r hr) (Binary64.not_lt_zero_of_not_le_zero husable)
  | trailingAtr multiplier =>
    simp only [hkind] at hd husable
    obtain ⟨r, hr, rfl⟩ := Option.map_eq_some_iff.mp hd
    exact Money.times_nonneg (hrange r hr) (Binary64.not_lt_zero_of_not_le_zero husable)

private theorem level_bounds_of_below {reference : Cents} (hentry : 0 ≤ entry)
    (hreference : reference ≤ max entry peak) (hd : 0 ≤ d) :
    0 ≤ max (reference - d) 0 ∧ max (reference - d) 0 ≤ max entry peak := by
  have hlow : reference - d ≤ max entry peak := (Int.sub_le_self reference hd).trans hreference
  exact ⟨le_max_right _ _, max_le hlow (hentry.trans (le_max_left _ _))⟩

/-- A threshold lies between zero and the larger of entry price and best price. -/
theorem Accepted.level_bounds (h : rule.Accepted) (hentry : 0 ≤ entry)
    (hdistance : ∀ d ∈ distance, 0 ≤ d) (hl : rule.level entry peak distance = some l) :
    0 ≤ l ∧ l ≤ max entry peak := by
  have husable := h.usable
  unfold StopKind.Usable at husable
  unfold level at hl
  cases hkind : rule.kind with
  | fixed fraction =>
    simp only [hkind, Option.some.injEq] at hl husable
    obtain ⟨hpos, hone⟩ := husable
    have hlow := Money.times_nonneg hentry (Binary64.not_lt_zero_of_pos hpos)
    have hhigh := Money.times_le hentry hpos hone
    rw [← hl]
    exact ⟨Int.sub_nonneg_of_le hhigh, (Int.sub_le_self entry hlow).trans (le_max_left _ _)⟩
  | atr multiplier =>
    simp only [hkind] at hl
    obtain ⟨d, hd, rfl⟩ := Option.map_eq_some_iff.mp hl
    exact level_bounds_of_below hentry (le_max_left _ _) (hdistance d hd)
  | trailing amount =>
    simp only [hkind] at hl
    obtain ⟨d, hd, rfl⟩ := Option.map_eq_some_iff.mp hl
    exact level_bounds_of_below hentry (le_max_right _ _) (hdistance d hd)
  | trailingAtr multiplier =>
    simp only [hkind] at hl
    obtain ⟨d, hd, rfl⟩ := Option.map_eq_some_iff.mp hl
    exact level_bounds_of_below hentry (le_max_right _ _) (hdistance d hd)

end StopRule
end PortfolioLab
