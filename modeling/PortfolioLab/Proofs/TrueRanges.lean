import PortfolioLab.Proofs.Rounding
import PortfolioLab.Stop.Bar
import Mathlib.Algebra.Order.BigOperators.Group.List
import Mathlib.Data.List.DropRight
import Mathlib.Data.Set.Finite.Lemmas

/-!
# True ranges

A bar after another one has a true range, which looks back to the close before it and no further. So the
last ranges of a history are those of its last bars and need one bar more, whether or not the first bar of a
history has a range of its own. The mean of some ranges, rounded to a cent, lies between zero and the widest.
-/

namespace PortfolioLab.Bar

variable {b : Bar} {previous : Option Cents} {history : List Bar} {lookback : Int} {range : Cents}

/-! ## The range of a bar -/

/-- The close is not below the low and not above the high, where these are recorded. -/
structure ClosesWithin (b : Bar) : Prop where
  low_le_close : ∀ low ∈ b.low, low ≤ b.close
  close_le_high : ∀ high ∈ b.high, b.close ≤ high

theorem ClosesWithin.low_le_high (h : b.ClosesWithin) : ∀ low ∈ b.low, ∀ high ∈ b.high, low ≤ high :=
  fun low hlow high hhigh => (h.low_le_close low hlow).trans (h.close_le_high high hhigh)

theorem length_trueRange? (b : Bar) (p : Cents) : (b.trueRange? (some p)).toList.length = 1 := by
  unfold trueRange?
  cases b.high <;> cases b.low <;> rfl

/-- The range of a bar reaches from the lower of its low and the close before it to the higher of its high
and that close. -/
theorem trueRange?_eq_span {low high : Cents} (hlow : b.low = some low) (hhigh : b.high = some high)
    (hle : low ≤ high) (p : Cents) : b.trueRange? (some p) = some (max high p - min low p) := by
  have hspan : ∀ l h q : Int, l ≤ h →
      max (h - l) (max (trueRange?.abs (h - q)) (trueRange?.abs (l - q))) = max h q - min l q := by
    unfold trueRange?.abs
    omega
  simp only [trueRange?, hlow, hhigh, hspan low high p hle]

theorem trueRange?_nonneg (h : b.ClosesWithin) : ∀ r ∈ b.trueRange? previous, 0 ≤ r := by
  intro r hr
  unfold trueRange? at hr
  split at hr
  · next high low _ hhigh hlow =>
    rw [← Option.mem_some_iff.mp hr]
    exact le_max_of_le_left (sub_nonneg.mpr (h.low_le_high low hlow high hhigh))
  · next high low hhigh hlow =>
    rw [← Option.mem_some_iff.mp hr]
    exact sub_nonneg.mpr (h.low_le_high low hlow high hhigh)
  · rw [← Option.mem_some_iff.mp hr]
    exact Int.natCast_nonneg _
  · cases hr

/-! ## The ranges of a history -/

/-- What holds of the range of every bar of a history holds of all its ranges. -/
theorem forall_mem_trueRangesFrom (start : Option Cents → Prop) {good : Int → Prop}
    (hrange : ∀ b ∈ history, ∀ p, start p → ∀ r ∈ b.trueRange? p, good r)
    (hclose : ∀ b ∈ history, start (some b.close)) (hstart : start previous) :
    ∀ r ∈ trueRangesFrom previous history, good r := by
  induction history generalizing previous with
  | nil => exact fun r hr => absurd hr List.not_mem_nil
  | cons b rest ih =>
    obtain ⟨hb, hrest⟩ := List.forall_mem_cons.mp hrange
    obtain ⟨hfirst, hcloses⟩ := List.forall_mem_cons.mp hclose
    refine List.forall_mem_append.mpr ⟨fun r hr => ?_, ih hrest hcloses hfirst⟩
    exact hb previous hstart r (Option.mem_toList.mp hr)

theorem trueRanges_nonneg (h : ∀ b ∈ history, b.ClosesWithin) : ∀ r ∈ trueRanges history, 0 ≤ r :=
  forall_mem_trueRangesFrom (fun _ => True) (fun b hb _ _ => trueRange?_nonneg (h b hb))
    (fun _ _ => trivial) trivial

/-- Every bar after a close has a range. -/
theorem length_trueRangesFrom (p : Cents) (bars : List Bar) :
    (trueRangesFrom (some p) bars).length = bars.length := by
  induction bars generalizing p with
  | nil => rfl
  | cons b rest ih =>
    rw [trueRangesFrom, List.length_append, length_trueRange?, ih, List.length_cons, Nat.add_comm]

/-- The ranges after a bar depend on its close alone. -/
theorem trueRangesFrom_append (previous : Option Cents) (before : List Bar) (b : Bar) (after : List Bar) :
    trueRangesFrom previous (before ++ b :: after) =
      trueRangesFrom previous (before ++ [b]) ++ trueRangesFrom (some b.close) after := by
  induction before generalizing previous with
  | nil => simp [trueRangesFrom]
  | cons first before ih =>
    simp only [List.cons_append, trueRangesFrom, ih, List.append_assoc]

theorem trueRanges_of_pair {before after : List Bar} {p : Bar} {low high : Cents}
    (hhistory : history = before ++ p :: b :: after) (hlow : b.low = some low) (hhigh : b.high = some high)
    (hle : low ≤ high) : trueRanges history = trueRanges (before ++ [p]) ++
      (max high p.close - min low p.close) :: trueRangesFrom (some b.close) after := by
  rw [hhistory, trueRanges, trueRangesFrom_append, trueRangesFrom, trueRange?_eq_span hlow hhigh hle]
  rfl

/-! ## The last ranges -/

theorem mem_of_mem_lastEntries {ranges : List Int} {r : Int} (h : r ∈ lastEntries lookback ranges) :
    r ∈ ranges := by
  unfold lastEntries at h
  split at h <;> exact List.mem_of_mem_drop h

theorem lastEntries_eq_rtake (hl : 0 < lookback) (ranges : List Int) :
    lastEntries lookback ranges = ranges.rtake lookback.toNat := if_pos hl

/-- The last ranges are those of the last bars and the close before them. -/
theorem rtake_trueRanges (history : List Bar) (n : Nat) :
    (trueRanges history).rtake n = (trueRanges (history.rtake (n + 1))).rtake n := by
  rcases le_or_gt history.length (n + 1) with hshort | hlong
  · rw [List.rtake, List.rtake, List.rtake, Nat.sub_eq_zero_of_le hshort, List.drop_zero]
  · have hlength : (history.rtake (n + 1)).length = n + 1 := by
      rw [List.rtake, List.length_drop]
      omega
    obtain ⟨b, after, hwindow⟩ := List.exists_cons_of_length_eq_add_one hlength
    rw [hwindow, List.length_cons, Nat.add_right_cancel_iff] at hlength
    have hsplit : history = history.rdrop (n + 1) ++ b :: after := by
      rw [← hwindow]
      exact (List.take_append_drop _ _).symm
    -- the ranges of all bars but the first of the window are the last entries on both sides
    have hlast : ∀ ranges : List Int,
        (ranges ++ trueRangesFrom (some b.close) after).rtake n = trueRangesFrom (some b.close) after := by
      intro ranges
      have htail := (length_trueRangesFrom b.close after).trans hlength
      rw [List.rtake, List.length_append, htail, Nat.add_sub_cancel, List.drop_left]
    rw [hwindow, hsplit, trueRanges, trueRangesFrom_append, hlast]
    exact (hlast _).symm

/-! ## The mean of the last ranges -/

theorem total_le {ranges : List Int} {limit : Int} (h : ∀ r ∈ ranges, r ≤ limit) :
    Cents.total ranges ≤ limit * ranges.length := by
  have hsum : ranges.sum ≤ ranges.length • limit := List.sum_le_card_nsmul ranges limit h
  rwa [nsmul_eq_mul, mul_comm] at hsum

theorem averageTrueRange_eq_some_iff (history : List Bar) (lookback : Int) :
    averageTrueRange history lookback = some range ↔
      lastEntries lookback (trueRanges history) ≠ [] ∧
        range = divHalfEven (Cents.total (lastEntries lookback (trueRanges history)))
          (lastEntries lookback (trueRanges history)).length := by
  unfold averageTrueRange
  split
  · next hnone => simp [hnone]
  · next hne =>
    rw [Option.some.injEq]
    exact ⟨fun h => ⟨hne, h.symm⟩, fun h => h.2.symm⟩

theorem averageTrueRange_le_of_forall {limit : Int} (h : averageTrueRange history lookback = some range)
    (hranges : ∀ r ∈ lastEntries lookback (trueRanges history), r ≤ limit) : range ≤ limit := by
  obtain ⟨hne, rfl⟩ := (averageTrueRange_eq_some_iff _ _).mp h
  have hlength := List.length_pos_of_ne_nil hne
  exact divHalfEven_le (by exact_mod_cast hlength) (total_le hranges)

theorem averageTrueRange_nonneg (h : averageTrueRange history lookback = some range)
    (hranges : ∀ r ∈ lastEntries lookback (trueRanges history), 0 ≤ r) : 0 ≤ range := by
  obtain ⟨_, rfl⟩ := (averageTrueRange_eq_some_iff _ _).mp h
  exact divHalfEven_nonneg (List.sum_nonneg hranges) (Int.natCast_nonneg _)

/-- The average over a lookback is that of as many bars and the one before them. In a history of bars that
close within their range, a bar after another one has the range from the lower of its low and the close before
it to the higher of its high and that close, and the average lies between zero and the widest of the ranges
that it is taken over. -/
theorem averageTrueRange_of_window (history : List Bar) (hl : 0 < lookback) :
    averageTrueRange history lookback = averageTrueRange (history.rtake (lookback.toNat + 1)) lookback ∧
    ((∀ b ∈ history, b.ClosesWithin) →
      (∀ before p b after low high, history = before ++ p :: b :: after → b.low = some low →
        b.high = some high → trueRanges history = trueRanges (before ++ [p]) ++
          (max high p.close - min low p.close) :: trueRangesFrom (some b.close) after) ∧
      ∀ range, averageTrueRange history lookback = some range → 0 ≤ range ∧
        ∃ widest, IsGreatest {r | r ∈ (trueRanges history).rtake lookback.toNat} widest ∧
          range ≤ widest) := by
  refine ⟨?_, fun hwithin => ⟨?_, fun range hrange => ?_⟩⟩
  · unfold averageTrueRange
    rw [lastEntries_eq_rtake hl, lastEntries_eq_rtake hl, rtake_trueRanges]
  · intro before p b after low high hhistory hlow hhigh
    have hb : b.ClosesWithin := hwithin b (by simp [hhistory])
    exact trueRanges_of_pair hhistory hlow hhigh (hb.low_le_high low hlow high hhigh)
  · rw [← lastEntries_eq_rtake hl]
    have hne := ((averageTrueRange_eq_some_iff _ _).mp hrange).1
    obtain ⟨widest, hmem, hwidest⟩ :=
      Set.exists_max_image {r | r ∈ lastEntries lookback (trueRanges history)} id
        (List.finite_toSet _) (List.exists_mem_of_ne_nil _ hne)
    refine ⟨averageTrueRange_nonneg hrange fun r hr => ?_, widest, ⟨hmem, hwidest⟩,
      averageTrueRange_le_of_forall hrange hwidest⟩
    exact trueRanges_nonneg hwithin r (mem_of_mem_lastEntries hr)

/-- A bar with a close alone, a wide bar, a move of the close and a gap upwards. -/
def gappedHistory : List Bar :=
  [⟨10000, none, none, none⟩, ⟨10100, none, some 10200, some 9900⟩, ⟨9900, none, none, none⟩,
    ⟨10050, none, some 10105, some 10000⟩]

/-- The last two ranges are the fall of two dollars and the gap of two dollars and five cents. Their mean is a
tie, which goes to the even cent; the bar before them has to be known for the first one. -/
theorem averageTrueRange_of_window_gapped : (0 : Int) < 2 ∧ (∀ b ∈ gappedHistory, b.ClosesWithin) ∧
    averageTrueRange gappedHistory 2 = some 202 ∧
    averageTrueRange gappedHistory 2 = averageTrueRange (gappedHistory.rtake 3) 2 ∧
    trueRanges gappedHistory = trueRanges (gappedHistory.take 3) ++ [max 10105 9900 - min 10000 9900] ∧
    ∃ widest, IsGreatest {r | r ∈ (trueRanges gappedHistory).rtake 2} widest ∧ 202 ≤ widest := by
  have hwithin : ∀ b ∈ gappedHistory, b.ClosesWithin := by
    simp only [gappedHistory, List.forall_mem_cons]
    refine ⟨⟨?_, ?_⟩, ⟨?_, ?_⟩, ⟨?_, ?_⟩, ⟨?_, ?_⟩, fun b hb => absurd hb List.not_mem_nil⟩ <;> simp
  have haverage : averageTrueRange gappedHistory 2 = some 202 := rfl
  obtain ⟨hwindow, hhistory⟩ := averageTrueRange_of_window gappedHistory (by decide : (0 : Int) < 2)
  obtain ⟨hspan, hbounds⟩ := hhistory hwithin
  obtain ⟨_, hwidest⟩ := hbounds 202 haverage
  have hgap := hspan (gappedHistory.take 2) ⟨9900, none, none, none⟩
    ⟨10050, none, some 10105, some 10000⟩ [] 10000 10105 rfl rfl rfl
  exact ⟨by decide, hwithin, haverage, hwindow, hgap, hwidest⟩

end PortfolioLab.Bar
