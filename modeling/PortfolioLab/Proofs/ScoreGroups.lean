import PortfolioLab.Proofs.ExactNumbers
import PortfolioLab.Statistics.ScoreSpread

/-!
# Groups of observations in order of their scores

The spread compares the returns before a first cut of the sorted observations with those behind a second one.
Only the order of the scores matters to where an observation comes, and equal scores keep the order in which
they were given. So the order of the observations can show in the spread, but only through equal scores with
different returns on both sides of a cut.
-/

namespace PortfolioLab

open Exact

/-- Observations in ascending order of their scores, equal scores as they were given. -/
noncomputable def byScore (observations : List (ℝ × ℝ)) : List (ℝ × ℝ) :=
  observations.mergeSort fun a b => decide (a.1 ≤ b.1)

noncomputable def spreadOf (observations : List (ℝ × ℝ)) (groups : ℕ) : Exact :=
  groupSpread ((observations.map Prod.fst).map number) ((observations.map Prod.snd).map number) groups

noncomputable def totalBefore (cut : ℕ) (observations : List (ℝ × ℝ)) : ℝ :=
  ((observations.take cut).map Prod.snd).sum

variable {observations other xs ys : List (ℝ × ℝ)} {groups cut : ℕ} {score : ℝ}

/-! ## Sorting by score -/

theorem byScore_perm (observations : List (ℝ × ℝ)) : (byScore observations).Perm observations :=
  List.mergeSort_perm _ _

private theorem le_trans_score (a b c : ℝ × ℝ) (hab : decide (a.1 ≤ b.1) = true)
    (hbc : decide (b.1 ≤ c.1) = true) : decide (a.1 ≤ c.1) = true := by
  simp only [decide_eq_true_eq] at *
  exact hab.trans hbc

private theorem le_total_score (a b : ℝ × ℝ) : (decide (a.1 ≤ b.1) || decide (b.1 ≤ a.1)) = true := by
  simp only [Bool.or_eq_true, decide_eq_true_eq]
  exact le_total a.1 b.1

theorem pairwise_byScore (observations : List (ℝ × ℝ)) :
    (byScore observations).Pairwise fun a b => a.1 ≤ b.1 :=
  (List.pairwise_mergeSort le_trans_score le_total_score observations).imp of_decide_eq_true

theorem byScore_of_pairwise (h : xs.Pairwise fun a b => a.1 ≤ b.1) : byScore xs = xs :=
  List.mergeSort_of_pairwise (h.imp decide_eq_true)

theorem byScore_map_score {f : ℝ → ℝ} (hf : StrictMonoOn f {s | s ∈ observations.map Prod.fst}) :
    byScore (observations.map fun o => (f o.1, o.2)) = (byScore observations).map fun o => (f o.1, o.2) := by
  refine (List.map_mergeSort fun a ha b hb => ?_).symm
  have hle := hf.le_iff_le (List.mem_map_of_mem ha) (List.mem_map_of_mem hb)
  simp only [hle]

/-- Sorting leaves the observations of one score in the order in which they were given. -/
theorem filter_byScore (observations : List (ℝ × ℝ)) (score : ℝ) :
    (byScore observations).filter (·.1 = score) = observations.filter (·.1 = score) := by
  have htied : (observations.filter (·.1 = score)).Pairwise fun a b => decide (a.1 ≤ b.1) = true := by
    refine List.pairwise_of_forall_mem_list fun a ha b hb => ?_
    have ha := of_decide_eq_true (List.mem_filter.mp ha).2
    have hb := of_decide_eq_true (List.mem_filter.mp hb).2
    exact decide_eq_true (ha.trans hb.symm).le
  have hsublist := (List.sublist_mergeSort le_trans_score le_total_score htied List.filter_sublist).filter
    (·.1 = score)
  rw [List.filter_filter] at hsublist
  simp only [Bool.and_self] at hsublist
  exact (hsublist.eq_of_length ((byScore_perm observations).filter _).length_eq.symm).symm

theorem mem_iff_of_filter_eq (h : ∀ score, xs.filter (·.1 = score) = ys.filter (·.1 = score))
    (o : ℝ × ℝ) : o ∈ xs ↔ o ∈ ys := by
  have ho := congrArg (o ∈ ·) (h o.1)
  simpa [List.mem_filter] using ho

/-- Sorted observations are determined by those of each score. -/
theorem eq_of_filter_eq (hxs : xs.Pairwise fun a b => a.1 ≤ b.1) (hys : ys.Pairwise fun a b => a.1 ≤ b.1)
    (h : ∀ score, xs.filter (·.1 = score) = ys.filter (·.1 = score)) : xs = ys := by
  induction xs generalizing ys with
  | nil =>
    cases ys with
    | nil => rfl
    | cons y ys => exact absurd ((mem_iff_of_filter_eq h y).mpr List.mem_cons_self) List.not_mem_nil
  | cons x xs ih =>
    cases ys with
    | nil => exact absurd ((mem_iff_of_filter_eq h x).mp List.mem_cons_self) List.not_mem_nil
    | cons y ys =>
      obtain ⟨hx, hxs'⟩ := List.pairwise_cons.mp hxs
      obtain ⟨hy, hys'⟩ := List.pairwise_cons.mp hys
      -- both lists start with the least score
      have hxy : x.1 ≤ y.1 := by
        rcases List.mem_cons.mp ((mem_iff_of_filter_eq h y).mpr List.mem_cons_self) with rfl | hm
        · exact le_refl _
        · exact hx y hm
      have hyx : y.1 ≤ x.1 := by
        rcases List.mem_cons.mp ((mem_iff_of_filter_eq h x).mp List.mem_cons_self) with rfl | hm
        · exact le_refl _
        · exact hy x hm
      have hscore : y.1 = x.1 := le_antisymm hyx hxy
      have hfirst := h x.1
      simp only [List.filter_cons, hscore, decide_true, if_true, List.cons.injEq] at hfirst
      obtain ⟨rfl, hrest⟩ := hfirst
      congr 1
      refine ih hxs' hys' fun score => ?_
      by_cases hs : x.1 = score
      · rwa [← hs]
      · have hboth := h score
        simpa only [List.filter_cons, hs, decide_false, Bool.false_eq_true, if_false] using hboth

/-! ## The spread by its cuts -/

theorem sortByScore_number (observations : List (ℝ × ℝ)) :
    sortByScore ((observations.map Prod.fst).map number) ((observations.map Prod.snd).map number) =
      ((byScore observations).map Prod.snd).map number := by
  have hzip : ((observations.map Prod.fst).map number).zip ((observations.map Prod.snd).map number) =
      observations.map fun o => (number o.1, number o.2) := by
    rw [List.map_map, List.map_map, List.zip_map']
    rfl
  have hsort : (observations.map fun o => (number o.1, number o.2)).mergeSort
      (fun a b => decide (a.1 ≤ b.1) || !decide (b.1 ≤ b.1)) =
        (byScore observations).map fun o => (number o.1, number o.2) := by
    refine (List.map_mergeSort fun a _ b _ => ?_).symm
    simp
  rw [sortByScore, hzip, hsort, List.map_map, List.map_map]
  rfl

theorem totalBefore_length_le (h : xs.length ≤ cut) : totalBefore cut xs = (xs.map Prod.snd).sum := by
  rw [totalBefore, List.take_of_length_le h]

/-- The spread is what the returns in total exceed those before both cuts by, over the size of a group. -/
theorem spreadOf_eq (hgroups : 0 < groups) (hcount : groups ≤ observations.length) :
    spreadOf observations groups =
      number (((observations.map Prod.snd).sum -
        totalBefore (observations.length - observations.length / groups) (byScore observations) -
        totalBefore (observations.length / groups) (byScore observations)) /
          (observations.length / groups : ℕ)) := by
  have hsize : 0 < observations.length / groups := Nat.div_pos hcount hgroups
  have hle : observations.length / groups ≤ observations.length := Nat.div_le_self _ _
  have hlength : (byScore observations).length = observations.length := (byScore_perm observations).length_eq
  generalize hs : observations.length / groups = size at hsize hle
  have htop : (((byScore observations).map Prod.snd).drop (observations.length - size)).length = size := by
    rw [List.length_drop, List.length_map, hlength]
    omega
  have hbottom : (((byScore observations).map Prod.snd).take size).length = size := by
    rw [List.length_take, List.length_map, hlength, min_eq_left hle]
  have hsplit : (observations.map Prod.snd).sum =
      totalBefore (observations.length - size) (byScore observations) +
        (((byScore observations).map Prod.snd).drop (observations.length - size)).sum := by
    rw [totalBefore, List.map_take, ← List.sum_append, List.take_append_drop]
    exact ((byScore_perm observations).symm.map _).sum_eq
  have hne : ∀ {zs : List ℝ}, zs.length = size → zs ≠ [] := by
    rintro zs h rfl
    exact hsize.ne h
  rw [spreadOf, groupSpread, sortByScore_number]
  simp only [List.length_map, hlength, hs]
  rw [← List.map_drop, ← List.map_take, mean_number (hne htop), mean_number (hne hbottom), number_sub, htop,
    hbottom, ← sub_div, hsplit, totalBefore, totalBefore, List.map_take, List.map_take]
  congr 2
  ring

/-! ## Ties at a cut -/

/-- Sorted observations are those of lesser scores, then those of a score, then those of greater ones. -/
theorem eq_filters_of_pairwise (h : xs.Pairwise fun a b => a.1 ≤ b.1) (score : ℝ) :
    xs = xs.filter (·.1 < score) ++ xs.filter (·.1 = score) ++ xs.filter (score < ·.1) := by
  induction xs with
  | nil => rfl
  | cons x rest ih =>
    obtain ⟨hx, hrest⟩ := List.pairwise_cons.mp h
    have hlower : score ≤ x.1 → rest.filter (·.1 < score) = [] := fun hle =>
      List.filter_eq_nil_iff.mpr fun a ha => by simpa using hle.trans (hx a ha)
    have htied : score < x.1 → rest.filter (·.1 = score) = [] := fun hlt =>
      List.filter_eq_nil_iff.mpr fun a ha => by simpa using (hlt.trans_le (hx a ha)).ne'
    have ih := ih hrest
    rcases lt_trichotomy x.1 score with hlt | heq | hgt
    · simpa [hlt, hlt.ne, hlt.not_gt] using ih
    · rw [hlower heq.ge] at ih
      simpa [heq, hlower heq.ge] using ih
    · rw [hlower hgt.le, htied hgt] at ih
      simpa [hgt.not_gt, hgt.ne', hgt, hlower hgt.le, htied hgt] using ih

noncomputable def countBelow (observations : List (ℝ × ℝ)) (score : ℝ) : ℕ :=
  observations.countP (·.1 < score)

noncomputable def countUpTo (observations : List (ℝ × ℝ)) (score : ℝ) : ℕ :=
  observations.countP (·.1 ≤ score)

/-- Equal scores on both sides of a cut have equal returns. -/
def TiesAgree (observations : List (ℝ × ℝ)) (cut : ℕ) : Prop :=
  ∀ score, countBelow observations score < cut → cut < countUpTo observations score →
    ∀ a ∈ observations, ∀ b ∈ observations, a.1 = score → b.1 = score → a.2 = b.2

/-- Observations in order, in three parts: those of lesser scores than a given one, of it and of greater
ones. -/
structure AroundScore (observations : List (ℝ × ℝ)) (score : ℝ) (before tied behind : List (ℝ × ℝ)) :
    Prop where
  perm : (before ++ tied ++ behind).Perm observations
  ascendingBefore : before.Pairwise fun a b => a.1 ≤ b.1
  ascendingBehind : behind.Pairwise fun a b => a.1 ≤ b.1
  lower : ∀ o ∈ before, o.1 < score
  equal : ∀ o ∈ tied, o.1 = score
  higher : ∀ o ∈ behind, score < o.1

theorem aroundScore_filters (hxs : xs.Pairwise fun a b => a.1 ≤ b.1) (h : xs.Perm observations) (score : ℝ) :
    AroundScore observations score (xs.filter (·.1 < score)) (xs.filter (·.1 = score))
      (xs.filter (score < ·.1)) where
  perm := eq_filters_of_pairwise hxs score ▸ h
  ascendingBefore := hxs.filter _
  ascendingBehind := hxs.filter _
  lower _ ho := of_decide_eq_true (List.mem_filter.mp ho).2
  equal _ ho := of_decide_eq_true (List.mem_filter.mp ho).2
  higher _ ho := of_decide_eq_true (List.mem_filter.mp ho).2

namespace AroundScore

variable {before tied tied' behind : List (ℝ × ℝ)}

theorem pairwise (h : AroundScore observations score before tied behind) :
    (before ++ tied ++ behind).Pairwise fun a b => a.1 ≤ b.1 := by
  have htied : tied.Pairwise fun a b => a.1 ≤ b.1 :=
    List.pairwise_of_forall_mem_list fun a ha b hb => ((h.equal a ha).trans (h.equal b hb).symm).le
  rw [List.append_assoc, List.pairwise_append, List.pairwise_append]
  refine ⟨h.ascendingBefore, ⟨htied, h.ascendingBehind, fun a ha b hb => ?_⟩, fun a ha b hb => ?_⟩
  · exact (h.equal a ha).le.trans (h.higher b hb).le
  · rcases List.mem_append.mp hb with hb | hb
    · exact (h.lower a ha).le.trans (h.equal b hb).ge
    · exact (h.lower a ha).le.trans (h.higher b hb).le

/-- The observations of the score may stand in any order. -/
theorem rearrange (h : AroundScore observations score before tied behind) (htied : tied'.Perm tied) :
    AroundScore observations score before tied' behind :=
  ⟨((htied.append_left before).append_right behind).trans h.perm, h.ascendingBefore, h.ascendingBehind,
    h.lower, fun o ho => h.equal o (htied.mem_iff.mp ho), h.higher⟩

theorem mem_tied (h : AroundScore observations score before tied behind) {o : ℝ × ℝ} (ho : o ∈ observations)
    (hs : o.1 = score) : o ∈ tied := by
  rw [← h.perm.mem_iff, List.mem_append, List.mem_append] at ho
  rcases ho with (ho | ho) | ho
  · exact absurd hs (h.lower o ho).ne
  · exact ho
  · exact absurd hs (h.higher o ho).ne'

theorem length_before (h : AroundScore observations score before tied behind) :
    before.length = countBelow observations score := by
  have hbefore : before.countP (·.1 < score) = before.length :=
    List.countP_eq_length.mpr fun o ho => decide_eq_true (h.lower o ho)
  have htied : tied.countP (·.1 < score) = 0 :=
    List.countP_eq_zero.mpr fun o ho => by simpa using (h.equal o ho).ge
  have hbehind : behind.countP (·.1 < score) = 0 :=
    List.countP_eq_zero.mpr fun o ho => by simpa using (h.higher o ho).le
  rw [countBelow, ← h.perm.countP_eq, List.countP_append, List.countP_append, hbefore, htied, hbehind,
    Nat.add_zero]

theorem length_tied (h : AroundScore observations score before tied behind) :
    before.length + tied.length = countUpTo observations score := by
  have hbefore : before.countP (·.1 ≤ score) = before.length :=
    List.countP_eq_length.mpr fun o ho => decide_eq_true (h.lower o ho).le
  have htied : tied.countP (·.1 ≤ score) = tied.length :=
    List.countP_eq_length.mpr fun o ho => decide_eq_true (h.equal o ho).le
  have hbehind : behind.countP (·.1 ≤ score) = 0 :=
    List.countP_eq_zero.mpr fun o ho => by simpa using h.higher o ho
  rw [countUpTo, ← h.perm.countP_eq, List.countP_append, List.countP_append, hbefore, htied, hbehind,
    Nat.add_zero]

/-- The returns before a cut through the observations of the score. -/
theorem totalBefore_eq (h : AroundScore observations score before tied behind)
    (hlow : countBelow observations score ≤ cut) (hhigh : cut ≤ countUpTo observations score) :
    totalBefore cut (before ++ tied ++ behind) =
      (before.map Prod.snd).sum + totalBefore (cut - countBelow observations score) tied := by
  rw [← h.length_before] at hlow ⊢
  rw [← h.length_tied] at hhigh
  rw [totalBefore, List.append_assoc, List.take_append, List.take_of_length_le hlow,
    List.take_append_of_le_length (by omega), List.map_append, List.sum_append, totalBefore]

end AroundScore

/-- Every cut that leaves something before it goes through or just behind the observations of some score. -/
theorem exists_score_at (hpos : 0 < cut) (hcut : cut ≤ observations.length) :
    ∃ score, countBelow observations score < cut ∧ cut ≤ countUpTo observations score := by
  have hperm := byScore_perm observations
  obtain ⟨before, last, behind, hsplit, hbefore⟩ : ∃ before last behind,
      byScore observations = before ++ last :: behind ∧ before.length = cut - 1 := by
    have hlast : cut - 1 < (byScore observations).length := by
      rw [hperm.length_eq]
      omega
    have hsplit := List.take_append_drop (cut - 1) (byScore observations)
    rw [List.drop_eq_getElem_cons hlast] at hsplit
    exact ⟨_, _, _, hsplit.symm, by rw [List.length_take, min_eq_left hlast.le]⟩
  have hsorted := pairwise_byScore observations
  rw [hsplit, List.pairwise_append, List.pairwise_cons] at hsorted
  obtain ⟨_, ⟨hbehind, _⟩, hacross⟩ := hsorted
  rw [hsplit] at hperm
  refine ⟨last.1, ?_, ?_⟩
  · have hnone : (last :: behind).countP (·.1 < last.1) = 0 := by
      rw [List.countP_eq_zero, List.forall_mem_cons]
      exact ⟨by simp, fun o ho => by simpa using hbehind o ho⟩
    have hle := List.countP_le_length (p := fun o : ℝ × ℝ => decide (o.1 < last.1)) (l := before)
    rw [countBelow, ← hperm.countP_eq, List.countP_append, hnone]
    omega
  · have hall : before.countP (·.1 ≤ last.1) = before.length := by
      rw [List.countP_eq_length]
      intro o ho
      simpa using hacross o ho last List.mem_cons_self
    rw [countUpTo, ← hperm.countP_eq, List.countP_append, hall, List.countP_cons_of_pos (by simp)]
    omega

/-- The returns of some of equal observations: all of them, or observations with equal returns. -/
theorem totalBefore_perm (h : xs.Perm ys) (hxs : xs.length ≤ cut ∨ ∀ a ∈ xs, ∀ b ∈ xs, a.2 = b.2) :
    totalBefore cut xs = totalBefore cut ys := by
  rcases hxs with hall | htied
  · rw [totalBefore_length_le hall, totalBefore_length_le (h.length_eq ▸ hall), (h.map _).sum_eq]
  · cases xs with
    | nil => rw [List.nil_perm.mp h]
    | cons x rest =>
      have hconst : ∀ zs : List (ℝ × ℝ), zs.Perm (x :: rest) →
          (zs.take cut).map Prod.snd = List.replicate (min cut zs.length) x.2 := by
        intro zs hzs
        refine List.eq_replicate_iff.mpr ⟨by rw [List.length_map, List.length_take], fun r hr => ?_⟩
        obtain ⟨o, ho, rfl⟩ := List.mem_map.mp hr
        exact htied o (hzs.mem_iff.mp (List.mem_of_mem_take ho)) x List.mem_cons_self
      rw [totalBefore, totalBefore, hconst _ (.refl _), hconst _ h.symm, h.length_eq]

/-- Where equal scores on both sides of a cut have equal returns, the returns before it do not depend on how
equal scores are arranged. -/
theorem totalBefore_congr (hties : TiesAgree observations cut) (hcut : cut ≤ observations.length)
    (hxs : xs.Pairwise fun a b => a.1 ≤ b.1) (hys : ys.Pairwise fun a b => a.1 ≤ b.1)
    (hx : xs.Perm observations) (hy : ys.Perm observations) : totalBefore cut xs = totalBefore cut ys := by
  rcases Nat.eq_zero_or_pos cut with rfl | hpos
  · rfl
  · obtain ⟨score, hlow, hhigh⟩ := exists_score_at hpos hcut
    have hxparts := aroundScore_filters hxs hx score
    have hyparts := aroundScore_filters hys hy score
    have htied := (hx.trans hy.symm).filter (·.1 = score)
    have hlower := ((hx.trans hy.symm).filter (·.1 < score)).map Prod.snd
    have hagree : (xs.filter (·.1 = score)).length ≤ cut - countBelow observations score ∨
        ∀ a ∈ xs.filter (·.1 = score), ∀ b ∈ xs.filter (·.1 = score), a.2 = b.2 := by
      rcases hhigh.lt_or_eq with hinside | hbehind
      · refine .inr fun a ha b hb => ?_
        exact hties score hlow hinside a (hx.mem_iff.mp (List.mem_filter.mp ha).1) b
          (hx.mem_iff.mp (List.mem_filter.mp hb).1) (hxparts.equal a ha) (hxparts.equal b hb)
      · left
        rw [hbehind, ← hxparts.length_tied, ← hxparts.length_before]
        omega
    rw [eq_filters_of_pairwise hxs score, eq_filters_of_pairwise hys score,
      hxparts.totalBefore_eq hlow.le hhigh, hyparts.totalBefore_eq hlow.le hhigh, hlower.sum_eq,
      totalBefore_perm htied hagree]

/-- Changing places moves returns across the cuts between two observations, and across no others. -/
theorem totalBefore_swap (before between behind : List (ℝ × ℝ)) (a b : ℝ × ℝ) (cut : ℕ) :
    totalBefore cut (before ++ a :: (between ++ [b]) ++ behind) -
        totalBefore cut (before ++ b :: (between ++ [a]) ++ behind) =
      if before.length < cut ∧ cut < before.length + (between.length + 2) then a.2 - b.2 else 0 := by
  simp only [List.append_assoc, List.cons_append, List.nil_append]
  by_cases hfirst : cut ≤ before.length
  · rw [if_neg (by omega), totalBefore, totalBefore, List.take_append_of_le_length hfirst,
      List.take_append_of_le_length hfirst, sub_self]
  · obtain ⟨k, rfl⟩ : ∃ k, cut = before.length + (k + 1) := ⟨cut - before.length - 1, by omega⟩
    simp only [totalBefore, List.take_length_add_append, List.take_succ_cons, List.map_append, List.map_cons,
      List.sum_append, List.sum_cons]
    by_cases hinside : k ≤ between.length
    · rw [if_pos (by omega), List.take_append_of_le_length hinside, List.take_append_of_le_length hinside]
      ring
    · obtain ⟨j, rfl⟩ : ∃ j, k = between.length + (j + 1) := ⟨k - between.length - 1, by omega⟩
      rw [if_neg (by omega)]
      simp only [List.take_length_add_append, List.take_succ_cons, List.map_append, List.map_cons,
        List.sum_append, List.sum_cons]
      ring

/-- If no rearrangement shows in the spread, equal scores on both sides of a cut have equal returns: two
observations of one score may stand first and last among those of that score, and may change places. -/
theorem tiesAgree_of_invariant (hgroups : 0 < groups) (hcount : groups ≤ observations.length)
    (h : ∀ other : List (ℝ × ℝ), other.Perm observations → spreadOf other groups = spreadOf observations groups)
    (hcut : cut = observations.length / groups ∨
      cut = observations.length - observations.length / groups) : TiesAgree observations cut := by
  intro score hlow hhigh a ha b hb hsa hsb
  by_contra hne
  have hparts := aroundScore_filters (pairwise_byScore observations) (byScore_perm observations) score
  generalize (byScore observations).filter (·.1 < score) = before at hparts
  generalize (byScore observations).filter (·.1 = score) = tied at hparts
  generalize (byScore observations).filter (score < ·.1) = behind at hparts
  obtain ⟨between, hends⟩ : ∃ between, tied.Perm (a :: (between ++ [b])) := by
    have hfirst := List.perm_cons_erase (hparts.mem_tied ha hsa)
    have hlast : b ∈ tied.erase a :=
      (List.mem_erase_of_ne fun hba => hne (congrArg Prod.snd hba).symm).mpr (hparts.mem_tied hb hsb)
    refine ⟨(tied.erase a).erase b, hfirst.trans (.cons a ?_)⟩
    exact (List.perm_cons_erase hlast).trans (List.perm_append_singleton b _).symm
  have hexchange : (b :: (between ++ [a])).Perm (a :: (between ++ [b])) :=
    ((List.perm_append_singleton a between).cons b).trans
      ((List.Perm.swap a b between).trans ((List.perm_append_singleton b between).symm.cons a))
  have hab := hparts.rearrange hends.symm
  have hba := hab.rearrange hexchange
  have hinside : before.length < cut ∧ cut < before.length + (between.length + 2) := by
    rw [← hab.length_before] at hlow
    rw [← hab.length_tied] at hhigh
    exact ⟨hlow, by simpa using hhigh⟩
  have hsize : ((observations.length / groups : ℕ) : ℝ) ≠ 0 :=
    Nat.cast_ne_zero.mpr (Nat.div_pos hcount hgroups).ne'
  have hsame := (h _ hab.perm).trans (h _ hba.perm).symm
  rw [spreadOf_eq hgroups (by rwa [hab.perm.length_eq]), spreadOf_eq hgroups (by rwa [hba.perm.length_eq]),
    hab.perm.length_eq, hba.perm.length_eq, byScore_of_pairwise hab.pairwise,
    byScore_of_pairwise hba.pairwise, (hab.perm.map _).sum_eq, (hba.perm.map _).sum_eq, number.injEq,
    div_left_inj' hsize] at hsame
  have hbottom := totalBefore_swap before between behind a b (observations.length / groups)
  have htop := totalBefore_swap before between behind a b
    (observations.length - observations.length / groups)
  -- the two cuts move the same returns, if they move any
  rcases hcut with rfl | rfl
  · rw [if_pos hinside] at hbottom
    split at htop <;> exact hne (by linarith)
  · rw [if_pos hinside] at htop
    split at hbottom <;> exact hne (by linarith)

/-- The spread of groups is defined and depends on the order of the scores only: it is the same under every
strictly increasing change of the scores. It is also the same in every order of the observations that leaves
equal scores as they come, and in every order at all exactly if equal scores on both sides of a cut, behind
the bottom group or before the top one, have equal returns. -/
theorem spread_of_rearranged_observations (hgroups : 0 < groups) (hcount : groups ≤ observations.length) :
    (∃ v, spreadOf observations groups = number v) ∧
    (∀ f : ℝ → ℝ, StrictMonoOn f {s | s ∈ observations.map Prod.fst} →
      spreadOf (observations.map fun o => (f o.1, o.2)) groups = spreadOf observations groups) ∧
    (∀ other : List (ℝ × ℝ), other.Perm observations →
      (∀ score, other.filter (·.1 = score) = observations.filter (·.1 = score)) →
        spreadOf other groups = spreadOf observations groups) ∧
    ((∀ other : List (ℝ × ℝ), other.Perm observations →
        spreadOf other groups = spreadOf observations groups) ↔
      TiesAgree observations (observations.length / groups) ∧
        TiesAgree observations (observations.length - observations.length / groups)) := by
  have hspread := fun {zs : List (ℝ × ℝ)} (h : zs.Perm observations) =>
    spreadOf_eq hgroups (show groups ≤ zs.length by rwa [h.length_eq])
  refine ⟨⟨_, hspread (.refl _)⟩, fun f hf => ?_, fun other hother hfilter => ?_, ?_⟩
  · have hreturns : ∀ zs : List (ℝ × ℝ), (zs.map fun o => (f o.1, o.2)).map Prod.snd = zs.map Prod.snd := by
      intro zs
      rw [List.map_map]
      rfl
    rw [hspread (.refl _), spreadOf_eq hgroups (by rwa [List.length_map]), List.length_map,
      byScore_map_score hf, hreturns]
    simp only [totalBefore, ← List.map_take, hreturns]
  · have hsorted : byScore other = byScore observations := by
      refine eq_of_filter_eq (pairwise_byScore other) (pairwise_byScore observations) fun score => ?_
      rw [filter_byScore, filter_byScore, hfilter]
    rw [hspread (.refl _), hspread hother, hother.length_eq, hsorted, (hother.map _).sum_eq]
  · constructor
    · intro h
      exact ⟨tiesAgree_of_invariant hgroups hcount h (.inl rfl),
        tiesAgree_of_invariant hgroups hcount h (.inr rfl)⟩
    · rintro ⟨hbottom, htop⟩ other hother
      have hcongr : ∀ cut, cut ≤ observations.length → TiesAgree observations cut →
          totalBefore cut (byScore other) = totalBefore cut (byScore observations) := fun cut hcut hties =>
        totalBefore_congr hties hcut (pairwise_byScore other) (pairwise_byScore observations)
          ((byScore_perm other).trans hother) (byScore_perm observations)
      rw [hspread (.refl _), hspread hother, hother.length_eq, (hother.map _).sum_eq,
        hcongr _ (Nat.div_le_self _ _) hbottom, hcongr _ (Nat.sub_le _ _) htop]

/-- Two groups of four observations, of which the equal scores are in one group: their order does not show. -/
theorem spread_of_rearranged_observations_tie_in_group :
    0 < 2 ∧ 2 ≤ ([(1, 3), (2, 5), (1, 4), (6, 8)] : List (ℝ × ℝ)).length ∧
    TiesAgree [(1, 3), (2, 5), (1, 4), (6, 8)] 2 ∧
    spreadOf [(6, 8), (1, 4), (2, 5), (1, 3)] 2 = spreadOf [(1, 3), (2, 5), (1, 4), (6, 8)] 2 := by
  have hties : TiesAgree [(1, 3), (2, 5), (1, 4), (6, 8)] 2 := by
    have htied : ∀ a ∈ ([(1, 3), (2, 5), (1, 4), (6, 8)] : List (ℝ × ℝ)),
        ∀ b ∈ ([(1, 3), (2, 5), (1, 4), (6, 8)] : List (ℝ × ℝ)), a.1 = b.1 → a.1 = 1 ∨ a.2 = b.2 := by
      norm_num
    intro score _ hhigh a ha b hb hsa hsb
    rcases htied a ha b hb (hsa.trans hsb.symm) with hone | hreturn
    · rw [← hsa, hone] at hhigh
      norm_num [countUpTo] at hhigh
    · exact hreturn
  have hperm : ([(6, 8), (1, 4), (2, 5), (1, 3)] : List (ℝ × ℝ)).Perm [(1, 3), (2, 5), (1, 4), (6, 8)] :=
    List.reverse_perm [(1, 3), (2, 5), (1, 4), (6, 8)]
  refine ⟨two_pos, by simp, hties, ?_⟩
  exact (spread_of_rearranged_observations two_pos (by simp)).2.2.2.mpr ⟨hties, hties⟩ _ hperm

/-- Two observations of one score and two groups: the one that is given first is the bottom group. -/
theorem order_of_ties_shows : ([(1, 0), (1, 1)] : List (ℝ × ℝ)).Perm [(1, 1), (1, 0)] ∧
    spreadOf [(1, 0), (1, 1)] 2 = number 1 ∧ spreadOf [(1, 1), (1, 0)] 2 = number (-1) := by
  have hspread : ∀ r s : ℝ, spreadOf [(1, r), (1, s)] 2 = number (s - r) := by
    intro r s
    rw [spreadOf_eq two_pos (by simp), byScore_of_pairwise (by simp)]
    norm_num [totalBefore]
  refine ⟨.swap _ _ _, ?_, ?_⟩
  · rw [hspread]
    norm_num
  · rw [hspread]
    norm_num

end PortfolioLab
