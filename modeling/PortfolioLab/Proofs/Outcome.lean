import PortfolioLab.Failure
import Mathlib.Data.List.Forall2

/-!
# Outcomes of steps that may fail

A looked-up key that is missing is the one failure that no input should cause. `Keyed post r` says
that an outcome is not this failure, and that its value satisfies `post` if it has one. Invariants
and the safety of look-ups are proved together in this form: one statement for each operation.
-/

namespace PortfolioLab

/-- An outcome that lacks no key, and whose value satisfies `post`. -/
def Keyed {α : Type} (post : α → Prop) : Except Failure α → Prop
  | .ok a => post a
  | .error e => e ≠ .unknownKey

namespace Keyed

variable {α β : Type} {P Q : α → Prop} {R : β → Prop}

@[simp] theorem ok_iff {a : α} : Keyed P (.ok a) ↔ P a := Iff.rfl

@[simp] theorem pure_iff {a : α} : Keyed P (pure a) ↔ P a := Iff.rfl

@[simp] theorem error_iff {e : Failure} : Keyed P (.error e) ↔ e ≠ .unknownKey := Iff.rfl

@[simp] theorem throw_iff {e : Failure} : Keyed P (throw e) ↔ e ≠ .unknownKey := Iff.rfl

theorem of_ok {r : Except Failure α} {a : α} (h : Keyed P r) (ha : r = .ok a) : P a := by
  subst ha
  exact h

theorem ne_unknownKey {r : Except Failure α} (h : Keyed P r) : r ≠ .error .unknownKey := by
  rintro rfl
  exact h rfl

theorem imp {r : Except Failure α} (h : Keyed P r) (hPQ : ∀ a, P a → Q a) : Keyed Q r := by
  cases r with
  | ok a => exact hPQ a h
  | error e => exact h

theorem bind {r : Except Failure α} {f : α → Except Failure β} (h : Keyed P r)
    (hf : ∀ a, P a → Keyed R (f a)) : Keyed R (r >>= f) := by
  cases r with
  | ok a => exact hf a h
  | error e => exact h

/-- The second step may use that the first succeeded, and not only what its value satisfies. -/
theorem bind_ok {r : Except Failure α} {f : α → Except Failure β} (h : Keyed P r)
    (hf : ∀ a, r = .ok a → Keyed R (f a)) : Keyed R (r >>= f) := by
  cases r with
  | ok a => exact hf a rfl
  | error e => exact h

theorem any {r : Except Failure α} (h : Keyed P r) : Keyed (fun _ => True) r := h.imp fun _ _ => trivial

/-- What one step keeps, indexed by the inputs that are still to come, a whole pass keeps. -/
theorem foldlM {I : List β → α → Prop} {f : α → β → Except Failure α} {a : α} {xs : List β}
    (h : I xs a) (hf : ∀ x rest a, I (x :: rest) a → Keyed (I rest) (f a x)) :
    Keyed (I []) (xs.foldlM f a) := by
  induction xs generalizing a with
  | nil => exact h
  | cons x xs ih =>
    rw [List.foldlM_cons]
    exact (hf x xs a h).bind fun b hb => ih hb

/-- A pass over a list relates every input to its result. -/
theorem mapM {T : β → α → Prop} {f : β → Except Failure α} {xs : List β}
    (hf : ∀ x ∈ xs, Keyed (T x) (f x)) : Keyed (List.Forall₂ T xs) (xs.mapM f) := by
  induction xs with
  | nil => exact .nil
  | cons x xs ih =>
    rw [List.mapM_cons]
    refine (hf x List.mem_cons_self).bind fun a ha => ?_
    exact (ih fun y hy => hf y (List.mem_cons_of_mem _ hy)).bind fun as has => .cons ha has

end Keyed

@[simp] theorem ok_bind {α β : Type} (a : α) (f : α → Except Failure β) :
    (Except.ok a : Except Failure α) >>= f = f a := rfl

@[simp] theorem error_bind {α β : Type} (e : Failure) (f : α → Except Failure β) :
    (Except.error e : Except Failure α) >>= f = .error e := rfl

@[simp] theorem throw_bind {α β : Type} (e : Failure) (f : α → Except Failure β) :
    (throw e : Except Failure α) >>= f = .error e := rfl

theorem bind_eq_ok {α β : Type} {r : Except Failure α} {f : α → Except Failure β} {b : β} :
    r >>= f = .ok b ↔ ∃ a, r = .ok a ∧ f a = .ok b := by
  cases r <;> simp

theorem bind_eq_error {α β : Type} {r : Except Failure α} {f : α → Except Failure β} {e : Failure} :
    r >>= f = .error e ↔ r = .error e ∨ ∃ a, r = .ok a ∧ f a = .error e := by
  cases r <;> simp

/-- What every step of a fold keeps, the fold keeps. -/
theorem foldlM_keeps {α β : Type} {I : α → Prop} {f : α → β → Except Failure α} {xs : List β}
    {a b : α} (hf : ∀ a, ∀ x ∈ xs, ∀ a', I a → f a x = .ok a' → I a') (h : I a)
    (hok : xs.foldlM f a = .ok b) : I b := by
  induction xs generalizing a with
  | nil =>
    cases hok
    exact h
  | cons x xs ih =>
    rw [List.foldlM_cons] at hok
    obtain ⟨a', hfirst, hrest⟩ := bind_eq_ok.mp hok
    have ha' := hf a x List.mem_cons_self a' h hfirst
    exact ih (fun a y hy => hf a y (List.mem_cons_of_mem _ hy)) ha' hrest

/-- Every step of a fold that succeeds does so. -/
theorem exists_step_of_foldlM {α β : Type} {f : α → β → Except Failure α} {xs : List β} {a b : α}
    (h : xs.foldlM f a = .ok b) : ∀ x ∈ xs, ∃ before after, f before x = .ok after := by
  induction xs generalizing a with
  | nil => simp
  | cons x xs ih =>
    rw [List.foldlM_cons] at h
    obtain ⟨next, hfirst, hrest⟩ := bind_eq_ok.mp h
    exact List.forall_mem_cons.mpr ⟨⟨a, next, hfirst⟩, ih hrest⟩

/-- A fold whose every step leaves the start as it is ends there. -/
theorem foldlM_eq_self {α β : Type} {f : α → β → Except Failure α} {xs : List β} {a : α}
    (h : ∀ x ∈ xs, f a x = .ok a) : xs.foldlM f a = .ok a := by
  induction xs with
  | nil => rfl
  | cons x xs ih =>
    obtain ⟨hx, hxs⟩ := List.forall_mem_cons.mp h
    rw [List.foldlM_cons, hx]
    exact ih hxs

/-- Folds by steps that agree on the inputs. -/
theorem foldlM_congr {α β : Type} {f g : α → β → Except Failure α} {xs : List β}
    (h : ∀ x ∈ xs, ∀ a, f a x = g a x) (a : α) : xs.foldlM f a = xs.foldlM g a := by
  induction xs generalizing a with
  | nil => rfl
  | cons x xs ih =>
    rw [List.foldlM_cons, List.foldlM_cons, h x List.mem_cons_self]
    exact bind_congr fun b => ih (fun y hy => h y (List.mem_cons_of_mem _ hy)) b

/-- Folds over lists whose entries have the same effect in turn. -/
theorem foldlM_congr_of_forall₂ {α β γ : Type} {R : β → γ → Prop} {f : α → β → Except Failure α}
    {g : α → γ → Except Failure α} {xs : List β} {ys : List γ} (h : List.Forall₂ R xs ys)
    (hR : ∀ a x y, R x y → f a x = g a y) (a : α) : xs.foldlM f a = ys.foldlM g a := by
  induction h generalizing a with
  | nil => rfl
  | cons hxy _ ih =>
    rw [List.foldlM_cons, List.foldlM_cons, hR a _ _ hxy]
    exact bind_congr fun b => ih b

/-- Passes by steps that agree on the inputs. -/
theorem mapM_congr {m : Type → Type} [Monad m] [LawfulMonad m] {α β : Type} {f g : β → m α}
    {xs : List β} (h : ∀ x ∈ xs, f x = g x) : xs.mapM f = xs.mapM g := by
  induction xs with
  | nil => rfl
  | cons x xs ih =>
    rw [List.mapM_cons, List.mapM_cons, h x List.mem_cons_self,
      ih fun y hy => h y (List.mem_cons_of_mem _ hy)]

/-- The results of a pass, one for each input. -/
theorem forall₂_of_mapM {α β : Type} {f : β → Except Failure α} {xs : List β} {as : List α}
    (h : xs.mapM f = .ok as) : List.Forall₂ (fun x a => f x = .ok a) xs as := by
  induction xs generalizing as with
  | nil =>
    cases h
    exact .nil
  | cons x xs ih =>
    rw [List.mapM_cons] at h
    obtain ⟨a, ha, h⟩ := bind_eq_ok.mp h
    obtain ⟨rest, hrest, h⟩ := bind_eq_ok.mp h
    cases h
    exact .cons ha (ih hrest)

theorem mapM_of_forall₂ {α β : Type} {f : β → Except Failure α} {xs : List β} {as : List α}
    (h : List.Forall₂ (fun x a => f x = .ok a) xs as) : xs.mapM f = .ok as := by
  induction h with
  | nil => rfl
  | cons hx _ ih =>
    rw [List.mapM_cons, hx, ok_bind, ih]
    rfl

/-- A pass in which a step fails, and no step in any other way. -/
theorem mapM_eq_error {α β : Type} {f : β → Except Failure α} {xs : List β} {x : β} {e : Failure}
    (h : ∀ y ∈ xs, f y = .error e ∨ ∃ a, f y = .ok a) (hmem : x ∈ xs) (hx : f x = .error e) :
    xs.mapM f = .error e := by
  induction xs with
  | nil => cases hmem
  | cons first rest ih =>
    obtain ⟨hfirst, hrest⟩ := List.forall_mem_cons.mp h
    rw [List.mapM_cons]
    rcases hfirst with hfails | ⟨a, ha⟩
    · rw [hfails, error_bind]
    · have hmem : x ∈ rest := by
        refine (List.mem_cons.mp hmem).resolve_left ?_
        rintro rfl
        rw [hx] at ha
        cases ha
      rw [ha, ok_bind, ih hrest hmem, error_bind]

/-- A pass whose every step succeeds. -/
theorem exists_mapM {α β : Type} {f : β → Except Failure α} {xs : List β}
    (h : ∀ x ∈ xs, ∃ a, f x = .ok a) : ∃ as, xs.mapM f = .ok as := by
  induction xs with
  | nil => exact ⟨[], rfl⟩
  | cons x xs ih =>
    obtain ⟨⟨a, ha⟩, hxs⟩ := List.forall_mem_cons.mp h
    obtain ⟨as, has⟩ := ih hxs
    refine ⟨a :: as, ?_⟩
    rw [List.mapM_cons, ha, ok_bind, has]
    rfl

theorem exists_of_check {α : Type} {r : Except Failure α} {check : α → Bool}
    (h : r.toOption.any check = true) : ∃ a, r = .ok a ∧ check a = true := by
  cases r with
  | ok a => exact ⟨a, rfl, h⟩
  | error e => cases h

namespace Transition

variable {σ α β : Type}

@[simp] theorem commit_pure (a : α) (s : σ) : commit (pure a : Transition σ α) s = .ok (a, s) := rfl

@[simp] theorem commit_throw (e : Failure) (s : σ) :
    commit (throw e : Transition σ α) s = .error e := rfl

@[simp] theorem commit_get (s : σ) : commit (get : Transition σ σ) s = .ok (s, s) := rfl

@[simp] theorem commit_set (s t : σ) : commit (set t : Transition σ PUnit) s = .ok (⟨⟩, t) := rfl

@[simp] theorem commit_modify (f : σ → σ) (s : σ) :
    commit (modify f : Transition σ PUnit) s = .ok (⟨⟩, f s) := rfl

/-- A check inside a step leaves the state as it is. -/
@[simp] theorem commit_require (r : Except Failure α) (s : σ) :
    commit (require r) s = r >>= fun a => .ok (a, s) := by
  cases r <;> rfl

theorem outcome_bind (step : Transition σ α) (next : α → Transition σ β) (s : σ) :
    outcome (step >>= next) s = match outcome step s with
      | (.ok a, t) => outcome (next a) t
      | (.error e, t) => (.error e, t) := by
  have h : outcome (step >>= next) s =
      StateT.bind (ExceptT.run step) (ExceptT.bindCont next) s := rfl
  rw [h]
  simp only [outcome, StateT.bind]
  rcases ExceptT.run step s with ⟨a | e, t⟩ <;> rfl

/-- Steps in sequence: the second starts from the state that the first leaves. -/
theorem commit_bind (step : Transition σ α) (next : α → Transition σ β) (s : σ) :
    commit (step >>= next) s = commit step s >>= fun p => commit (next p.1) p.2 := by
  simp only [commit, outcome_bind]
  rcases outcome step s with ⟨a | e, t⟩ <;> rfl

theorem outcome_eq_ok {step : Transition σ α} {s t : σ} {a : α} :
    outcome step s = (.ok a, t) ↔ commit step s = .ok (a, t) := by
  unfold commit
  rcases outcome step s with ⟨a | e, u⟩ <;> simp

theorem commit_eq_error {step : Transition σ α} {s : σ} {e : Failure} :
    commit step s = .error e ↔ ∃ t, outcome step s = (.error e, t) := by
  unfold commit
  rcases outcome step s with ⟨a | e', u⟩ <;> simp

/-- A sequence fails in its first step, or in its second from the state that the first leaves. -/
theorem outcome_bind_eq_error {step : Transition σ α} {next : α → Transition σ β} {s t : σ}
    {e : Failure} : outcome (step >>= next) s = (.error e, t) ↔
      outcome step s = (.error e, t) ∨
        ∃ a u, commit step s = .ok (a, u) ∧ outcome (next a) u = (.error e, t) := by
  simp only [outcome_bind, ← outcome_eq_ok]
  rcases outcome step s with ⟨a | e', u⟩ <;> simp

theorem outcome_get_bind (next : σ → Transition σ α) (s : σ) :
    outcome (get >>= next) s = outcome (next s) s := rfl

theorem outcome_modify_bind (f : σ → σ) (next : PUnit → Transition σ α) (s : σ) :
    outcome (modify f >>= next) s = outcome (next ⟨⟩) (f s) := rfl

/-- A check that fails leaves the state as it is, and so does one that does not. -/
theorem outcome_require_bind_eq_error {r : Except Failure α} {next : α → Transition σ β} {s t : σ}
    {e : Failure} : outcome (require r >>= next) s = (.error e, t) ↔
      r = .error e ∧ t = s ∨ ∃ a, r = .ok a ∧ outcome (next a) s = (.error e, t) := by
  have hrequire : outcome (require r : Transition σ α) s = (r, s) := rfl
  rw [outcome_bind, hrequire]
  cases r <;> simp [eq_comm]

/-- A pass that succeeds: its first step, and the pass over the rest. -/
theorem commit_mapM_cons {γ : Type} {f : γ → Transition σ α} {x : γ} {xs : List γ} {s t : σ}
    {results : List α} (h : ((x :: xs).mapM f).commit s = .ok (results, t)) :
    ∃ a rest u, results = a :: rest ∧ (f x).commit s = .ok (a, u) ∧
      (xs.mapM f).commit u = .ok (rest, t) := by
  rw [List.mapM_cons, commit_bind] at h
  obtain ⟨⟨a, u⟩, hfirst, h⟩ := bind_eq_ok.mp h
  rw [commit_bind] at h
  obtain ⟨⟨rest, v⟩, hrest, h⟩ := bind_eq_ok.mp h
  cases h
  exact ⟨a, rest, u, rfl, hfirst, hrest⟩

/-- What every step of a pass keeps, the pass keeps, and every result is one of a step. -/
theorem commit_mapM_keeps {γ : Type} {I : σ → Prop} {Q : α → Prop} {f : γ → Transition σ α}
    {xs : List γ} {s t : σ} {results : List α}
    (hf : ∀ x s a t, I s → (f x).commit s = .ok (a, t) → I t ∧ Q a) (h : I s)
    (hok : (xs.mapM f).commit s = .ok (results, t)) : I t ∧ ∀ a ∈ results, Q a := by
  induction xs generalizing s results with
  | nil =>
    cases hok
    exact ⟨h, fun a ha => absurd ha List.not_mem_nil⟩
  | cons x xs ih =>
    obtain ⟨a, rest, u, rfl, hfirst, hrest⟩ := commit_mapM_cons hok
    obtain ⟨hu, ha⟩ := hf x s a u h hfirst
    obtain ⟨ht, hall⟩ := ih hu hrest
    exact ⟨ht, List.forall_mem_cons.mpr ⟨ha, hall⟩⟩

/-- A pass over one list and then another. -/
theorem commit_mapM_append {γ : Type} {f : γ → Transition σ α} {xs ys : List γ} {s t : σ}
    {results : List α} (h : ((xs ++ ys).mapM f).commit s = .ok (results, t)) :
    ∃ first rest u, results = first ++ rest ∧ (xs.mapM f).commit s = .ok (first, u) ∧
      (ys.mapM f).commit u = .ok (rest, t) := by
  rw [List.mapM_append, commit_bind] at h
  obtain ⟨⟨first, u⟩, hfirst, h⟩ := bind_eq_ok.mp h
  rw [commit_bind] at h
  obtain ⟨⟨rest, v⟩, hrest, h⟩ := bind_eq_ok.mp h
  cases h
  exact ⟨first, rest, u, rfl, hfirst, hrest⟩

/-- A pass that fails: the steps before the one that fails succeed, and it fails from where they end. -/
theorem exists_of_outcome_mapM {γ : Type} {f : γ → Transition σ α} {xs : List γ} {s t : σ} {e : Failure}
    (h : (xs.mapM f).outcome s = (.error e, t)) :
    ∃ before x after results u, xs = before ++ x :: after ∧
      (before.mapM f).commit s = .ok (results, u) ∧ (f x).outcome u = (.error e, t) := by
  induction xs generalizing s with
  | nil => cases h
  | cons x xs ih =>
    rw [List.mapM_cons] at h
    rcases outcome_bind_eq_error.mp h with hfirst | ⟨a, u, hfirst, h⟩
    · exact ⟨[], x, xs, [], s, rfl, rfl, hfirst⟩
    · rcases outcome_bind_eq_error.mp h with hrest | ⟨_, _, _, hpure⟩
      · obtain ⟨before, y, after, results, v, rfl, hbefore, hfails⟩ := ih hrest
        refine ⟨x :: before, y, after, a :: results, v, rfl, ?_, hfails⟩
        rw [List.mapM_cons, commit_bind, hfirst, ok_bind, commit_bind, hbefore]
        rfl
      · cases hpure

end Transition

namespace Keyed

variable {σ α β : Type} {P : α × σ → Prop} {R : β × σ → Prop} {s : σ}

theorem commit_bind {step : Transition σ α} {next : α → Transition σ β} (h : Keyed P (step.commit s))
    (hn : ∀ a t, P (a, t) → Keyed R ((next a).commit t)) : Keyed R ((step >>= next).commit s) := by
  rw [Transition.commit_bind]
  exact h.bind fun p hp => hn p.1 p.2 hp

theorem commit_require {Q : α → Prop} {r : Except Failure α} (h : Keyed Q r) :
    Keyed (fun p => Q p.1 ∧ p.2 = s) ((Transition.require r).commit s) := by
  rw [Transition.commit_require]
  exact h.bind fun a ha => ⟨ha, rfl⟩

section Passes

variable {γ : Type} {V : List γ → List α → σ → Prop} {f : γ → Transition σ α}

private theorem commit_mapM_from {done : List γ} {results : List α}
    (hstep : ∀ done results x t, V done results t →
      Keyed (fun p => V (done ++ [x]) (results ++ [p.1]) p.2) ((f x).commit t))
    (h : V done results s) (xs : List γ) :
    Keyed (fun p => V (done ++ xs) (results ++ p.1) p.2) ((xs.mapM f).commit s) := by
  induction xs generalizing done results s with
  | nil => simpa using h
  | cons x xs ih =>
    rw [List.mapM_cons]
    refine (hstep done results x s h).commit_bind fun a t ha => ?_
    refine (ih ha).commit_bind fun as u has => ?_
    simpa using has

/-- A pass of steps over a list. The inputs done, their results and the state are related by `V`, which
extends by one step. -/
theorem commit_mapM (hstep : ∀ done results x t, V done results t →
      Keyed (fun p => V (done ++ [x]) (results ++ [p.1]) p.2) ((f x).commit t))
    (h : V [] [] s) (xs : List γ) : Keyed (fun p => V xs p.1 p.2) ((xs.mapM f).commit s) :=
  commit_mapM_from hstep h xs

end Passes

end Keyed
end PortfolioLab
