import Mathlib.Data.List.Basic

/-!
# Runs of a Partial Step Function

A system is a function that gives the state after an action, or nothing when the action is not
enabled.  Everything that a run may choose (which thread moves, what is drawn, what arrives) is
part of the action, so that quantifying over lists of actions is quantifying over all
interleavings.

## Main results

- `runFrom_invariant`: what every step preserves holds after every run.
- `runFrom_invariant_along`: the same when every step of the run meets a condition.
- `exists_violation`: a run that does not meet a condition has a first part, a step that violates
  it, and a rest.
-/

namespace AmneziaWG.Lib

open List Option

variable {S A : Type}

/-- The state after a sequence of actions; `none` when one of them is not enabled. -/
def runFrom (step : S → A → Option S) (s : S) : List A → Option S
  | [] => some s
  | a :: as => (step s a).bind fun s' => runFrom step s' as

/-- Every step of the run meets the condition, in the state in which it is taken. -/
def Along (step : S → A → Option S) (cond : S → A → Prop) (s : S) : List A → Prop
  | [] => True
  | a :: as => cond s a ∧ ∀ s', step s a = some s' → Along step cond s' as

theorem runFrom_cons {step : S → A → Option S} {s s' : S} {a : A} {as : List A} :
    runFrom step s (a :: as) = some s' ↔ ∃ t, step s a = some t ∧ runFrom step t as = some s' :=
  bind_eq_some_iff

theorem along_of_forall {step : S → A → Option S} {cond : A → Prop} {s : S} {as : List A}
    (h : ∀ a ∈ as, cond a) : Along step (fun _ a => cond a) s as := by
  induction as generalizing s with
  | nil => trivial
  | cons a as ih =>
    exact ⟨h a mem_cons_self, fun s' _ => ih fun b hb => h b (mem_cons_of_mem a hb)⟩

theorem Along.and {step : S → A → Option S} {cond cond' : S → A → Prop} {s : S} {as : List A}
    (h : Along step cond s as) (h' : Along step cond' s as) :
    Along step (fun s a => cond s a ∧ cond' s a) s as := by
  induction as generalizing s with
  | nil => trivial
  | cons a as ih => exact ⟨⟨h.1, h'.1⟩, fun t ht => ih (h.2 t ht) (h'.2 t ht)⟩

/-- Whether a run meets a condition can be found out by running it. -/
instance decidableAlong (step : S → A → Option S) (cond : S → A → Prop)
    [∀ s a, Decidable (cond s a)] : ∀ s as, Decidable (Along step cond s as)
  | _, [] => isTrue trivial
  | s, a :: as =>
    match h : step s a with
    | none =>
      decidable_of_iff (cond s a)
        ⟨fun hcond => ⟨hcond, fun _ hs => absurd (h.symm.trans hs) nofun⟩, And.left⟩
    | some t =>
      haveI := decidableAlong step cond t as
      decidable_of_iff (cond s a ∧ Along step cond t as)
        ⟨fun hcond => ⟨hcond.1, fun _ hs => Option.some.inj (h.symm.trans hs) ▸ hcond.2⟩,
          fun hall => ⟨hall.1, hall.2 t h⟩⟩

/-- What every step that meets the condition preserves holds after every run of such steps. -/
theorem runFrom_invariant_along {step : S → A → Option S} {cond : S → A → Prop} {Inv : S → Prop}
    (hstep : ∀ s a s', Inv s → cond s a → step s a = some s' → Inv s') {s s' : S} {as : List A}
    (hs : Inv s) (hcond : Along step cond s as) (hrun : runFrom step s as = some s') : Inv s' := by
  induction as generalizing s with
  | nil =>
    cases hrun
    exact hs
  | cons a as ih =>
    obtain ⟨t, ht, hrest⟩ := runFrom_cons.mp hrun
    exact ih (hstep s a t hs hcond.1 ht) (hcond.2 t ht) hrest

/-- What every step preserves holds after every run. -/
theorem runFrom_invariant {step : S → A → Option S} {Inv : S → Prop}
    (hstep : ∀ s a s', Inv s → step s a = some s' → Inv s') {s s' : S} {as : List A} (hs : Inv s)
    (hrun : runFrom step s as = some s') : Inv s' := by
  induction as generalizing s with
  | nil =>
    cases hrun
    exact hs
  | cons a as ih =>
    obtain ⟨t, ht, hrest⟩ := runFrom_cons.mp hrun
    exact ih (hstep s a t hs ht) hrest

/-- A run that does not meet a condition all along has a step that violates it. -/
theorem exists_violation {step : S → A → Option S} {cond : S → A → Prop} {s s' : S} {as : List A}
    (hnot : ¬Along step cond s as) (hrun : runFrom step s as = some s') :
    ∃ bs a cs t t', as = bs ++ a :: cs ∧ runFrom step s bs = some t ∧ ¬cond t a ∧
      step t a = some t' ∧ runFrom step t' cs = some s' := by
  induction as generalizing s with
  | nil => exact absurd trivial hnot
  | cons a as ih =>
    obtain ⟨u, hu, hrest⟩ := runFrom_cons.mp hrun
    by_cases ha : cond s a
    · have hnot' : ¬Along step cond u as := by
        intro hall
        refine hnot ⟨ha, fun u' hu' => ?_⟩
        obtain rfl : u = u' := some.inj (hu.symm.trans hu')
        exact hall
      obtain ⟨bs, b, cs, t, t', rfl, ht, hviolated, ht', hend⟩ := ih hnot' hrest
      exact ⟨a :: bs, b, cs, t, t', rfl, runFrom_cons.mpr ⟨u, hu, ht⟩, hviolated, ht', hend⟩
    · exact ⟨[], a, as, s, u, rfl, rfl, ha, hu, hrest⟩

end AmneziaWG.Lib
