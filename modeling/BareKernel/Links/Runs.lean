import Mathlib.Logic.Relation
import Mathlib.Tactic.TypeStar

/-! Runs of a transition system. A system has initial states and a step relation
labelled by actions; a run is restricted by a condition on each step it takes.
What every permitted step preserves holds along every run. -/

namespace BareKernel.Links

structure System (σ α : Type*) where
  init : σ → Prop
  step : σ → α → σ → Prop

namespace System

variable {σ α : Type*}

/-- The states that runs with permitted steps reach. -/
inductive Reach (S : System σ α) (ok : σ → α → Prop) : σ → Prop where
  | init {s : σ} : S.init s → Reach S ok s
  | step {s t : σ} {a : α} : Reach S ok s → ok s a → S.step s a t → Reach S ok t

/-- A stretch of a run with permitted steps. -/
inductive Leads (S : System σ α) (ok : σ → α → Prop) (s : σ) : σ → Prop where
  | refl : Leads S ok s s
  | step {t u : σ} {a : α} : Leads S ok s t → ok t a → S.step t a u → Leads S ok s u

/-- A stretch of a run with permitted steps, and what its steps emit. -/
inductive Emits {ω : Type*} (S : System σ α) (ok : σ → α → Prop) (obs : σ → α → List ω) (s : σ) :
    List ω → σ → Prop where
  | refl : Emits S ok obs s [] s
  | step {t u : σ} {a : α} {es : List ω} : Emits S ok obs s es t → ok t a → S.step t a u →
      Emits S ok obs s (es ++ obs t a) u

variable {σ' α' ω : Type*} {S : System σ α} {T : System σ' α'} {ok ok' : σ → α → Prop}
  {obs : σ → α → List ω} {es fs : List ω} {I : σ → Prop} {s t u : σ}

/-- Invariants hold in every reached state. -/
theorem Reach.invariant (h : S.Reach ok s) (hinit : ∀ s, S.init s → I s)
    (hstep : ∀ s a t, I s → ok s a → S.step s a t → I t) : I s := by
  induction h with
  | init hs => exact hinit _ hs
  | step _ hok hst ih => exact hstep _ _ _ ih hok hst

theorem Reach.mono (h : S.Reach ok s) (hok : ∀ s a, ok s a → ok' s a) : S.Reach ok' s := by
  induction h with
  | init hs => exact .init hs
  | step _ hk hst ih => exact .step ih (hok _ _ hk) hst

/-- A run of one system shows as a run of another one that has every step of it. -/
theorem Reach.map {allowed : σ' → α' → Prop} {f : σ' → σ} {x : σ'} (h : T.Reach allowed x)
    (hinit : ∀ x, T.init x → S.init (f x))
    (hstep : ∀ x b y, allowed x b → T.step x b y → ∃ a, ok (f x) a ∧ S.step (f x) a (f y)) : S.Reach ok (f x) := by
  induction h with
  | init hx => exact .init (hinit _ hx)
  | step _ hb hst ih =>
    obtain ⟨a, hok, hst'⟩ := hstep _ _ _ hb hst
    exact .step ih hok hst'

theorem Leads.reach (h : S.Leads ok s t) (hs : S.Reach ok s) : S.Reach ok t := by
  induction h with
  | refl => exact hs
  | step _ hok hst ih => exact .step ih hok hst

theorem Leads.trans (h : S.Leads ok s t) (h' : S.Leads ok t u) : S.Leads ok s u := by
  induction h' with
  | refl => exact h
  | step _ hok hst ih => exact .step ih hok hst

theorem Leads.mono (h : S.Leads ok s t) (hok : ∀ s a, ok s a → ok' s a) : S.Leads ok' s t := by
  induction h with
  | refl => exact .refl
  | step _ hk hst ih => exact .step ih (hok _ _ hk) hst

theorem Emits.trans (h : S.Emits ok obs s es t) (h' : S.Emits ok obs t fs u) : S.Emits ok obs s (es ++ fs) u := by
  induction h' with
  | refl =>
    rw [List.append_nil]
    exact h
  | step _ hok hst ih =>
    rw [← List.append_assoc]
    exact .step ih hok hst

/-! ### Runs that compute -/

/-- Take the actions one after the other, each of them only if it is permitted. -/
def runList (f : σ → α → Option σ) (ok : σ → α → Prop) [∀ s a, Decidable (ok s a)] :
    σ → List α → Option σ
  | s, [] => some s
  | s, a :: as => if ok s a then (f s a).bind fun t => runList f ok t as else none

theorem Reach.runList {f : σ → α → Option σ} [∀ s a, Decidable (ok s a)] {as : List α}
    (hf : ∀ s a t, f s a = some t → S.step s a t) (h : S.Reach ok s)
    (hrun : System.runList f ok s as = some t) : S.Reach ok t := by
  induction as generalizing s with
  | nil =>
    obtain rfl := Option.some.inj hrun
    exact h
  | cons a as ih =>
    by_cases hok : ok s a
    · rw [System.runList, if_pos hok] at hrun
      obtain ⟨u, hstep, hrest⟩ := Option.bind_eq_some_iff.mp hrun
      exact ih (.step h hok (hf s a u hstep)) hrest
    · rw [System.runList, if_neg hok] at hrun
      cases hrun

/-- The end of a run that does not stop early. -/
theorem Reach.runList_getD {f : σ → α → Option σ} [∀ s a, Decidable (ok s a)] {as : List α}
    (hf : ∀ s a t, f s a = some t → S.step s a t) (h : S.Reach ok s)
    (hrun : (System.runList f ok s as).isSome = true) :
    S.Reach ok ((System.runList f ok s as).getD s) := by
  obtain ⟨t, ht⟩ := Option.isSome_iff_exists.mp hrun
  rw [ht]
  exact h.runList hf ht

/-- What a list of actions emits. -/
def emitted (f : σ → α → Option σ) (obs : σ → α → List ω) : σ → List α → List ω
  | _, [] => []
  | s, a :: as => obs s a ++ ((f s a).elim [] fun t => emitted f obs t as)

theorem runList_emits {f : σ → α → Option σ} [∀ s a, Decidable (ok s a)] {as : List α}
    (hf : ∀ s a t, f s a = some t → S.step s a t) (hrun : System.runList f ok s as = some t) :
    S.Emits ok obs s (emitted f obs s as) t := by
  induction as generalizing s with
  | nil =>
    obtain rfl := Option.some.inj hrun
    exact .refl
  | cons a as ih =>
    by_cases hok : ok s a
    · rw [System.runList, if_pos hok] at hrun
      obtain ⟨u, hstep, hrest⟩ := Option.bind_eq_some_iff.mp hrun
      have hfirst : S.Emits ok obs s (obs s a) u := .step .refl hok (hf s a u hstep)
      rw [emitted, hstep]
      exact hfirst.trans (ih hrest)
    · rw [System.runList, if_neg hok] at hrun
      cases hrun

end System

end BareKernel.Links
