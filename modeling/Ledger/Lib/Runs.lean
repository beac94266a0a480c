import Mathlib.Logic.Relation

/-!
# Runs of a partial step function

`step a l = some b` says that the label `l` is enabled in `a` and leads to `b`.
`Hist` keeps the states a run went through, most recent first; `Reach` forgets
them. `ok` restricts the labels a run may take.
-/

namespace Runs

variable {σ ℓ : Type*} {step : σ → ℓ → Option σ} {ok : σ → ℓ → Prop}

inductive Hist (step : σ → ℓ → Option σ) (ok : σ → ℓ → Prop) (a : σ) : List σ → σ → Prop
  | nil : Hist step ok a [] a
  | snoc {past : List σ} {b c : σ} (l : ℓ) :
      Hist step ok a past b → ok b l → step b l = some c → Hist step ok a (b :: past) c

inductive Reach (step : σ → ℓ → Option σ) (ok : σ → ℓ → Prop) (a : σ) : σ → Prop
  | refl : Reach step ok a a
  | snoc {b c : σ} (l : ℓ) : Reach step ok a b → ok b l → step b l = some c → Reach step ok a c

def exec (step : σ → ℓ → Option σ) : σ → List ℓ → Option σ
  | a, [] => some a
  | a, l :: ls => (step a l).bind (exec step · ls)

theorem Hist.reach {a b : σ} {past : List σ} (h : Hist step ok a past b) : Reach step ok a b := by
  induction h with
  | nil => exact Reach.refl
  | snoc l _ hl hs ih => exact Reach.snoc l ih hl hs

theorem Reach.hist {a b : σ} (h : Reach step ok a b) : ∃ past, Hist step ok a past b := by
  induction h with
  | refl => exact ⟨[], Hist.nil⟩
  | snoc l _ hl hs ih =>
    obtain ⟨past, hp⟩ := ih
    exact ⟨_, Hist.snoc l hp hl hs⟩

theorem Reach.trans {a b c : σ} (h : Reach step ok a b) (h' : Reach step ok b c) : Reach step ok a c := by
  induction h' with
  | refl => exact h
  | snoc l _ hl hs ih => exact Reach.snoc l ih hl hs

theorem Reach.one {a b : σ} (l : ℓ) (hl : ok a l) (hs : step a l = some b) : Reach step ok a b :=
  Reach.snoc l Reach.refl hl hs

theorem Reach.mono {ok' : σ → ℓ → Prop} {P : σ → Prop} (hP : ∀ a l b, P a → ok a l → step a l = some b → P b)
    (hok : ∀ a l, P a → ok a l → ok' a l) {a b : σ} (h : Reach step ok a b) (ha : P a) : Reach step ok' a b := by
  have : P b ∧ Reach step ok' a b := by
    induction h with
    | refl => exact ⟨ha, Reach.refl⟩
    | snoc l _ hl hs ih => exact ⟨hP _ l _ ih.1 hl hs, Reach.snoc l ih.2 (hok _ l ih.1 hl) hs⟩
  exact this.2

/-- **Invariant rule.** What every admitted step keeps holds along a run. -/
theorem Reach.invariant {P : σ → Prop} (hs : ∀ a l b, P a → ok a l → step a l = some b → P b)
    {a b : σ} (h : Reach step ok a b) (ha : P a) : P b := by
  induction h with
  | refl => exact ha
  | snoc l _ hl h' ih => exact hs _ l _ ih hl h'

/-- A relation that is a preorder and contains every step contains every run. -/
theorem Reach.rel {R : σ → σ → Prop} {P : σ → Prop} (hr : ∀ a, R a a) (ht : ∀ a b c, R a b → R b c → R a c)
    (hP : ∀ a l b, P a → ok a l → step a l = some b → P b)
    (hs : ∀ a l b, P a → ok a l → step a l = some b → R a b)
    {a b : σ} (h : Reach step ok a b) (ha : P a) : R a b := by
  have : P b ∧ R a b := by
    induction h with
    | refl => exact ⟨ha, hr a⟩
    | snoc l _ hl h' ih => exact ⟨hP _ l _ ih.1 hl h', ht _ _ _ ih.2 (hs _ l _ ih.1 hl h')⟩
  exact this.2

/-- **Simulation rule.** A run is followed step by step, each step by any number of steps. -/
theorem Reach.simulates {τ κ : Type*} {step' : τ → κ → Option τ} {ok' : τ → κ → Prop} {R : σ → τ → Prop}
    (hs : ∀ a l a' b, R a b → ok a l → step a l = some a' → ∃ b', Reach step' ok' b b' ∧ R a' b')
    {a a' : σ} {b : τ} (h : Reach step ok a a') (hab : R a b) : ∃ b', Reach step' ok' b b' ∧ R a' b' := by
  induction h with
  | refl => exact ⟨b, Reach.refl, hab⟩
  | snoc l _ hl hstep ih =>
    obtain ⟨b₁, hb₁, hR⟩ := ih
    obtain ⟨b₂, hb₂, hR'⟩ := hs _ l _ b₁ hR hl hstep
    exact ⟨b₂, hb₁.trans hb₂, hR'⟩

theorem exec_append : ∀ {ls ms : List ℓ} {a : σ},
    exec step a (ls ++ ms) = (exec step a ls).bind (exec step · ms)
  | [], _, _ => rfl
  | l :: ls, ms, a => by
    simp only [List.cons_append, exec, Option.bind_assoc, exec_append]

theorem exec_concat {ls : List ℓ} {l : ℓ} {a : σ} : exec step a (ls ++ [l]) = (exec step a ls).bind (step · l) := by
  rw [exec_append]
  congr 1
  funext b
  cases h : step b l <;> simp [exec, h]

def execIf (p : σ → ℓ → Bool) (step : σ → ℓ → Option σ) : σ → List ℓ → Option σ :=
  exec fun a l => if p a l then step a l else none

theorem reach_of_execIf {p : σ → ℓ → Bool} {ls : List ℓ} {a b : σ} (hls : ∀ s, ∀ l ∈ ls, p s l = true → ok s l)
    (h : execIf p step a ls = some b) : Reach step ok a b := by
  induction ls generalizing a with
  | nil => simp only [execIf, exec, Option.some.injEq] at h; exact h ▸ Reach.refl
  | cons l ls ih =>
    simp only [execIf, exec] at h
    obtain ⟨c, hc, hb⟩ := Option.bind_eq_some_iff.mp h
    split at hc
    · rename_i hp
      exact (Reach.one l (hls a l (by simp) hp) hc).trans (ih (fun s l' hl' => hls s l' (by simp [hl'])) hb)
    · cases hc

theorem reach_of_exec {ls : List ℓ} {a b : σ} (hls : ∀ s, ∀ l ∈ ls, ok s l)
    (h : exec step a ls = some b) : Reach step ok a b := by
  refine reach_of_execIf (p := fun _ _ => true) (fun s l hl _ => hls s l hl) ?_
  simpa only [execIf, if_true] using h

end Runs
