import Ledger.Lib.Runs
import Mathlib.Algebra.BigOperators.Group.Finset.Basic
import Mathlib.Algebra.Order.BigOperators.Group.Finset

/-!
# Runs that come to an end

A step is some party's own or nobody's. A potential of each party that drops with its
own steps and does not grow with the others' bounds how often it moves, in whatever run.
If in addition some party can move as long as any has something left to do, a run leads
to where all are done.
-/

namespace Runs

variable {σ ℓ ι : Type*} {step : σ → ℓ → Option σ} {ok : σ → ℓ → Prop}

inductive Trace (step : σ → ℓ → Option σ) (ok : σ → ℓ → Prop) (a : σ) : List ℓ → σ → Prop
  | nil : Trace step ok a [] a
  | snoc {ls : List ℓ} {b c : σ} (l : ℓ) :
      Trace step ok a ls b → ok b l → step b l = some c → Trace step ok a (ls ++ [l]) c

theorem Trace.reach {a b : σ} {ls : List ℓ} (h : Trace step ok a ls b) : Reach step ok a b := by
  induction h with
  | nil => exact Reach.refl
  | snoc l _ hl hs ih => exact Reach.snoc l ih hl hs

theorem Reach.trace {a b : σ} (h : Reach step ok a b) : ∃ ls, Trace step ok a ls b := by
  induction h with
  | refl => exact ⟨[], Trace.nil⟩
  | snoc l _ hl hs ih =>
    obtain ⟨ls, ht⟩ := ih
    exact ⟨_, Trace.snoc l ht hl hs⟩

theorem trace_of_exec {ls : List ℓ} {a b : σ} (h : exec step a ls = some b) :
    Trace step (fun _ _ => True) a ls b := by
  induction ls using List.reverseRecOn generalizing b with
  | nil =>
    rw [exec, Option.some.injEq] at h
    exact h ▸ Trace.nil
  | append_singleton ls l ih =>
    rw [exec_concat] at h
    obtain ⟨c, hc, hl⟩ := Option.bind_eq_some_iff.mp h
    exact Trace.snoc l (ih hc) trivial hl

/-- `P` is kept by every step, `mover` says whose step it is, and `pot` is what each
party has left to do. -/
structure Charged (step : σ → ℓ → Option σ) (ok : σ → ℓ → Prop) (P : σ → Prop) (mover : ℓ → Option ι)
    (pot : ι → σ → Nat) : Prop where
  keeps : ∀ a l b, P a → ok a l → step a l = some b → P b
  drops : ∀ a l b i, P a → ok a l → step a l = some b → mover l = some i → pot i b < pot i a
  others : ∀ a l b i, P a → ok a l → step a l = some b → mover l ≠ some i → pot i b ≤ pot i a

namespace Charged

variable {P : σ → Prop} {mover : ℓ → Option ι} {pot : ι → σ → Nat} (h : Charged step ok P mover pot)
include h

section
variable [DecidableEq ι]

theorem steps_le {a b : σ} {ls : List ℓ} (hr : Trace step ok a ls b) (ha : P a) (i : ι) :
    pot i b + (ls.filter fun l => mover l = some i).length ≤ pot i a := by
  have both : P b ∧ pot i b + (ls.filter fun l => mover l = some i).length ≤ pot i a := by
    induction hr with
    | nil => exact ⟨ha, Nat.le_refl _⟩
    | @snoc ls b c l _ hl hs ih =>
      obtain ⟨hb, hle⟩ := ih
      refine ⟨h.keeps b l c hb hl hs, ?_⟩
      rw [List.filter_append, List.length_append]
      by_cases hm : mover l = some i
      · have := h.drops b l c i hb hl hs hm
        rw [List.filter_cons_of_pos (by simpa using hm), List.filter_nil, List.length_singleton]
        omega
      · have := h.others b l c i hb hl hs hm
        rw [List.filter_cons_of_neg (by simpa using hm), List.filter_nil, List.length_nil]
        omega
  exact both.2

end

theorem total_lt {S : Finset ι} {a b : σ} {l : ℓ} {i : ι} (ha : P a) (hl : ok a l) (hs : step a l = some b)
    (hm : mover l = some i) (hi : i ∈ S) : ∑ j ∈ S, pot j b < ∑ j ∈ S, pot j a := by
  refine Finset.sum_lt_sum (fun j _ => ?_) ⟨i, hi, h.drops a l b i ha hl hs hm⟩
  by_cases hj : mover l = some j
  · exact (h.drops a l b j ha hl hs hj).le
  · exact h.others a l b j ha hl hs hj

theorem total_le {S : Finset ι} (hm : ∀ a l b, P a → ok a l → step a l = some b → ∃ i ∈ S, mover l = some i)
    {a b : σ} {ls : List ℓ} (hr : Trace step ok a ls b) (ha : P a) :
    ∑ j ∈ S, pot j b + ls.length ≤ ∑ j ∈ S, pot j a := by
  have both : P b ∧ ∑ j ∈ S, pot j b + ls.length ≤ ∑ j ∈ S, pot j a := by
    induction hr with
    | nil => exact ⟨ha, Nat.le_refl _⟩
    | @snoc ls b c l _ hl hs ih =>
      obtain ⟨hb, hle⟩ := ih
      obtain ⟨i, hi, he⟩ := hm b l c hb hl hs
      have hlt := h.total_lt hb hl hs he hi
      refine ⟨h.keeps b l c hb hl hs, ?_⟩
      rw [List.length_append, List.length_singleton]
      omega
  exact both.2

/-- **Completion rule.** Some party of `S` moves while one of them has something to do. -/
theorem completes (S : Finset ι)
    (hprog : ∀ a, P a → (∃ i ∈ S, 0 < pot i a) →
      ∃ l b i, ok a l ∧ step a l = some b ∧ mover l = some i ∧ i ∈ S) {a : σ} (ha : P a) :
    ∃ b, Reach step ok a b ∧ P b ∧ ∀ i ∈ S, pot i b = 0 := by
  induction hn : ∑ j ∈ S, pot j a using Nat.strongRecOn generalizing a with
  | _ n ih =>
    by_cases hw : ∃ i ∈ S, 0 < pot i a
    · obtain ⟨l, b, i, hl, hs, hm, hi⟩ := hprog a ha hw
      obtain ⟨c, hr, hc, hz⟩ := ih _ (hn ▸ h.total_lt ha hl hs hm hi) (h.keeps a l b ha hl hs) rfl
      exact ⟨c, (Reach.one l hl hs).trans hr, hc, hz⟩
    · refine ⟨a, Reach.refl, ha, fun i hi => ?_⟩
      by_contra hne
      exact hw ⟨i, hi, Nat.pos_of_ne_zero hne⟩

end Charged

end Runs
