import Mathlib.Data.List.Basic
import Mathlib.Data.List.Nodup
import Mathlib.Data.List.Dedup
import Mathlib.Algebra.BigOperators.Group.List.Basic

/-!
# Keyed lists and their sums

Tables as lists: a key that no two rows share picks out one row, survives a map
that leaves it alone, and a sum over a table can be taken one key at a time.
-/

namespace Keyed

variable {α β κ : Type*}

def Distinct (f : α → κ) (l : List α) : Prop := l.Pairwise fun a b => f a ≠ f b

theorem distinct_nil (f : α → κ) : Distinct f [] := List.Pairwise.nil

theorem distinct_append {f : α → κ} {l m : List α} :
    Distinct f (l ++ m) ↔ Distinct f l ∧ Distinct f m ∧ ∀ a ∈ l, ∀ b ∈ m, f a ≠ f b :=
  List.pairwise_append

theorem distinct_concat {f : α → κ} {l : List α} {a : α} (h : Distinct f l) (ha : ∀ b ∈ l, f b ≠ f a) :
    Distinct f (l ++ [a]) :=
  distinct_append.mpr ⟨h, List.pairwise_singleton _ _, fun b hb c hc => by
    rw [List.mem_singleton] at hc; subst hc; exact ha b hb⟩

theorem Distinct.eq {f : α → κ} : ∀ {l : List α}, Distinct f l → ∀ {a b : α}, a ∈ l → b ∈ l → f a = f b → a = b
  | [], _, _, _, ha, _, _ => by cases ha
  | c :: l, h, a, b, ha, hb, he => by
    rw [Distinct, List.pairwise_cons] at h
    rcases List.mem_cons.mp ha with ha' | ha' <;> rcases List.mem_cons.mp hb with hb' | hb'
    · rw [ha', hb']
    · rw [ha'] at he; exact absurd he (h.1 b hb')
    · rw [hb'] at he; exact absurd he.symm (h.1 a ha')
    · exact Distinct.eq h.2 ha' hb' he

theorem Distinct.map {f : α → κ} {g : α → α} : ∀ {l : List α}, Distinct f l → (∀ a ∈ l, f (g a) = f a) →
    Distinct f (l.map g)
  | [], _, _ => List.Pairwise.nil
  | a :: l, h, hg => by
    rw [Distinct, List.pairwise_cons] at h
    refine List.pairwise_cons.mpr ⟨?_, Distinct.map h.2 fun b hb => hg b (List.mem_cons_of_mem _ hb)⟩
    intro b hb
    obtain ⟨c, hc, rfl⟩ := List.mem_map.mp hb
    rw [hg a (List.mem_cons_self ..), hg c (List.mem_cons_of_mem _ hc)]
    exact h.1 c hc

theorem distinct_map {f : α → κ} {g : β → α} {l : List β} : Distinct f (l.map g) ↔ Distinct (fun b => f (g b)) l :=
  List.pairwise_map

theorem distinct_some {f : α → κ} {l : List α} (h : Distinct f l) : Distinct (fun a => some (f a)) l :=
  List.Pairwise.imp (fun hne he => hne (Option.some.inj he)) h

section
variable [DecidableEq κ]

theorem Distinct.find {f : α → κ} {l : List α} (h : Distinct f l) {a : α} (ha : a ∈ l) {k : κ} (hk : f a = k) :
    l.find? (fun b => decide (f b = k)) = some a := by
  cases hf : l.find? (fun b => decide (f b = k)) with
  | none => simpa [hk] using List.find?_eq_none.mp hf a ha
  | some b =>
    have hb := List.find?_some hf
    simp only [decide_eq_true_eq] at hb
    rw [h.eq (List.mem_of_find?_eq_some hf) ha (hb.trans hk.symm)]

theorem Distinct.filter {f : α → κ} : ∀ {l : List α}, Distinct f l → ∀ {a : α}, a ∈ l → ∀ {k : κ}, f a = k →
    l.filter (fun b => decide (f b = k)) = [a]
  | [], _, _, ha, _, _ => by cases ha
  | c :: l, h, a, ha, k, hk => by
    rw [Distinct, List.pairwise_cons] at h
    rcases List.mem_cons.mp ha with rfl | ha
    · have : l.filter (fun b => decide (f b = k)) = [] := by
        rw [List.filter_eq_nil_iff]
        intro b hb
        simpa using fun e => h.1 b hb (hk.trans e.symm)
      rw [List.filter_cons, this]; simp [hk]
    · have hc : f c ≠ k := fun e => h.1 a ha (e.trans hk.symm)
      rw [List.filter_cons, Distinct.filter h.2 ha hk]; simp [hc]

theorem Distinct.filter_le_one {f : α → κ} {l : List α} (h : Distinct f l) (k : κ) :
    (l.filter fun a => decide (f a = k)).length ≤ 1 := by
  cases hf : l.filter (fun a => decide (f a = k)) with
  | nil => exact Nat.zero_le _
  | cons a rest =>
    have hm : a ∈ l.filter (fun a => decide (f a = k)) := hf ▸ List.mem_cons_self ..
    rw [← hf, h.filter (List.mem_filter.mp hm).1 (of_decide_eq_true (List.mem_filter.mp hm).2)]
    exact Nat.le_refl _

theorem dedup_length_one [DecidableEq α] {l : List α} {a : α} (ha : a ∈ l) :
    l.dedup.length = 1 ↔ ∀ b ∈ l, b = a := by
  constructor
  · intro h b hb
    obtain ⟨c, hc⟩ := List.length_eq_one_iff.mp h
    have hmem : ∀ d ∈ l, d = c := fun d hd => by
      rw [← List.mem_dedup, hc] at hd
      exact List.mem_singleton.mp hd
    exact (hmem b hb).trans (hmem a ha).symm
  · intro h
    rw [List.eq_replicate_iff.mpr ⟨rfl, h⟩, List.replicate_dedup (Nat.ne_of_gt (List.length_pos_of_mem ha))]
    rfl

theorem filter_flatMap {f : α → List β} {p : β → Bool} : ∀ {l : List α} {a : α}, l.Nodup → a ∈ l →
    (∀ b ∈ f a, p b = true) → (∀ c ∈ l, c ≠ a → ∀ b ∈ f c, p b = false) → (l.flatMap f).filter p = f a
  | c :: l, a, hn, ha, hin, hout => by
    rw [List.nodup_cons] at hn
    rw [List.flatMap_cons, List.filter_append]
    rcases List.mem_cons.mp ha with rfl | hm
    · have h1 : (f a).filter p = f a := List.filter_eq_self.mpr hin
      have h2 : (l.flatMap f).filter p = [] := by
        rw [List.filter_eq_nil_iff]
        intro b hb
        obtain ⟨d, hd, hbd⟩ := List.mem_flatMap.mp hb
        have := hout d (List.mem_cons_of_mem _ hd) (fun e => hn.1 (e ▸ hd)) b hbd
        simp [this]
      rw [h1, h2, List.append_nil]
    · have h1 : (f c).filter p = [] := by
        rw [List.filter_eq_nil_iff]
        intro b hb
        have := hout c (List.mem_cons_self ..) (fun e => hn.1 (e ▸ hm)) b hb
        simp [this]
      rw [h1, List.nil_append]
      exact filter_flatMap hn.2 hm hin fun d hd => hout d (List.mem_cons_of_mem _ hd)

/-- What vanishes on every fibre of a key vanishes altogether. -/
theorem sum_eq_zero_of_fibres {M : Type*} [AddCommMonoid M] (f : α → κ) (g : α → M) :
    ∀ (n : Nat) (l : List α), l.length ≤ n →
      (∀ a ∈ l, ((l.filter fun b => decide (f b = f a)).map g).sum = 0) → (l.map g).sum = 0
  | _, [], _, _ => rfl
  | 0, a :: l, hn, _ => by simp at hn
  | n + 1, a :: l, hn, h => by
    have hsplit : ((a :: l).map g).sum = (((a :: l).filter fun b => decide (f b = f a)).map g).sum +
        (((a :: l).filter fun b => !decide (f b = f a)).map g).sum := by
      rw [← List.sum_append, ← List.map_append]
      exact ((List.filter_append_perm _ _).map g).sum_eq.symm
    rw [hsplit, h a (List.mem_cons_self ..), zero_add]
    refine sum_eq_zero_of_fibres f g n _ ?_ ?_
    · have : ((a :: l).filter fun b => !decide (f b = f a)).length ≤ l.length := by
        rw [List.filter_cons]
        simpa using List.length_filter_le _ l
      simp only [List.length_cons] at hn
      omega
    · intro b hb
      rw [List.mem_filter] at hb
      rw [List.filter_filter]
      have hne : f b ≠ f a := by simpa using hb.2
      rw [← h b hb.1]
      congr 2
      apply List.filter_congr
      intro c _
      by_cases hc : f c = f b
      · simp [hc, hne]
      · simp [hc]

theorem sum_filter_eq_zero {M : Type*} [AddCommMonoid M] (f : α → κ) (g : α → M) {p : α → Bool} {l : List α}
    (hp : ∀ a ∈ l, ∀ b ∈ l, f a = f b → p a = p b)
    (h : ∀ a ∈ l, ((l.filter fun b => decide (f b = f a)).map g).sum = 0) : ((l.filter p).map g).sum = 0 := by
  refine sum_eq_zero_of_fibres f g _ _ (Nat.le_refl _) fun a ha => ?_
  obtain ⟨ha, hpa⟩ := List.mem_filter.mp ha
  rw [← h a ha, List.filter_filter]
  congr 2
  apply List.filter_congr
  intro b hb
  by_cases hab : f b = f a
  · simp [hab, hp b hb a ha hab, hpa]
  · simp [hab]

theorem Distinct.sum_at {M : Type*} [AddCommMonoid M] {f : α → κ} (m : M) : ∀ {l : List α}, Distinct f l →
    ∀ {a : α}, a ∈ l → ∀ {k : κ}, f a = k → (l.map fun b => if k = f b then m else 0).sum = m
  | c :: l, h, a, ha, k, hk => by
    rw [Distinct, List.pairwise_cons] at h
    rw [List.map_cons, List.sum_cons]
    rcases List.mem_cons.mp ha with rfl | hm
    · have hrest : (l.map fun b => if k = f b then m else 0).sum = 0 := by
        apply List.sum_eq_zero
        intro x hx
        obtain ⟨b, hb, rfl⟩ := List.mem_map.mp hx
        exact if_neg fun e => h.1 b hb (hk.trans e)
      rw [hrest, if_pos hk.symm, add_zero]
    · rw [if_neg fun e => h.1 a hm (e.symm.trans hk.symm), zero_add, Distinct.sum_at m h.2 hm hk]

/-- A sum over a table that refers to another one, taken one row of the other at a time. -/
theorem Distinct.sum_fibres {M : Type*} [AddCommMonoid M] {f : α → κ} {l : List α} (hd : Distinct f l)
    (g : β → κ) (m : β → M) : ∀ (es : List β), (∀ e ∈ es, ∃ a ∈ l, f a = g e) →
      (l.map fun a => ((es.filter fun e => decide (g e = f a)).map m).sum).sum = (es.map m).sum
  | [], _ => by simp
  | e :: es, h => by
    obtain ⟨a, ha, hk⟩ := h e (List.mem_cons_self ..)
    have hsplit : ∀ b, (((e :: es).filter fun e => decide (g e = f b)).map m).sum =
        (if g e = f b then m e else 0) + ((es.filter fun e => decide (g e = f b)).map m).sum := by
      intro b
      by_cases hb : g e = f b
      · rw [List.filter_cons_of_pos (by simpa using hb), List.map_cons, List.sum_cons, if_pos hb]
      · rw [List.filter_cons_of_neg (by simpa using hb), if_neg hb, zero_add]
    simp only [hsplit]
    rw [List.sum_map_add, hd.sum_at (m e) ha hk,
      hd.sum_fibres g m es fun e' he' => h e' (List.mem_cons_of_mem _ he'), List.map_cons, List.sum_cons]

/-- The same where both tables carry a label the reference respects, over the rows of some labels only. -/
theorem Distinct.sum_labelled {M γ : Type*} [AddCommMonoid M] {f : α → κ} {l : List α} (hd : Distinct f l)
    (g : β → κ) (m : β → M) {c : α → γ} {d : β → γ} (p : γ → Bool) {es : List β}
    (h : ∀ e ∈ es, ∃ a ∈ l, f a = g e ∧ c a = d e) :
    ((l.filter fun a => p (c a)).map fun a => ((es.filter fun e => decide (g e = f a)).map m).sum).sum =
      ((es.filter fun e => p (d e)).map m).sum := by
  have hd' : Distinct f (l.filter fun a => p (c a)) := List.Pairwise.sublist List.filter_sublist hd
  have howner : ∀ e ∈ es.filter (fun e => p (d e)), ∃ a ∈ l.filter (fun a => p (c a)), f a = g e := by
    intro e he
    obtain ⟨he, hpe⟩ := List.mem_filter.mp he
    obtain ⟨a, ha, hk, hc⟩ := h e he
    exact ⟨a, List.mem_filter.mpr ⟨ha, by rw [hc]; exact hpe⟩, hk⟩
  rw [← hd'.sum_fibres g m _ howner]
  congr 1
  refine List.map_congr_left fun a ha => ?_
  obtain ⟨ha, hpa⟩ := List.mem_filter.mp ha
  rw [List.filter_filter]
  -- what refers to the row has its label
  congr 2
  refine List.filter_congr fun e he => ?_
  by_cases hk : g e = f a
  · obtain ⟨b, hb, hbk, hbc⟩ := h e he
    rw [← hbc, hd.eq hb ha (hbk.trans hk)]
    simp [hk, hpa]
  · simp [hk]

end

end Keyed
