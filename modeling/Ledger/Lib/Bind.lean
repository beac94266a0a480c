import Mathlib.Logic.Basic

/-!
# Taking `Except` and `Option` computations apart
-/

namespace Bind

variable {ε α β : Type}

theorem ok {x : Except ε α} {f : α → Except ε β} {b : β} :
    (x >>= f) = .ok b ↔ ∃ a, x = .ok a ∧ f a = .ok b := by
  cases x with
  | error e => simp [bind, Except.bind]
  | ok a => simp [bind, Except.bind]

theorem error {x : Except ε α} {f : α → Except ε β} {e : ε} :
    (x >>= f) = .error e ↔ x = .error e ∨ ∃ a, x = .ok a ∧ f a = .error e := by
  cases x with
  | error e => simp [bind, Except.bind]
  | ok a => simp [bind, Except.bind]

theorem forM_error {f : α → Except ε Unit} {e : ε} : ∀ {l : List α}, l.forM f = .error e → ∃ a ∈ l, f a = .error e
  | a :: l, h => by
    rw [List.forM] at h
    rcases error.mp h with h | ⟨_, -, h⟩
    · exact ⟨a, List.mem_cons_self .., h⟩
    · obtain ⟨b, hb, hf⟩ := forM_error h
      exact ⟨b, List.mem_cons_of_mem _ hb, hf⟩

theorem forM_ok {f : α → Except ε PUnit} : ∀ {l : List α}, l.forM f = .ok ⟨⟩ ↔ ∀ a ∈ l, f a = .ok ⟨⟩
  | [] => by simp [List.forM, pure, Except.pure]
  | a :: l => by
    rw [List.forall_mem_cons, ← forM_ok, List.forM]
    cases h : f a with
    | error e => simp [bind, Except.bind]
    | ok u => simp [bind, Except.bind]

theorem mapError_error {f : ε → β} {x : Except ε α} {e : β} (h : x.mapError f = .error e) : ∃ e', e = f e' := by
  cases x with
  | error e' => exact ⟨e', (Except.error.inj h).symm⟩
  | ok a => cases h

theorem mapError_ok {ε' : Type} {f : ε → ε'} {x : Except ε α} {a : α} : x.mapError f = .ok a ↔ x = .ok a := by
  cases x with
  | error e => exact ⟨fun h => (by cases h), fun h => (by cases h)⟩
  | ok b => exact ⟨fun h => congrArg Except.ok (Except.ok.inj h), fun h => congrArg Except.ok (Except.ok.inj h)⟩

theorem mapM_error {f : α → Except ε β} {e : ε} : ∀ {l : List α}, l.mapM f = .error e → ∃ a ∈ l, f a = .error e
  | [], h => by
    rw [List.mapM_nil] at h
    cases h
  | a :: l, h => by
    rw [List.mapM_cons] at h
    rcases error.mp h with h | ⟨_, -, h⟩
    · exact ⟨a, List.mem_cons_self .., h⟩
    rcases error.mp h with h | ⟨_, -, h⟩
    · obtain ⟨b, hb, hf⟩ := mapM_error h
      exact ⟨b, List.mem_cons_of_mem _ hb, hf⟩
    · cases h

theorem mapM_mem {f : α → Except ε β} : ∀ {l : List α} {m : List β}, l.mapM f = .ok m →
    ∀ b ∈ m, ∃ a ∈ l, f a = .ok b
  | [], m, h, b, hb => by
    simp only [List.mapM_nil, pure, Except.pure, Except.ok.injEq] at h
    subst h; cases hb
  | a :: l, m, h, b, hb => by
    rw [List.mapM_cons] at h
    obtain ⟨c, hc, h⟩ := ok.mp h
    obtain ⟨cs, hcs, h⟩ := ok.mp h
    simp only [pure, Except.pure, Except.ok.injEq] at h
    subst h
    rcases List.mem_cons.mp hb with rfl | hb
    · exact ⟨a, List.mem_cons_self .., hc⟩
    · obtain ⟨d, hd, hfd⟩ := mapM_mem hcs b hb
      exact ⟨d, List.mem_cons_of_mem _ hd, hfd⟩

theorem mapM_image {f : α → Except ε β} : ∀ {l : List α} {m : List β}, l.mapM f = .ok m →
    ∀ a ∈ l, ∃ b ∈ m, f a = .ok b
  | c :: l, m, h, a, ha => by
    rw [List.mapM_cons] at h
    obtain ⟨d, hd, h⟩ := ok.mp h
    obtain ⟨ds, hds, h⟩ := ok.mp h
    simp only [pure, Except.pure, Except.ok.injEq] at h
    subst h
    rcases List.mem_cons.mp ha with rfl | ha
    · exact ⟨d, List.mem_cons_self .., hd⟩
    · obtain ⟨b, hb, hf⟩ := mapM_image hds a ha
      exact ⟨b, List.mem_cons_of_mem _ hb, hf⟩

theorem mapM_ok {f : α → Except ε β} {g : α → β} : ∀ {l : List α}, (∀ a ∈ l, f a = .ok (g a)) →
    l.mapM f = .ok (l.map g)
  | [], _ => rfl
  | a :: l, h => by
    rw [List.mapM_cons, h a (List.mem_cons_self ..), mapM_ok fun b hb => h b (List.mem_cons_of_mem _ hb)]
    rfl

theorem mapM_some {f : α → Option β} {g : α → β} : ∀ {l : List α}, (∀ a ∈ l, f a = some (g a)) →
    l.mapM f = some (l.map g)
  | [], _ => rfl
  | a :: l, h => by
    rw [List.mapM_cons, h a (List.mem_cons_self ..), mapM_some fun b hb => h b (List.mem_cons_of_mem _ hb)]
    rfl

theorem mapM_defined {f : α → Option β} : ∀ {l : List α} {m : List β}, l.mapM f = some m →
    ∀ a ∈ l, ∃ b, f a = some b
  | a :: l, m, h, b, hb => by
    rw [List.mapM_cons, Option.bind_eq_bind, Option.bind_eq_some_iff] at h
    obtain ⟨c, hc, h⟩ := h
    rw [Option.bind_eq_bind, Option.bind_eq_some_iff] at h
    obtain ⟨cs, hcs, -⟩ := h
    rcases List.mem_cons.mp hb with rfl | hb
    · exact ⟨c, hc⟩
    · exact mapM_defined hcs b hb

theorem mapM_of_defined {f : α → Option β} : ∀ {l : List α}, (∀ a ∈ l, ∃ b, f a = some b) → ∃ m, l.mapM f = some m
  | [], _ => ⟨[], rfl⟩
  | a :: l, h => by
    obtain ⟨b, hb⟩ := h a (List.mem_cons_self ..)
    obtain ⟨m, hm⟩ := mapM_of_defined fun c hc => h c (List.mem_cons_of_mem _ hc)
    exact ⟨b :: m, by rw [List.mapM_cons, hb, hm]; rfl⟩

theorem mapM_getElem {f : α → Option β} : ∀ {l : List α} {m : List β} (n : Nat), l.mapM f = some m →
    m[n]? = l[n]?.bind f
  | [], m, n, h => by
    simp only [List.mapM_nil, pure, Option.some.injEq] at h
    subst h; rfl
  | a :: l, m, n, h => by
    rw [List.mapM_cons, Option.bind_eq_bind, Option.bind_eq_some_iff] at h
    obtain ⟨c, hc, h⟩ := h
    rw [Option.bind_eq_bind, Option.bind_eq_some_iff] at h
    obtain ⟨cs, hcs, h⟩ := h
    simp only [pure, Option.some.injEq] at h
    subst h
    cases n with
    | zero => simp [hc]
    | succ n => simpa using mapM_getElem n hcs

end Bind
