/-
Attempts, and two runs side by side.

What gives a result was made of steps that give one. Two attempts end alike if
both fail, for related reasons, or both give related results. A computation
follows another one if it gives a result wherever the other does, from related
states and with related results and states. What the other one fails with does
not matter then.
-/
import StoryLang.Fault

namespace StoryLang

/-! ## What a result comes from -/

section Results

variable {ε α β : Type} {x : Except ε α} {a : α} {b : β}

theorem toOption_eq_some : x.toOption = some a ↔ x = .ok a := by
  cases x <;> simp [Except.toOption]

theorem map_eq_ok {f : α → β} : x.map f = .ok b ↔ ∃ a, x = .ok a ∧ f a = b := by
  cases x <;> simp [Except.map]

theorem ok_of_bind {f : α → Except ε β} (h : x >>= f = .ok b) : ∃ a, x = .ok a ∧ f a = .ok b := by
  cases x with
  | ok a => exact ⟨a, rfl, h⟩
  | error e => cases h

end Results

/-! ## Attempts that end alike -/

/-- Both attempts fail, for related reasons, or both give related results. -/
inductive EndAlike {ε α : Type} (E : ε → ε → Prop) (A : α → α → Prop) :
    Except ε α → Except ε α → Prop where
  | error {e e' : ε} (reasons : E e e') : EndAlike E A (.error e) (.error e')
  | ok {a a' : α} (results : A a a') : EndAlike E A (.ok a) (.ok a')

namespace EndAlike

variable {ε α β : Type} {E : ε → ε → Prop} {A : α → α → Prop} {B : β → β → Prop}
  {x x' : Except ε α}

theorem map {f f' : α → β} (h : EndAlike E A x x') (hf : ∀ a a', A a a' → B (f a) (f' a')) :
    EndAlike E B (x.map f) (x'.map f') := by
  cases h with
  | error he => exact .error he
  | ok ha => exact .ok (hf _ _ ha)

theorem mono {A' : α → α → Prop} (h : EndAlike E A x x') (ha : ∀ a a', A a a' → A' a a') :
    EndAlike E A' x x' := by
  cases h with
  | error he => exact .error he
  | ok hr => exact .ok (ha _ _ hr)

theorem bind {f f' : α → Except ε β} (h : EndAlike E A x x')
    (hf : ∀ a a', A a a' → EndAlike E B (f a) (f' a')) : EndAlike E B (x.bind f) (x'.bind f') := by
  cases h with
  | error he => exact .error he
  | ok ha => exact hf _ _ ha

theorem exists_ok {a : α} (h : EndAlike E A x x') (hx : x = .ok a) : ∃ a', x' = .ok a' ∧ A a a' := by
  subst hx
  cases h with
  | ok ha => exact ⟨_, rfl, ha⟩

end EndAlike

/-! ## Computations that follow each other -/

section Follows

variable {σ ε α β γ : Type} {S : σ → σ → Prop} {A : α → α → Prop} {B : β → β → Prop}
  {x x' : StateT σ (Except ε) α} {f f' : α → StateT σ (Except ε) β}

/-- From a state related to one where `x` gives a result, `x'` gives a related one. -/
def Follows (S : σ → σ → Prop) (A : α → α → Prop) (x x' : StateT σ (Except ε) α) : Prop :=
  ∀ s s' a t, S s s' → x s = .ok (a, t) → ∃ a' t', x' s' = .ok (a', t') ∧ A a a' ∧ S t t'

namespace Follows

theorem refl (x : StateT σ (Except ε) α) : Follows Eq Eq x x := by
  rintro s _ a t rfl h
  exact ⟨a, t, h, rfl, rfl⟩

theorem pure {a a' : α} (h : A a a') : Follows S A (Pure.pure a : StateT σ (Except ε) α) (Pure.pure a') := by
  intro s s' b t hs hx
  obtain ⟨rfl, rfl⟩ := Prod.mk.inj (Except.ok.inj hx)
  exact ⟨a', s', rfl, h, hs⟩

theorem bind (h : Follows S A x x') (hf : ∀ a a', A a a' → Follows S B (f a) (f' a')) :
    Follows S B (x >>= f) (x' >>= f') := by
  intro s s' b u hs hx
  simp only [Bind.bind, StateT.bind, Except.bind] at hx ⊢
  split at hx
  · simp at hx
  · rename_i out ho
    obtain ⟨a, t⟩ := out
    obtain ⟨a', t', ho', ha, ht⟩ := h s s' a t hs ho
    rw [ho']
    exact hf a a' ha t t' b u ht hx

/-- The same where both give the same. -/
theorem bindSame (h : Follows S Eq x x') (hf : ∀ a, Follows S B (f a) (f' a)) :
    Follows S B (x >>= f) (x' >>= f') :=
  h.bind fun _ a' ha => ha ▸ hf a'

theorem mono {A' : α → α → Prop} (h : Follows S A x x') (ha : ∀ a a', A a a' → A' a a') :
    Follows S A' x x' := by
  intro s s' a t hs hx
  obtain ⟨a', t', hx', haa, ht⟩ := h s s' a t hs hx
  exact ⟨a', t', hx', ha a a' haa, ht⟩

/-- What never gives a result is followed by anything. -/
theorem of_error (h : ∀ s a t, x s ≠ .ok (a, t)) : Follows S A x x' :=
  fun s _ a t _ hx => absurd hx (h s a t)

theorem ite {c : Prop} [Decidable c] {y y' : StateT σ (Except ε) α} (hx : Follows S A x x')
    (hy : Follows S A y y') : Follows S A (if c then x else y) (if c then x' else y') := by
  split
  · exact hx
  · exact hy

theorem map {g g' : α → β} (h : Follows S A x x') (hg : ∀ a a', A a a' → B (g a) (g' a')) :
    Follows S B (g <$> x) (g' <$> x') := by
  rw [← bind_pure_comp, ← bind_pure_comp]
  exact h.bind fun a a' ha => .pure (hg a a' ha)

end Follows

end Follows

section Together

variable {σ ε α β : Type} {S : σ → σ → Prop} {E : ε → ε → Prop} {A : α → α → Prop} {B : β → β → Prop}
  {x x' : StateT σ (Except ε) α} {f f' : α → StateT σ (Except ε) β}

/-- From related states both fail, for related reasons, or both give related results and states. -/
def Together (S : σ → σ → Prop) (E : ε → ε → Prop) (A : α → α → Prop)
    (x x' : StateT σ (Except ε) α) : Prop :=
  ∀ s s', S s s' → EndAlike E (fun out out' => A out.1 out'.1 ∧ S out.2 out'.2) (x s) (x' s')

namespace Together

theorem pure {a a' : α} (h : A a a') :
    Together S E A (Pure.pure a : StateT σ (Except ε) α) (Pure.pure a') :=
  fun _ _ hs => .ok ⟨h, hs⟩

theorem bind (h : Together S E A x x') (hf : ∀ a a', A a a' → Together S E B (f a) (f' a')) :
    Together S E B (x >>= f) (x' >>= f') :=
  fun s s' hs => (h s s' hs).bind fun out out' hout => hf out.1 out'.1 hout.1 out.2 out'.2 hout.2

/-- The same where both give the same. -/
theorem bindSame (h : Together S E Eq x x') (hf : ∀ a, Together S E B (f a) (f' a)) :
    Together S E B (x >>= f) (x' >>= f') :=
  h.bind fun _ a' ha => ha ▸ hf a'

theorem mono {A' : α → α → Prop} (h : Together S E A x x') (ha : ∀ a a', A a a' → A' a a') :
    Together S E A' x x' := by
  intro s s' hs
  have hx := h s s' hs
  revert hx
  generalize x s = r, x' s' = r'
  rintro (he | hout)
  · exact .error he
  · exact .ok ⟨ha _ _ hout.1, hout.2⟩

/-- Both fail before anything else. -/
theorem of_error_bind (h : ∀ s s', S s s' → ∃ e e', x s = .error e ∧ x' s' = .error e' ∧ E e e') :
    Together S E B (x >>= f) (x' >>= f') := by
  intro s s' hs
  obtain ⟨e, e', he, he', hee⟩ := h s s' hs
  simp only [Bind.bind, StateT.bind, Except.bind, he, he']
  exact .error hee

theorem ite {c : Prop} [Decidable c] {y y' : StateT σ (Except ε) α} (hx : Together S E A x x')
    (hy : Together S E A y y') : Together S E A (if c then x else y) (if c then x' else y') := by
  split
  · exact hx
  · exact hy

end Together

end Together

end StoryLang
