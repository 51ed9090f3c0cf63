import Mathlib.Data.List.Forall2

/-!
# Outcomes

A computation that may fail has a result or a fault. A sequence has a result if
its parts have, and a list of computations has one where each of them has. Otherwise
the fault is that of the first part that fails.
-/
namespace JarRank

variable {ε ε' α β : Type}

/-- In front of the first element with a property none has it. -/
theorem exists_first {P : α → Prop} {xs : List α} (h : ∃ x ∈ xs, P x) :
    ∃ front x back, xs = front ++ x :: back ∧ (∀ y ∈ front, ¬ P y) ∧ P x := by
  classical
  rcases h with ⟨x, hx, hP⟩
  have hsome : (xs.find? (P ·)).isSome := List.find?_isSome.2 ⟨x, hx, by simpa using hP⟩
  rcases Option.isSome_iff_exists.1 hsome with ⟨y, hy⟩
  rcases List.find?_eq_some_iff_append.1 hy with ⟨hP, front, back, hxs, hfront⟩
  exact ⟨front, y, back, hxs, by simpa using hfront, by simpa using hP⟩

namespace Except

instance decidableEq [DecidableEq ε] [DecidableEq α] : DecidableEq (Except ε α)
  | .error e, .error e' => decidable_of_iff (e = e') (by simp)
  | .ok a, .ok a' => decidable_of_iff (a = a') (by simp)
  | .ok _, .error _ => isFalse nofun
  | .error _, .ok _ => isFalse nofun

theorem bind_eq_ok_iff {x : Except ε α} {f : α → Except ε β} {b : β} :
    x >>= f = .ok b ↔ ∃ a, x = .ok a ∧ f a = .ok b := by
  cases x <;> simp [bind, Except.bind]

@[simp] theorem mapError_ok (f : ε → ε') (a : α) :
    (Except.ok a : Except ε α).mapError f = .ok a := rfl

@[simp] theorem mapError_error (f : ε → ε') (e : ε) :
    (Except.error e : Except ε α).mapError f = .error (f e) := rfl

theorem mapError_eq_ok_iff {x : Except ε α} {f : ε → ε'} {a : α} :
    x.mapError f = .ok a ↔ x = .ok a := by
  cases x <;> simp

theorem toOption_eq_some_iff {x : Except ε α} {a : α} : x.toOption = some a ↔ x = .ok a := by
  cases x <;> simp [Except.toOption]

theorem map_mapError (f : ε → ε') (g : α → β) (x : Except ε α) :
    (x.mapError f).map g = (x.map g).mapError f := by
  cases x <;> rfl

theorem mapM_eq_ok_iff {f : α → Except ε β} {xs : List α} {ys : List β} :
    xs.mapM f = .ok ys ↔ List.Forall₂ (fun x y => f x = .ok y) xs ys := by
  induction xs generalizing ys with
  | nil => cases ys <;> simp [pure, Except.pure]
  | cons x xs ih =>
      rw [List.mapM_cons, bind_eq_ok_iff]
      constructor
      · intro h
        obtain ⟨y, hy, h⟩ := h
        obtain ⟨ys', hys, h⟩ := bind_eq_ok_iff.1 h
        cases h
        exact .cons hy (ih.1 hys)
      · intro h
        cases h with
        | cons hy hys => exact ⟨_, hy, bind_eq_ok_iff.2 ⟨_, ih.2 hys, rfl⟩⟩

theorem bind_eq_error_iff {x : Except ε α} {f : α → Except ε β} {e : ε} :
    x >>= f = .error e ↔ x = .error e ∨ ∃ a, x = .ok a ∧ f a = .error e := by
  cases x <;> simp [bind, Except.bind]

theorem mapError_eq_error_iff {x : Except ε α} {f : ε → ε'} {e : ε'} :
    x.mapError f = .error e ↔ ∃ e₀, x = .error e₀ ∧ e = f e₀ := by
  cases x <;> simp [eq_comm]

/-- Of two computations whose results are the same but for what a function drops, both have one. -/
theorem exists_of_map_eq {x y : Except ε α} {f : α → β} (h : x.map f = y.map f) {a : α}
    (hx : x = .ok a) : ∃ b, y = .ok b ∧ f b = f a := by
  subst hx
  cases y with
  | error e => cases h
  | ok b => exact ⟨b, rfl, (Except.ok.inj h).symm⟩

/-- And if one of them fails, the other one fails in the same way. -/
theorem error_of_map_eq {x y : Except ε α} {f : α → β} (h : x.map f = y.map f) {e : ε}
    (hx : x = .error e) : y = .error e := by
  subst hx
  cases y with
  | error e' => exact congrArg Except.error (Except.error.inj h).symm
  | ok b => cases h

/-- A list of computations fails where the first of them does. -/
theorem mapM_eq_error_iff {f : α → Except ε β} {xs : List α} {e : ε} :
    xs.mapM f = .error e ↔ ∃ front x back, xs = front ++ x :: back ∧
      (∀ y ∈ front, ∃ b, f y = .ok b) ∧ f x = .error e := by
  induction xs with
  | nil => simp [pure, Except.pure]
  | cons x xs ih =>
      rw [List.mapM_cons, bind_eq_error_iff]
      constructor
      · intro h
        rcases h with h | ⟨b, hb, h⟩
        · exact ⟨[], x, xs, rfl, by simp, h⟩
        · rcases bind_eq_error_iff.1 h with h | ⟨bs, _, h⟩
          · rcases ih.1 h with ⟨front, y, back, rfl, hfront, hy⟩
            refine ⟨x :: front, y, back, rfl, ?_, hy⟩
            intro z hz
            rcases List.mem_cons.1 hz with rfl | hz
            · exact ⟨b, hb⟩
            · exact hfront z hz
          · cases h
      · intro h
        rcases h with ⟨front, y, back, hxs, hfront, hy⟩
        cases front with
        | nil =>
            cases hxs
            exact .inl hy
        | cons z front =>
            cases hxs
            rcases hfront x List.mem_cons_self with ⟨b, hb⟩
            have hrest := ih.2 ⟨front, y, back, rfl,
              fun z hz => hfront z (List.mem_cons_of_mem x hz), hy⟩
            exact .inr ⟨b, hb, bind_eq_error_iff.2 (.inl hrest)⟩

theorem exists_mapM_eq_error {f : α → Except ε β} {xs : List α} {x : α} (hx : x ∈ xs)
    (hf : ¬ ∃ b, f x = .ok b) : ∃ e, xs.mapM f = .error e := by
  cases h : xs.mapM f with
  | error e => exact ⟨e, rfl⟩
  | ok ys =>
      have hr := mapM_eq_ok_iff.1 h
      rcases List.mem_iff_getElem.1 hx with ⟨i, hi, rfl⟩
      exact (hf ⟨_, hr.get hi (hr.length_eq ▸ hi)⟩).elim

theorem mapM_congr {γ : Type} {f : α → Except ε β} {g : γ → Except ε β} {xs : List α} {ys : List γ}
    (h : List.Forall₂ (fun x y => f x = g y) xs ys) : xs.mapM f = ys.mapM g := by
  induction h with
  | nil => rfl
  | cons h _ ih => rw [List.mapM_cons, List.mapM_cons, h, ih]

/-- Where each computation fails as a list of others does, all of them fail as all of these do. -/
theorem mapM_flatMap_eq_error_iff {γ δ : Type} {f : α → Except ε β} {g : α → List γ}
    {h : γ → Except ε δ} {xs : List α} (hf : ∀ x ∈ xs, ∀ e, f x = .error e ↔ (g x).mapM h = .error e)
    {e : ε} : xs.mapM f = .error e ↔ (xs.flatMap g).mapM h = .error e := by
  induction xs with
  | nil => simp [pure, Except.pure]
  | cons x xs ih =>
      have hfirst := hf x List.mem_cons_self
      have hrest := ih fun y hy => hf y (List.mem_cons_of_mem x hy)
      rw [List.mapM_cons, List.flatMap_cons, List.mapM_append]
      cases hx : f x with
      | error e₀ =>
          have hg := (hfirst e₀).1 hx
          simp only [hg, bind_eq_error_iff]
          simp
      | ok b =>
          cases hg : (g x).mapM h with
          | error e₀ =>
              have hfx := (hfirst e₀).2 hg
              rw [hx] at hfx
              cases hfx
          | ok bs =>
              simp only [bind_eq_error_iff, hrest]
              simp [pure, Except.pure]

end Except
end JarRank
