import Mathlib

/-!
# Actions that keep a relation between states

`Keeps R x` says that whatever the action `x` does, and whether it returns or throws, the state
after it stands in `R` to the state before.  For a preorder `R` this is closed under `bind`.
-/

namespace SamaraOS

variable {σ ε α β : Type}

def finalState : EStateM.Result ε σ α → σ
  | .ok _ s => s
  | .error _ s => s

structure Keeps (R : σ → σ → Prop) (x : EStateM ε σ α) : Prop where
  run : ∀ s, R s (finalState (x s))

namespace Keeps

variable {R : σ → σ → Prop}

theorem pure [Std.Refl R] (a : α) : Keeps R (Pure.pure a : EStateM ε σ α) := ⟨Std.Refl.refl⟩

theorem throw [Std.Refl R] (e : ε) : Keeps R (throwThe ε e : EStateM ε σ α) := ⟨Std.Refl.refl⟩

theorem bind [IsTrans σ R] {x : EStateM ε σ α} {f : α → EStateM ε σ β} (hx : Keeps R x)
    (hf : ∀ a, Keeps R (f a)) : Keeps R (x >>= f) := by
  constructor
  intro s
  have hx := hx.run s
  change R s (finalState (EStateM.bind x f s))
  unfold EStateM.bind
  cases hxs : x s with
  | ok a t =>
    rw [hxs] at hx
    exact IsTrans.trans _ _ _ hx ((hf a).run t)
  | error e t =>
    rw [hxs] at hx
    exact hx

theorem ite {c : Prop} [Decidable c] {x y : EStateM ε σ α} (hx : Keeps R x) (hy : Keeps R y) :
    Keeps R (if c then x else y) := by
  split
  · exact hx
  · exact hy

end Keeps

end SamaraOS
