import SamaraOS.Lib.Frame

/-!
# Loops of actions that may be cut off

`Ends x s ok no` says how an action ends from a state: it returns in a state with `ok`, or it is
cut off with an error and a state with `no`.  A loop ends well if every round keeps an invariant
and does its work, and what is done stays done.
-/

namespace SamaraOS

variable {σ ε α : Type} {f : σ → EStateM ε σ Unit} {c : Prop}

def each (f : α → EStateM ε σ Unit) : List α → EStateM ε σ Unit
  | [] => pure ()
  | x :: xs => do
    f x
    each f xs

def look (f : σ → EStateM ε σ Unit) : EStateM ε σ Unit := fun s => f s s

variable {R : σ → σ → Prop}

theorem Keeps.look (hf : ∀ s, Keeps R (f s)) : Keeps R (look f) :=
  ⟨fun s => (hf s).run s⟩

def onlyIf (c : Prop) [Decidable c] (x : EStateM ε σ Unit) : EStateM ε σ Unit :=
  if c then x else pure ()

theorem Keeps.onlyIf [Std.Refl R] [Decidable c]
    {x : EStateM ε σ Unit} (hx : Keeps R x) : Keeps R (onlyIf c x) :=
  .ite hx (.pure ())

theorem Keeps.modified {f : σ → σ} (hf : ∀ s, R s (f s)) : Keeps R (modify f : EStateM ε σ Unit) :=
  ⟨hf⟩

theorem Keeps.each [Std.Refl R] [IsTrans σ R] {f : α → EStateM ε σ Unit}
    (hf : ∀ x, Keeps R (f x)) (xs : List α) : Keeps R (each f xs) := by
  induction xs with
  | nil => exact .pure ()
  | cons x xs ih => exact .bind (hf x) fun _ => ih

def Ends (x : EStateM ε σ Unit) (s : σ) (ok : σ → Prop) (no : ε → σ → Prop) : Prop :=
  match x s with
  | .ok _ s => ok s
  | .error e s => no e s

namespace Ends

variable {x y : EStateM ε σ Unit} {s : σ} {ok ok' : σ → Prop} {no : ε → σ → Prop}

theorem modified {f : σ → σ} (h : ok (f s)) : Ends (modify f : EStateM ε σ Unit) s ok no := h

theorem look (h : Ends (f s) s ok no) :
    Ends (SamaraOS.look f) s ok no := h

theorem onlyIf [Decidable c] (hx : c → Ends x s ok no) (hn : ¬ c → ok s) :
    Ends (SamaraOS.onlyIf c x) s ok no := by
  unfold SamaraOS.onlyIf
  split
  · exact hx ‹_›
  · exact hn ‹_›

theorem bind (hx : Ends x s ok' no) (hy : ∀ t, ok' t → Ends y t ok no) :
    Ends (x >>= fun _ => y) s ok no := by
  unfold Ends at hx ⊢
  change match EStateM.bind x (fun _ => y) s with
    | .ok _ s => ok s
    | .error e s => no e s
  unfold EStateM.bind
  cases hxs : x s with
  | ok a t =>
    rw [hxs] at hx
    exact hy t hx
  | error e t =>
    rw [hxs] at hx
    exact hx

theorem mono {no' : ε → σ → Prop} (hx : Ends x s ok' no') (h : ∀ t, ok' t → ok t)
    (hno : ∀ e t, no' e t → no e t) : Ends x s ok no := by
  unfold Ends at hx ⊢
  cases hxs : x s with
  | ok a t =>
    rw [hxs] at hx
    exact h t hx
  | error e t =>
    rw [hxs] at hx
    exact hno e t hx

variable {R : σ → σ → Prop}

theorem keeps (hk : Keeps R x) (hx : Ends x s ok no) :
    Ends x s (fun t => ok t ∧ R s t) (fun e t => no e t ∧ R s t) := by
  have hr := hk.run s
  unfold Ends at hx ⊢
  cases hxs : x s with
  | ok a t | error e t =>
    rw [hxs] at hx hr
    exact ⟨hx, hr⟩

theorem bindKeeps (hk : Keeps R x) (hx : Ends x s ok' no)
    (hy : ∀ t, ok' t → R s t → Ends y t ok no) : Ends (x >>= fun _ => y) s ok no :=
  Ends.bind ((hx.keeps hk).mono (fun _ h => h) fun _ _ h => h.1) fun t ht => hy t ht.1 ht.2

theorem each [Std.Refl R] [IsTrans σ R] {f : α → EStateM ε σ Unit} {I : σ → Prop}
    {D : α → σ → Prop} (hkeeps : ∀ x, Keeps R (f x))
    (hmono : ∀ x s t, R s t → D x s → D x t) (xs : List α)
    (hf : ∀ x ∈ xs, ∀ s, I s → Ends (f x) s (fun t => I t ∧ D x t) no) (hs : I s) :
    Ends (SamaraOS.each f xs) s (fun t => I t ∧ ∀ x ∈ xs, D x t) no := by
  induction xs generalizing s with
  | nil => exact ⟨hs, by simp⟩
  | cons x xs ih =>
    refine Ends.bind (hf x (by simp) s hs) fun t ht => ?_
    have hrest := ih (fun y hy => hf y (List.mem_cons_of_mem _ hy)) ht.1
    refine (hrest.keeps (Keeps.each hkeeps xs)).mono (fun u hu => ⟨hu.1.1, fun y hy => ?_⟩)
      fun _ _ h => h.1
    rcases List.mem_cons.1 hy with rfl | hy
    · exact hmono _ _ _ hu.2 ht.2
    · exact hu.1.2 y hy

end Ends

end SamaraOS
