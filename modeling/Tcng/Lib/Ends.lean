/-! What holds of the result of a computation that may fail. -/

namespace Except

variable {ε α β : Type}

/-- A result has the property `Q`, or an error the property `E`. -/
def Ends (Q : α → Prop) (E : ε → Prop) : Except ε α → Prop
  | .ok a => Q a
  | .error e => E e

variable {Q : α → Prop} {R : β → Prop} {E : ε → Prop} {x : Except ε α}

@[simp] theorem ends_ok (a : α) : (Except.ok a : Except ε α).Ends Q E ↔ Q a :=
  Iff.rfl

@[simp] theorem ends_pure (a : α) :
    (pure a : Except ε α).Ends Q E ↔ Q a := Iff.rfl

@[simp] theorem ends_error (e : ε) :
    (Except.error e : Except ε α).Ends Q E ↔ E e := Iff.rfl

theorem Ends.mono {Q' : α → Prop} (h : x.Ends Q E) (hQ : ∀ a, Q a → Q' a) :
    x.Ends Q' E := by
  cases x with
  | ok a => exact hQ a h
  | error e => exact h

theorem Ends.mono_error {E' : ε → Prop} (h : x.Ends Q E)
    (hE : ∀ e, E e → E' e) : x.Ends Q E' := by
  cases x with
  | ok a => exact h
  | error e => exact hE e h

theorem Ends.bind {f : α → Except ε β} (h : x.Ends Q E)
    (hf : ∀ a, Q a → (f a).Ends R E) : (x >>= f).Ends R E := by
  cases x with
  | ok a => exact hf a h
  | error e => exact h

theorem Ends.map {f : α → β} (h : x.Ends (fun a => R (f a)) E) :
    (x.map f).Ends R E := by
  cases x with
  | ok a => exact h
  | error e => exact h

theorem ok_bind (a : α) (f : α → Except ε β) :
    (Except.ok a >>= f) = f a := rfl

theorem bind_eq_ok {f : α → Except ε β} {b : β} :
    x >>= f = .ok b ↔ ∃ a, x = .ok a ∧ f a = .ok b := by
  cases x with
  | error e => exact ⟨fun h => (nomatch h), fun ⟨_, h, _⟩ => (nomatch h)⟩
  | ok a => exact ⟨fun h => ⟨a, rfl, h⟩, fun ⟨_, h, hf⟩ => ok.inj h ▸ hf⟩

theorem Ends.of_ok (h : x.Ends Q E) {a : α} (hx : x = .ok a) : Q a := by
  subst hx
  exact h

theorem Ends.of_error (h : x.Ends Q E) {e : ε} (hx : x = .error e) : E e := by
  subst hx
  exact h

end Except
