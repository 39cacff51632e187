import Mathlib.Logic.Basic

/-! Programs that change a state and end with a result or with an error, and
what holds where they end. -/

/-- The state is kept where a program fails. -/
def Program (σ ε α : Type) : Type := σ → Except ε α × σ

namespace Program

variable {σ ε α β : Type}

protected def pure (a : α) : Program σ ε α := fun s => (.ok a, s)

protected def bind (x : Program σ ε α) (f : α → Program σ ε β) :
    Program σ ε β := fun s =>
  match x s with
  | (.ok a, s') => f a s'
  | (.error e, s') => (.error e, s')

instance : Monad (Program σ ε) where
  pure := Program.pure
  bind := Program.bind

def get : Program σ ε σ := fun s => (.ok s, s)

def modify (f : σ → σ) : Program σ ε Unit := fun s => (.ok (), f s)

def throw (e : ε) : Program σ ε α := fun s => (.error e, s)

/-- The program fails under a condition. -/
def refuse (c : Prop) [Decidable c] (e : ε) : Program σ ε Unit :=
  if c then throw e else pure ()

/-- A program run for each element of a list. -/
def forEach (fn : α → Program σ ε Unit) : List α → Program σ ε Unit
  | [] => pure ()
  | a :: rest => do
      fn a
      forEach fn rest

/-- A computation without state. -/
def lift (x : Except ε α) : Program σ ε α := fun s => (x, s)

/-- Started in `s`, the program ends as `Q` says if it succeeds and as `E`
says if it fails. -/
def wp (x : Program σ ε α) (Q : α → σ → Prop) (E : ε → σ → Prop) (s : σ) :
    Prop :=
  match x s with
  | (.ok a, s') => Q a s'
  | (.error e, s') => E e s'

section

variable {Q : α → σ → Prop} {R : β → σ → Prop} {E : ε → σ → Prop} {s : σ}

@[simp] theorem wp_pure (a : α) :
    wp (pure a : Program σ ε α) Q E s ↔ Q a s := Iff.rfl

@[simp] theorem wp_bind (x : Program σ ε α) (f : α → Program σ ε β) :
    wp (x >>= f) R E s ↔ wp x (fun a s' => wp (f a) R E s') E s := by
  have hbind : (x >>= f) s = Program.bind x f s := rfl
  unfold wp
  rw [hbind, Program.bind]
  rcases x s with ⟨_ | _, _⟩ <;> rfl

@[simp] theorem wp_get {Q : σ → σ → Prop} :
    wp (get : Program σ ε σ) Q E s ↔ Q s s := Iff.rfl

@[simp] theorem wp_modify {Q : Unit → σ → Prop} (f : σ → σ) :
    wp (modify f : Program σ ε Unit) Q E s ↔ Q () (f s) := Iff.rfl

@[simp] theorem wp_throw (e : ε) :
    wp (throw e : Program σ ε α) Q E s ↔ E e s := Iff.rfl

theorem wp_lift (x : Except ε α) :
    wp (lift x) Q E s ↔ (∀ a, x = .ok a → Q a s) ∧ ∀ e, x = .error e → E e s := by
  cases x with
  | ok a => exact ⟨fun h => ⟨fun _ hb => Except.ok.inj hb ▸ h, nofun⟩,
      fun h => h.1 a rfl⟩
  | error e => exact ⟨fun h => ⟨nofun, fun _ he => Except.error.inj he ▸ h⟩,
      fun h => h.2 e rfl⟩

theorem wp_ite (c : Prop) [Decidable c] (x y : Program σ ε α) :
    wp (if c then x else y) Q E s ↔
      (c → wp x Q E s) ∧ (¬c → wp y Q E s) := by
  split
  · rename_i h
    exact ⟨fun hx => ⟨fun _ => hx, fun hn => absurd h hn⟩, fun h' => h'.1 h⟩
  · rename_i h
    exact ⟨fun hy => ⟨fun hc => absurd hc h, fun _ => hy⟩, fun h' => h'.2 h⟩

@[simp] theorem wp_refuse {Q : Unit → σ → Prop} (c : Prop) [Decidable c]
    (e : ε) : wp (refuse c e) Q E s ↔ (c → E e s) ∧ (¬c → Q () s) :=
  wp_ite c _ _

theorem wp_mono {x : Program σ ε α} {Q' : α → σ → Prop} {E' : ε → σ → Prop}
    (h : wp x Q E s) (hQ : ∀ a s', Q a s' → Q' a s')
    (hE : ∀ e s', E e s' → E' e s') : wp x Q' E' s := by
  unfold wp at h ⊢
  split at h
  · exact hQ _ _ h
  · exact hE _ _ h

theorem wp_and {x : Program σ ε α} {Q' : α → σ → Prop} {E' : ε → σ → Prop}
    (h : wp x Q E s) (h' : wp x Q' E' s) :
    wp x (fun a s' => Q a s' ∧ Q' a s') (fun e s' => E e s' ∧ E' e s') s := by
  unfold wp at h h' ⊢
  split <;> simp_all

theorem wp_ok {x : Program σ ε α} {a : α} {s' : σ} (hx : x s = (.ok a, s'))
    (h : wp x Q E s) : Q a s' := by
  rw [wp, hx] at h
  exact h

theorem wp_error {x : Program σ ε α} {e : ε} {s' : σ}
    (hx : x s = (.error e, s')) (h : wp x Q E s) : E e s' := by
  rw [wp, hx] at h
  exact h

theorem wp_run (x : Program σ ε α) (s : σ) :
    wp x (fun a s' => x s = (.ok a, s')) (fun e s' => x s = (.error e, s')) s := by
  unfold wp
  split
  · next hrun => exact hrun
  · next hrun => exact hrun

theorem bind_of_ok {x : Program σ ε α} {f : α → Program σ ε β} {a : α} {s' : σ}
    (hx : x s = (.ok a, s')) : (x >>= f) s = f a s' := by
  have hbind : (x >>= f) s = Program.bind x f s := rfl
  rw [hbind, Program.bind, hx]

end

/-! ## Relations between the states before and after -/

/-- Started in any state, the program ends in one that `R` relates to it, or
fails as `F` allows. -/
def Relates (x : Program σ ε α) (R : σ → σ → Prop) (F : ε → σ → σ → Prop) :
    Prop := ∀ s, wp x (fun _ s' => R s s') (fun e s' => F e s s') s

/-- What it takes for the relations of parts to be the relation of the
whole. -/
structure Composes (R : σ → σ → Prop) (F : ε → σ → σ → Prop) : Prop where
  refl : ∀ s, R s s
  trans : ∀ {s t u}, R s t → R t u → R s u
  fails : ∀ {e s t u}, R s t → F e t u → F e s u

section

variable {R R' : σ → σ → Prop} {F F' : ε → σ → σ → Prop}

namespace Relates

theorem pure (h : Composes R F) (a : α) :
    Relates (pure a : Program σ ε α) R F := fun s => h.refl s

theorem get (h : Composes R F) : Relates (get : Program σ ε σ) R F :=
  fun s => h.refl s

theorem bind (h : Composes R F) {x : Program σ ε α} {f : α → Program σ ε β}
    (hx : Relates x R F) (hf : ∀ a, Relates (f a) R F) :
    Relates (x >>= f) R F := by
  intro s
  rw [wp_bind]
  apply wp_mono (hx s)
  · intro a t hst
    apply wp_mono (hf a t)
    · exact fun _ _ htu => h.trans hst htu
    · exact fun _ _ htu => h.fails hst htu
  · exact fun _ _ hfail => hfail

theorem ite {c : Prop} [Decidable c] {x y : Program σ ε α}
    (hx : c → Relates x R F) (hy : ¬c → Relates y R F) :
    Relates (if c then x else y) R F := by
  intro s
  rw [wp_ite]
  exact ⟨fun hc => hx hc s, fun hc => hy hc s⟩

theorem lift (h : Composes R F) {x : Except ε α}
    (hx : ∀ e s, x = .error e → F e s s) : Relates (lift x) R F := by
  intro s
  rw [wp_lift]
  exact ⟨fun _ _ => h.refl s, fun e he => hx e s he⟩

theorem mono {x : Program σ ε α} (hx : Relates x R F)
    (hR : ∀ s t, R s t → R' s t) (hF : ∀ e s t, F e s t → F' e s t) :
    Relates x R' F' := fun s =>
  wp_mono (hx s) (fun _ t => hR s t) fun e t => hF e s t

end Relates

end

end Program
