import Mathlib.Tactic

/-!
# Programs that change a state, fail or panic

A program takes a state and ends in one of three ways: it returns a value, it returns an error,
or it panics.  A returned error does not undo anything, so both returns carry the state that was
reached; a panic carries none, since the caller is not resumed.

`Exec.wp m Q E s` says what a run of `m` from `s` guarantees: `Q` of the value and the state if it
returns a value, `E` of the error and the state if it returns an error.  The rules below take it
apart along the program, so that a proof about a program cites one fact for each program it calls.
-/

namespace Framework

/-- How a program ends. -/
inductive Outcome (ε σ α : Type) where
  | ok (value : α) (state : σ)
  | err (error : ε) (state : σ)
  | panic
deriving DecidableEq

/-- A program over states `σ` with errors `ε` and results `α`. -/
def Exec (ε σ α : Type) : Type := σ → Outcome ε σ α

namespace Exec

variable {ε σ α β : Type}

instance : Monad (Exec ε σ) where
  pure a := fun s => .ok a s
  bind m f := fun s =>
    match m s with
    | .ok a s' => f a s'
    | .err e s' => .err e s'
    | .panic => .panic

variable {m : Exec ε σ α} {s' : σ}

lemma bind_apply (m : Exec ε σ α) (f : α → Exec ε σ β) (s : σ) : (m >>= f) s = match m s with
    | .ok a s' => f a s'
    | .err e s' => .err e s'
    | .panic => .panic := rfl

lemma bind_of_ok {s : σ} {a : α} (h : m s = .ok a s') (f : α → Exec ε σ β) :
    (m >>= f) s = f a s' := by
  rw [bind_apply, h]

variable {e : ε}

lemma bind_of_err {s : σ} (h : m s = .err e s') (f : α → Exec ε σ β) : (m >>= f) s = .err e s' := by
  rw [bind_apply, h]

/-- Stop with an error; what was done before is kept. -/
def throw (e : ε) : Exec ε σ α := fun s => .err e s

/-- Stop with a panic. -/
def panic : Exec ε σ α := fun _ => .panic

/-- The current state. -/
def get : Exec ε σ σ := fun s => .ok s s

/-- Change the state. -/
def modify (f : σ → σ) : Exec ε σ Unit := fun s => .ok () (f s)

/-- An assertion: it panics when `c` is false. -/
def require (c : Prop) [Decidable c] : Exec ε σ Unit := if c then pure () else panic

/-- An early return with the error `e` when `c` holds. -/
def failIf (c : Prop) [Decidable c] (e : ε) : Exec ε σ Unit := if c then throw e else pure ()

/-- The value of a computation without effects, whose `none` is a panic. -/
def ofOption : Option α → Exec ε σ α
  | some a => pure a
  | none => panic

/-- The value of a computation without effects that can fail. -/
def ofExcept : Except ε α → Exec ε σ α
  | .ok a => pure a
  | .error e => throw e

/-- Run `m` and hand its result, error or not, to the caller. -/
def attempt (m : Exec ε σ α) : Exec ε σ (Except ε α) := fun s =>
  match m s with
  | .ok a s' => .ok (.ok a) s'
  | .err e s' => .ok (.error e) s'
  | .panic => .panic

/-- What a run of `m` from `s` guarantees when it returns. -/
def wp (m : Exec ε σ α) (Q : α → σ → Prop) (E : ε → σ → Prop) (s : σ) : Prop :=
  match m s with
  | .ok a s' => Q a s'
  | .err e s' => E e s'
  | .panic => True

variable {Q Q' : α → σ → Prop} {R : β → σ → Prop} {E E' : ε → σ → Prop} {s : σ}

@[simp] lemma wp_pure (a : α) : wp (pure a : Exec ε σ α) Q E s ↔ Q a s := Iff.rfl

@[simp] lemma wp_bind (m : Exec ε σ α) (f : α → Exec ε σ β) :
    wp (m >>= f) R E s ↔ wp m (fun a s' => wp (f a) R E s') E s := by
  unfold wp
  rw [bind_apply]
  cases m s <;> rfl

@[simp] lemma wp_panic : wp (panic : Exec ε σ α) Q E s ↔ True := Iff.rfl

@[simp] lemma wp_get {R : σ → σ → Prop} : wp (get : Exec ε σ σ) R E s ↔ R s s := Iff.rfl

section

variable {R : Unit → σ → Prop}

@[simp] lemma wp_modify (f : σ → σ) : wp (modify f : Exec ε σ Unit) R E s ↔ R () (f s) := Iff.rfl

end

@[simp] lemma wp_ofOption (o : Option α) :
    wp (ofOption o : Exec ε σ α) Q E s ↔ ∀ a, o = some a → Q a s := by
  cases o <;> simp [ofOption]

lemma wp_ofOption_none : wp (ofOption none : Exec ε σ α) Q E s ↔ True := Iff.rfl

@[simp] lemma wp_attempt {R : Except ε α → σ → Prop} (m : Exec ε σ α) :
    wp (attempt m) R E s ↔ wp m (fun a => R (.ok a)) (fun e => R (.error e)) s := by
  unfold wp attempt
  cases m s <;> rfl

/-- What holds of every result is guaranteed. -/
lemma wp_of_forall (m : Exec ε σ α) (hQ : ∀ a s', Q a s') (hE : ∀ e s', E e s') : wp m Q E s := by
  unfold wp
  cases m s with
  | ok a s' => exact hQ a s'
  | err e s' => exact hE e s'
  | panic => trivial

/-- A guarantee may be weakened. -/
lemma wp.mono (h : wp m Q E s) (hQ : ∀ a s', Q a s' → Q' a s')
    (hE : ∀ e s', E e s' → E' e s') : wp m Q' E' s := by
  revert h
  unfold wp
  cases m s with
  | ok a s' => exact hQ a s'
  | err e s' => exact hE e s'
  | panic => exact id

/-- A guarantee for values may be weakened. -/
lemma wp.imp (h : wp m Q E s) (hQ : ∀ a s', Q a s' → Q' a s') : wp m Q' E s :=
  h.mono hQ fun _ _ he => he

variable {f : α → Exec ε σ β}

/-- Sequencing: what the first program guarantees is what the rest starts from. -/
lemma wp.seq (h : wp m Q E s)
    (hE : ∀ e s', E e s' → E' e s') (hf : ∀ a s', Q a s' → wp (f a) R E' s') :
    wp (m >>= f) R E' s :=
  (wp_bind m f).mpr (h.mono hf hE)

/-- What a guarantee says of a run that returns a value. -/
lemma wp.of_ok {a : α} (h : wp m Q E s) (hm : m s = .ok a s') : Q a s' := by
  unfold wp at h
  rwa [hm] at h

/-- What a guarantee says of a run that returns an error. -/
lemma wp.of_err (h : wp m Q E s) (hm : m s = .err e s') : E e s' := by
  unfold wp at h
  rwa [hm] at h

/-! ### Runs that do not panic

`Exec.twp` is the guarantee that also rules a panic out.  Its rules mirror those of `wp`; they
differ where the program can panic, whose condition now has to be shown. -/

/-- What a run of `m` from `s` guarantees: it returns, and what it returns is right. -/
def twp (m : Exec ε σ α) (Q : α → σ → Prop) (E : ε → σ → Prop) (s : σ) : Prop :=
  match m s with
  | .ok a s' => Q a s'
  | .err e s' => E e s'
  | .panic => False

@[simp] lemma twp_pure (a : α) : twp (pure a : Exec ε σ α) Q E s ↔ Q a s := Iff.rfl

@[simp] lemma twp_bind (m : Exec ε σ α) (f : α → Exec ε σ β) :
    twp (m >>= f) R E s ↔ twp m (fun a s' => twp (f a) R E s') E s := by
  unfold twp
  rw [bind_apply]
  cases m s <;> rfl

@[simp] lemma twp_throw (e : ε) : twp (throw e : Exec ε σ α) Q E s ↔ E e s := Iff.rfl

@[simp] lemma twp_panic : twp (panic : Exec ε σ α) Q E s ↔ False := Iff.rfl

@[simp] lemma twp_get {R : σ → σ → Prop} : twp (get : Exec ε σ σ) R E s ↔ R s s := Iff.rfl

section

variable {R : Unit → σ → Prop}

@[simp] lemma twp_modify (f : σ → σ) : twp (modify f : Exec ε σ Unit) R E s ↔ R () (f s) := Iff.rfl

@[simp] lemma twp_require (c : Prop) [Decidable c] :
    twp (require c : Exec ε σ Unit) R E s ↔ c ∧ R () s := by
  unfold require
  split <;> simp [*]

@[simp] lemma twp_failIf (c : Prop) [Decidable c] (e : ε) :
    twp (failIf c e : Exec ε σ Unit) R E s ↔ (c → E e s) ∧ (¬ c → R () s) := by
  unfold failIf
  split <;> simp [*]

end

@[simp] lemma twp_ofOption (o : Option α) :
    twp (ofOption o : Exec ε σ α) Q E s ↔ ∃ a, o = some a ∧ Q a s := by
  cases o <;> simp [ofOption]

@[simp] lemma twp_ofExcept (r : Except ε α) :
    twp (ofExcept r : Exec ε σ α) Q E s ↔ (∀ a, r = .ok a → Q a s) ∧ ∀ e, r = .error e → E e s := by
  cases r <;> simp [ofExcept]

@[simp] lemma twp_attempt {R : Except ε α → σ → Prop} (m : Exec ε σ α) :
    twp (attempt m) R E s ↔ twp m (fun a => R (.ok a)) (fun e => R (.error e)) s := by
  unfold twp attempt
  cases m s <;> rfl

/-- What a program guarantees that returns a value in every case. -/
abbrev yields (m : Exec ε σ α) (Q : α → σ → Prop) (s : σ) : Prop := twp m Q (fun _ _ => False) s

section

variable (h : twp m Q E s)

include h

/-- A guarantee may be weakened. -/
lemma twp.mono (hQ : ∀ a s', Q a s' → Q' a s') (hE : ∀ e s', E e s' → E' e s') : twp m Q' E' s := by
  revert h
  unfold twp
  cases m s with
  | ok a s' => exact hQ a s'
  | err e s' => exact hE e s'
  | panic => exact id

/-- A guarantee for values may be weakened. -/
lemma twp.imp (hQ : ∀ a s', Q a s' → Q' a s') : twp m Q' E s := h.mono hQ fun _ _ he => he

/-- Sequencing: what the first program guarantees is what the rest starts from. -/
lemma twp.seq (hE : ∀ e s', E e s' → E' e s') (hf : ∀ a s', Q a s' → twp (f a) R E' s') :
    twp (m >>= f) R E' s :=
  (twp_bind m f).mpr (h.mono hf hE)

/-- Two guarantees of one run. -/
lemma twp.and (h' : twp m Q' E' s) :
    twp m (fun a s' => Q a s' ∧ Q' a s') (fun e s' => E e s') s := by
  revert h h'
  unfold twp
  cases m s with
  | ok a s' => exact And.intro
  | err e s' | panic => exact fun h _ => h

/-- Sequencing when both programs have the same guarantee for errors. -/
lemma twp.then (hf : ∀ a s', Q a s' → twp (f a) R E s') : twp (m >>= f) R E s :=
  h.seq (fun _ _ he => he) hf

/-- What a guarantee says of a run that returns a value. -/
lemma twp.of_ok {a : α} (hm : m s = .ok a s') : Q a s' := by
  unfold twp at h
  rwa [hm] at h

/-- What a guarantee says of a run that returns an error. -/
lemma twp.of_err (hm : m s = .err e s') : E e s' := by
  unfold twp at h
  rwa [hm] at h

end

/-- A run that is known. -/
lemma twp_of_eq {a : α} (hm : m s = .ok a s') (h : Q a s') : twp m Q E s := by
  unfold twp
  rwa [hm]

/-- A run with a guarantee returns. -/
lemma twp.returns (h : twp m Q E s) :
    (∃ a s', m s = .ok a s' ∧ Q a s') ∨ ∃ e s', m s = .err e s' ∧ E e s' := by
  unfold twp at h
  cases hm : m s with
  | ok a s' => rw [hm] at h; exact .inl ⟨a, s', rfl, h⟩
  | err e s' => rw [hm] at h; exact .inr ⟨e, s', rfl, h⟩
  | panic => rw [hm] at h; exact h.elim

/-! ### Panics that a part of the state does not cause

`Exec.rwp look` compares the run with those from other states that look the same: it returns
whenever one of them does, with the same result.  So what `look` hides decides neither the result
nor whether the program panics.  A program that reads only what `look` shows has the rules of `wp`
in front of the rest of a program. -/

variable {τ : Type} {look : σ → τ}

/-- What a run of `m` from `s` guarantees when some run from a state that looks the same returns:
it returns too, with the same result and a state that looks the same, and this is right. -/
def rwp (look : σ → τ) (m : Exec ε σ α) (Q : α → σ → Prop) (E : ε → σ → Prop) (s : σ) : Prop :=
  ∀ t, look t = look s →
    wp m (fun a t' => ∃ s', m s = .ok a s' ∧ look t' = look s' ∧ Q a s')
      (fun e t' => ∃ s', m s = .err e s' ∧ look t' = look s' ∧ E e s') t

/-- A program that panics with a guarantee panics from every state that looks the same. -/
lemma rwp.panics {t : σ} (h : rwp look m Q E s) (hm : m s = .panic)
    (ht : look t = look s) : m t = .panic := by
  have := h t ht
  unfold wp at this
  cases hmt : m t with
  | ok a t' | err e t' => simp [hmt, hm] at this
  | panic => rfl

lemma rwp.wp (h : rwp look m Q E s) : wp m Q E s := by
  have := h s rfl
  unfold Exec.wp at this ⊢
  cases hm : m s with
  | ok a s' =>
    obtain ⟨_, h', -, hq⟩ := hm ▸ this
    cases h'
    exact hq
  | err e s' =>
    obtain ⟨_, h', -, he⟩ := hm ▸ this
    cases h'
    exact he
  | panic => trivial

/-- A program that returns, and from every state only changes what `look` hides. -/
lemma twp.rwp {R : Unit → σ → Prop} {m : Exec ε σ Unit} (h : twp m R (fun _ _ => False) s)
    (hm : ∀ t, Exec.wp m (fun _ t' => look t' = look t) (fun _ _ => False) t) :
    rwp look m R E s := by
  intro t ht
  obtain ⟨_, s', hs', hr⟩ | ⟨e, s', -, he⟩ := h.returns
  · refine (hm t).mono (fun _ t' ht' => ⟨s', hs', ?_, hr⟩) (fun _ _ he => he.elim)
    rw [ht', ht, (hm s).of_ok hs']
  · exact he.elim

@[simp] lemma rwp_pure {a : α} : rwp look (pure a : Exec ε σ α) Q E s ↔ Q a s :=
  ⟨fun h => h.wp, fun h _ ht => ⟨s, rfl, ht, h⟩⟩

@[simp] lemma rwp_throw : rwp look (throw e : Exec ε σ α) Q E s ↔ E e s :=
  ⟨fun h => h.wp, fun h _ ht => ⟨s, rfl, ht, h⟩⟩

@[simp] lemma rwp_pure_bind (a : α) (f : α → Exec ε σ β) :
    rwp look (pure a >>= f) R E s ↔ rwp look (f a) R E s := Iff.rfl

@[simp] lemma rwp_throw_bind (e : ε) (f : α → Exec ε σ β) :
    rwp look (throw e >>= f) R E s ↔ E e s := rwp_throw

@[simp] lemma rwp_panic_bind (f : α → Exec ε σ β) : rwp look (panic >>= f) R E s ↔ True :=
  iff_true_intro fun _ _ => trivial

lemma rwp_modify {f : σ → σ} (hf : ∀ t, look t = look s → look (f t) = look (f s)) :
    rwp look (modify f : Exec ε σ Unit) (fun _ s' => s' = f s) E s :=
  fun t ht => ⟨f s, rfl, hf t ht, rfl⟩

lemma rwp_get_bind {f : σ → Exec ε σ β} (hf : ∀ t, look t = look s → f t = f s) :
    rwp look (get >>= f) R E s ↔ rwp look (f s) R E s := by
  refine forall₂_congr fun t ht => ?_
  show wp (get >>= f) _ _ t ↔ _
  rw [wp_bind, wp_get, hf t ht]
  rfl

@[simp] lemma rwp_require_bind {c : Prop} {f : Unit → Exec ε σ β} [Decidable c] :
    rwp look (require c >>= f) R E s ↔ (c → rwp look (f ()) R E s) := by
  unfold require
  split <;> simp [*]

@[simp] lemma rwp_failIf_bind {c : Prop} {f : Unit → Exec ε σ β} [Decidable c] :
    rwp look (failIf c e >>= f) R E s ↔ (c → E e s) ∧ (¬ c → rwp look (f ()) R E s) := by
  unfold failIf
  split <;> simp [*]

@[simp] lemma rwp_failIf {c : Prop} {R : Unit → σ → Prop} [Decidable c] :
    rwp look (failIf c e : Exec ε σ Unit) R E s ↔ (c → E e s) ∧ (¬ c → R () s) := by
  unfold failIf
  split <;> simp [*]

@[simp] lemma rwp_ofOption_bind {o : Option α} :
    rwp look (ofOption o >>= f) R E s ↔ ∀ a, o = some a → rwp look (f a) R E s := by
  cases o <;> simp [ofOption]

@[simp] lemma rwp_ofExcept_bind {r : Except ε α} :
    rwp look (ofExcept r >>= f) R E s ↔
      (∀ a, r = .ok a → rwp look (f a) R E s) ∧ ∀ e, r = .error e → E e s := by
  cases r <;> simp [ofExcept]

@[simp] lemma rwp_ofExcept {r : Except ε α} :
    rwp look (ofExcept r : Exec ε σ α) Q E s ↔
      (∀ a, r = .ok a → Q a s) ∧ ∀ e, r = .error e → E e s := by
  cases r <;> simp [ofExcept]

alias ⟨_, rwp.pure⟩ := rwp_pure
alias ⟨_, rwp.throw⟩ := rwp_throw
alias ⟨_, rwp.require_bind⟩ := rwp_require_bind
alias ⟨_, rwp.failIf_bind⟩ := rwp_failIf_bind
alias ⟨_, rwp.ofOption_bind⟩ := rwp_ofOption_bind

section

variable (h : rwp look m Q E s)

include h

/-- A guarantee may be weakened. -/
lemma rwp.mono (hQ : ∀ a s', Q a s' → Q' a s')
    (hE : ∀ e s', E e s' → E' e s') : rwp look m Q' E' s := fun t ht =>
  (h t ht).mono (fun a _ ⟨s', hm, hl, hq⟩ => ⟨s', hm, hl, hQ a s' hq⟩)
    (fun e _ ⟨s', hm, hl, he⟩ => ⟨s', hm, hl, hE e s' he⟩)

/-- A guarantee for values may be weakened. -/
lemma rwp.imp (hQ : ∀ a s', Q a s' → Q' a s') : rwp look m Q' E s :=
  h.mono hQ fun _ _ he => he

/-- Sequencing: what the first program guarantees is what the rest starts from. -/
lemma rwp.seq (hE : ∀ e s', E e s' → E' e s') (hf : ∀ a s', Q a s' → rwp look (f a) R E' s') :
    rwp look (m >>= f) R E' s := by
  intro t ht
  refine (h t ht).seq ?_ ?_
  · rintro e t' ⟨s', hm, hl, he⟩
    exact ⟨s', bind_of_err hm f, hl, hE e s' he⟩
  · rintro a t' ⟨s', hm, hl, hq⟩
    rw [bind_of_ok hm f]
    exact hf a s' hq t' hl

/-- Sequencing when both programs have the same guarantee for errors. -/
lemma rwp.then
    (hf : ∀ a s', Q a s' → rwp look (f a) R E s') : rwp look (m >>= f) R E s :=
  h.seq (fun _ _ he => he) hf

end

/-- Sequencing after a program whose error is handed on as a value. -/
lemma rwp.attempt_then {f : Except ε α → Exec ε σ β} (h : rwp look m Q E' s)
    (hok : ∀ a s', Q a s' → rwp look (f (.ok a)) R E s')
    (herr : ∀ e s', E' e s' → rwp look (f (.error e)) R E s') :
    rwp look (attempt m >>= f) R E s := by
  refine rwp.then (Q := fun r s' => match r with
    | .ok a => Q a s'
    | .error e => E' e s') (fun t ht => ?_) ?_
  · refine (wp_attempt m).mpr ((h t ht).mono ?_ ?_)
    · rintro a t' ⟨s', hm, hl, hq⟩
      exact ⟨s', by simp [attempt, hm], hl, hq⟩
    · rintro e t' ⟨s', hm, hl, he⟩
      exact ⟨s', by simp [attempt, hm], hl, he⟩
  · rintro (e | a) s' h'
    · exact herr e s' h'
    · exact hok a s' h'

end Exec

end Framework
