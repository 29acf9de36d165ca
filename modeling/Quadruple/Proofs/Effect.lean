/-
  Computations that may fail and keep what they did.

  Compiler and machine are written in the same kind of monad: a state that survives a failure.  Two
  readings of such a computation carry most proofs about it.

  * `Yields c s a s'` and `Fails c s e s'`: from `s` it ends with the result `a`, or with the error
    `e`, in the state `s'`.  A sequence is taken apart one step after another (`yields_bind`):

      Yields (c >>= f) s b s''  ↔  ∃ a s', Yields c s a s' ∧ Yields (f a) s' b s''

  * `Moves R c`: from whatever state, and whether it fails or not, it ends in a state that `R`
    relates to the first.  For a preorder `R` this follows from the parts alone (`Moves.bind`), so
    what no part of a computation touches is untouched by the whole:

      Moves R c  →  (∀ a, Moves R (f a))  →  Moves R (c >>= f)

  What must hold before a computation for something to hold after it is a triple (`Ensures P c Q`).
  An invariant that also survives failures is upheld (`Upholds I c Q`): there the state that a
  failure leaves counts, too, and what is known of a result does not depend on the state.
-/
import Mathlib.Order.Defs.Unbundled

namespace Quadruple

variable {ε σ α β : Type}

/-- A computation with a state that survives failures. -/
abbrev Effect (ε σ α : Type) := ExceptT ε (StateM σ) α

/-- From `s` the computation ends with the result `a` in the state `s'`. -/
def Yields (c : Effect ε σ α) (s : σ) (a : α) (s' : σ) : Prop := c.run.run s = (.ok a, s')

/-- From `s` the computation ends with the error `e` in the state `s'`. -/
def Fails (c : Effect ε σ α) (s : σ) (e : ε) (s' : σ) : Prop := c.run.run s = (.error e, s')

variable {c : Effect ε σ α} {f : α → Effect ε σ β} {s s' s'' t : σ} {a : α} {b : β} {e : ε}

theorem exists_yields_of_isOk (h : (c.run.run s).1.isOk = true) : ∃ a s', Yields c s a s' := by
  cases hresult : c.run.run s with
  | mk result s' =>
    cases result with
    | ok a => exact ⟨a, s', hresult⟩
    | error e =>
      rw [hresult] at h
      cases h

/-! ## One after another -/

/-- The second computation starts where the first one ended, unless that failed. -/
theorem run_bind (c : Effect ε σ α) (f : α → Effect ε σ β) (s : σ) :
    (c >>= f).run.run s = match c.run.run s with
      | (.ok a, s') => (f a).run.run s'
      | (.error e, s') => (.error e, s') := by
  show (match (c.run.run s).1 with
      | .ok a => f a
      | .error e => pure (.error e) : StateM σ _) (c.run.run s).2 = _
  rcases c.run.run s with ⟨r, s'⟩
  cases r with
  | ok a => rfl
  | error e => rfl

theorem run_get_bind (f : σ → Effect ε σ β) (s : σ) :
    ((get : Effect ε σ σ) >>= f).run.run s = (f s).run.run s := rfl

theorem Yields.run_bind (h : Yields c s a s') (f : α → Effect ε σ β) :
    (c >>= f).run.run s = (f a).run.run s' := by
  rw [Quadruple.run_bind, h]

theorem Fails.run_bind (h : Fails c s e s') (f : α → Effect ε σ β) :
    (c >>= f).run.run s = (.error e, s') := by
  rw [Quadruple.run_bind, h]

/-- A sequence yields what its second part yields from where the first one ended. -/
theorem yields_bind :
    Yields (c >>= f) s b s'' ↔ ∃ a s', Yields c s a s' ∧ Yields (f a) s' b s'' := by
  unfold Yields
  rw [run_bind]
  rcases c.run.run s with ⟨r, s'⟩
  cases r with
  | ok a =>
    constructor
    · intro h
      exact ⟨a, s', rfl, h⟩
    · rintro ⟨_, _, hc, h⟩
      cases hc
      exact h
  | error e =>
    constructor
    · intro h
      cases h
    · rintro ⟨_, _, hc, _⟩
      cases hc

/-- It fails where its first part fails, or where the second one does. -/
theorem fails_bind :
    Fails (c >>= f) s e s'' ↔ Fails c s e s'' ∨ ∃ a s', Yields c s a s' ∧ Fails (f a) s' e s'' := by
  unfold Fails Yields
  rw [run_bind]
  rcases c.run.run s with ⟨r, s'⟩
  cases r with
  | ok a =>
    constructor
    · intro h
      exact Or.inr ⟨a, s', rfl, h⟩
    · rintro (hc | ⟨_, _, hc, h⟩)
      · cases hc
      · cases hc
        exact h
  | error d =>
    constructor
    · intro h
      exact Or.inl (by cases h; rfl)
    · rintro (hc | ⟨_, _, hc, _⟩)
      · cases hc
        rfl
      · cases hc

/-! ## The parts -/

theorem yields_pure {b : α} : Yields (pure a : Effect ε σ α) s b s' ↔ b = a ∧ s' = s := by
  constructor
  · intro h
    cases h
    exact ⟨rfl, rfl⟩
  · rintro ⟨rfl, rfl⟩
    rfl

theorem yields_get {a : σ} : Yields (get : Effect ε σ σ) s a s' ↔ a = s ∧ s' = s := by
  constructor
  · intro h
    cases h
    exact ⟨rfl, rfl⟩
  · rintro ⟨rfl, rfl⟩
    rfl

theorem yields_set {u : Unit} : Yields (set t : Effect ε σ PUnit) s u s' ↔ s' = t := by
  constructor
  · intro h
    cases h
    rfl
  · rintro rfl
    rfl

theorem yields_modify {f : σ → σ} {u : Unit} :
    Yields (modify f : Effect ε σ PUnit) s u s' ↔ s' = f s := by
  constructor
  · intro h
    cases h
    rfl
  · rintro rfl
    rfl

theorem not_yields_throw : ¬ Yields (throw e : Effect ε σ α) s a s' := by
  intro h
  cases h

theorem not_fails_pure : ¬ Fails (pure a : Effect ε σ α) s e s' := by
  intro h
  cases h

theorem not_fails_get : ¬ Fails (get : Effect ε σ σ) s e s' := by
  intro h
  cases h

theorem not_fails_set : ¬ Fails (set t : Effect ε σ PUnit) s e s' := by
  intro h
  cases h

theorem not_fails_modify {f : σ → σ} : ¬ Fails (modify f : Effect ε σ PUnit) s e s' := by
  intro h
  cases h

theorem fails_throw {d : ε} : Fails (throw d : Effect ε σ α) s e s' ↔ e = d ∧ s' = s := by
  constructor
  · intro h
    cases h
    exact ⟨rfl, rfl⟩
  · rintro ⟨rfl, rfl⟩
    rfl

theorem yields_get_bind {f : σ → Effect ε σ β} :
    Yields (get >>= f) s b s' ↔ Yields (f s) s b s' := by
  rw [Yields, run_bind]
  exact Iff.rfl

theorem yields_set_bind {f : PUnit → Effect ε σ β} :
    Yields (set t >>= f) s b s' ↔ Yields (f ()) t b s' := by
  rw [Yields, run_bind]
  exact Iff.rfl

theorem fails_get_bind {f : σ → Effect ε σ β} : Fails (get >>= f) s e s' ↔ Fails (f s) s e s' := by
  rw [Fails, run_bind]
  exact Iff.rfl

theorem fails_set_bind {f : PUnit → Effect ε σ β} :
    Fails (set t >>= f) s e s' ↔ Fails (f ()) t e s' := by
  rw [Fails, run_bind]
  exact Iff.rfl

/-! ## What a computation leaves alone -/

/-- From this state the computation ends in a related one, whether it fails or not. -/
def Leads (R : σ → σ → Prop) (s : σ) (c : Effect ε σ α) : Prop := R s (c.run.run s).2

/-- From every state the computation ends in a related one, whether it fails or not. -/
def Moves (R : σ → σ → Prop) (c : Effect ε σ α) : Prop := ∀ s, Leads R s c

theorem Moves.leads {R : σ → σ → Prop} (h : Moves R c) : Leads R s c := h s

theorem Moves.of_yields {R : σ → σ → Prop} (h : Moves R c) (hc : Yields c s a s') : R s s' := by
  have hs := h s
  unfold Leads at hs
  rwa [show c.run.run s = (.ok a, s') from hc] at hs

theorem Moves.of_fails {R : σ → σ → Prop} (h : Moves R c) (hc : Fails c s e s') : R s s' := by
  have hs := h s
  unfold Leads at hs
  rwa [show c.run.run s = (.error e, s') from hc] at hs

theorem Moves.mono {R S : σ → σ → Prop} (h : Moves R c) (hRS : ∀ {s t}, R s t → S s t) :
    Moves S c := fun s => hRS (h s)

section

variable {R : σ → σ → Prop}

theorem leads_set_bind {f : PUnit → Effect ε σ β} [IsPreorder σ R] (hst : R s t)
    (hf : Leads R t (f ())) : Leads R s (set t >>= f) := by
  unfold Leads at hf ⊢
  rw [run_bind]
  exact trans_of R hst hf

theorem leads_get_bind {f : σ → Effect ε σ β} (hf : Leads R s (f s)) : Leads R s (get >>= f) := by
  unfold Leads at hf ⊢
  rw [run_bind]
  exact hf

theorem moves_get_bind {f : σ → Effect ε σ β} (hf : ∀ s, Leads R s (f s)) : Moves R (get >>= f) :=
  fun s => leads_get_bind (hf s)

theorem moves_modify {f : σ → σ} (h : ∀ s, R s (f s)) : Moves R (modify f : Effect ε σ PUnit) := h

theorem leads_set (h : R s t) : Leads R s (set t : Effect ε σ PUnit) := h

variable [IsPreorder σ R]

/-- What follows may rely on what the first part has done. -/
theorem leads_bind_yields (hc : Leads R s c) (hf : ∀ a s', Yields c s a s' → Leads R s' (f a)) :
    Leads R s (c >>= f) := by
  unfold Leads at hc ⊢
  rw [run_bind]
  rcases hr : c.run.run s with ⟨r, s'⟩
  rw [hr] at hc
  cases r with
  | ok a => exact trans_of R hc (hf a s' hr)
  | error e => exact hc

theorem leads_bind (hc : Leads R s c) (hf : ∀ a, Moves R (f a)) : Leads R s (c >>= f) :=
  leads_bind_yields hc fun a s' _ => hf a s'

/-- A sequence stays within a preorder that its parts stay in. -/
theorem Moves.bind (hc : Moves R c) (hf : ∀ a, Moves R (f a)) : Moves R (c >>= f) :=
  fun s => leads_bind (hc s) hf

theorem moves_pure (a : α) : Moves R (pure a : Effect ε σ α) := fun s => refl_of R s

theorem moves_throw (e : ε) : Moves R (throw e : Effect ε σ α) := fun s => refl_of R s

theorem moves_get : Moves R (get : Effect ε σ σ) := fun s => refl_of R s

end

/-! ## What a computation gives back -/

/-- Every result of the computation, from whatever state, has the property. -/
def Gives (P : α → Prop) (c : Effect ε σ α) : Prop :=
  ∀ (s : σ) (a : α) (s' : σ), Yields c s a s' → P a

theorem gives_bind {P : β → Prop} (hf : ∀ a, Gives P (f a)) : Gives P (c >>= f) := by
  intro s b s' h
  obtain ⟨a, t, -, h⟩ := yields_bind.mp h
  exact hf a t b s' h

theorem gives_pure {P : α → Prop} (h : P a) : Gives P (pure a : Effect ε σ α) := by
  intro s b s' hb
  cases hb
  exact h

theorem gives_throw {P : α → Prop} (e : ε) : Gives P (throw e : Effect ε σ α) :=
  fun _ _ _ h => (not_yields_throw h).elim

/-! ## What a computation makes sure of -/

/-- Whenever it starts in a state with the first property and succeeds, its result and the state it
ends in have the second. -/
def Ensures (P : σ → Prop) (c : Effect ε σ α) (Q : α → σ → Prop) : Prop :=
  ∀ (s : σ) (a : α) (s' : σ), P s → Yields c s a s' → Q a s'

section

variable {P P' : σ → Prop} {Q Q' : α → σ → Prop} {R : β → σ → Prop}

/-- What the first part makes sure of is what the second may rely on. -/
theorem Ensures.bind (hc : Ensures P c Q) (hf : ∀ a, Ensures (Q a) (f a) R) :
    Ensures P (c >>= f) R := by
  intro s b s'' hs h
  obtain ⟨a, s', hfirst, hrest⟩ := yields_bind.mp h
  exact hf a s' b s'' (hc s a s' hs hfirst) hrest

theorem Ensures.weaken (h : Ensures P c Q) (hbefore : ∀ s, P' s → P s)
    (hafter : ∀ a s, Q a s → Q' a s) : Ensures P' c Q' :=
  fun s a s' hs hc => hafter a s' (h s a s' (hbefore s hs) hc)

/-- From one state that has the property. -/
theorem Ensures.start (h : Ensures P c Q) (hs : P s) : Ensures (· = s) c Q :=
  h.weaken (fun _ heq => heq ▸ hs) fun _ _ hQ => hQ

/-- What does not depend on the state may be used at once. -/
theorem ensures_of_and {p : Prop} (h : p → Ensures P c Q) : Ensures (fun s => P s ∧ p) c Q :=
  fun s a s' hs hc => h hs.2 s a s' hs.1 hc

theorem ensures_pure (h : ∀ s, P s → Q a s) : Ensures P (pure a : Effect ε σ α) Q := by
  intro s b s' hs hb
  cases hb
  exact h _ hs

theorem ensures_modify {f : σ → σ} {Q : PUnit → σ → Prop} (h : ∀ s, P s → Q () (f s)) :
    Ensures P (modify f : Effect ε σ PUnit) Q := by
  intro s u s' hs hm
  rw [yields_modify.mp hm]
  exact h s hs

theorem ensures_set {Q : PUnit → σ → Prop} (h : Q () t) :
    Ensures P (set t : Effect ε σ PUnit) Q := by
  intro s u s' _ hm
  rw [yields_set.mp hm]
  exact h

theorem ensures_set_bind {f : PUnit → Effect ε σ β} (h : Ensures (· = t) (f ()) R) :
    Ensures P (set t >>= f) R := by
  intro s b s' _ hb
  exact h t b s' rfl (yields_set_bind.mp hb)

theorem ensures_get_bind {f : σ → Effect ε σ β} (h : ∀ s, P s → Ensures (· = s) (f s) R) :
    Ensures P (get >>= f) R := by
  intro s b s' hs hb
  exact h s hs s b s' rfl (yields_get_bind.mp hb)

end

/-! ## What a computation upholds -/

/-- From every state with the invariant the computation ends in one with the invariant, whether it
fails or not, and its result, if there is one, has the property. -/
def Upholds (I : σ → Prop) (c : Effect ε σ α) (Q : α → Prop) : Prop :=
  ∀ s, I s → I (c.run.run s).2 ∧ ∀ a s', Yields c s a s' → Q a

section

variable {I : σ → Prop} {Q Q' : α → Prop} {R : β → Prop}

/-- Both parts uphold the invariant, the second with what is known of the first result. -/
theorem Upholds.bind (hc : Upholds I c Q) (hf : ∀ a, Q a → Upholds I (f a) R) :
    Upholds I (c >>= f) R := by
  intro s hs
  obtain ⟨hkept, hresult⟩ := hc s hs
  rcases hr : c.run.run s with ⟨r, s'⟩
  rw [hr] at hkept
  cases r with
  | ok a =>
    obtain ⟨hkept', hresult'⟩ := hf a (hresult a s' hr) s' hkept
    unfold Yields at hresult' ⊢
    rw [run_bind, hr]
    exact ⟨hkept', hresult'⟩
  | error e =>
    unfold Yields
    rw [run_bind, hr]
    refine ⟨hkept, ?_⟩
    intro b s'' h
    cases h

theorem Upholds.weaken (h : Upholds I c Q) (hQ : ∀ a, Q a → Q' a) : Upholds I c Q' :=
  fun s hs => ⟨(h s hs).1, fun a s' ha => hQ a ((h s hs).2 a s' ha)⟩

theorem upholds_pure (h : Q a) : Upholds I (pure a : Effect ε σ α) Q := by
  intro s hs
  refine ⟨hs, ?_⟩
  intro b s' hb
  cases hb
  exact h

theorem upholds_throw (e : ε) : Upholds I (throw e : Effect ε σ α) Q :=
  fun _ hs => ⟨hs, fun _ _ h => (not_yields_throw h).elim⟩

theorem upholds_get : Upholds I (get : Effect ε σ σ) I := by
  intro s hs
  refine ⟨hs, ?_⟩
  intro a s' h
  obtain ⟨rfl, -⟩ := yields_get.mp h
  exact hs

theorem upholds_get_bind {f : σ → Effect ε σ β} (h : ∀ s, I s → Upholds I (f s) R) :
    Upholds I (get >>= f) R :=
  upholds_get.bind h

theorem upholds_set (h : I t) : Upholds I (set t : Effect ε σ PUnit) fun _ => True :=
  fun _ _ => ⟨h, fun _ _ _ => trivial⟩

theorem upholds_modify {f : σ → σ} (h : ∀ s, I s → I (f s)) :
    Upholds I (modify f : Effect ε σ PUnit) fun _ => True :=
  fun s hs => ⟨h s hs, fun _ _ _ => trivial⟩

end

/-! ## How a computation fails -/

section

variable {P : ε → Prop}

/-- Every error of the computation, from whatever state, has the property. -/
def Throws (P : ε → Prop) (c : Effect ε σ α) : Prop :=
  ∀ (s : σ) (e : ε) (s' : σ), Fails c s e s' → P e

/-- All errors of a sequence are errors of its parts. -/
theorem throws_bind (hc : Throws P c) (hf : ∀ a, Throws P (f a)) : Throws P (c >>= f) := by
  intro s e s' h
  rcases fails_bind.mp h with h | ⟨a, t, -, h⟩
  · exact hc s e s' h
  · exact hf a t e s' h

theorem throws_pure (a : α) : Throws P (pure a : Effect ε σ α) :=
  fun _ _ _ h => (not_fails_pure h).elim

theorem throws_throw (h : P e) : Throws P (throw e : Effect ε σ α) := by
  intro s e' s' he
  obtain ⟨rfl, -⟩ := fails_throw.mp he
  exact h

theorem throws_get : Throws P (get : Effect ε σ σ) := fun _ _ _ h => (not_fails_get h).elim

theorem throws_set (t : σ) : Throws P (set t : Effect ε σ PUnit) :=
  fun _ _ _ h => (not_fails_set h).elim

theorem throws_modify (f : σ → σ) : Throws P (modify f : Effect ε σ PUnit) :=
  fun _ _ _ h => (not_fails_modify h).elim

/-- The error, if it is one, has the property. -/
def Raises (P : ε → Prop) (x : Except ε α) : Prop := ∀ e, x = .error e → P e

theorem raises_ok (a : α) : Raises P (.ok a : Except ε α) := by
  intro e h
  cases h

theorem raises_error (h : P e) : Raises P (.error e : Except ε α) := by
  intro e' he
  cases he
  exact h

theorem raises_bind {x : Except ε α} {f : α → Except ε β} (hx : Raises P x)
    (hf : ∀ a, Raises P (f a)) : Raises P (x >>= f) := by
  cases x with
  | ok a => exact hf a
  | error e =>
    intro e' he
    cases he
    exact hx e rfl

theorem raises_map {x : Except ε α} (f : α → β) (h : Raises P x) : Raises P (f <$> x) := by
  cases x with
  | ok a => exact raises_ok _
  | error e => exact raises_error (h e rfl)

end

end Quadruple
