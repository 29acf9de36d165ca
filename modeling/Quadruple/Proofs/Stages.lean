/-
  The stages of a compilation, and where quads come from.

  `g.stage events i` is the generator before the `i`th event.  When the script is accepted, each
  event leads from one stage to the next (`Accepts.stage`), so whatever every accepted event keeps
  relates any stage to every later one (`Accepts.stage_rel`).  Every quad of the program was emitted
  by one event (`Emits`, `Accepts.exists_emits`), and but for the targets of jumps it is still what
  that event emitted (`Accepts.quad_iff`):

      Emits i n  =  (stage i).nextQuad ≤ n < (stage (i + 1)).nextQuad
-/
import Quadruple.Proofs.CallNesting
import Quadruple.Proofs.Declarations
import Quadruple.Proofs.Script
import Quadruple.Proofs.TypedCode

namespace Quadruple

variable {e : Event} {events : List Event} {R : Generator → Generator → Prop}

/-- The generator before the `i`th event of a script. -/
def Generator.stage (g : Generator) (events : List Event) (i : Nat) : Generator :=
  g.feed (events.take i)

/-- The `n`th quad is emitted by the `i`th event. -/
structure Emits (start : Generator) (events : List Event) (i n : Nat) : Prop where
  lower : (start.stage events i).nextQuad ≤ n
  upper : n < (start.stage events (i + 1)).nextQuad

/-! ## Histories -/

section

variable {σ : Type} {read : σ → Event → σ} (flag : σ → Bool) (hread : ∀ h e,
    flag h = true → flag (read h e) = true)

include hread

/-- A flag that no event takes back stays. -/
theorem flag_foldl {h : σ} (hflag : flag h = true) (events : List Event) :
    flag (events.foldl read h) = true := by
  induction events generalizing h with
  | nil => exact hflag
  | cons e rest ih => exact ih (hread h e hflag)

/-- If it is not set at the end of a script, it never was. -/
theorem flag_take {h : σ} (hflag : flag (events.foldl read h) = false) (i : Nat) :
    flag ((events.take i).foldl read h) = false := by
  rw [← Bool.not_eq_true]
  intro hset
  have hlast := flag_foldl flag hread hset (events.drop i)
  rw [← List.foldl_append, List.take_append_drop, hflag] at hlast
  cases hlast

end

/-! ## Keeping code -/

theorem Repatched.trans {a b c : Array Quad} (hab : Repatched a b) (hbc : Repatched b c) :
    Repatched a c := by
  have hsize := hab.size
  refine ⟨Nat.le_trans hab.size hbc.size, fun n q hq hjump =>
    hbc.kept n q (hab.kept n q hq hjump) hjump, ?_⟩
  intro n q hn hq
  rcases hbc.old n q (by omega) hq with hjump | hq
  · exact Or.inl hjump
  · exact hab.old n q hn hq

/-- Code was appended, and of the quads there were only jumps have changed. -/
def Generator.KeepsCode (g g' : Generator) : Prop := Repatched g.program.quads g'.program.quads

instance : IsPreorder Generator Generator.KeepsCode where
  refl g := .refl g.program.quads
  trans _ _ _ := .trans

/-- An accepted event keeps all code but the targets of jumps. -/
theorem Compile.keepsCode_apply {g g' : Generator} {u : Unit} (h : Yields (apply e) g u g') :
    g.KeepsCode g' := by
  have hacts := (control_apply h).repatched
  rwa [Control.quads_before] at hacts

/-- Declarations have grown. -/
def Generator.DeclaresMore (g g' : Generator) : Prop := g.declarations.Grows g'.declarations

instance : IsPreorder Generator Generator.DeclaresMore where
  refl g := refl_of Declarations.Grows g.declarations
  trans _ _ _ := trans_of Declarations.Grows

/-! ## Stages -/

namespace Generator

variable {start g : Generator} {events : List Event} {i j : Nat}

theorem stage_zero (start : Generator) (events : List Event) : start.stage events 0 = start := rfl

theorem stage_succ (start : Generator) (he : events[i]? = some e) :
    start.stage events (i + 1) = ((Compile.apply e).run.run (start.stage events i)).2 := by
  unfold stage
  rw [List.take_add_one, he, feed, feed, List.foldl_append]
  rfl

theorem stage_of_le (start : Generator) (hi : events.length ≤ i) :
    start.stage events i = start.feed events := by
  rw [stage, List.take_of_length_le hi]

end Generator

namespace Accepts

variable {start g : Generator} {events : List Event} {i j n : Nat} (h : Accepts start events g)

include h

/-- The last stage of an accepted script is its end. -/
theorem feed : start.feed events = g := by
  induction h with
  | nil g => rfl
  | cons hfirst hrest ih =>
    have hfirst : (Compile.apply _).run.run _ = (.ok (), _) := hfirst
    rw [Generator.feed, List.foldl_cons, hfirst]
    exact ih

/-- Each event of an accepted script leads from its stage to the next. -/
theorem stage (he : events[i]? = some e) :
    Yields (Compile.apply e) (start.stage events i) () (start.stage events (i + 1)) := by
  obtain ⟨hi, rfl⟩ := List.getElem?_eq_some_iff.mp he
  have hsplit : events = events.take i ++ ([events[i]] ++ events.drop (i + 1)) := by
    rw [List.singleton_append, ← List.drop_eq_getElem_cons hi, List.take_append_drop]
  rw [hsplit] at h
  obtain ⟨g₁, hbefore, hrest⟩ := h.append_inv
  obtain ⟨g₂, hevent, -⟩ := hrest.append_inv
  have hstage : start.stage events i = g₁ := hbefore.feed
  have hyields := hevent.single_inv
  rw [Generator.stage_succ start he, hstage,
    show (Compile.apply _).run.run g₁ = (.ok (), g₂) from hyields]
  exact hyields

theorem stage_last (hi : events.length ≤ i) : start.stage events i = g := by
  rw [Generator.stage_of_le start hi, h.feed]

/-- What every accepted event keeps relates any stage to every later one. -/
theorem stage_rel [IsPreorder Generator R]
    (hR : ∀ {e : Event} {g g' : Generator}, Yields (Compile.apply e) g () g' → R g g')
    (hij : i ≤ j) : R (start.stage events i) (start.stage events j) := by
  induction hij with
  | refl => exact refl_of R _
  | @step j _ ih =>
    refine trans_of R ih ?_
    cases he : events[j]? with
    | some e => exact hR (h.stage he)
    | none =>
      have hj := List.getElem?_eq_none_iff.mp he
      rw [h.stage_last hj, h.stage_last (by omega)]
      exact refl_of R g

theorem stage_declares (hij : i ≤ j) :
    (start.stage events i).declarations.Grows (start.stage events j).declarations :=
  h.stage_rel (R := Generator.DeclaresMore) (fun he => (Compile.declares_apply he).grows) hij

theorem stage_keepsCode (hij : i ≤ j) : (start.stage events i).KeepsCode (start.stage events j) :=
  h.stage_rel Compile.keepsCode_apply hij

/-- What relates any stage to every later one relates it to the last. -/
theorem stage_last_rel
    (hR : ∀ {i j : Nat}, i ≤ j → R (start.stage events i) (start.stage events j)) (i : Nat) :
    R (start.stage events i) g := by
  have hlast := hR (Nat.le_max_left i events.length)
  rwa [h.stage_last (Nat.le_max_right i events.length)] at hlast

theorem last_declares (i : Nat) : (start.stage events i).declarations.Grows g.declarations :=
  h.stage_last_rel (R := Generator.DeclaresMore) (fun hij => h.stage_declares hij) i

theorem last_keepsCode (i : Nat) : (start.stage events i).KeepsCode g :=
  h.stage_last_rel (fun hij => h.stage_keepsCode hij) i

/-! ## Where quads come from -/

/-- Every quad that was not there at the start was emitted by an event. -/
theorem exists_emits (hstart : start.nextQuad ≤ n)
    (hn : n < g.nextQuad) : ∃ i e, events[i]? = some e ∧ Emits start events i n := by
  -- the event is the last before whose stage the quad is not there
  suffices hgeneral : ∀ k, n < (start.stage events k).nextQuad → ∃ i, Emits start events i n by
    rw [← h.stage_last (Nat.le_refl _)] at hn
    obtain ⟨i, hemits⟩ := hgeneral _ hn
    cases he : events[i]? with
    | some e => exact ⟨i, e, he, hemits⟩
    | none =>
      have hi := List.getElem?_eq_none_iff.mp he
      have hlower := hemits.lower
      have hupper := hemits.upper
      rw [h.stage_last hi] at hlower
      rw [h.stage_last (by omega)] at hupper
      omega
  intro k
  induction k with
  | zero =>
    intro hk
    rw [Generator.stage_zero] at hk
    omega
  | succ k ih =>
    intro hk
    rcases Nat.lt_or_ge n (start.stage events k).nextQuad with hlt | hge
    · exact ih hlt
    · exact ⟨k, hge, hk⟩

/-- A quad that is no jump is in the program as it was emitted. -/
theorem quad_iff (hn : n < (start.stage events i).nextQuad) {q : Quad} (hq : q.isJump = false) :
    g.program.quads[n]? = some q ↔ (start.stage events i).program.quads[n]? = some q := by
  have hkept := h.last_keepsCode i
  constructor
  · intro hlast
    rcases hkept.old n q hn hlast with hjump | hsame
    · rw [hq] at hjump
      cases hjump
    · exact hsame
  · intro hfirst
    exact hkept.kept n q hfirst hq

/-- An event that emits a single quad, which is no jump. -/
theorem emits_push {q : Quad} (hq : q.isJump = false)
    (hpush : (start.stage events (i + 1)).program.quads = (start.stage events i).program.quads.push
      q) :
    Emits start events i (start.stage events i).nextQuad ∧
      ∀ n, Emits start events i n → g.program.quads[n]? = some q := by
  have hsize : (start.stage events (i + 1)).nextQuad = (start.stage events i).nextQuad + 1 := by
    unfold Generator.nextQuad
    rw [hpush, Array.size_push]
  refine ⟨⟨Nat.le_refl _, by omega⟩, ?_⟩
  intro n hemits
  have hlower := hemits.lower
  have hn : n = (start.stage events i).nextQuad := by
    have hupper := hemits.upper
    omega
  rw [h.quad_iff hemits.upper hq, hpush, hn]
  exact Array.getElem?_push_size

theorem sizes : g.program.sizes = start.program.sizes := by
  refine h.induction (P := fun _ g => g.program.sizes = start.program.sizes) rfl ?_
  intro _ e g g' hsizes hstep
  exact (Compile.calls_apply hstep).sizes.trans hsizes

/-- The stages of an accepted script are what its beginnings lead to. -/
theorem take (i : Nat) : Accepts start (events.take i) (start.stage events i) := by
  rw [← List.take_append_drop i events] at h
  obtain ⟨g₁, hbefore, -⟩ := h.append_inv
  have hstage : start.stage events i = g₁ := hbefore.feed
  rw [hstage]
  exact hbefore

end Accepts

/-- What the compiler records of types agrees with the layout at every stage. -/
theorem Generator.Typed.stage {sizes : Sizes} {start : Generator} (h : start.Typed sizes)
    (events : List Event) (i : Nat) : (start.stage events i).Typed sizes := by
  unfold Generator.stage
  generalize events.take i = done
  induction done generalizing start with
  | nil => exact h
  | cons e rest ih => exact ih (Compile.upholds_apply e start h).1

/-- A script that compiles was accepted event by event, with nothing left open, and the program is
the last stage's. -/
theorem exists_accepts_of_compile {threshold : Level} {sizes : Sizes} {p : Program} {names : Names}
    (h : (compile threshold sizes events).1 = .ok (p, names)) :
    ∃ g, Accepts (Generator.ofSizes sizes threshold) events g ∧ g.currentFunction = none ∧
      p.quads = g.program.quads ∧ p.functions = g.program.functions ∧
      p.layout = .ofSizes sizes := by
  obtain ⟨g, g', haccepts, hfinish⟩ := accepts_of_compile h
  obtain ⟨hnone, -, -, -, rfl⟩ := Compile.yields_finish hfinish
  exact ⟨g, haccepts, hnone, rfl, rfl, congrArg Layout.ofSizes haccepts.sizes⟩

end Quadruple
