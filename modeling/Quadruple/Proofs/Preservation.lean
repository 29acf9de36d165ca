/-
  A compiled script does what the script says.

  The program of a script starts on any machine with its variables unassigned, follows the body quad
  by quad, and ends at the `ENDFUNC` behind it.  So a run ends as the script does:

      done       the run is normal, with the output of the script
      failed f   the run ends with the fault that is `f`, and the output until then
      neither    the run does not end

  A machine may limit the number of steps.  The number that a script needs does not depend on the
  machine, so it is stated before the machine.
-/
import Quadruple.Proofs.Assembly
import Quadruple.Proofs.Execution

namespace Quadruple

variable {m : Machine}

namespace Machine

/-! ## The first state -/

/-- The slots of a fresh frame are empty. -/
theorem readSlot_ofCounts {sizes : Sizes} {counts : SlotCounts} {function : String}
    {rest : List Frame} {a : Nat} {ty : Scalar} (hlayout : m.layout = Layout.ofSizes sizes)
    (hframes : m.frames = Frame.ofCounts function counts :: rest)
    (hcounts : counts.countable = true) (h : IsSlot sizes counts a ty) :
    m.readSlot a = .ok none := by
  obtain ⟨r, i, hr, hty, hframe, hindex, hi⟩ := h.index? (Frame.sized_ofCounts function hcounts)
  rw [readSlot_frame (place_inFrame hlayout hr hframe) hframes]
  have hget : (Frame.ofCounts function counts).get? r a = some none := by
    rw [Frame.get?, hindex]
    dsimp only
    rw [hty]
    unfold Frame.ofCounts at hi ⊢
    dsimp only at hi ⊢
    rw [PerScalar.get_ofFn] at hi ⊢
    rw [Array.size_replicate] at hi
    rw [Array.getElem?_replicate, if_pos hi]
  rw [hget]
  rfl

/-! ## The last step -/

/-- The end of `main` halts. -/
theorem yields_endFunc_halt (h : m.returns = []) :
    Yields Exec.endFunc m .halt { m with frames := m.frames.drop 1 } := by
  rw [Exec.endFunc, yields_get_bind]
  split
  · rename_i hreturns
    rw [h] at hreturns
    cases hreturns
  · rw [yields_set_bind]
    exact yields_pure.mpr ⟨rfl, rfl⟩

/-- A run that halts ends with its console as it is; it fails when the output cannot be flushed. -/
theorem ends_of_halt {m₁ : Machine} (hstep : Yields Exec.step m .halt m₁) :
    ∃ r m', m.Ends r m' ∧ m'.console = m₁.console ∧
      r.mapError RuntimeError.fault = m₁.console.flush.mapError Fault.console := by
  have h := advance_of_yields hstep
  dsimp only at h
  unfold conclude at h
  cases hflush : m₁.console.flush with
  | ok u =>
    have hdone : Yields Exec.flush m₁ () m₁ := by
      rw [Exec.flush, yields_get_bind, hflush]
      exact yields_pure.mpr ⟨rfl, rfl⟩
    rw [show Exec.flush.run.run m₁ = (.ok (), m₁) from hdone] at h
    exact ⟨_, _, Or.inl ⟨h, rfl⟩, rfl, rfl⟩
  | error e =>
    have hfails : Fails Exec.flush m₁ (.console e) m₁ := by
      rw [Exec.flush, fails_get_bind, hflush]
      exact fails_throw.mpr ⟨rfl, rfl⟩
    rw [show Exec.flush.run.run m₁ = (.error (.console e), m₁) from hfails] at h
    exact ⟨_, _, Or.inr ⟨_, h, rfl⟩, rfl, rfl⟩

/-- A run that ends after so many steps has an answer within every larger budget. -/
theorem run_of_ends {m₀ m₁ m' : Machine} {p : Program} {k budget : Nat}
    {r : Except RuntimeError Unit} (hstart : m.start p = .ok m₀) (hpasses : m₀.Passes k m₁)
    (hends : m₁.Ends r m') (hbudget : k + 1 ≤ budget) : m.run budget p = some (r, m') := by
  obtain ⟨l, rfl⟩ := Nat.exists_eq_add_of_le hbudget
  rw [run, hstart]
  dsimp only
  rw [show k + 1 + l = k + (l + 1) by omega, resume_of_after hpasses.after]
  exact resume_of_ends hends l

end Machine

/-- On every machine with console `c` that may take `n` steps, the program ends with console `c'`
and such a result. -/
def Program.EndsAfter (p : Program) (n : Nat) (c c' : Console) (result : Except Fault Unit → Prop) :
    Prop :=
  ∀ (m : Machine) (budget : Nat), m.console = c → n ≤ budget →
    (∀ limit, m.limits.maxSteps = some limit → n ≤ limit) →
    ∃ r m', m.run budget p = some (r, m') ∧ m'.console = c' ∧ result (r.mapError RuntimeError.fault)

namespace Source

namespace Image

variable {I : Image} {s : Script} {p : Program} {names : Names} {c : Console}

/-- The program starts, with no variable assigned and with room for as many steps as the limit
allows. -/
theorem IsOf.starts (hI : I.IsOf s p names) {n : Nat}
    (hlimit : ∀ limit, m.limits.maxSteps = some limit → n ≤ limit) :
    ∃ m₀, m.start p = .ok m₀ ∧ I.Ready 0 (fun _ => none) m.console m₀ ∧ m₀.Room n := by
  obtain ⟨r, hmain, hstart, hslots⟩ := hI.main
  obtain ⟨m₀, hm₀⟩ := hI.loadable.exists_start m
  obtain ⟨r', h₀⟩ := Machine.exists_started hm₀
  cases hmain.symm.trans h₀.entry
  have hframes := h₀.frames
  have hcounts := h₀.countable.2
  rw [hslots] at hframes hcounts
  have hsizes := h₀.layout.trans hI.layout
  have hframed : m₀.Framed I.sizes I.slots :=
    ⟨hsizes, _, _, hframes, Frame.sized_ofCounts _ hcounts⟩
  refine ⟨m₀, hm₀, ⟨⟨hframed, ?_, ?_, ?_, ?_, h₀.returns, ?_⟩, h₀.console⟩, ?_⟩
  · rw [h₀.quads, hI.code]
  · rw [h₀.constants, hI.constants]
  · intro x a ha
    obtain ⟨k, hk⟩ := hI.proper x a ha
    exact Machine.readSlot_ofCounts hsizes hframes hcounts hk.isSlot
  · intro x k v _ hv
    cases hv
  · rw [h₀.ip, hstart]
  · intro limit hl
    rw [h₀.limits] at hl
    have hle := hlimit limit hl
    have hsteps := h₀.steps
    omega

/-- The `ENDFUNC` of the entry function ends the run, once all output has arrived. -/
theorem ends_endFunc {j : Nat} {σ : Store} (hq : I.code[j]? = some ⟨.endFunc, none, none, none⟩)
    (hm : I.Ready j σ c m) (hroom : m.Room 1) :
    ∃ r m', m.Ends r m' ∧ m'.console = c ∧
      r.mapError RuntimeError.fault = c.flush.mapError Fault.console := by
  obtain ⟨hat, rfl⟩ := hm
  have hhalts :
      Yields (Exec.execute ⟨.endFunc, none, none, none⟩) (m.reached ⟨.endFunc, none, none, none⟩)
        .halt _ :=
    Machine.yields_endFunc_halt hat.returns
  have hstep : Yields Exec.step m .halt _ :=
    (Machine.step_eq_execute (hat.quad hq) (Machine.mayStep_of_room hroom)).trans hhalts
  have hends := Machine.ends_of_halt hstep
  exact hends

/-- A run that reaches the end of `main` ends. -/
theorem IsOf.ends_of_reaches (hI : I.IsOf s p names) {j : Nat} {σ : Store} {c' : Console}
    (hlast : I.code[j]? = some ⟨.endFunc, none, none, none⟩)
    (h : Machine.Reaches (I.Ready 0 (fun _ => none) c) (fun _ m' => I.Ready j σ c' m')) :
    ∃ n, p.EndsAfter n c c' fun r => r = c'.flush.mapError Fault.console := by
  obtain ⟨k, h⟩ := h
  refine ⟨k + 1, ?_⟩
  rintro m budget rfl hbudget hlimit
  obtain ⟨m₀, hstart, hready, hroom⟩ := hI.starts hlimit
  obtain ⟨m₁, hpasses, hready₁⟩ := h m₀ hready (hroom.mono (by omega))
  obtain ⟨r, m', hends, hconsole, hresult⟩ := ends_endFunc hlast hready₁ (hpasses.room hroom)
  exact ⟨r, m', Machine.run_of_ends hstart hpasses hends hbudget, hconsole, hresult⟩

theorem IsOf.ends_of_stops (hI : I.IsOf s p names) {f : Failure} {c' : Console}
    (h : Machine.Stops (I.Ready 0 (fun _ => none) c) (I.Ended f c')) :
    ∃ n, p.EndsAfter n c c' fun r => ∃ fault, r = .error fault ∧ f.Is names fault := by
  obtain ⟨k, h⟩ := h
  refine ⟨k + 1, ?_⟩
  rintro m budget rfl hbudget hlimit
  obtain ⟨m₀, hstart, hready, hroom⟩ := hI.starts hlimit
  obtain ⟨m₁, e, m', hpasses, hadvance, hfailure, hconsole⟩ := h m₀ hready hroom
  rw [hI.names] at hfailure
  exact ⟨_, m', Machine.run_of_ends hstart hpasses (Or.inr ⟨e, hadvance, rfl⟩) hbudget, hconsole,
    e.fault, rfl, hfailure⟩

/-- A run that lasts longer than its budget has no result. -/
theorem IsOf.run_of_lasts (hI : I.IsOf s p names) {budget : Nat}
    (h : Machine.Lasts budget (I.Ready 0 (fun _ => none) c)) (hconsole : m.console = c)
    (hlimit : m.limits.maxSteps = none) : m.run budget p = none := by
  obtain ⟨k, hk, h⟩ := h
  subst hconsole
  have hfree : ∀ limit, m.limits.maxSteps = some limit → k ≤ limit := by
    intro limit hl
    rw [hlimit] at hl
    cases hl
  obtain ⟨m₀, hstart, hready, hroom⟩ := hI.starts hfree
  obtain ⟨m₁, hpasses⟩ := h m₀ hready hroom
  obtain ⟨m₂, hm₂⟩ := Machine.exists_after_of_le hpasses.after hk
  rw [Machine.run, hstart]
  exact Machine.resume_eq_none hm₂

end Image

/-- **Execution follows the script.** Let a script compile.  If it is done, then every machine that
may take enough steps ends its program with the same console, and fails only when the output cannot
be flushed.  If it fails, every such machine ends the program with a fault that is this failure, and
the same console.  If it goes on forever, so does the program on every machine without a step limit.
-/
theorem execution_follows_script {threshold : Level} {sizes : Sizes} {s : Script} {p : Program}
    {names : Names} (h : (compile threshold sizes s.events).1 = .ok (p, names)) (c : Console) :
    (∀ fuel c', s.run fuel c = some (.done, c') →
      ∃ n, p.EndsAfter n c c' fun r => r = c'.flush.mapError Fault.console) ∧
    (∀ fuel f c', s.run fuel c = some (.failed f, c') →
      ∃ n, p.EndsAfter n c c' fun r => ∃ fault, r = .error fault ∧ f.Is names fault) ∧
    ((∀ fuel, s.run fuel c = none) → ∀ (m : Machine) (budget : Nat),
      m.console = c → m.limits.maxSteps = none →
      m.run budget p = none) := by
  obtain ⟨I, hI⟩ := exists_image h
  obtain ⟨j, hperforms, hlast⟩ := hI.body
  have hfollows := fun fuel => hperforms.follows hI.proper fuel (fun _ => none) c
  rw [hI.kinds] at hfollows
  refine ⟨?_, ?_, ?_⟩
  · intro fuel c' hrun
    have hfollows := hfollows fuel
    unfold Script.run at hrun
    split at hrun
    · cases hrun
    · rename_i σ' c'' hexec
      cases hrun
      rw [hexec] at hfollows
      exact hI.ends_of_reaches hlast hfollows
    · cases hrun
  · intro fuel f c' hrun
    have hfollows := hfollows fuel
    unfold Script.run at hrun
    split at hrun
    · cases hrun
    · cases hrun
    · rename_i f' c'' hexec
      cases hrun
      rw [hexec] at hfollows
      exact hI.ends_of_stops hfollows
  · intro hforever m budget hconsole hlimit
    have hfollows := hfollows (budget + Image.depth s.body)
    have hnone : s.body.exec s.kinds (budget + Image.depth s.body) (fun _ => none) c = none := by
      have hrun := hforever (budget + Image.depth s.body)
      unfold Script.run at hrun
      split at hrun
      · assumption
      · cases hrun
      · cases hrun
    rw [hnone, Nat.add_sub_cancel] at hfollows
    exact hI.run_of_lasts hfollows hconsole hlimit

/-- Counts to three, doubles a float with each turn, and prints on the way. -/
def countAndDouble : Script where
  declarations := [("i", .int), ("x", .float)]
  body :=
    .seq (.assign "i" (.literal (.int 0))) <| .seq (.assign "x" (.literal (.int 1))) <|
    .seq (.loop (.binary (.var "i") (.comparison .lessThan) (.literal (.int 3))) <|
      .seq (.ifElse (.binary (.var "i") (.comparison .equal) (.literal (.int 1)))
        (.print (.literal (.string "one"))) (.print (.var "i"))) <|
      .seq (.compound "x" .multiply (.literal (.int 2)))
        (.assign "i" (.binary (.var "i") (.arithmetic .add) (.literal (.int 1))))) <|
    .print (.binary (.var "x") (.comparison .equal) (.literal (.int 8)))

/-- It prints four lines, or as much of them as the output takes. -/
theorem execution_follows_script_countAndDouble :
    ∃ p names, (compile .warn (Sizes.uniform 8) countAndDouble.events).1 = .ok (p, names) ∧
      (∃ n, p.EndsAfter n (Console.ofInput []) ⟨[], (Bytes.utf8 "0\none\n2\ntrue\n").toArray, none,
        false⟩
        fun r => r = .ok ()) ∧
      ∃ n, p.EndsAfter n ⟨[], #[], some 3, false⟩ ⟨[], (Bytes.utf8 "0\no").toArray, some 0, false⟩
        fun r => ∃ fault, r = .error fault ∧ (Failure.output .outputLimit).Is names fault := by
  obtain ⟨p, names, h⟩ := exists_of_isOk
    (show (compile .warn (Sizes.uniform 8) countAndDouble.events).1.isOk = true by decide +kernel)
  refine ⟨p, names, h, ?_, ?_⟩
  · exact (execution_follows_script h _).1 20 _ (by decide +kernel)
  · exact (execution_follows_script h _).2.1 20 _ _ (by decide +kernel)

end Source

end Quadruple
