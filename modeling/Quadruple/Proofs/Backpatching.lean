/-
  Whether every jump gets its target.

  The jumps that leave a branch or a loop are emitted before it is known where they lead; they are
  patched when the construct they belong to goes on or is closed.  Until then such a jump is waiting
  (`awaits`), and it has to be remembered: each open conditional remembers one jump, each open loop
  one once its condition is set (`Control.pending`).

  A loop remembers one jump only.  A second condition for the same loop takes the place of the
  first, whose jump is then waiting and forgotten.  The invariant (`Registered`) therefore counts,
  for every quad:

      times it is remembered + times it was forgotten  =  1 if it is a waiting jump, else 0

  At the end nothing is open, so what still waits is what was forgotten.
-/
import Quadruple.Proofs.Script
import Quadruple.Proofs.Faults
import Quadruple.Proofs.Run

namespace Quadruple

variable {p : Program} {quads : Array Quad} {q : Quad} {events : List Event}

/-! ## Jumps that wait for their target -/

namespace Control

/-- The quad at the index is a jump that has no target yet. -/
def awaits (quads : Array Quad) (n : Nat) : Bool := quads[n]?.any (·.isUnpatched)

theorem awaits_eq_true {n : Nat} :
    awaits quads n = true ↔ ∃ q, quads[n]? = some q ∧ q.isUnpatched = true := by
  simp [awaits, Option.any_eq_true]

theorem awaits_of_le {n : Nat} (h : quads.size ≤ n) : awaits quads n = false := by
  simp [awaits, Array.getElem?_eq_none h]

/-- Straight-line code has no jumps. -/
theorem awaits_grown {quads' : Array Quad} (h : Grown quads quads') (n : Nat) :
    awaits quads' n = awaits quads n := by
  rcases Nat.lt_or_ge n quads.size with hlt | hge
  · simp [awaits, h.kept n hlt]
  · rw [awaits_of_le hge, awaits]
    cases hq : quads'[n]? with
    | none => rfl
    | some q => exact isUnpatched_of_not_jump (isJump_of_isPlain (h.plain n q hge hq))

theorem awaits_push (quads : Array Quad) (q : Quad) (n : Nat) :
    awaits (quads.push q) n = if n = quads.size then q.isUnpatched else awaits quads n := by
  simp only [awaits, Array.getElem?_push]
  split
  · rfl
  · rfl

theorem awaits_push_of_patched (quads : Array Quad) (h : q.isUnpatched = false) (n : Nat) :
    awaits (quads.push q) n = awaits quads n := by
  rw [awaits_push]
  split
  · rename_i hn
    rw [h, hn, awaits_of_le (Nat.le_refl _)]
  · rfl

/-- A patched jump waits no longer, and no other quad is affected. -/
theorem awaits_patched (quads : Array Quad) (index target n : Nat) :
    awaits (patched quads index target) n = (awaits quads n && decide (n ≠ index)) := by
  by_cases hn : n = index
  · subst hn
    have hnot : awaits (patched quads n target) n = false := by
      rw [Bool.eq_false_iff]
      intro hawaits
      obtain ⟨q', hq', hunpatched⟩ := awaits_eq_true.mp hawaits
      rw [Quad.isUnpatched, Bool.and_eq_true, Option.isNone_iff_eq_none] at hunpatched
      obtain ⟨hjump, hnone⟩ := hunpatched
      rcases getElem?_patched hq' with hq | ⟨-, q, -, hqjump, rfl⟩
      · -- the jump that is there now was there before, so it has been patched
        rw [getElem?_patched_self hq hjump, Option.some.injEq] at hq'
        rw [← hq', jumpTarget?_patched hjump] at hnone
        cases hnone
      · rw [jumpTarget?_patched hqjump] at hnone
        cases hnone
    simp [hnot]
  · simp [awaits, getElem?_patched_of_ne quads target hn, hn]

/-! ## What is remembered -/

/-- The jumps that open constructs will patch, innermost first. -/
def pending (c : Control) : List Nat :=
  c.conditionals.map (fun k => k.exitJump.getD k.falseJump) ++ c.loops.filterMap (·.exitJump)

/-- Every waiting jump is pending or forgotten, once; and no other index is either. -/
def Registered (forgotten : List Nat) (c : Control) : Prop :=
  ∀ n, (c.pending ++ forgotten).count n = (awaits c.quads n).toNat

namespace Registered

variable {forgotten : List Nat} {c c' : Control}

theorem of_perm {forgotten' : List Nat} (h : Registered forgotten c)
    (hperm : (c'.pending ++ forgotten').Perm (c.pending ++ forgotten))
    (hawaits : ∀ n, awaits c'.quads n = awaits c.quads n) : Registered forgotten' c' := by
  intro n
  rw [hperm.count_eq, hawaits]
  exact h n

theorem of_same (h : Registered forgotten c) (hpending : c'.pending = c.pending)
    (hawaits : ∀ n, awaits c'.quads n = awaits c.quads n) : Registered forgotten c' :=
  h.of_perm (by rw [hpending]) hawaits

/-- A new waiting jump is remembered. -/
theorem emit (h : Registered forgotten c) (hgrown : Grown c.quads quads) (hq : q.isUnpatched = true)
    (hquads : c'.quads = quads.push q) (hpending : (c'.pending).Perm (quads.size :: c.pending)) :
    Registered forgotten c' := by
  intro n
  have hcount := h n
  have hfresh := awaits_of_le hgrown.size
  rw [hquads, awaits_push, (hpending.append_right forgotten).count_eq, List.cons_append,
    List.count_cons, hcount, hq]
  by_cases hn : n = quads.size
  · simp [hn, hfresh]
  · simp [hn, Ne.symm hn, awaits_grown hgrown n]

/-- A jump that is remembered gets its target. -/
theorem patch {index target : Nat} (h : Registered forgotten c)
    (hawaits : ∀ n, awaits quads n = awaits c.quads n)
    (hquads : c'.quads = patched quads index target)
    (hpending : c.pending.Perm (index :: c'.pending)) : Registered forgotten c' := by
  intro n
  have hcount := h n
  rw [(hpending.append_right forgotten).count_eq, List.cons_append, List.count_cons] at hcount
  rw [hquads, awaits_patched, hawaits]
  have hle := Bool.toNat_le (awaits c.quads n)
  by_cases hn : n = index
  · subst hn
    simp only [beq_self_eq_true, if_true] at hcount
    simp only [ne_eq, not_true_eq_false, decide_false, Bool.and_false, Bool.toNat_false]
    omega
  · simpa [hn, Ne.symm hn] using hcount

end Registered

/-- Nothing is left of a script's jumps when nothing is open but those that were forgotten. -/
theorem Registered.awaits_iff {forgotten : List Nat} {c : Control} (h : Registered forgotten c)
    (hconditionals : c.conditionals = []) (hloops : c.loops = []) :
    (∃ n, awaits c.quads n = true) ↔ forgotten ≠ [] := by
  have hpending : c.pending = [] := by simp [pending, hconditionals, hloops]
  have hcount : ∀ n, forgotten.count n = (awaits c.quads n).toNat := by
    intro n
    rw [← h n, hpending, List.nil_append]
  constructor
  · rintro ⟨n, hn⟩ hnil
    have := hcount n
    rw [hn, hnil] at this
    cases this
  · intro hne
    obtain ⟨n, rest, rfl⟩ := List.exists_cons_of_ne_nil hne
    refine ⟨n, ?_⟩
    have := hcount n
    rw [List.count_cons_self] at this
    cases hawaits : awaits c.quads n with
    | true => rfl
    | false =>
      rw [hawaits] at this
      cases this

end Control

/-! ## Conditions set twice -/

/-- What a script has done with its loops. -/
structure LoopHistory where
  /-- For each open loop, innermost first, whether its condition is set. -/
  conditions : List Bool
  /-- A condition was set for a loop that had one. -/
  repeated : Bool
deriving DecidableEq

namespace LoopHistory

def initial : LoopHistory := ⟨[], false⟩

def read : LoopHistory → Event → LoopHistory
  | ⟨conditions, repeated⟩, .saveLoopStart => ⟨false :: conditions, repeated⟩
  | ⟨isSet :: conditions, repeated⟩, .setLoopCondition => ⟨true :: conditions, repeated || isSet⟩
  | ⟨_ :: conditions, repeated⟩, .closeLoop => ⟨conditions, repeated⟩
  | h, _ => h

end LoopHistory

/-- Somewhere in the script the condition of a loop is set a second time. -/
def setsConditionTwice (events : List Event) : Bool :=
  (events.foldl LoopHistory.read .initial).repeated

namespace LoopHistory

open Control

/-- The history tells which loops have their condition, and whether a jump was forgotten. -/
def Describes (h : LoopHistory) (c : Control) : Prop :=
  h.conditions = c.loops.map (·.exitJump.isSome) ∧
    ∃ forgotten, Registered forgotten c ∧ (h.repeated = true ↔ forgotten ≠ [])

variable {h : LoopHistory} {c c' : Control}

theorem Describes.of_registered (hc : h.Describes c) (hloops : c'.loops = c.loops)
    (hstep : ∀ forgotten, Registered forgotten c → Registered forgotten c') : h.Describes c' := by
  obtain ⟨hconditions, forgotten, hregistered, hrepeated⟩ := hc
  exact ⟨by rw [hconditions, hloops], forgotten, hstep forgotten hregistered, hrepeated⟩

theorem Describes.turn {falseJump : Nat} {rest : List Conditional} (hc : h.Describes c)
    (hconditionals : c.conditionals = ⟨falseJump, none⟩ :: rest) :
    h.Describes { c with
      quads := patched (c.quads.push ⟨.goto, none, none, none⟩) falseJump (c.quads.size + 1)
      conditionals := ⟨falseJump, some c.quads.size⟩ :: rest } := by
  refine hc.of_registered rfl fun forgotten hreg => ?_
  -- between the two steps both jumps wait, as if a conditional inside the first were open
  have hboth : Registered forgotten { c with
      quads := c.quads.push ⟨.goto, none, none, none⟩
      conditionals := ⟨c.quads.size, none⟩ :: c.conditionals } :=
        hreg.emit (.refl _) rfl rfl (.refl _)
  refine hboth.patch (fun _ => rfl) rfl ?_
  simp only [pending, hconditionals, List.map_cons, List.cons_append, Option.getD_none,
    Option.getD_some]
  exact .swap _ _ _

theorem Describes.join {k : Conditional} {rest : List Conditional} (hc : h.Describes c)
    (hconditionals : c.conditionals = k :: rest) :
    h.Describes { c with
      quads := patched c.quads (k.exitJump.getD k.falseJump) c.quads.size
      conditionals := rest } := by
  refine hc.of_registered rfl fun forgotten hreg => hreg.patch (fun _ => rfl) rfl ?_
  simp [pending, hconditionals]

theorem Describes.mark (hc : h.Describes c) :
    (h.read .saveLoopStart).Describes { c with loops := ⟨c.quads.size, none⟩ :: c.loops } := by
  obtain ⟨hconditions, forgotten, hreg, hrepeated⟩ := hc
  refine ⟨?_, forgotten, hreg.of_same (by simp [pending]) fun _ => rfl, hrepeated⟩
  simp [read, hconditions]

/-- The condition of a loop: the jump of an earlier one is forgotten. -/
theorem Describes.test {o : Option Operand} {l : Loop} {rest : List Loop} (hc : h.Describes c)
    (hgrown : Grown c.quads quads) (hloops : c.loops = l :: rest) :
    (h.read .setLoopCondition).Describes { c with
      quads := quads.push ⟨.gotoFalse, o, none, none⟩
      loops := { l with exitJump := some quads.size } :: rest } := by
  obtain ⟨hconditions, forgotten, hreg, hrepeated⟩ := hc
  obtain ⟨conditions, repeated⟩ := h
  dsimp only at hconditions hrepeated
  rw [hloops, List.map_cons] at hconditions
  subst hconditions
  refine ⟨rfl, l.exitJump.toList ++ forgotten, ?_, ?_⟩
  · have hforget :
        Registered (l.exitJump.toList ++ forgotten)
          { c with loops := { l with exitJump := none } :: rest } := by
      refine hreg.of_perm ?_ fun _ => rfl
      cases hexit : l.exitJump with
      | none => simp [pending, hloops, hexit]
      | some exit =>
        simp only [pending, hloops, hexit, List.filterMap_cons, List.append_assoc,
          Option.toList_some, List.cons_append]
        exact List.perm_middle.append_left _
    refine hforget.emit hgrown rfl rfl ?_
    simp only [pending, List.filterMap_cons]
    exact List.perm_middle
  · cases l.exitJump with
    | none => simpa [read] using hrepeated
    | some exit => simp [read]

theorem Describes.again {l : Loop} {exit : Nat} {rest : List Loop} (hc : h.Describes c)
    (hloops : c.loops = l :: rest) (hexit : l.exitJump = some exit) :
    (h.read .closeLoop).Describes { c with
      quads := patched (c.quads.push ⟨.goto, none, none, some (.jump l.start)⟩) exit
        (c.quads.size + 1)
      loops := rest } := by
  obtain ⟨hconditions, forgotten, hreg, hrepeated⟩ := hc
  obtain ⟨conditions, repeated⟩ := h
  dsimp only at hconditions hrepeated
  rw [hloops, List.map_cons] at hconditions
  subst hconditions
  refine ⟨rfl, forgotten, hreg.patch (awaits_push_of_patched _ rfl) rfl ?_, hrepeated⟩
  simp only [pending, hloops, List.filterMap_cons, hexit]
  exact List.perm_middle

theorem read_of_not_control {e : Event} (he : e.isControl = false) : h.read e = h := by
  cases e <;> first | rfl | cases he

theorem Describes.acts {e : Event} (hacts : Acts e c c') (hc : h.Describes c) :
    (h.read e).Describes c' := by
  cases hacts with
  | straight hplain hgrown =>
    rw [read_of_not_control hplain]
    exact hc.of_registered rfl fun _ hreg => hreg.of_same rfl (awaits_grown hgrown)
  | opens => exact hc.of_registered rfl fun _ hreg => hreg.of_same rfl fun _ => rfl
  | closes | claims | leaves =>
    exact hc.of_registered rfl fun _ hreg => hreg.of_same rfl (awaits_push_of_patched _ rfl)
  | branches _ hgrown => exact hc.of_registered rfl fun _ hreg => hreg.emit hgrown rfl rfl (.refl _)
  | turns _ hconditionals => exact hc.turn hconditionals
  | joins hconditionals => exact hc.join hconditionals
  | marks => exact hc.mark
  | tests _ hgrown hloops => exact hc.test hgrown hloops
  | repeats _ hloops hexit => exact hc.again hloops hexit
  | calls _ hgrown =>
    refine hc.of_registered rfl fun _ hreg => hreg.of_same rfl fun n => ?_
    exact (awaits_push_of_patched _ rfl n).trans (awaits_grown hgrown n)
  | returns _ hgrown =>
    refine hc.of_registered rfl fun _ hreg => hreg.of_same rfl fun n => ?_
    exact ((awaits_push_of_patched _ rfl n).trans (awaits_push_of_patched _ rfl n)).trans
      (awaits_grown hgrown n)

theorem Describes.before (hc : h.Describes c) (e : Event) : h.Describes (c.before e) := by
  unfold Control.before
  split
  · exact hc
  · exact hc.of_registered rfl fun _ hreg => hreg.of_same rfl fun _ => rfl

theorem describes_initial (sizes : Sizes) (threshold : Level) :
    initial.Describes (Generator.ofSizes sizes threshold).control := by
  refine ⟨rfl, [], fun n => ?_, by simp [initial]⟩
  show List.count n [] = (awaits #[] n).toNat
  simp [awaits]

/-- The history describes what is open, event by event. -/
theorem describes_of_accepts {sizes : Sizes} {threshold : Level} {g : Generator}
    (h : Accepts (.ofSizes sizes threshold) events g) :
    (events.foldl read initial).Describes g.control := by
  refine h.induction (P := fun done g => (done.foldl read initial).Describes g.control)
    (describes_initial sizes threshold) ?_
  intro done e g g' hdone happly
  rw [List.foldl_append]
  exact (hdone.before e).acts (Compile.control_apply happly)

end LoopHistory

/-! ## Compiled programs -/

namespace Program

/-- Every jump of the program has a target. -/
def Patched (p : Program) : Prop :=
  ∀ (n : Nat) (q : Quad), p.quads[n]? = some q → q.isJump = true →
    ∃ target, q.result = some (.jump target)

theorem isUnpatched_eq_false (h : q.isJump = true) :
    q.isUnpatched = false ↔ ∃ target, q.result = some (.jump target) := by
  simp only [Quad.isUnpatched, h, Bool.true_and, Option.isNone_eq_false_iff,
    Option.isSome_iff_exists]
  rw [Quad.jumpTarget?, h]
  constructor
  · rintro ⟨target, htarget⟩
    split at htarget
    · rename_i t _ hresult
      exact ⟨t, hresult⟩
    · cases htarget
  · rintro ⟨target, htarget⟩
    exact ⟨target, by rw [htarget]⟩

theorem patched_iff : p.Patched ↔ ¬ ∃ n, Control.awaits p.quads n = true := by
  constructor
  · rintro hpatched ⟨n, hn⟩
    obtain ⟨q, hq, hunpatched⟩ := Control.awaits_eq_true.mp hn
    have hjump : q.isJump = true := by
      cases hjump : q.isJump with
      | true => rfl
      | false =>
        rw [isUnpatched_of_not_jump hjump] at hunpatched
        cases hunpatched
    rw [(isUnpatched_eq_false hjump).mpr (hpatched n q hq hjump)] at hunpatched
    cases hunpatched
  · intro hnone n q hq hjump
    refine (isUnpatched_eq_false hjump).mp ?_
    rw [Bool.eq_false_iff]
    intro hunpatched
    exact hnone ⟨n, Control.awaits_eq_true.mpr ⟨q, hq, hunpatched⟩⟩

/-- All jumps of a compiled program have targets unless its script sets a condition twice. -/
theorem patched_iff_of_compile {threshold : Level} {sizes : Sizes} {names : Names}
    (h : (compile threshold sizes events).1 = .ok (p, names)) :
    p.Patched ↔ setsConditionTwice events = false := by
  obtain ⟨g, g', haccepts, hfinish⟩ := accepts_of_compile h
  obtain ⟨-, hclosed, -, -, rfl⟩ := Compile.yields_finish hfinish
  obtain ⟨-, forgotten, hreg, hrepeated⟩ := LoopHistory.describes_of_accepts haccepts
  have hawaits :=
    hreg.awaits_iff (Compile.conditionals_of_closed hclosed) (Compile.loops_of_closed hclosed)
  rw [patched_iff, Bool.eq_false_iff]
  exact not_congr (hawaits.trans hrepeated.symm)

end Program

/-- No run of a program whose jumps have targets stops at a jump without one. -/
theorem Machine.fault_ne_unpatched (hp : p.Patched) {m m' : Machine} {budget : Nat}
    {e : RuntimeError} (h : m.run budget p = some (.error e, m')) :
    e.fault ≠ .internal .unpatchedJump := by
  intro hfault
  rcases run_eq_error h with hload | ⟨m₀, n, s, hstart, hs, hfaulted⟩
  · rw [hfault] at hload
    rcases start_eq_error hload with hload | hload | hload
    · cases hload
    · cases hload
    · cases hload
  · rcases faulted_cases hfaulted with ⟨-, houtside⟩ | ⟨q, hq,
      ⟨limit, hlimit⟩ | ⟨hunpatched, -⟩ | hquad⟩
    · rw [hfault] at houtside
      cases houtside
    · rw [hfault] at hlimit
      cases hlimit
    · rw [(loaded_after hstart hs).quads] at hq
      exact Program.patched_iff.mp hp ⟨s.ip, Control.awaits_eq_true.mpr ⟨q, hq, hunpatched⟩⟩
    · rw [hfault] at hquad
      cases hquad

/-- **Backpatching is complete exactly when no loop gets two conditions.** Every jump of a compiled
program has a target, unless the script sets the condition of some loop while it has one; then some
jump has none.  Where every jump has its target, no run stops at a jump without one. -/
theorem jumps_are_patched_iff {threshold : Level} {sizes : Sizes} {events : List Event}
    {p : Program} {names : Names} (h : (compile threshold sizes events).1 = .ok (p, names)) :
    (p.Patched ↔ setsConditionTwice events = false) ∧
    (setsConditionTwice events = false → ∀ (m m' : Machine) (budget : Nat) (e : RuntimeError),
      m.run budget p = some (.error e, m') → e.fault ≠ .internal .unpatchedJump) := by
  have hiff := Program.patched_iff_of_compile h
  refine ⟨hiff, ?_⟩
  intro honce m m' budget e hrun
  exact Machine.fault_ne_unpatched (hiff.mpr honce) hrun

/-- A loop in a loop, in the second branch of a conditional. -/
def loopsInBranch : List Event :=
  [.declareFunction "main", .pushConstant (.bool true), .openConditional, .elseBranch,
    .saveLoopStart, .pushConstant (.bool true), .setLoopCondition,
    .saveLoopStart, .pushConstant (.bool false), .setLoopCondition, .closeLoop,
    .closeLoop, .closeConditional, .endFunction]

theorem jumps_are_patched_iff_loopsInBranch :
    ∃ p names, (compile .warn (Sizes.uniform 2) loopsInBranch).1 = .ok (p, names) ∧
      setsConditionTwice loopsInBranch = false ∧ p.Patched ∧
      ∀ (m m' : Machine) (budget : Nat) (e : RuntimeError),
        m.run budget p = some (.error e, m') → e.fault ≠ .internal .unpatchedJump := by
  obtain ⟨p, names, h⟩ := exists_of_isOk
    (show (compile .warn (Sizes.uniform 2) loopsInBranch).1.isOk = true by decide +kernel)
  have honce : setsConditionTwice loopsInBranch = false := by decide
  obtain ⟨hiff, hruns⟩ := jumps_are_patched_iff h
  exact ⟨p, names, h, honce, hiff.mpr honce, hruns honce⟩

/-- A loop whose condition is set twice. -/
def twoConditions : List Event :=
  [.declareFunction "main", .saveLoopStart, .pushConstant (.bool true), .setLoopCondition,
    .pushConstant (.bool false), .setLoopCondition, .closeLoop, .endFunction]

/-- How the first step of a compiled script ends in a fault. -/
def firstFault? (events : List Event) : Option Fault :=
  match (compile .warn (Sizes.uniform 2) events).1 with
  | .error _ => none
  | .ok (p, _) =>
    match (Machine.ofConsole ⟨8, none, 0⟩ (Console.ofInput []) .warn).run 1 p with
    | some (.error e, _) => some e.fault
    | _ => none

/-- The jump of the first of two conditions never gets its target, and the run stops there. -/
theorem unpatched_of_two_conditions :
    ∃ p names e m', (compile .warn (Sizes.uniform 2) twoConditions).1 = .ok (p, names) ∧
      ¬ p.Patched ∧
      (Machine.ofConsole ⟨8, none, 0⟩ (Console.ofInput []) .warn).run 1 p = some (.error e, m') ∧
      e.fault = .internal .unpatchedJump := by
  obtain ⟨p, names, h⟩ := exists_of_isOk
    (show (compile .warn (Sizes.uniform 2) twoConditions).1.isOk = true by decide +kernel)
  have hfault : firstFault? twoConditions = some (.internal .unpatchedJump) := by decide +kernel
  have htwice : setsConditionTwice twoConditions = true := by decide
  have hnot : ¬ p.Patched := by
    rw [Program.patched_iff_of_compile h, htwice]
    exact Bool.noConfusion
  rw [firstFault?, h] at hfault
  dsimp only at hfault
  split at hfault
  · rename_i e m' hrun
    exact ⟨p, names, e, m', h, hnot, hrun, Option.some.inj hfault⟩
  · cases hfault

end Quadruple
