/-
  Every slot holds a value of its own type, or none.

  A frame keeps its slots in one row for each scalar type.  Nothing in a program says that the code
  respects these types: it may have been written by hand or read from bytes, with any quads,
  parameter addresses and counts of slots.  The machine checks them itself, in the two places where
  a slot is filled.

  1. `writeSlot`, which all writing quads go through, converts the value to the type of the address
     or refuses it, and then writes to the row of the run where the layout finds that address.  The
     type and the row come from the same run, also when a pointer led to the address.
  2. `PARAM` writes to a reserved frame without `writeSlot`; it converts the argument to the type of
     the parameter's run and writes to the row of that run.

  All else moves frames from one place to another or makes them with empty slots.  So each quad
  keeps the types, whether it succeeds or fails (`moves_execute_keepsTypes`), and they hold in every
  state of every run:

      (row of ty)[i] = some v  →  v.scalar = ty
-/
import Quadruple.Proofs.FrameSteps

namespace Quadruple

variable {w v : Option Value} {m m' : Machine} {p : Program}

/-! ## Frames -/

namespace Frame

/-- Every value stored in the row of a scalar type has that type. -/
def Typed (f : Frame) : Prop :=
  ∀ (ty : Scalar) (i : Nat) (v : Value), (f.slots.get ty)[i]? = some (some v) → v.scalar = ty

theorem typed_ofCounts (function : String) (counts : SlotCounts) :
    (ofCounts function counts).Typed := by
  intro ty i v h
  rw [ofCounts, PerScalar.get_ofFn, Array.getElem?_replicate] at h
  split at h
  · cases h
  · cases h

/-- What is written to a row of the right type, if anything, leaves the frame typed. -/
theorem Typed.written {f : Frame} (hf : f.Typed) {ty : Scalar}
    (hw : ∀ v, w = some v → v.scalar = ty) (i : Nat) : (f.written ty i w).Typed := by
  intro ty' j v h
  by_cases hty : ty' = ty
  · subst hty
    rw [get_written_self, Array.getElem?_setIfInBounds] at h
    split at h
    · split at h
      · exact hw v (Option.some.inj h)
      · cases h
    · exact hf ty' j v h
  · rw [get_written_of_ne f i w hty] at h
    exact hf ty' j v h

theorem Typed.set? {f f' : Frame} (hf : f.Typed) {r : Range} {a : Nat}
    (hw : ∀ v, w = some v → v.scalar = r.ty) (h : f.set? r a w = some f') : f'.Typed := by
  obtain ⟨i, -, rfl⟩ := set?_eq_some h
  exact hf.written hw i

end Frame

/-! ## The machine -/

namespace Machine

/-- All frames of the machine are typed: that of the globals, the active ones and the reserved ones.
-/
structure Typed (m : Machine) : Prop where
  globals : m.globals.Typed
  frames : ∀ f ∈ m.frames, f.Typed
  pending : ∀ f ∈ m.pending, f.Typed

/-- The machine is typed afterwards if it was before. -/
def KeepsTypes (m m' : Machine) : Prop := m.Typed → m'.Typed

instance : IsPreorder Machine KeepsTypes where
  refl _ := id
  trans _ _ _ h₁ h₂ := h₂ ∘ h₁

/-- No frame has changed. -/
theorem KeepsTypes.of_eq (hglobals : m'.globals = m.globals) (hframes : m'.frames = m.frames)
    (hpending : m'.pending = m.pending) : KeepsTypes m m' :=
  fun hm => ⟨hglobals ▸ hm.globals, hframes ▸ hm.frames, hpending ▸ hm.pending⟩

/-- What is stored at an address has the type of its run. -/
theorem scalar_of_stored {address : Nat} {r : Range} (hr : m.layout.locate address = some r)
    (hw : m.stored address v = .ok w) (u : Value) (hu : w = some u) : u.scalar = r.ty := by
  have hty : m.layout.typeOf address = some r.ty := by
    unfold Layout.typeOf
    rw [hr, Option.map_some]
  subst hu
  unfold stored at hw
  rw [hty] at hw
  split at hw
  · rename_i value ty heq
    cases heq
    split at hw
    · rename_i converted hconverted
      cases hw
      exact Value.scalar_of_coerce? hconverted
    · cases hw
  · rename_i hnone
    cases hw
    exact (hnone u r.ty rfl rfl).elim

theorem keepsTypes_writeSlot {address : Nat} (h : m.writeSlot address v = .ok m') :
    KeepsTypes m m' := by
  intro hm
  obtain ⟨r, w, globals, hr, hw, hset, rfl⟩ | ⟨r, w, f, f', rest, hr, hw, hframes, hset, rfl⟩ | ⟨w,
      heap, -, rfl⟩ :=
    writeSlot_eq_ok h
  · exact ⟨hm.globals.set? (scalar_of_stored hr hw) hset, hm.frames, hm.pending⟩
  · have hall := hm.frames
    rw [hframes, List.forall_mem_cons] at hall
    refine ⟨hm.globals, ?_, hm.pending⟩
    rw [List.forall_mem_cons]
    exact ⟨hall.1.set? (scalar_of_stored hr hw) hset, hall.2⟩
  · exact ⟨hm.globals, hm.frames, hm.pending⟩

theorem Touches.keepsTypes (h : Touches m m') : KeepsTypes m m' := by
  refine h.rel (R := KeepsTypes) fun htouch => ?_
  cases htouch with
  | write hw => exact keepsTypes_writeSlot hw
  | _ => exact .of_eq rfl rfl rfl

end Machine

/-! ## Calls -/

namespace Exec

open Machine

/-- `ARE` reserves a frame with empty slots. -/
theorem moves_are_keepsTypes (q : Quad) : Moves KeepsTypes (are q) := by
  refine moves_are (fun m id slots hm => ?_) q
  refine ⟨hm.globals, hm.frames, ?_⟩
  rw [List.forall_mem_cons]
  exact ⟨Frame.typed_ofCounts _ _, hm.pending⟩

/-- `PARAM` converts the argument to the type of the parameter's run and writes to the row of that
run. -/
theorem moves_param_keepsTypes (q : Quad) : Moves KeepsTypes (param q) := by
  refine moves_param ?_ q
  intro m frame frame' rest r a v w hpending hw hset hm
  have hall := hm.pending
  rw [hpending, List.forall_mem_cons] at hall
  have hty : ∀ u, some w = some u → u.scalar = r.ty := by
    rintro u ⟨⟩
    exact Value.scalar_of_coerce? hw
  refine ⟨hm.globals, hm.frames, ?_⟩
  rw [List.forall_mem_cons]
  exact ⟨hall.1.set? hty hset, hall.2⟩

/-- `GOSUB` makes a reserved frame the active one. -/
theorem moves_goSub_keepsTypes (q : Quad) : Moves KeepsTypes (goSub q) := by
  refine moves_goSub (fun _ _ => .of_eq rfl rfl rfl) ?_ q
  intro m frame rest hpending hm
  have hall := hm.pending
  rw [hpending, List.forall_mem_cons] at hall
  refine ⟨hm.globals, ?_, hall.2⟩
  show ∀ f ∈ frame :: m.frames, f.Typed
  rw [List.forall_mem_cons]
  exact ⟨hall.1, hm.frames⟩

/-- `ENDFUNC` drops a frame. -/
theorem moves_endFunc_keepsTypes : Moves KeepsTypes endFunc := by
  refine moves_endFunc fun m returns hm => ⟨hm.globals, ?_, hm.pending⟩
  intro f hf
  exact hm.frames f (List.mem_of_mem_drop hf)

/-! ## Steps -/

/-- Every quad keeps the types, whether it succeeds or fails. -/
theorem moves_execute_keepsTypes (q : Quad) : Moves KeepsTypes (execute q) := by
  cases hcall : q.op.isOfCall with
  | false => exact (touches_execute hcall).mono Touches.keepsTypes
  | true =>
    unfold execute
    cases hop : q.op with
    | are => exact moves_are_keepsTypes q
    | param => exact moves_param_keepsTypes q
    | goSub => exact moves_goSub_keepsTypes q
    | returnValue => exact moves_returnValue (fun _ _ => .of_eq rfl rfl rfl) q
    | endFunc => exact moves_endFunc_keepsTypes
    | callAssign => exact moves_callAssign Touches.keepsTypes (fun _ => .of_eq rfl rfl rfl) q
    | _ =>
      rw [hop] at hcall
      cases hcall

end Exec

namespace Machine

/-- The machine that a step leaves, however the run stands after it. -/
def Status.machine : Status → Machine
  | .running m => m
  | .halted m => m
  | .faulted _ m => m

section

variable {R : Machine → Machine → Prop} [IsPreorder Machine R]
  (hbooks : ∀ m ip steps journal, R m { m with ip := ip, steps := steps, journal := journal })
include hbooks

theorem rel_conclude (m : Machine) : R m m.conclude.machine := by
  have hflush : Leads R m Exec.flush := Exec.moves_flush m
  unfold Leads at hflush
  unfold conclude
  split
  · rename_i m' hm'
    rw [hm'] at hflush
    exact trans_of R hflush (hbooks m' _ _ _)
  · rename_i f m' hm'
    rwa [hm'] at hflush

/-- What every quad keeps and what takes no account of the books, a step keeps, whether the run goes
on, halts or faults with it. -/
theorem rel_advance (hexecute : ∀ q, Moves R (Exec.execute q)) (m : Machine) :
    R m m.advance.machine := by
  have hcount : Moves R Exec.countStep := by
    refine .bind (moves_modify fun m => hbooks m _ _ _) fun _ => moves_get_bind fun m => ?_
    split
    · split
      · exact moves_throw _ m
      · exact moves_pure _ m
    · exact moves_pure _ m
  have hstep : Leads R m Exec.step := by
    refine leads_get_bind ?_
    split
    · exact Exec.moves_reject _ m
    rename_i q _
    refine Moves.bind hcount (fun _ => ?_) m
    exact .bind (moves_modify fun m => hbooks m _ _ _) fun _ => hexecute q
  unfold Leads at hstep
  unfold advance
  split
  · rename_i f m' hm'
    rwa [hm'] at hstep
  · rename_i m' hm'
    rw [hm'] at hstep
    exact trans_of R hstep (hbooks m' _ _ _)
  · rename_i target m' hm'
    rw [hm'] at hstep
    exact trans_of R hstep (hbooks m' _ _ _)
  · rename_i m' hm'
    rw [hm'] at hstep
    exact trans_of R hstep (rel_conclude hbooks m')

end

/-- A step keeps the types of slots, however it ends. -/
theorem keepsTypes_advance (m : Machine) : KeepsTypes m m.advance.machine :=
  rel_advance (fun _ _ _ _ => .of_eq rfl rfl rfl) Exec.moves_execute_keepsTypes m

/-! ## Runs -/

/-- A run starts with empty slots. -/
theorem typed_start {m₀ : Machine} (h : m.start p = .ok m₀) : m₀.Typed := by
  obtain ⟨main, h₀⟩ := exists_started h
  refine ⟨h₀.globals ▸ Frame.typed_ofCounts _ _, ?_, ?_⟩
  · rw [h₀.frames, List.forall_mem_singleton]
    exact Frame.typed_ofCounts _ _
  · rw [h₀.pending]
    exact List.forall_mem_nil _

/-- Memory is typed in every state of a run. -/
theorem typed_after {m₀ s : Machine} {n : Nat} (hstart : m.start p = .ok m₀)
    (hs : m₀.after n = some s) : s.Typed := by
  refine after_induction (typed_start hstart) ?_ hs
  intro s s' hs hstep
  have hkeeps := keepsTypes_advance s hs
  rwa [hstep] at hkeeps

/-- A machine as a user can have it: new, or after one run or several. -/
inductive InUse : Machine → Prop
  | new (limits : Limits) (console : Console) (threshold : Level) :
      InUse (ofConsole limits console threshold)
  | ran {m m' : Machine} {p : Program} {budget : Nat} {result : Except RuntimeError Unit}
      (hm : InUse m) (hrun : m.run budget p = some (result, m')) : InUse m'

/-- It is typed in the end. -/
theorem typed_run {budget : Nat} {result : Except RuntimeError Unit} (hm : m.Typed)
    (h : m.run budget p = some (result, m')) : m'.Typed := by
  unfold run at h
  split at h
  · -- a program that cannot be loaded leaves the machine as it is
    cases h
    exact hm
  · rename_i m₀ hstart
    obtain ⟨n, s, -, hs, hends⟩ := resume_eq_some h
    have hkeeps := keepsTypes_advance s (typed_after hstart hs)
    obtain ⟨hadvance, -⟩ | ⟨e, hadvance, -⟩ := hends
    · rwa [hadvance] at hkeeps
    · rwa [hadvance] at hkeeps

theorem InUse.typed (h : m.InUse) : m.Typed := by
  induction h with
  | new limits console threshold =>
    exact ⟨Frame.typed_ofCounts _ _, List.forall_mem_nil _, List.forall_mem_nil _⟩
  | ran _ hrun ih => exact typed_run ih hrun

/-- **Slots hold their types.** For every program whatsoever and every machine that a user can have,
with whatever limits and input: in every state that a run of the program passes through, also in the
one in which it halts or stops with an error, each slot of the globals, of an active frame or of a
reserved frame that lies in the row of a scalar type is empty or holds a value of exactly that type.
-/
theorem slots_hold_their_types {m : Machine} (hm : m.InUse) (p : Program) :
    (∀ m₀ n s, m.start p = .ok m₀ → m₀.after n = some s → s.Typed ∧ s.advance.machine.Typed) ∧
    (∀ budget result m', m.run budget p = some (result, m') → m'.Typed) := by
  refine ⟨?_, ?_⟩
  · intro m₀ n s hstart hs
    have htyped := typed_after hstart hs
    exact ⟨htyped, keepsTypes_advance s htyped⟩
  · intro budget result m' hrun
    exact typed_run hm.typed hrun

/-- Code that no compiler makes: it stores an integer as a float, passes one where a float is
wanted, and then stores a truth value in the same slot. -/
def untypedCode : Program :=
  { Program.ofSizes (Sizes.uniform 1) with
    constants := Table.ofList [(15, ⟨.int 1, .int⟩), (17, ⟨.bool true, .bool⟩)]
    functions := Table.ofList
      [("main", { Routine.startingAt 0 with slots := ⟨PerScalar.const 1, PerScalar.const 0⟩ }),
        ("half", { Routine.startingAt 4 with
          paramTypes := [.scalar .float], paramAddresses := [6], slots :=
            ⟨PerScalar.const 1, PerScalar.const 0⟩ })]
    quads := #[
      ⟨.assign, some (.addr 15), none, some (.addr 6)⟩, ⟨.are, some (.function "half"), none, none⟩,
      ⟨.param, some (.addr 15), none, some (.immediate 0)⟩,
      ⟨.assign, some (.addr 17), none, some (.addr 6)⟩,
      ⟨.endFunc, none, none, none⟩] }

/-- A new machine with nothing to read. -/
def withoutInput : Machine := ofConsole Limits.standard (Console.ofInput []) .warn

theorem isSome_run_untypedCode : (withoutInput.run 9 untypedCode).isSome = true := by decide +kernel

/-- Both integers became floats, the truth value was refused, and every slot has its type. -/
theorem slots_hold_their_types_untypedCode :
    withoutInput.InUse ∧
    ∃ e m', withoutInput.run 9 untypedCode = some (.error e, m') ∧
      e.fault = .typeError (.cannotStore .float 6) ∧
      m'.Typed ∧ m'.frames.map (·.slots.float) = [#[some (.float (Binary64.ofInt 1))]] ∧
      m'.pending.map (·.slots.float) = [#[some (.float (Binary64.ofInt 1))]] := by
  have hnew : withoutInput.InUse := InUse.new Limits.standard (Console.ofInput []) .warn
  have hrun :
      withoutInput.run 9 untypedCode =
        some ((withoutInput.run 9 untypedCode).get isSome_run_untypedCode) :=
    (Option.some_get isSome_run_untypedCode).symm
  have hfault : ((withoutInput.run 9 untypedCode).get isSome_run_untypedCode).1 =
      .error ⟨.typeError (.cannotStore .float 6), 3, ["main"]⟩ := by decide +kernel
  refine ⟨hnew, _, _, hrun.trans (congrArg some (Prod.ext hfault rfl)), rfl, ?_,
    by decide +kernel, by decide +kernel⟩
  exact (slots_hold_their_types hnew untypedCode).2 9 _ _ hrun

end Machine

end Quadruple
