/-
  Machines in lockstep.

  A step asks for the limits of its machine in two places, where it counts itself and where it
  enters a function, and it never asks what was noted or written before.  So two machines that
  differ in nothing but limits, journal and earlier output (`Alike`) take the same steps, fail at
  the same quad in the same way, and write the same bytes, for as long as the limits of the first
  one let it (`Matches`).  When the second one has wider limits (`Limits.Widens`), a limit of the
  first one is the only thing that can part them.

  1. `Mirrors`: from related states a computation ends in matching ways.  It is closed under
     sequencing, so each instruction is followed part by part; only `countStep` and `goSub` have an
     argument of their own.

      R s s'  →  (c fails from s at a limit)  ∨  (c ends alike from s and s', with R after it)

  2. `advance_alike` and `resume_alike`: one step, and by induction on the budget all of them.
  3. `start_alike`: machines with heaps of one size and the same console but for its output start
     alike, whatever they did before.
-/
import Quadruple.Proofs.Run

namespace Quadruple

variable {α : Type} {m m' : Machine}

/-! ## The same computation from two states -/

section

variable {ε σ α β : Type} {X : ε → Prop} {R : σ → σ → Prop}

/-- The first outcome is an excused error, or both give the same and end in related states. -/
def Matches (X : ε → Prop) (R : σ → σ → Prop) (r r' : Except ε α × σ) : Prop :=
  (∃ e, r.1 = .error e ∧ X e) ∨ (r'.1 = r.1 ∧ R r.2 r'.2)

/-- From related states the computation ends in matching ways. -/
def Mirrors (X : ε → Prop) (R : σ → σ → Prop) (c : Effect ε σ α) : Prop :=
  ∀ s s', R s s' → Matches X R (c.run.run s) (c.run.run s')

theorem matches_same {x : Except ε α} {s s' : σ} (h : R s s') :
    Matches X R (x, s) (x, s') := Or.inr ⟨rfl, h⟩

theorem Mirrors.bind {c : Effect ε σ α} {f : α → Effect ε σ β} (hc : Mirrors X R c)
    (hf : ∀ a, Mirrors X R (f a)) : Mirrors X R (c >>= f) := by
  intro s s' hs
  rw [run_bind, run_bind]
  have h := hc s s' hs
  rcases hr : c.run.run s with ⟨r, t⟩
  rcases hr' : c.run.run s' with ⟨r', t'⟩
  rw [hr, hr'] at h
  rcases h with ⟨e, rfl, hx⟩ | ⟨rfl, ht⟩
  · exact Or.inl ⟨e, rfl, hx⟩
  · cases r' with
    | ok a => exact hf a t t' ht
    | error e => exact matches_same ht

theorem mirrors_pure (a : α) : Mirrors X R (pure a : Effect ε σ α) := fun _ _ h => matches_same h

theorem mirrors_throw (e : ε) : Mirrors X R (throw e : Effect ε σ α) := fun _ _ h => matches_same h

theorem mirrors_modify {f : σ → σ} (h : ∀ s s', R s s' → R (f s) (f s')) :
    Mirrors X R (modify f : Effect ε σ PUnit) := fun s s' hs => matches_same (h s s' hs)

theorem mirrors_get_bind {f : σ → Effect ε σ β}
    (h : ∀ s s', R s s' → Matches X R ((f s).run.run s) ((f s').run.run s')) :
    Mirrors X R (get >>= f) := by
  intro s s' hs
  rw [run_bind, run_bind]
  exact h s s' hs

theorem matches_set_bind {f : PUnit → Effect ε σ β} {s s' t t' : σ} (hf : Mirrors X R (f ()))
    (h : R t t') : Matches X R ((set t >>= f).run.run s) ((set t' >>= f).run.run s') := by
  rw [run_bind, run_bind]
  exact hf t t' h

end

/-! ## Limits -/

/-- The second limits allow whatever the first ones allow, on a heap of the same size. -/
structure Limits.Widens (l l' : Limits) : Prop where
  heapSize : l'.heapSize = l.heapSize
  depth : l.maxCallDepth ≤ l'.maxCallDepth
  steps : ∀ n', l'.maxSteps = some n' → ∃ n, l.maxSteps = some n ∧ n ≤ n'

theorem Limits.widens_refl (l : Limits) :
    l.Widens l := ⟨rfl, Nat.le_refl _, fun n h => ⟨n, h, Nat.le_refl n⟩⟩

/-- Whether the fault says that a limit of steps or calls is used up. -/
def Fault.isLimit : Fault → Bool
  | .stepLimit _ | .callDepth _ => true
  | _ => false

/-- A limit is used up, and there are others to compare with. -/
def CutShort (l l' : Limits) (f : Fault) : Prop := f.isLimit = true ∧ l ≠ l'

/-- What a write adds to the output, and what it answers, do not depend on the output so far. -/
theorem Console.exists_write_eq (c : Console) (bytes : Bytes) : ∃ result added capacity, ∀ output,
    { c with output := output }.write bytes =
    (result, { c with output := output ++ added, capacity := capacity }) := by
  unfold write
  cases hcapacity : c.capacity with
  | none =>
    refine ⟨.ok (), bytes.toArray, none, ?_⟩
    intro output
    rfl
  | some n =>
    refine ⟨if bytes.length ≤ n then .ok () else .error .outputLimit, (bytes.take n).toArray,
      some (n - bytes.length), ?_⟩
    intro output
    rfl

/-- What a line read is, and what is left of the input, do not depend on the output. -/
theorem Console.exists_readLine_eq (c : Console) : ∃ result rest, ∀ output,
    { c with output := output }.readLine =
    (result, { c with input := rest, output := output }) := by
  refine ⟨c.readLine.1, (splitLine c.input).2, ?_⟩
  intro output
  unfold readLine
  dsimp only
  split
  · rfl
  · split <;> rfl

namespace Machine

/-! ## Machines that differ in limits, journal and earlier output -/

/-- The machine with these limits, this journal and this output. -/
def under (k : Machine) (limits : Limits) (journal : Journal) (output : Array UInt8) : Machine :=
  { k with limits := limits, journal := journal, console := { k.console with output := output } }

/-- One machine under two limits: the journals may differ, and what was written before; what was
written since is the same. -/
inductive Alike (limits limits' : Limits) (old old' : Array UInt8) : Machine → Machine → Prop
  | intro (k : Machine) (journal journal' : Journal) (written : Array UInt8) :
    Alike limits limits' old old' (k.under limits journal (old ++ written))
      (k.under limits' journal' (old' ++ written))

/-- What a question to the machine leaves out of account. -/
def Ignores {α : Type} (f : Machine → Except Fault α) : Prop :=
  ∀ k limits journal output, f (under k limits journal output) = f k

section

variable (k : Machine) (limits : Limits) (journal : Journal) (output : Array UInt8)

theorem under_limits : (k.under limits journal output).limits = limits := rfl
theorem under_layout : (k.under limits journal output).layout = k.layout := rfl
theorem under_functions : (k.under limits journal output).functions = k.functions := rfl
theorem under_frames : (k.under limits journal output).frames = k.frames := rfl
theorem under_pending : (k.under limits journal output).pending = k.pending := rfl
theorem under_returns : (k.under limits journal output).returns = k.returns := rfl
theorem under_returned : (k.under limits journal output).returned = k.returned := rfl
theorem under_heap : (k.under limits journal output).heap = k.heap := rfl

theorem writeSlot_under (address : Nat) (v : Option Value) :
    (k.under limits journal output).writeSlot address v =
      (k.writeSlot address v).map (·.under limits journal output) := by
  have hstored : (k.under limits journal output).stored address v = k.stored address v := rfl
  have hplace : (k.under limits journal output).place address = k.place address := rfl
  unfold writeSlot
  rw [hstored, hplace]
  cases k.stored address v with
  | error f => rfl
  | ok w =>
    cases k.place address with
    | error f => rfl
    | ok place =>
      cases place with
      | global r =>
        show (mapped (k.globals.absence r address) (k.globals.set? r address w) >>= _ : Except Fault
            Machine) =
          Except.map _ (mapped (k.globals.absence r address) (k.globals.set? r address w) >>= _)
        cases k.globals.set? r address w with
        | none => rfl
        | some globals => rfl
      | frame r =>
        rw [under_frames]
        cases k.frames with
        | nil => rfl
        | cons f rest =>
          show (mapped (f.absence r address) (f.set? r address w) >>= _ : Except Fault Machine) =
            Except.map _ (mapped (f.absence r address) (f.set? r address w) >>= _)
          cases f.set? r address w with
          | none => rfl
          | some f' => rfl
      | constant => rfl
      | heap =>
        show (heapResult (k.heap.write address w) >>= _ : Except Fault Machine) =
          Except.map _ (heapResult (k.heap.write address w) >>= _)
        cases heapResult (k.heap.write address w) with
        | error f => rfl
        | ok heap => rfl

theorem write_under (o : Option Operand) (v : Value) : (k.under limits journal output).write o v =
      (k.write o v).map (·.under limits journal output) := by
  have hresolve : (k.under limits journal output).resolve o = k.resolve o := rfl
  unfold write
  rw [hresolve]
  cases k.resolve o with
  | error f => rfl
  | ok address => exact writeSlot_under k limits journal output address (some v)

end

end Machine

namespace Exec

open Machine

variable {X : Fault → Prop} {l l' : Limits} {old old' : Array UInt8}

/-! ## Instruction by instruction -/

theorem run_ask (f : Machine → Except Fault α) (m : Machine) : (ask f).run.run m = (f m, m) := by
  cases h : f m with
  | ok a => exact yields_ask.mpr ⟨h, rfl⟩
  | error e => exact fails_ask.mpr ⟨h, rfl⟩

theorem mirrors_ask {f : Machine → Except Fault α} (hf : Ignores f) :
    Mirrors X (Alike l l' old old') (ask f) := by
  rintro _ _ ⟨k, journal, journal', written⟩
  rw [run_ask, run_ask, hf, hf]
  exact matches_same ⟨k, journal, journal', written⟩

theorem ignores_question {f : Machine → Except Fault α} (h : Question f) : Ignores f := by
  cases h <;> exact fun _ _ _ _ => rfl

theorem mirrors_update {f : Machine → Except Fault Machine}
    (hf : ∀ k limits journal output,
      f (under k limits journal output) = (f k).map (·.under limits journal output))
    : Mirrors X (Alike l l' old old') (update f) := by
  rintro _ _ ⟨k, journal, journal', written⟩
  rw [update, run_bind, run_bind, run_ask, run_ask, hf, hf]
  cases f k with
  | ok k' => exact matches_same ⟨k', journal, journal', written⟩
  | error e => exact matches_same ⟨k, journal, journal', written⟩

theorem mirrors_writeSlot (address : Nat) (v : Option Value) :
    Mirrors X (Alike l l' old old') (update (·.writeSlot address v)) :=
  mirrors_update fun k limits journal output => writeSlot_under k limits journal output address v

theorem mirrors_write (o : Option Operand) (v : Value) :
    Mirrors X (Alike l l' old old') (update (·.write o v)) :=
  mirrors_update fun k limits journal output => write_under k limits journal output o v

theorem mirrors_reject (d : Defect) :
    Mirrors X (Alike l l' old old') (reject d : Exec α) := mirrors_throw _

theorem mirrors_note (n : Note) : Mirrors X (Alike l l' old old') (note n) := by
  refine mirrors_modify ?_
  rintro _ _ ⟨k, journal, journal', written⟩
  exact ⟨k, journal.write n, journal'.write n, written⟩

theorem mirrors_newBlock (size : Nat) : Mirrors X (Alike l l' old old') (newBlock size) := by
  refine mirrors_get_bind ?_
  rintro _ _ ⟨k, journal, journal', written⟩
  rw [under_heap, under_heap]
  cases k.heap.allocate size with
  | error e => exact matches_same ⟨k, journal, journal', written⟩
  | ok granted =>
    refine matches_set_bind (.bind (mirrors_note _) fun _ => mirrors_pure _) ?_
    exact ⟨{ k with heap := granted.2 }, journal, journal', written⟩

theorem mirrors_noteFreed : ∀ spans : List Span, Mirrors X (Alike l l' old old') (noteFreed spans)
  | [] => mirrors_pure _
  | _ :: rest => .bind (mirrors_note _) fun _ => mirrors_noteFreed rest

theorem mirrors_releaseBlocks (reference : Nat) :
    Mirrors X (Alike l l' old old') (releaseBlocks reference) := by
  refine mirrors_get_bind ?_
  rintro _ _ ⟨k, journal, journal', written⟩
  rw [under_heap, under_heap]
  cases k.heap.release reference with
  | error e => exact matches_same ⟨k, journal, journal', written⟩
  | ok given =>
    refine matches_set_bind (.bind (mirrors_noteFreed _) fun _ => mirrors_note _) ?_
    exact ⟨{ k with heap := given.2 }, journal, journal', written⟩

/-- The bytes that fit are the same, whatever was written before. -/
theorem mirrors_writeLine (text : String) : Mirrors X (Alike l l' old old') (writeLine text) := by
  refine mirrors_get_bind ?_
  rintro _ _ ⟨k, journal, journal', written⟩
  obtain ⟨result, added, capacity, hwrite⟩ := k.console.exists_write_eq (Bytes.utf8 text ++ [10])
  have hsame : ∀ limits journal output,
      (k.under limits journal output).console.write (Bytes.utf8 text ++ [10]) =
      (result, { k.console with output := output ++ added, capacity := capacity }) :=
        fun _ _ output => hwrite output
  rw [hsame, hsame]
  refine matches_set_bind ?_ ?_
  · cases result with
    | ok u => exact mirrors_pure _
    | error e => exact mirrors_throw _
  · rw [Array.append_assoc, Array.append_assoc]
    exact ⟨{ k with console := { k.console with capacity := capacity } }, journal, journal',
      written ++ added⟩

theorem mirrors_flush : Mirrors X (Alike l l' old old') flush := by
  refine mirrors_get_bind ?_
  rintro _ _ ⟨k, journal, journal', written⟩
  have hsame : ∀ limits journal output,
      (k.under limits journal output).console.flush = k.console.flush :=
    fun _ _ _ => rfl
  rw [hsame, hsame]
  cases k.console.flush with
  | ok u => exact matches_same ⟨k, journal, journal', written⟩
  | error e => exact matches_same ⟨k, journal, journal', written⟩

theorem mirrors_readLine : Mirrors X (Alike l l' old old') readLine := by
  refine mirrors_get_bind ?_
  rintro _ _ ⟨k, journal, journal', written⟩
  obtain ⟨result, rest, hread⟩ := k.console.exists_readLine_eq
  have hsame : ∀ limits journal output, (k.under limits journal output).console.readLine =
      (result, { k.console with input := rest, output := output }) := fun _ _ output => hread output
  rw [hsame, hsame]
  refine matches_set_bind ?_ ⟨{ k with console := { k.console with input := rest } }, journal,
    journal', written⟩
  cases result with
  | ok line => exact mirrors_pure _
  | error e => exact mirrors_throw _

theorem inherited_mirrors : Inherited (Mirrors X (Alike l l' old old')) where
  pure := mirrors_pure
  bind := Mirrors.bind
  fault _ := mirrors_throw _
  ask h := mirrors_ask (ignores_question h)
  read hk hlayout := by
    refine mirrors_get_bind ?_
    rintro _ _ ⟨k, journal, journal', written⟩
    rw [hlayout (k.under l journal (old ++ written)) (k.under l' journal' (old' ++ written)) rfl]
    exact hk _ _ _ ⟨k, journal, journal', written⟩
  writeSlot := mirrors_writeSlot
  write := mirrors_write
  newBlock := mirrors_newBlock
  releaseBlocks := mirrors_releaseBlocks
  writeLine := mirrors_writeLine
  flush := mirrors_flush
  readLine := mirrors_readLine

theorem mirrors_callee (o : Option Operand) : Mirrors X (Alike l l' old old') (callee o) := by
  unfold callee
  split
  · rename_i id
    refine mirrors_get_bind ?_
    rintro _ _ ⟨k, journal, journal', written⟩
    simp only [under_functions]
    cases k.functions.find? id with
    | some r => exact matches_same ⟨k, journal, journal', written⟩
    | none => exact matches_same ⟨k, journal, journal', written⟩
  · exact mirrors_reject _

theorem mirrors_are (q : Quad) : Mirrors X (Alike l l' old old') (are q) := by
  refine .bind (mirrors_callee _) fun called => .bind (mirrors_ask fun _ _ _ _ => rfl) fun frame =>
    .bind (mirrors_modify ?_) fun _ => mirrors_pure _
  rintro _ _ ⟨k, journal, journal', written⟩
  exact ⟨{ k with pending := frame :: k.pending }, journal, journal', written⟩

theorem mirrors_param (q : Quad) : Mirrors X (Alike l l' old old') (param q) := by
  refine .bind (mirrors_ask fun _ _ _ _ => rfl) fun v => ?_
  split
  · rename_i index _
    refine mirrors_get_bind ?_
    rintro _ _ ⟨k, journal, journal', written⟩
    have hstay : Alike l l' old old' _ _ := ⟨k, journal, journal', written⟩
    simp only [under_pending, under_functions, under_layout]
    cases k.pending with
    | nil => exact matches_same hstay
    | cons frame rest =>
      dsimp only
      cases (k.functions.find? frame.function).bind (·.paramAddresses[index]?) with
      | none => exact matches_same hstay
      | some address =>
        dsimp only
        cases k.layout.locate address with
        | none => exact matches_same hstay
        | some r =>
          dsimp only
          cases v.coerce? r.ty with
          | none => exact matches_same hstay
          | some v =>
            dsimp only
            cases frame.set? r address (some v) with
            | none => exact matches_same hstay
            | some frame' =>
              exact matches_set_bind (mirrors_pure _) ⟨{ k with pending := frame' :: rest },
                journal, journal', written⟩
  · exact mirrors_reject _

/-- A call that is too deep for the wider limits is too deep for the narrower ones. -/
theorem mirrors_goSub (hwiden : l.Widens l') (q : Quad) :
    Mirrors (CutShort l l') (Alike l l' old old') (goSub q) := by
  refine .bind (mirrors_callee _) fun called => mirrors_get_bind ?_
  rintro _ _ ⟨k, journal, journal', written⟩
  have hstay : Alike l l' old old' _ _ := ⟨k, journal, journal', written⟩
  rw [under_limits, under_limits, under_frames, under_frames, under_pending, under_pending]
  by_cases hdeep : l.maxCallDepth ≤ k.frames.length
  · rw [if_pos hdeep]
    by_cases heq : l = l'
    · subst heq
      rw [if_pos hdeep]
      exact matches_same hstay
    · exact Or.inl ⟨_, rfl, rfl, heq⟩
  · have hdeep' : ¬ l'.maxCallDepth ≤ k.frames.length := by
      have := hwiden.depth
      omega
    rw [if_neg hdeep, if_neg hdeep']
    cases k.pending with
    | nil => exact matches_same hstay
    | cons frame rest =>
      refine Mirrors.bind (mirrors_note _) (fun _ => .bind (mirrors_modify ?_) fun _ =>
        mirrors_pure _) _ _ hstay
      rintro _ _ ⟨k, journal, journal', written⟩
      exact ⟨{ k with
        pending := rest
        returned := none
        frames := frame :: k.frames
        returns := (k.ip + 1) :: k.returns }, journal, journal', written⟩

theorem mirrors_returnValue (q : Quad) : Mirrors X (Alike l l' old old') (returnValue q) := by
  refine .bind (mirrors_ask fun _ _ _ _ => rfl) fun v => .bind (mirrors_modify ?_) fun _ =>
    mirrors_pure _
  rintro _ _ ⟨k, journal, journal', written⟩
  exact ⟨{ k with returned := some v }, journal, journal', written⟩

theorem mirrors_endFunc : Mirrors X (Alike l l' old old') endFunc := by
  refine mirrors_get_bind ?_
  rintro _ _ ⟨k, journal, journal', written⟩
  rw [under_returns, under_returns]
  cases k.returns with
  | nil =>
    exact matches_set_bind (mirrors_pure _)
      ⟨{ k with frames := k.frames.drop 1, returns := [] }, journal, journal', written⟩
  | cons ip rest =>
    exact matches_set_bind (mirrors_pure _)
      ⟨{ k with frames := k.frames.drop 1, returns := rest }, journal, journal', written⟩

theorem mirrors_callAssign (q : Quad) : Mirrors X (Alike l l' old old') (callAssign q) := by
  refine mirrors_get_bind ?_
  rintro _ _ ⟨k, journal, journal', written⟩
  rw [under_returned, under_returned]
  cases k.returned with
  | none => exact matches_same ⟨k, journal, journal', written⟩
  | some v =>
    exact matches_set_bind (.bind (mirrors_write _ _) fun _ => mirrors_pure _)
      ⟨{ k with returned := none }, journal, journal', written⟩

/-! ## Steps -/

/-- A quad does the same on both machines, up to the limits. -/
theorem mirrors_execute (hwiden : l.Widens l') (q : Quad) :
    Mirrors (CutShort l l') (Alike l l' old old') (execute q) := by
  cases hcall : q.op.isOfCall with
  | false => exact inherited_mirrors.execute hcall fun _ _ => mirrors_throw _
  | true =>
    unfold execute
    cases hop : q.op with
    | are => exact mirrors_are q
    | param => exact mirrors_param q
    | goSub => exact mirrors_goSub hwiden q
    | returnValue => exact mirrors_returnValue q
    | endFunc => exact mirrors_endFunc
    | callAssign => exact mirrors_callAssign q
    | _ =>
      rw [hop] at hcall
      cases hcall

/-- A step that the wider limits refuse, the narrower ones refuse. -/
theorem mirrors_step (hwiden : l.Widens l') :
    Mirrors (CutShort l l') (Alike l l' old old') step := by
  rintro _ _ ⟨k, journal, journal', written⟩
  cases hq : k.quads[k.ip]? with
  | none =>
    rw [step_eq_outside (m := k.under l journal _) hq,
      step_eq_outside (m := k.under l' journal' _) hq]
    exact matches_same ⟨k, journal, journal', written⟩
  | some q =>
    by_cases hmay : (k.under l journal (old ++ written)).MayStep
    · have hmay' : (k.under l' journal' (old' ++ written)).MayStep := by
        intro n' hn'
        obtain ⟨n, hn, hle⟩ := hwiden.steps n' hn'
        exact Nat.lt_of_lt_of_le (hmay n hn) hle
      rw [step_eq_execute (m := k.under l journal _) hq hmay,
        step_eq_execute (m := k.under l' journal' _) hq hmay']
      exact mirrors_execute hwiden q _ _
        ⟨{ k with steps := k.steps + 1 }, journal.write (.quadReached k.ip q),
          journal'.write (.quadReached k.ip q), written⟩
    · obtain ⟨n, hn, hle⟩ : ∃ n, l.maxSteps = some n ∧ n ≤ k.steps := by
        refine Classical.byContradiction fun hnone => hmay ?_
        intro n hn
        exact Nat.lt_of_not_le fun hle => hnone ⟨n, hn, hle⟩
      rw [step_eq_limit (m := k.under l journal _) hq hn hle]
      by_cases heq : l = l'
      · subst heq
        rw [step_eq_limit (m := k.under l journal' _) hq hn hle]
        exact matches_same ⟨{ k with steps := k.steps + 1 }, journal, journal', written⟩
      · exact Or.inl ⟨_, rfl, rfl, heq⟩

end Exec

namespace Machine

variable {l l' : Limits} {old old' : Array UInt8}

/-- Both runs stand alike: they go on, are over, or have stopped at the same error. -/
inductive Status.Alike (l l' : Limits) (old old' : Array UInt8) : Status → Status → Prop
  | running {m m' : Machine} (h : Machine.Alike l l' old old' m m') :
      Alike l l' old old' (.running m) (.running m')
  | halted {m m' : Machine} (h : Machine.Alike l l' old old' m m') : Alike l l' old old' (.halted m)
      (.halted m')
  | faulted (e : RuntimeError) {m m' : Machine} (h : Machine.Alike l l' old old' m m') :
    Alike l l' old old' (.faulted e m) (.faulted e m')

/-- An error says the same of both. -/
theorem Alike.errorOf_eq (h : Alike l l' old old' m m') (f : Fault) :
    m'.errorOf f = m.errorOf f := by
  obtain ⟨k, journal, journal', written⟩ := h
  rfl

theorem Alike.moveTo (h : Alike l l' old old' m m') (ip : Nat) :
    Alike l l' old old' { m with ip := ip } { m' with ip := ip } := by
  obtain ⟨k, journal, journal', written⟩ := h
  exact ⟨{ k with ip := ip }, journal, journal', written⟩

theorem Alike.ip_eq (h : Alike l l' old old' m m') : m'.ip = m.ip := by
  obtain ⟨k, journal, journal', written⟩ := h
  rfl

theorem conclude_alike (h : Alike l l' old old' m m') :
    Status.Alike l l' old old' m.conclude m'.conclude := by
  -- no limit is asked for here, so nothing is excused
  have hflush := Exec.mirrors_flush (X := fun _ => False) m m' h
  unfold conclude
  rcases hr : Exec.flush.run.run m with ⟨r, s⟩
  rcases hr' : Exec.flush.run.run m' with ⟨r', s'⟩
  rw [hr, hr'] at hflush
  rcases hflush with ⟨f, -, hnever⟩ | ⟨rfl, hs⟩
  · exact hnever.elim
  · have hs : Alike l l' old old' s s' := hs
    cases r' with
    | ok u =>
      obtain ⟨k, journal, journal', written⟩ := hs
      exact .halted ⟨k, journal.write (.runHalted k.steps), journal'.write (.runHalted k.steps),
        written⟩
    | error f =>
      dsimp only
      rw [hs.errorOf_eq]
      exact .faulted _ hs

/-- One step of machines that are alike, unless a limit cuts the first one short. -/
theorem advance_alike (hwiden : l.Widens l') (h : Alike l l' old old' m m') :
    (∃ e s, m.advance = .faulted e s ∧ CutShort l l' e.fault) ∨
      Status.Alike l l' old old' m.advance m'.advance := by
  have hstep := Exec.mirrors_step hwiden m m' h
  unfold advance
  rcases hr : Exec.step.run.run m with ⟨r, s⟩
  rcases hr' : Exec.step.run.run m' with ⟨r', s'⟩
  rw [hr, hr'] at hstep
  rcases hstep with ⟨f, rfl, hcut⟩ | ⟨rfl, hs⟩
  · exact Or.inl ⟨_, _, rfl, hcut⟩
  · refine Or.inr ?_
    have hs : Alike l l' old old' s s' := hs
    cases r' with
    | error f =>
      dsimp only
      rw [hs.errorOf_eq]
      exact .faulted _ hs
    | ok flow =>
      cases flow with
      | next =>
        dsimp only
        rw [hs.ip_eq]
        exact .running (hs.moveTo _)
      | jump target => exact .running (hs.moveTo target)
      | halt => exact conclude_alike hs

/-! ## Runs -/

/-- Both runs have no answer yet, or the same one, and end alike. -/
inductive SameEnd (l l' : Limits) (old old' : Array UInt8) :
    Option (Except RuntimeError Unit × Machine) → Option (Except RuntimeError Unit × Machine) → Prop
  | unfinished : SameEnd l l' old old' none none
  | finished (result : Except RuntimeError Unit) {m m' : Machine} (h : Alike l l' old old' m m') :
    SameEnd l l' old old' (some (result, m)) (some (result, m'))

theorem SameEnd.of_some {result : Except RuntimeError Unit}
    {r : Option (Except RuntimeError Unit × Machine)}
    (h : SameEnd l l' old old' (some (result, m)) r) :
    ∃ m', r = some (result, m') ∧ Alike l l' old old' m m' := by
  cases h with
  | finished _ hend => exact ⟨_, rfl, hend⟩

/-- So does a run, by induction on the budget. -/
theorem resume_alike (hwiden : l.Widens l') (budget : Nat) (h : Alike l l' old old' m m') :
    (∃ e s, resume budget m = some (.error e, s) ∧ CutShort l l' e.fault) ∨
      SameEnd l l' old old' (resume budget m) (resume budget m') := by
  induction budget generalizing m m' with
  | zero => exact Or.inr .unfinished
  | succ budget ih =>
    rw [resume, resume]
    rcases advance_alike hwiden h with ⟨e, s, hcut, hlimit⟩ | hstatus
    · rw [hcut]
      exact Or.inl ⟨e, s, rfl, hlimit⟩
    · generalize m.advance = status at hstatus ⊢
      generalize m'.advance = status' at hstatus ⊢
      cases hstatus with
      | running hnext => exact ih hnext
      | halted hend => exact Or.inr (.finished _ hend)
      | faulted e hend => exact Or.inr (.finished _ hend)

/-- Of what a machine did before, a run sees the console, the limits and nothing else. -/
theorem start_alike {output : Array UInt8} (p : Program)
    (hheap : m'.limits.heapSize = m.limits.heapSize)
    (hconsole : m'.console = { m.console with output := output }) :
    (∃ f, m.start p = .error f ∧ m'.start p = .error f) ∨
      ∃ m₀ m₀', m.start p = .ok m₀ ∧ m'.start p = .ok m₀' ∧
        Alike m.limits m'.limits m.console.output output m₀ m₀' := by
  unfold start load
  dsimp only
  by_cases hsizes : ¬ p.sizes.Addressable
  · rw [if_pos hsizes, if_pos hsizes]
    exact Or.inl ⟨_, rfl, rfl⟩
  rw [if_neg hsizes, if_neg hsizes]
  by_cases hstart : p.layout.heapStart ≠ p.heapStart
  · rw [if_pos hstart, if_pos hstart]
    exact Or.inl ⟨_, rfl, rfl⟩
  rw [if_neg hstart, if_neg hstart]
  cases p.main? with
  | none => exact Or.inl ⟨_, rfl, rfl⟩
  | some main =>
    by_cases hcounts : (!(p.globals.countable && main.slots.countable)) = true
    · dsimp only
      rw [if_pos hcounts, if_pos hcounts]
      exact Or.inl ⟨_, rfl, rfl⟩
    · dsimp only
      rw [if_neg hcounts, if_neg hcounts]
      refine Or.inr ⟨_, _, rfl, rfl, ?_⟩
      dsimp only
      rw [hconsole, hheap]
      have h : ∀ k journal journal', Alike m.limits m'.limits m.console.output output
          (under k m.limits journal (m.console.output ++ #[]))
          (under k m'.limits journal' (output ++ #[])) :=
        fun k journal journal' => ⟨k, journal, journal', #[]⟩
      rw [Array.append_empty, Array.append_empty] at h
      exact h { m with
        heap := Heap.ofSize p.layout.heapStart m.limits.heapSize
        layout := p.layout
        quads := p.quads
        functions := p.functions
        constants := p.constants.mapValues (·.value)
        globals := Frame.ofCounts globalScope p.globals
        frames := [Frame.ofCounts Program.entryPoint main.slots]
        pending := []
        returns := []
        returned := none
        ip := main.startQuad
        steps := 0 } _ _

/-- A run under wider limits, on a console with the same input and room for as much output, ends as
the first one does, unless a limit cuts that one short. -/
theorem run_alike {m₀ : Machine} {output : Array UInt8} {p : Program} (budget : Nat)
    (hwiden : m.limits.Widens m'.limits)
    (hconsole : m'.console = { m.console with output := output }) (hstart : m.start p = .ok m₀) :
    (∃ e s, m.run budget p = some (.error e, s) ∧ CutShort m.limits m'.limits e.fault) ∨
      SameEnd m.limits m'.limits m.console.output output (m.run budget p) (m'.run budget p) := by
  unfold run
  rw [hstart]
  obtain ⟨f, hf, -⟩ | ⟨m₁, m₁', hm₁, hm₁', halike⟩ := start_alike p hwiden.heapSize hconsole
  · rw [hstart] at hf
    cases hf
  · rw [hstart] at hm₁
    cases hm₁
    rw [hm₁']
    exact resume_alike hwiden budget halike

end Machine

end Quadruple
