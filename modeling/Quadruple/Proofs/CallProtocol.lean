/-
  Calls follow their protocol in every run.

  The frames that are reserved and not yet entered form one stack, which call sites inside argument
  lists share with all the functions that are active.  Where call sites are whole, the calls that
  are open before a quad are known from the code; so the stack can be read off the place of
  execution and the return addresses: first the frames of the calls open here, then those of the
  calls open where the active function will return to, and so on.  Each of these frames holds the
  arguments that its call has been passed so far (`FrameFor`).  `Awaits` says so about the part of
  the stack that has grown above some frames and return addresses:

      tops  ~  openCalls ip ++ later.flatMap openCalls
      where  s.pending = tops ++ base,  s.returns = later ++ returns

  Above nothing it is an invariant of the whole run, and a frame that is entered then
  holds all arguments.  Above what there was when a function was entered it holds until that
  function returns; where it returns no call is open, so nothing is left of what has grown.
-/
import Quadruple.Proofs.CallFrames
import Quadruple.Proofs.CallNesting
import Quadruple.Proofs.FrameSteps

namespace Quadruple

variable {m m₀ : Machine}

/-! ## Frames that hold arguments -/

namespace Frame

variable {f f' : Frame} {r : Range} {a i : Nat} {v : Value}

/-- The address is that of a slot of the type, and the slot holds a value of the type. -/
def Holds (layout : Layout) (f : Frame) (a : Nat) (ty : Scalar) : Prop :=
  ∃ r v, layout.locate a = some r ∧ r.ty = ty ∧ f.get? r a = some (some v) ∧ v.scalar = ty

theorem holds_of_set? {layout : Layout} (hlocate : layout.locate a = some r) (hv : v.scalar = r.ty)
    (h : f.set? r a (some v) = some f') : Holds layout f' a r.ty :=
  ⟨r, v, hlocate, rfl, get?_of_set? h, hv⟩

/-- A slot that holds a value of its type does so after any write of a value of the right type. -/
theorem Holds.set? {layout : Layout} {b : Nat} {ty : Scalar} (hf : Holds layout f b ty)
    (hv : v.scalar = r.ty) (h : f.set? r a (some v) = some f') : Holds layout f' b ty := by
  obtain ⟨r', v', hlocate, hty, hget, hv'⟩ := hf
  obtain ⟨i, hi, rfl⟩ := set?_eq_some h
  by_cases hsame : r'.ty = r.ty ∧ f.index? r' b = some i
  · refine ⟨r', v, hlocate, hty, ?_, hv.trans (hsame.1.symm.trans hty)⟩
    rw [get?, index?_written, hsame.2]
    dsimp only
    rw [hsame.1, get_written_self, Array.getElem?_setIfInBounds_self_of_lt (lt_of_index? hi)]
  · refine ⟨r', v', hlocate, hty, ?_, hv'⟩
    rw [get?_written_of_ne, hget]
    rintro hty' j hj rfl
    exact hsame ⟨hty', hj⟩

end Frame

/-- The frame is one of the function that is called, and holds the arguments that have been passed.
-/
structure FrameFor (p : Program) (frame : Frame) (call : Call) : Prop where
  function : frame.function = call.function
  arguments : ∀ r, p.functions.find? call.function = some r → ∀ (i : Nat) (ty : TypeName) (a : Nat),
    i < call.passed →
    r.paramTypes[i]? = some ty → r.paramAddresses[i]? = some a → frame.Holds p.layout a ty.storage

/-- The frame is one of the function, with a value of its type in the slot of every parameter. -/
def Frame.ReadyFor (p : Program) (f : String) (frame : Frame) : Prop :=
  frame.function = f ∧ ∃ r, p.functions.find? f = some r ∧
    List.Forall₂ (fun ty a => frame.Holds p.layout a ty.storage) r.paramTypes r.paramAddresses

theorem frameFor_ofCounts (p : Program) (f : String) (counts : SlotCounts) :
    FrameFor p (Frame.ofCounts f counts) ⟨f, 0⟩ :=
  ⟨rfl, fun _ _ i _ _ hi => (Nat.not_lt_zero i hi).elim⟩

namespace Program.CallsNest

variable {p : Program} {call : Call} {frame frame' : Frame}

/-- Passing the argument that comes next. -/
theorem frameFor_pass (hp : p.CallsNest) (h : FrameFor p frame call) {r : Routine} {range : Range}
    {a : Nat} {v : Value} (hr : p.functions.find? call.function = some r)
    (ha : r.paramAddresses[call.passed]? = some a) (hlocate : p.layout.locate a = some range)
    (hv : v.scalar = range.ty) (hset : frame.set? range a (some v) = some frame') :
    FrameFor p frame' { call with passed := call.passed + 1 } := by
  refine ⟨(Frame.sameShape_of_set? hset).function.trans h.function, ?_⟩
  intro r' hr' i ty b hi hty hb
  rw [hr] at hr'
  cases hr'
  rcases Nat.lt_or_eq_of_le (Nat.le_of_lt_succ hi) with hlt | rfl
  · exact (h.arguments r hr i ty b hlt hty hb).set? hv hset
  · rw [ha] at hb
    cases hb
    have hlocated : Located p.sizes a .locals ty.storage := by
      obtain ⟨htypes, rfl⟩ := List.getElem?_eq_some_iff.mp hty
      obtain ⟨haddresses, rfl⟩ := List.getElem?_eq_some_iff.mp ha
      exact (hp.params call.function r hr).get htypes haddresses
    have hrange : range = p.layout.range .locals ty.storage :=
      Option.some.inj (hlocate.symm.trans hlocated)
    have htype : range.ty = ty.storage := by rw [hrange, Program.layout, Layout.range_ofSizes]
    rw [← htype]
    exact Frame.holds_of_set? hlocate hv hset

/-- A frame that has been passed all arguments is ready. -/
theorem readyFor (hp : p.CallsNest) (h : FrameFor p frame call) {types : List TypeName}
    {addresses : List Nat} (hparams : p.params call.function = some (types, addresses))
    (hpassed : call.passed = types.length) : frame.ReadyFor p call.function := by
  obtain ⟨r, hr, hsame⟩ := Option.map_eq_some_iff.mp hparams
  obtain ⟨rfl, rfl⟩ := Prod.mk.inj hsame
  refine ⟨h.function, r, hr,
    List.forall₂_iff_get.mpr ⟨(hp.params call.function r hr).length_eq, ?_⟩⟩
  intro i htypes haddresses
  exact h.arguments r hr i _ _ (hpassed ▸ htypes) (List.getElem?_eq_getElem htypes)
    (List.getElem?_eq_getElem haddresses)

end Program.CallsNest

/-! ## The stack of reserved frames -/

namespace Machine

/-- What has been reserved above some frames since there were so many return addresses: frames for
the calls that are open here and for those that are open where the functions entered since will
return to. -/
def Awaits (p : Program) (base : List Frame) (returns : List Nat) (s : Machine) : Prop :=
  ∃ tops later, s.pending = tops ++ base ∧ s.returns = later ++ returns ∧
    List.Forall₂ (FrameFor p) tops (openCalls p.quads s.ip ++ later.flatMap (openCalls p.quads))

variable {p : Program} {base : List Frame} {returns : List Nat} {s s' : Machine} {q : Quad}

/-- Where no call is open, nothing has been reserved. -/
theorem awaits_of_clear (h : openCalls p.quads s.ip = []) : Awaits p s.pending s.returns s := by
  refine ⟨[], [], rfl, rfl, ?_⟩
  rw [h]
  exact .nil

theorem Awaits.of_same (hs : Awaits p base returns s) (hpending : s'.pending = s.pending)
    (hreturns : s'.returns = s.returns) (hopen : openCalls p.quads s'.ip = openCalls p.quads s.ip) :
    Awaits p base returns s' := by
  obtain ⟨tops, later, hpending₀, hreturns₀, hmatch⟩ := hs
  exact ⟨tops, later, hpending.trans hpending₀, hreturns.trans hreturns₀, hopen ▸ hmatch⟩

/-- On to the next quad: frames are reserved and filled as the quad says. -/
theorem awaits_next (hp : p.CallsNest) (hload : s.Loaded p) (hq : p.quads[s.ip]? = some q)
    (hstay : Stays q s s') (hnext : s'.ip = s.ip + 1) (hframes : FrameStep q s s')
    (hs : Awaits p base returns s) : Awaits p base returns s' := by
  have hopen : openCalls p.quads s'.ip = q.nest (openCalls p.quads s.ip) := by
    rw [hnext]
    exact openCalls_succ hq
  cases hframes with
  | @reserve f r hop hleft hknown hreserved =>
    obtain ⟨tops, later, hpending, hreturns, hmatch⟩ := hs
    refine ⟨Frame.ofCounts f r.slots :: tops, later, ?_, hstay.returns.trans hreturns, ?_⟩
    · rw [hreserved, hpending]
      rfl
    · rw [hopen, Quad.nest_are hop hleft]
      exact .cons (frameFor_ofCounts p f r.slots) hmatch
  | @pass i a frame frame' rest r range v hop hindex htop hknown haddress hlocated htyped hfilled
      hpassed =>
    obtain ⟨tops, later, hpending, hreturns, hmatch⟩ := hs
    obtain ⟨call, calls, hcalls, hresult⟩ := (hp.code s.ip q hq).pass hop
    rw [hcalls] at hmatch
    cases hmatch with
    | @cons top _ tops _ hframe hrest =>
      rw [hpending] at htop
      cases htop
      rw [hresult] at hindex
      cases hindex
      rw [hload.functions, hframe.function] at hknown
      refine ⟨frame' :: tops, later, hpassed, hstay.returns.trans hreturns, ?_⟩
      rw [hopen, hcalls, Quad.nest_param hop]
      exact .cons (hp.frameFor_pass hframe hknown haddress (hload.layout ▸ hlocated) htyped hfilled)
        hrest
  | enter hop => exact (hstay.op_ne_goSub hop).elim
  | leave hop => exact (hstay.op_ne_endFunc hop).elim
  | keep hop hkept =>
    refine hs.of_same hkept.pending hstay.returns ?_
    rw [hopen, Quad.nest_of_isNeutral (Opcode.isNeutral_iff.mpr ⟨hop.1, hop.2.1, hop.2.2.1⟩)]

/-- A jump leads from where no call is open to where none is. -/
theorem awaits_jump (hp : p.CallsNest) (hq : p.quads[s.ip]? = some q) (hstay : Stays q s s')
    (hjump : q.jumpTarget? = some s'.ip) (hframes : FrameStep q s s')
    (hs : Awaits p base returns s) : Awaits p base returns s' := by
  have hisJump := isJump_of_jumpTarget? hjump
  have hkept := hframes.pending_eq (Opcode.isNeutral_iff.mp (Quad.isNeutral_of_isJump hisJump))
  refine hs.of_same hkept hstay.returns ?_
  rw [hp.targets s.ip q s'.ip hq hjump, (hp.code s.ip q hq).apart (Or.inl hisJump)]

/-- A call takes the frame of the innermost open call; the other open calls wait for it to return.
-/
theorem awaits_enters (hp : p.CallsNest) (hload : s.Loaded p) (hq : p.quads[s.ip]? = some q)
    (henter : Enters q s s') (hframes : FrameStep q s s') (hs : Awaits p base returns s) :
    Awaits p base returns s' := by
  obtain ⟨tops, later, hpending, hreturns, hmatch⟩ := hs
  obtain ⟨call, calls, types, addresses, hcalls, -, -, -⟩ := (hp.code s.ip q hq).transfer henter.op
  obtain ⟨f, r, -, hr, hip⟩ := henter.callee
  rw [hload.functions] at hr
  rw [hcalls] at hmatch
  cases hmatch with
  | @cons top _ tops _ _ hrest =>
    refine ⟨tops, (s.ip + 1) :: later, (hframes.of_goSub henter.op hpending).1, ?_, ?_⟩
    · rw [henter.returns, hreturns]
      rfl
    · rw [hip, hp.starts f r hr, List.flatMap_cons, openCalls_succ hq, hcalls,
        Quad.nest_goSub henter.op]
      exact hrest

/-- At the end of a function no call is open, so what has been reserved is what its caller waits
for. -/
theorem awaits_leaves (hp : p.CallsNest) (hq : p.quads[s.ip]? = some q) (hleave : Leaves q s s')
    (hframes : FrameStep q s s') (hs : Awaits p base returns s) :
    Awaits p base returns s' ∨ s'.returns.length < returns.length := by
  obtain ⟨tops, later, hpending, hreturns, hmatch⟩ := hs
  have hkept : s'.pending = s.pending := by
    refine hframes.pending_eq ?_
    rw [hleave.op]
    decide
  rw [(hp.code s.ip q hq).apart (Or.inr hleave.op), List.nil_append] at hmatch
  have hback := hleave.returns
  rw [hreturns] at hback
  cases later with
  | nil =>
    -- the function is left that was active in the beginning
    refine Or.inr ?_
    rw [show returns = s'.ip :: s'.returns from hback, List.length_cons]
    omega
  | cons back later =>
    injection hback with hip hrest
    refine Or.inl ⟨tops, later, hkept.trans hpending, hrest.symm, ?_⟩
    rw [← hip]
    exact hmatch

/-- The step lemma. -/
theorem awaits_advance (hp : p.CallsNest) (hload : s.Loaded p) (hs : Awaits p base returns s)
    (h : s.advance = .running s') :
    Awaits p base returns s' ∨ s'.returns.length < returns.length := by
  obtain ⟨q, hq, -, hmoves⟩ := advance_running h
  obtain ⟨q', hq', hframes⟩ := frameStep_of_running h
  rw [hq] at hq'
  cases hq'
  rw [hload.quads] at hq
  rcases hmoves with hstay | henter | hleave
  · rcases hstay.ip with hnext | hjump
    · exact Or.inl (awaits_next hp hload hq hstay hnext hframes hs)
    · exact Or.inl (awaits_jump hp hq hstay hjump hframes hs)
  · exact Or.inl (awaits_enters hp hload hq henter hframes hs)
  · exact awaits_leaves hp hq hleave hframes hs

/-- The run lemma: it holds as long as the function that was active in the beginning has not been
left. -/
theorem awaits_after (hp : p.CallsNest) (hstart : m.start p = .ok m₀) {i : Nat} {e : Machine}
    (he : m₀.after i = some e) (hclear : openCalls p.quads e.ip = []) :
    ∀ (d : Nat) (s : Machine), m₀.after (i + d) = some s →
      (∀ k t, i ≤ k → k ≤ i + d → m₀.after k = some t → e.returns.length ≤ t.returns.length) →
      Awaits p e.pending e.returns s := by
  intro d
  induction d with
  | zero =>
    intro s hs _
    cases he.symm.trans hs
    exact awaits_of_clear hclear
  | succ d ih =>
    intro s hs hactive
    obtain ⟨t, ht, hstep⟩ := after_succ.mp hs
    have hbefore := ih t ht fun k u hik hk hku => hactive k u hik (by omega) hku
    rcases awaits_advance hp (loaded_after hstart ht) hbefore hstep with hgoes | hleft
    · exact hgoes
    · have hstill := hactive (i + (d + 1)) s (by omega) (by omega) hs
      omega

/-- A function has just been entered: the run begins here, or the step before was a call. -/
def JustEntered (m₀ : Machine) (i : Nat) : Prop :=
  i = 0 ∨ ∃ k c, i = k + 1 ∧ m₀.after k = some c ∧ c.Executes .goSub

/-- No call is open where a function starts. -/
theorem clear_of_justEntered (hp : p.CallsNest) {e : Machine} (hstart : m.start p = .ok m₀)
    {i : Nat} (hi : m₀.JustEntered i) (he : m₀.after i = some e) : openCalls p.quads e.ip = [] := by
  rcases hi with rfl | ⟨k, c, rfl, hc, hgo⟩
  · cases he
    obtain ⟨main, h₀⟩ := exists_started hstart
    rw [h₀.ip]
    exact hp.starts Program.entryPoint main h₀.entry
  · obtain ⟨c', hc', hstep⟩ := after_succ.mp he
    cases hc.symm.trans hc'
    obtain ⟨q, henter⟩ := enters_of_goSub hgo hstep
    obtain ⟨f, r, -, hr, hip⟩ := henter.callee
    rw [(loaded_after hstart hc).functions] at hr
    rw [hip]
    exact hp.starts f r hr

/-- In all states of a run the reserved frames are those of open calls. -/
theorem awaits_of_start (hp : p.CallsNest) (hstart : m.start p = .ok m₀) {n : Nat}
    (hs : m₀.after n = some s) : Awaits p [] [] s := by
  obtain ⟨main, h₀⟩ := exists_started hstart
  have hclear := clear_of_justEntered hp hstart (Or.inl rfl) rfl
  have hawaits := awaits_after hp hstart (i := 0) rfl hclear n s (by rw [Nat.zero_add]; exact hs)
    fun k t _ _ _ => by
    rw [h₀.returns]
    exact Nat.zero_le _
  rwa [h₀.pending, h₀.returns] at hawaits

/-- The frame that a call takes is ready for the function. -/
theorem readyFor_of_goSub (hp : p.CallsNest) (hs : Awaits p base returns s)
    (hq : p.quads[s.ip]? = some q) (hop : q.op = .goSub) :
    ∃ f frame rest, q.left = some (.function f) ∧ s.pending = frame :: rest ∧
      frame.ReadyFor p f := by
  obtain ⟨tops, later, hpending, -, hmatch⟩ := hs
  obtain ⟨call, calls, types, addresses, hcalls, hleft, hparams, hpassed⟩ :=
    (hp.code s.ip q hq).transfer hop
  rw [hcalls] at hmatch
  cases hmatch with
  | @cons frame _ tops _ hframe _ =>
    exact ⟨call.function, frame, tops ++ base, hleft, hpending, hp.readyFor hframe hparams hpassed⟩

/-- Where a function ends, nothing is left of what was reserved since it was entered. -/
theorem pending_of_endFunc (hp : p.CallsNest) (hs : Awaits p base returns s)
    (hq : p.quads[s.ip]? = some q) (hop : q.op = .endFunc)
    (hheight : s.returns.length = returns.length) : s.pending = base := by
  obtain ⟨tops, later, hpending, hreturns, hmatch⟩ := hs
  have hnone : later = [] := by
    rw [hreturns, List.length_append] at hheight
    exact List.eq_nil_of_length_eq_zero (by omega)
  rw [(hp.code s.ip q hq).apart (Or.inr hop), hnone] at hmatch
  cases hmatch
  exact hpending

/-- **Calls follow their protocol.** Take any script that compiles and transfers no control while a
call is open, nor gives a function a parameter after a call in its body.  In every run of its
program: a `GOSUB` finds a frame of its function reserved last, with a value of its type in the slot
of every parameter, and that is the frame it enters; and when a function that was entered at step
`i` comes to its end at step `j`, the reserved frames are exactly those that there were when it was
entered. -/
theorem call_protocol_is_kept {threshold : Level} {sizes : Sizes} {events : List Event}
    {p : Program} {names : Names} (h : (compile threshold sizes events).1 = .ok (p, names))
    (hcalls : breaksCalls events = false) {m m₀ : Machine} (hstart : m.start p = .ok m₀) :
    (∀ n s q, m₀.after n = some s → p.quads[s.ip]? = some q → q.op = .goSub →
      ∃ f frame rest, q.left = some (.function f) ∧ s.pending = frame :: rest ∧ frame.ReadyFor p f ∧
        ∀ s', s.advance = .running s' → s'.pending = rest ∧ s'.frames = frame :: s.frames) ∧
    (∀ i j e s, m₀.JustEntered i → m₀.after i = some e → i ≤ j → m₀.after j = some s →
      s.Executes .endFunc →
      s.frames.length = e.frames.length →
      (∀ k t, i ≤ k → k ≤ j → m₀.after k = some t → e.frames.length ≤ t.frames.length) →
      s.pending = e.pending) := by
  have hp := callsNest_of_compile h hcalls
  refine ⟨?_, ?_⟩
  · intro n s q hs hq hop
    obtain ⟨f, frame, rest, hleft, hpending, hready⟩ :=
      readyFor_of_goSub hp (awaits_of_start hp hstart hs) hq hop
    refine ⟨f, frame, rest, hleft, hpending, hready, ?_⟩
    intro s' hstep
    obtain ⟨q', hq', hframes⟩ := frameStep_of_running hstep
    rw [(loaded_after hstart hs).quads, hq] at hq'
    cases hq'
    exact hframes.of_goSub hop hpending
  · intro i j e s hi he hij hs hend hheight hactive
    -- heights of the stack of frames and of that of return addresses differ by one
    have hpaired : ∀ {k t}, m₀.after k = some t → t.frames.length = t.returns.length + 1 :=
      fun ht =>
      (balanced_after hstart ht).paired
    obtain ⟨q, hq, hop⟩ := hend
    rw [(loaded_after hstart hs).quads] at hq
    obtain ⟨d, rfl⟩ := Nat.exists_eq_add_of_le hij
    have hawaits := awaits_after hp hstart he (clear_of_justEntered hp hstart hi he) d s hs
      fun k t hik hk ht => by
      have hle := hactive k t hik hk ht
      rw [hpaired he, hpaired ht] at hle
      omega
    refine pending_of_endFunc hp hawaits hq hop ?_
    rw [hpaired hs, hpaired he] at hheight
    omega

/-- The result of `next` is the first argument of `scale`; the second is converted to the type of
its parameter. -/
def nestedArguments : List Event :=
  [.declareFunction "next", .declareParam "x" (.scalar .int), .setFunctionType (.scalar .int),
    .pushVariable "x", .pushOperator "+", .pushConstant (.int 1), .returnValue, .endFunction,
    .declareFunction "scale", .declareParam "n" (.scalar .int), .declareParam "by" (.scalar .float),
    .pushVariable "n", .pushOperator "*", .pushVariable "by", .print, .endFunction,
    .declareFunction "main", .callFunction "scale", .callFunction "next", .pushConstant (.int 1),
    .pushCallArgument 0, .endCall, .pushCallResult, .pushCallArgument 0, .pushConstant (.int 2),
    .pushCallArgument 1, .endCall, .endFunction]

/-- The program of `nestedArguments`. -/
def nestedProgram : Program := programOf .warn (Sizes.uniform 2) nestedArguments

/-- The first state of `nestedProgram`. -/
def nestedStart : Machine :=
  (ofConsole ⟨9, none, 0⟩ (Console.ofInput []) .warn).startState nestedProgram

/-- The call of `scale` is the eleventh step.  The fifth to the seventh are those of `next`, while
the frame of `scale` waits. -/
theorem call_protocol_is_kept_nestedArguments :
    ∃ names, (compile .warn (Sizes.uniform 2) nestedArguments).1 = .ok (nestedProgram, names) ∧
      breaksCalls nestedArguments = false ∧
      (ofConsole ⟨9, none, 0⟩ (Console.ofInput []) .warn).start nestedProgram = .ok nestedStart ∧
      (∃ s frame rest, nestedStart.after 10 = some s ∧ s.pending = frame :: rest ∧
        frame.ReadyFor nestedProgram "scale") ∧
      ∃ e s, nestedStart.after 4 = some e ∧ nestedStart.after 6 = some s ∧ s.Executes .endFunc ∧
        e.pending.length = 1 ∧ s.pending = e.pending := by
  obtain ⟨names, h⟩ := compile_eq_programOf
    (show (compile .warn (Sizes.uniform 2) nestedArguments).1.isOk = true by decide +kernel)
  have hcalls : breaksCalls nestedArguments = false := by decide
  have hstart :
      (ofConsole ⟨9, none, 0⟩ (Console.ofInput []) .warn).start nestedProgram = .ok nestedStart :=
    start_eq_startState (by decide +kernel)
  obtain ⟨hgoSub, hendFunc⟩ := call_protocol_is_kept h hcalls hstart
  refine ⟨names, h, hcalls, hstart, ?_, ?_⟩
  · obtain ⟨s, hs, hip⟩ := (Option.any_eq_true _ _).mp
      (show (nestedStart.after 10).any (fun s => s.ip = 14) = true by decide +kernel)
    have hq : nestedProgram.quads[s.ip]? = some ⟨.goSub, some (.function "scale"), none, none⟩ := by
      rw [of_decide_eq_true hip]
      decide +kernel
    obtain ⟨f, frame, rest, hleft, hpending, hready, -⟩ := hgoSub 10 s _ hs hq rfl
    cases hleft
    exact ⟨s, frame, rest, hs, hpending, hready⟩
  · obtain ⟨e, he, hentered⟩ := (Option.any_eq_true _ _).mp
      (show (nestedStart.after 4).any (fun e => e.frames.length = 2 ∧ e.pending.length = 1) = true
        by decide +kernel)
    obtain ⟨s, hs, hended⟩ := (Option.any_eq_true _ _).mp
      (show (nestedStart.after 6).any (fun s => s.ip = 2 ∧ s.frames.length = 2) = true
        by decide +kernel)
    obtain ⟨c, hc, hcall⟩ := (Option.any_eq_true _ _).mp
      (show (nestedStart.after 3).any (fun c => c.ip = 10) = true by decide +kernel)
    obtain ⟨hheight, hwaiting⟩ := of_decide_eq_true hentered
    obtain ⟨hip, hheight'⟩ := of_decide_eq_true hended
    have hgo : c.Executes .goSub := by
      refine ⟨⟨.goSub, some (.function "next"), none, none⟩, ?_, rfl⟩
      rw [(loaded_after hstart hc).quads, of_decide_eq_true hcall]
      decide +kernel
    have hend : s.Executes .endFunc := by
      refine ⟨⟨.endFunc, none, none, none⟩, ?_, rfl⟩
      rw [(loaded_after hstart hs).quads, hip]
      decide +kernel
    have hactive : ∀ k < 7, 4 ≤ k → (nestedStart.after k).all fun t => 2 ≤ t.frames.length := by
      decide +kernel
    refine ⟨e, s, he, hs, hend, hwaiting, ?_⟩
    refine hendFunc 4 6 e s (Or.inr ⟨3, c, rfl, hc, hgo⟩) he (by decide) hs hend
      (by rw [hheight, hheight']) ?_
    intro k t h4k hk6 ht
    have hk := hactive k (by omega) h4k
    rw [ht] at hk
    rw [hheight]
    exact of_decide_eq_true hk

end Machine

end Quadruple
