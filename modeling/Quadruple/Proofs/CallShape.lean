/-
  Calls, claims and returns in compiled code.

  A result can only be claimed by the event right after the call, and a return ends the function:

      n + 1 : CALL_ASSIGN f  →  n : GOSUB f
      n : RETURN             →  n + 1 : ENDFUNC

  There is no other way to a claim: no jump leads to it and no function starts at it.  That holds
  although jumps are patched long after they were emitted, since a target is always the end of the
  code at that moment (`Tame`), and an event that makes it one has dropped the result.
-/
import Quadruple.Proofs.Script

namespace Quadruple

variable {events : List Event} {p q : Quad} {quads quads' : Array Quad} {n : Nat} {c : Control}

namespace Control

/-- Control can come to the quad from elsewhere than the quad before it: by a jump, now or when the
loop that starts there is closed, or by a call. -/
def Marked (c : Control) (t : Nat) : Prop :=
  (∃ (n : Nat) (q : Quad), c.quads[n]? = some q ∧ q.jumpTarget? = some t) ∨
    (∃ l ∈ c.loops, l.start = t) ∨
    ∃ id, c.starts id = some t

/-- The quad before `j` is a call of the function. -/
def Called (quads : Array Quad) (j : Nat) (f : String) : Prop :=
  ∃ i, j = i + 1 ∧ quads[i]? = some ⟨.goSub, some (.function f), none, none⟩

/-- A return at the quad is followed by the end of its function. -/
def ReturnEnds (quads : Array Quad) (n : Nat) (q : Quad) : Prop :=
  q.op = .returnValue → ∃ r, quads[n + 1]? = some r ∧ r.op = .endFunc

/-- Claims stand where they should, and so do returns. -/
structure Shaped (c : Control) : Prop where
  bounded : ∀ t, c.Marked t → t ≤ c.quads.size
  claims : ∀ j q, c.quads[j]? = some q → q.op = .callAssign → ¬ c.Marked j ∧
    ∃ f t, q = ⟨.callAssign, some (.function f), none, some (.addr t)⟩ ∧ Called c.quads j f
  returns : ∀ n q, c.quads[n]? = some q → ReturnEnds c.quads n q

/-- A result that can be claimed is that of the quad just emitted, and the next quad has no mark. -/
def Waits (c : Control) : Prop :=
  ∀ f, c.finishedCall = some f → ¬ c.Marked c.quads.size ∧ Called c.quads c.quads.size f

/-! ## What does no harm -/

/-- Code was appended that claims nothing, only jumps were changed, and new marks are at the end of
the code. -/
structure Tame (c c' : Control) : Prop where
  size : c.quads.size ≤ c'.quads.size
  kept : ∀ (n : Nat) (q : Quad), c.quads[n]? = some q → q.isJump = false → c'.quads[n]? = some q
  old : ∀ (n : Nat) (q : Quad), n < c.quads.size → c'.quads[n]? = some q → q.isJump = true ∨
    c.quads[n]? = some q
  marks : ∀ t, c'.Marked t → c.Marked t ∨ c.quads.size ≤ t ∧ t ≤ c'.quads.size
  fresh : ∀ (n : Nat) (q : Quad), c.quads.size ≤ n → c'.quads[n]? = some q → q.op ≠ .callAssign ∧
    ReturnEnds c'.quads n q

theorem op_ne_of_isJump (h : q.isJump = true) : q.op ≠ .callAssign ∧ q.op ≠ .returnValue := by
  constructor
  · intro hop
    rw [Quad.isJump, hop] at h
    cases h
  · intro hop
    rw [Quad.isJump, hop] at h
    cases h

theorem isJump_of_op (hgoto : q.op ≠ .goto) (hgotoFalse : q.op ≠ .gotoFalse) :
    q.isJump = false := by
  rw [Quad.isJump, decide_eq_false hgoto, decide_eq_false hgotoFalse]
  rfl

theorem Called.mono {j : Nat} {f : String} (h : Called quads j f)
    (hkept : ∀ (n : Nat) (q : Quad), quads[n]? = some q → q.isJump = false → quads'[n]? = some q) :
    Called quads' j f := by
  obtain ⟨i, hi, hq⟩ := h
  exact ⟨i, hi, hkept i _ hq rfl⟩

theorem ReturnEnds.mono (h : ReturnEnds quads n q)
    (hkept : ∀ (n : Nat) (q : Quad), quads[n]? = some q → q.isJump = false → quads'[n]? = some q) :
    ReturnEnds quads' n q := by
  intro hop
  obtain ⟨r, hr, hend⟩ := h hop
  refine ⟨r, hkept (n + 1) r hr ?_, hend⟩
  apply isJump_of_op
  · rw [hend]
    exact Opcode.noConfusion
  · rw [hend]
    exact Opcode.noConfusion

namespace Tame

variable {c c' c'' : Control}

theorem trans (h₁ : Tame c c') (h₂ : Tame c' c'') : Tame c c'' := by
  have hsize₁ := h₁.size
  have hsize₂ := h₂.size
  refine ⟨by omega, ?_, ?_, ?_, ?_⟩
  · intro n q hq hjump
    exact h₂.kept n q (h₁.kept n q hq hjump) hjump
  · intro n q hn hq
    rcases h₂.old n q (by omega) hq with hjump | hq
    · exact Or.inl hjump
    · exact h₁.old n q hn hq
  · intro t ht
    rcases h₂.marks t ht with ht | ⟨hlo, hhi⟩
    · rcases h₁.marks t ht with ht | ⟨hlo, hhi⟩
      · exact Or.inl ht
      · exact Or.inr ⟨hlo, by omega⟩
    · exact Or.inr ⟨by omega, hhi⟩
  · intro n q hn hq
    rcases Nat.lt_or_ge n c'.quads.size with hlt | hge
    · rcases h₂.old n q hlt hq with hjump | hq
      · obtain ⟨hclaim, hreturn⟩ := op_ne_of_isJump hjump
        exact ⟨hclaim, fun hop => (hreturn hop).elim⟩
      · obtain ⟨hclaim, hends⟩ := h₁.fresh n q hn hq
        exact ⟨hclaim, hends.mono h₂.kept⟩
    · exact h₂.fresh n q hge hq

/-- What is tame keeps claims and returns where they should be. -/
theorem shaped (h : Tame c c') (hc : Shaped c) : Shaped c' := by
  refine ⟨?_, ?_, ?_⟩
  · intro t ht
    have hsize := h.size
    rcases h.marks t ht with ht | ⟨-, hle⟩
    · have hle := hc.bounded t ht
      omega
    · exact hle
  · intro j q hq hop
    have hlt : j < c.quads.size := by
      rcases Nat.lt_or_ge j c.quads.size with hlt | hge
      · exact hlt
      · exact ((h.fresh j q hge hq).1 hop).elim
    rcases h.old j q hlt hq with hjump | hq
    · exact ((op_ne_of_isJump hjump).1 hop).elim
    · obtain ⟨hunmarked, f, t, rfl, hcalled⟩ := hc.claims j q hq hop
      refine ⟨?_, f, t, rfl, hcalled.mono h.kept⟩
      intro hmarked
      rcases h.marks j hmarked with hmarked | ⟨hle, -⟩
      · exact hunmarked hmarked
      · omega
  · intro n q hq
    rcases Nat.lt_or_ge n c.quads.size with hlt | hge
    · rcases h.old n q hlt hq with hjump | hq
      · exact fun hop => ((op_ne_of_isJump hjump).2 hop).elim
      · exact (hc.returns n q hq).mono h.kept
    · exact (h.fresh n q hge hq).2

/-- Marks and quads are all that matters. -/
theorem of_same (hquads : c'.quads = c.quads) (hloops : c'.loops = c.loops)
    (hstarts : c'.starts = c.starts) : Tame c c' := by
  have hmarked : ∀ t, c'.Marked t → c.Marked t := by
    intro t ht
    unfold Marked at ht ⊢
    rwa [hquads, hloops, hstarts] at ht
  refine ⟨Nat.le_of_eq (congrArg Array.size hquads).symm, ?_, ?_, fun t ht => Or.inl (hmarked t ht),
    ?_⟩
  · intro n q hq _
    rw [hquads]
    exact hq
  · intro n q _ hq
    rw [hquads] at hq
    exact Or.inr hq
  · intro n q hn hq
    rw [hquads, Array.getElem?_eq_none hn] at hq
    cases hq

theorem grow (h : Grown c.quads quads) : Tame c { c with quads := quads } := by
  refine ⟨h.size, ?_, ?_, ?_, ?_⟩
  · intro n q hq _
    have hlt : n < c.quads.size := (Array.getElem?_eq_some_iff.mp hq).1
    exact (h.kept n hlt).trans hq
  · intro n q hn hq
    exact Or.inr ((h.kept n hn).symm.trans hq)
  · rintro t (⟨n, q, hq, ht⟩ | hother)
    · have hq : quads[n]? = some q := hq
      refine Or.inl (Or.inl ?_)
      rcases Nat.lt_or_ge n c.quads.size with hlt | hge
      · rw [h.kept n hlt] at hq
        exact ⟨n, q, hq, ht⟩
      · rw [jumpTarget?_of_not_jump (isJump_of_isPlain (h.plain n q hge hq))] at ht
        cases ht
    · exact Or.inl (Or.inr hother)
  · intro n q hn hq
    have hplain := h.plain n q hn hq
    constructor
    · intro hop
      rw [hop] at hplain
      cases hplain
    · intro hop
      rw [hop] at hplain
      cases hplain

theorem getElem?_push_cases (h : (quads.push p)[n]? = some q) :
    quads[n]? = some q ∨ n = quads.size ∧ q = p := by
  rw [Array.getElem?_push] at h
  split at h
  · rename_i hn
    cases h
    exact Or.inr ⟨hn, rfl⟩
  · exact Or.inl h

theorem getElem?_push_of_some (h : quads[n]? = some q) : (quads.push p)[n]? = some q := by
  have hlt : n < quads.size := (Array.getElem?_eq_some_iff.mp h).1
  rw [Array.getElem?_push_lt hlt, ← Array.getElem?_eq_getElem hlt]
  exact h

theorem push (hclaim : p.op ≠ .callAssign) (hreturn : p.op ≠ .returnValue)
    (htarget : ∀ t, p.jumpTarget? = some t → c.Marked t) :
    Tame c { c with quads := c.quads.push p } := by
  refine ⟨?_, fun n q hq _ => getElem?_push_of_some hq, ?_, ?_, ?_⟩
  · show c.quads.size ≤ (c.quads.push p).size
    rw [Array.size_push]
    omega
  · intro n q hn hq
    rcases getElem?_push_cases hq with hq | ⟨rfl, -⟩
    · exact Or.inr hq
    · omega
  · rintro t (⟨n, q, hq, ht⟩ | hother)
    · rcases getElem?_push_cases hq with hq | ⟨-, rfl⟩
      · exact Or.inl (Or.inl ⟨n, q, hq, ht⟩)
      · exact Or.inl (htarget t ht)
    · exact Or.inl (Or.inr hother)
  · intro n q hn hq
    rcases getElem?_push_cases hq with hq | ⟨-, rfl⟩
    · rw [Array.getElem?_eq_none hn] at hq
      cases hq
    · exact ⟨hclaim, fun hop => (hreturn hop).elim⟩

/-- A jump gets the end of the code as its target. -/
theorem patch (index : Nat) : Tame c { c with quads := patched c.quads index c.quads.size } := by
  have hsize := size_patched c.quads index c.quads.size
  refine ⟨Nat.le_of_eq hsize.symm, fun n q hq hjump => getElem?_patched_of_not_jump hq hjump _ _,
    ?_, ?_, ?_⟩
  · intro n q _ hq
    rcases getElem?_patched hq with hq | ⟨-, q₀, -, hjump, rfl⟩
    · exact Or.inr hq
    · exact Or.inl hjump
  · rintro t (⟨n, q, hq, ht⟩ | hother)
    · rcases getElem?_patched hq with hq | ⟨-, q₀, -, hjump, rfl⟩
      · exact Or.inl (Or.inl ⟨n, q, hq, ht⟩)
      · rw [jumpTarget?_patched hjump] at ht
        cases ht
        exact Or.inr ⟨Nat.le_refl _, Nat.le_of_eq hsize.symm⟩
    · exact Or.inl (Or.inr hother)
  · intro n q hn hq
    have hn : (patched c.quads index c.quads.size).size ≤ n := by omega
    have hq : (patched c.quads index c.quads.size)[n]? = some q := hq
    rw [Array.getElem?_eq_none hn] at hq
    cases hq

/-- A return is no part of a call site. -/
theorem pushReturn (o : Option Operand) :
    Tame c { c with
      quads := (c.quads.push ⟨.returnValue, none, none, o⟩).push ⟨.endFunc, none, none,
        none⟩ } := by
  refine ⟨?_, fun n q hq _ => getElem?_push_of_some (getElem?_push_of_some hq), ?_, ?_, ?_⟩
  · show c.quads.size ≤ ((c.quads.push _).push _).size
    rw [Array.size_push, Array.size_push]
    omega
  · intro n q hn hq
    rcases getElem?_push_cases hq with hq | ⟨hsize, -⟩
    · rcases getElem?_push_cases hq with hq | ⟨hsize, -⟩
      · exact Or.inr hq
      · omega
    · rw [Array.size_push] at hsize
      omega
  · rintro t (⟨n, q, hq, ht⟩ | hother)
    · rcases getElem?_push_cases hq with hq | ⟨-, rfl⟩
      · rcases getElem?_push_cases hq with hq | ⟨-, rfl⟩
        · exact Or.inl (Or.inl ⟨n, q, hq, ht⟩)
        · cases ht
      · cases ht
    · exact Or.inl (Or.inr hother)
  · intro n q hn hq
    rcases getElem?_push_cases hq with hq | ⟨-, rfl⟩
    · rcases getElem?_push_cases hq with hq | ⟨rfl, rfl⟩
      · rw [Array.getElem?_eq_none hn] at hq
        cases hq
      · refine ⟨Opcode.noConfusion, fun _ => ⟨⟨.endFunc, none, none, none⟩, ?_, rfl⟩⟩
        have hsize : (c.quads.push ⟨.returnValue, none, none, o⟩).size = c.quads.size + 1 :=
          Array.size_push _
        show ((c.quads.push _).push _)[c.quads.size + 1]? = _
        rw [← hsize, Array.getElem?_push_size]
    · exact ⟨Opcode.noConfusion, fun hop => Opcode.noConfusion hop⟩

/-- The open loops change, but start only where there is a mark already or at the end of the code.
-/
theorem setLoops {loops : List Loop} (h : ∀ l ∈ loops, c.Marked l.start ∨ l.start = c.quads.size) :
    Tame c { c with loops := loops } := by
  refine ⟨Nat.le_refl _, fun n q hq _ => hq, fun n q _ hq => Or.inr hq, ?_, ?_⟩
  · rintro t (hjump | ⟨l, hl, rfl⟩ | hstart)
    · exact Or.inl (Or.inl hjump)
    · rcases h l hl with hmarked | hsize
      · exact Or.inl hmarked
      · exact Or.inr ⟨Nat.le_of_eq hsize.symm, Nat.le_of_eq hsize⟩
    · exact Or.inl (Or.inr (Or.inr hstart))
  · intro n q hn hq
    have hq : c.quads[n]? = some q := hq
    rw [Array.getElem?_eq_none hn] at hq
    cases hq

theorem declare (id : String) :
    Tame c { c with
      starts := fun j => if j = id then some c.quads.size else c.starts j
      currentFunction := some id } := by
  refine ⟨Nat.le_refl _, fun n q hq _ => hq, fun n q _ hq => Or.inr hq, ?_, ?_⟩
  · rintro t (hjump | hloop | ⟨j, hj⟩)
    · exact Or.inl (Or.inl hjump)
    · exact Or.inl (Or.inr (Or.inl hloop))
    · dsimp only at hj
      split at hj
      · cases hj
        exact Or.inr ⟨Nat.le_refl _, Nat.le_refl _⟩
      · exact Or.inl (Or.inr (Or.inr ⟨j, hj⟩))
  · intro n q hn hq
    have hq : c.quads[n]? = some q := hq
    rw [Array.getElem?_eq_none hn] at hq
    cases hq

/-- A quad is pushed, and then a jump before it gets the end of the code as its target. -/
theorem push_patch (hclaim : p.op ≠ .callAssign) (hreturn : p.op ≠ .returnValue)
    (htarget : ∀ t, p.jumpTarget? = some t → c.Marked t) (index : Nat) :
    Tame c { c with quads := patched (c.quads.push p) index (c.quads.size + 1) } := by
  have hpatch := patch (c := { c with quads := c.quads.push p }) index
  have hsize : (c.quads.push p).size = c.quads.size + 1 := Array.size_push p
  dsimp only at hpatch
  rw [hsize] at hpatch
  exact (push hclaim hreturn htarget).trans hpatch

end Tame

/-- Straight-line code and a quad that is neither claim nor return. -/
theorem Tame.grow_push {quads : Array Quad} {p : Quad} (h : Grown c.quads quads)
    (hclaim : p.op ≠ .callAssign) (hreturn : p.op ≠ .returnValue) (htarget : p.jumpTarget? = none) :
    Tame c { c with quads := quads.push p } :=
  (Tame.grow h).trans (.push hclaim hreturn fun _ ht => by cases htarget.symm.trans ht)

/-! ## Events -/

/-- Every event but a claim is tame. -/
theorem Acts.tame {e : Event} {c' : Control} (h : Acts e c c') (hclaim : e ≠ .pushCallResult) :
    Tame c c' := by
  cases h with
  | straight _ hgrown _ => exact .grow hgrown
  | opens _ _ => exact .declare _
  | closes _ _ _ =>
    have hpush : Tame c { c with quads := c.quads.push ⟨.endFunc, none, none, none⟩ } :=
      .push Opcode.noConfusion Opcode.noConfusion (fun _ ht => by cases ht)
    exact hpush.trans (.of_same rfl rfl rfl)
  | @branches _ quads o _ hgrown =>
    exact (Tame.grow_push (p := ⟨.gotoFalse, o, none, none⟩) hgrown Opcode.noConfusion
      Opcode.noConfusion rfl).trans (.of_same rfl rfl rfl)
  | turns _ _ =>
    exact (Tame.push_patch Opcode.noConfusion Opcode.noConfusion (fun _ ht => by cases ht) _).trans
      (.of_same rfl rfl rfl)
  | joins _ => exact (Tame.patch _).trans (.of_same rfl rfl rfl)
  | marks =>
    refine .setLoops ?_
    intro l hl
    rcases List.mem_cons.mp hl with rfl | hl
    · exact Or.inr rfl
    · exact Or.inl (Or.inr (Or.inl ⟨l, hl, rfl⟩))
  | @tests _ quads o l rest _ hgrown hloops =>
    refine (Tame.grow_push (p := ⟨.gotoFalse, o, none, none⟩) hgrown Opcode.noConfusion
      Opcode.noConfusion rfl).trans (.setLoops ?_)
    -- the innermost loop keeps its start
    intro l' hl'
    refine Or.inl (Or.inr (Or.inl ?_))
    show ∃ l'' ∈ c.loops, l''.start = l'.start
    rw [hloops]
    rcases List.mem_cons.mp hl' with rfl | hl'
    · exact ⟨l, List.mem_cons_self, rfl⟩
    · exact ⟨l', List.mem_cons_of_mem _ hl', rfl⟩
  | @repeats _ l exit rest _ hloops _ =>
    have hmarked : c.Marked l.start := Or.inr (Or.inl ⟨l, hloops ▸ List.mem_cons_self, rfl⟩)
    have hpatched := Tame.push_patch (c := c) (p := ⟨.goto, none, none, some (.jump l.start)⟩)
      Opcode.noConfusion Opcode.noConfusion (fun _ ht => by cases ht; exact hmarked) exit
    refine hpatched.trans (.setLoops ?_)
    intro l' hl'
    refine Or.inl (Or.inr (Or.inl ⟨l', ?_, rfl⟩))
    show l' ∈ c.loops
    rw [hloops]
    exact List.mem_cons_of_mem _ hl'
  | @calls _ quads f _ hgrown =>
    exact (Tame.grow_push (p := ⟨.goSub, some (.function f), none, none⟩) hgrown
      Opcode.noConfusion Opcode.noConfusion rfl).trans (.of_same rfl rfl rfl)
  | claims _ _ => exact (hclaim rfl).elim
  | returns _ hgrown => exact (Tame.grow hgrown).trans (.pushReturn _)
  | leaves _ => exact .push Opcode.noConfusion Opcode.noConfusion (fun _ ht => by cases ht)

/-- A claim stands right after its call, and no mark was made there in between. -/
theorem Shaped.claim (hc : Shaped c) (hw : Waits c) {f : String} (hf : c.finishedCall = some f)
    (t : Nat) :
    Shaped { c with
      quads := c.quads.push ⟨.callAssign, some (.function f), none, some (.addr t)⟩
      finishedCall := none } := by
  obtain ⟨hunmarked, hcalled⟩ := hw f hf
  have hkept : ∀ (n : Nat) (q : Quad), c.quads[n]? = some q → q.isJump = false →
      (c.quads.push ⟨.callAssign, some (.function f), none, some (.addr t)⟩)[n]? = some q :=
    fun n q hq _ => Tame.getElem?_push_of_some hq
  have hmarks : ∀ t', Marked { c with
      quads := c.quads.push ⟨.callAssign, some (.function f), none, some (.addr t)⟩
      finishedCall := none } t' → c.Marked t' := by
    rintro t' (⟨n, q, hq, ht⟩ | hother)
    · rcases Tame.getElem?_push_cases hq with hq | ⟨-, rfl⟩
      · exact Or.inl ⟨n, q, hq, ht⟩
      · cases ht
    · exact Or.inr hother
  refine ⟨?_, ?_, ?_⟩
  · intro t' ht'
    have hle := hc.bounded t' (hmarks t' ht')
    show t' ≤ (c.quads.push _).size
    rw [Array.size_push]
    omega
  · intro j q hq hop
    rcases Tame.getElem?_push_cases hq with hq | ⟨rfl, rfl⟩
    · obtain ⟨hfree, f', t', rfl, hcalled'⟩ := hc.claims j q hq hop
      exact ⟨fun hmarked => hfree (hmarks j hmarked), f', t', rfl, hcalled'.mono hkept⟩
    · exact ⟨fun hmarked => hunmarked (hmarks _ hmarked), f, t, rfl, hcalled.mono hkept⟩
  · intro n q hq
    rcases Tame.getElem?_push_cases hq with hq | ⟨-, rfl⟩
    · exact (hc.returns n q hq).mono hkept
    · exact fun hop => Opcode.noConfusion hop

/-- Every accepted event keeps claims and returns where they should be. -/
theorem Shaped.acts {e : Event} {c' : Control} (hc : Shaped c) (hw : Waits c)
    (hdropped : e ≠ .pushCallResult → c.finishedCall = none) (h : Acts e c c') :
    Shaped c' ∧ Waits c' := by
  have hshaped : Shaped c' := by
    by_cases he : e = .pushCallResult
    · subst he
      cases h with
      | straight hplain _ _ => cases hplain
      | claims _ hfinished => exact hc.claim hw hfinished _
    · exact (h.tame he).shaped hc
  refine ⟨hshaped, ?_⟩
  cases h with
  | @calls _ quads f hopen hgrown =>
    intro f' hf'
    cases hf'
    have hsize : (quads.push ⟨.goSub, some (.function f), none, none⟩).size = quads.size + 1 :=
      Array.size_push _
    refine ⟨?_, quads.size, hsize, Array.getElem?_push_size⟩
    -- the call made no mark, so all marks are within the code before it
    intro hmarked
    have hmarked : c.Marked (quads.push ⟨.goSub, some (.function f), none, none⟩).size := by
      rcases hmarked with ⟨n, q, hq, ht⟩ | hother
      · rcases Tame.getElem?_push_cases hq with hq | ⟨-, rfl⟩
        · rcases Nat.lt_or_ge n c.quads.size with hlt | hge
          · rw [hgrown.kept n hlt] at hq
            exact Or.inl ⟨n, q, hq, ht⟩
          · rw [jumpTarget?_of_not_jump (isJump_of_isPlain (hgrown.plain n q hge hq))] at ht
            cases ht
        · cases ht
      · exact Or.inr hother
    have hle := hc.bounded _ hmarked
    have hgrew := hgrown.size
    omega
  | claims _ _ =>
    intro f' hf'
    cases hf'
  | straight hplain _ _ =>
    intro f' hf'
    have hne : e ≠ .pushCallResult := by
      rintro rfl
      cases hplain
    have hf' : c.finishedCall = some f' := hf'
    rw [hdropped hne] at hf'
    cases hf'
  | opens _ _ | closes _ _ _ | branches _ _ | turns _ _ | joins _ | marks | tests _ _ _
  | repeats _ _ _ | returns _ _
  | leaves _ =>
    intro f' hf'
    have hf' : c.finishedCall = some f' := hf'
    rw [hdropped Event.noConfusion] at hf'
    cases hf'

end Control

/-! ## Compiled programs -/

/-- Claims and returns stand where they should: a claim right after the call, with no other way to
it, and a return right before the end of a function. -/
structure Program.CallsShaped (p : Program) : Prop where
  claims : ∀ (j : Nat) (q : Quad), p.quads[j]? = some q → q.op = .callAssign →
    ∃ f t, q = ⟨.callAssign, some (.function f), none, some (.addr t)⟩ ∧ Control.Called p.quads j f
  targets : ∀ (j n : Nat) (q q' : Quad), p.quads[j]? = some q → q.op = .callAssign →
    p.quads[n]? = some q' →
    q'.jumpTarget? ≠ some j
  starts : ∀ (j : Nat) (q : Quad) (id : String) (r : Routine), p.quads[j]? = some q →
    q.op = .callAssign →
    p.functions.find? id = some r → r.startQuad ≠ j
  returns : ∀ (n : Nat) (q : Quad), p.quads[n]? = some q → Control.ReturnEnds p.quads n q

theorem shaped_initial (sizes : Sizes) (threshold : Level) :
    (Generator.ofSizes sizes threshold).control.Shaped := by
  refine ⟨?_, ?_, ?_⟩
  · rintro t (⟨n, q, hq, -⟩ | ⟨l, hl, -⟩ | ⟨id, hid⟩)
    · cases hq
    · cases hl
    · cases hid
  · intro j q hq
    cases hq
  · intro n q hq
    cases hq

/-- Code has the shape after every accepted script, by induction on its events. -/
theorem shaped_of_accepts {sizes : Sizes} {threshold : Level} {g : Generator}
    (h : Accepts (Generator.ofSizes sizes threshold) events g) :
    g.control.Shaped ∧ g.control.Waits := by
  refine h.induction (P := fun _ g => g.control.Shaped ∧ g.control.Waits)
    ⟨shaped_initial sizes threshold, ?_⟩ ?_
  · intro f hf
    cases hf
  · rintro done e g g' ⟨hshaped, hwaits⟩ happly
    have hacts := Compile.control_apply happly
    by_cases he : e = .pushCallResult
    · have hsame : g.control.before e = g.control := if_pos he
      rw [hsame] at hacts
      exact hshaped.acts hwaits (fun hne => (hne he).elim) hacts
    · have hdropped : g.control.before e = g.control.dropped := if_neg he
      rw [hdropped] at hacts
      have htame : Control.Tame g.control g.control.dropped := .of_same rfl rfl rfl
      exact (htame.shaped hshaped).acts (fun f hf => by cases hf) (fun _ => rfl) hacts

theorem callsShaped_of_compile {threshold : Level} {sizes : Sizes} {p : Program} {names : Names}
    (h : (compile threshold sizes events).1 = .ok (p, names)) : p.CallsShaped := by
  obtain ⟨g, g', haccepts, hfinish⟩ := accepts_of_compile h
  obtain ⟨-, -, -, -, rfl⟩ := Compile.yields_finish hfinish
  obtain ⟨hshaped, -⟩ := shaped_of_accepts haccepts
  refine ⟨?_, ?_, ?_, hshaped.returns⟩
  · intro j q hq hop
    exact (hshaped.claims j q hq hop).2
  · intro j n q q' hq hop hq' htarget
    exact (hshaped.claims j q hq hop).1 (Or.inl ⟨n, q', hq', htarget⟩)
  · intro j q id r hq hop hr hstart
    refine (hshaped.claims j q hq hop).1 (Or.inr (Or.inr ⟨id, ?_⟩))
    show (g.program.functions.find? id).map (·.startQuad) = some j
    have hr : g.program.functions.find? id = some r := hr
    rw [hr, Option.map_some, hstart]

end Quadruple
