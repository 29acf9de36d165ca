/-
  The compiler puts the code of an expression where it belongs.

  Reading the events of an expression, a generator appends code that computes it, and leaves its
  stacks as they were but for one operand more (`Expr.Compiled`).

  This is said for the image of the finished program.  What a generator has put down is kept, except
  that pending jumps get their targets, so code is spoken of by its place:
      d.Kept lo hi d'     the quads from lo to hi are those of the earlier draft
      I.Covers lo hi d    the quads from lo to hi are those of the image
      e.Compiled I g x g' I.Covers n n' g' → I.Computes e n n' x    (n, n' the next quads)
-/
import Quadruple.Proofs.Bookkeeping
import Quadruple.Proofs.CodeMeaning

namespace Quadruple

variable {g g' : Generator} {ty : Scalar} {u : Unit} {op : Opcode}

/-! ## Drafts of a program -/

/-- What a generator has put down of the function it is compiling. -/
structure Draft where
  pool : Pool
  program : Program
  locals : Table String Variable
  currentFunction : Option String

def Generator.draft (g : Generator) : Draft := ⟨g.pool, g.program, g.locals, g.currentFunction⟩

/-- The later draft has the code from `lo` to `hi` and all the constants and variables of the
earlier one. -/
structure Draft.Kept (lo hi : Nat) (d d' : Draft) : Prop where
  code : ∀ i, lo ≤ i → i < hi → d'.program.quads[i]? = d.program.quads[i]?
  constants : ∀ a c, d.program.constants.find? a = some c → d'.program.constants.find? a = some c
  temporaries : ∀ ty, d.pool.peak .temporaries ty ≤ d'.pool.peak .temporaries ty
  locals : d'.locals = d.locals
  currentFunction : d'.currentFunction = d.currentFunction
  program :
    d'.program = { d.program with quads := d'.program.quads, constants := d'.program.constants }

namespace Draft.Kept

variable {lo hi : Nat} {d d' d'' : Draft}

theorem refl (d : Draft) : Kept lo hi d d :=
  ⟨fun _ _ _ => rfl, fun _ _ h => h, fun _ => Nat.le_refl _, rfl, rfl, rfl⟩

theorem trans (h : Kept lo hi d d') (h' : Kept lo hi d' d'') : Kept lo hi d d'' := by
  refine ⟨?_, ?_, ?_, h'.locals.trans h.locals, h'.currentFunction.trans h.currentFunction, ?_⟩
  · intro i hlo hhi
    rw [h'.code i hlo hhi, h.code i hlo hhi]
  · intro a c hc
    exact h'.constants a c (h.constants a c hc)
  · intro ty
    exact Nat.le_trans (h.temporaries ty) (h'.temporaries ty)
  · rw [h'.program, h.program]

theorem narrow {lo' hi' : Nat} (h : Kept lo hi d d') (hlo : lo ≤ lo') (hhi : hi' ≤ hi) :
    Kept lo' hi' d d' :=
  ⟨fun i h₁ h₂ => h.code i (by omega) (by omega), h.constants, h.temporaries, h.locals,
    h.currentFunction, h.program⟩

theorem append {hi' : Nat} (h : Kept lo hi d d') (h' : Kept lo hi' d' d'') (hle : hi ≤ hi') :
    Kept lo hi d d'' :=
  h.trans (h'.narrow (Nat.le_refl _) hle)

end Draft.Kept

/-- One quad was appended. -/
structure Generator.Appends (q : Quad) (g g' : Generator) : Prop where
  next : g'.nextQuad = g.nextQuad + 1
  kept : g.draft.Kept 0 g.nextQuad g'.draft
  quad : g'.program.quads[g.nextQuad]? = some q

theorem Generator.appends {q : Quad}
    (hpeak : ∀ segment ty, g.pool.peak segment ty ≤ g'.pool.peak segment ty)
    (hprogram : g'.program = { g.program with quads := g.program.quads.push q })
    (hlocals : g'.locals = g.locals) (hscope : g'.currentFunction = g.currentFunction) :
    g.Appends q g' := by
  refine ⟨?_, ⟨?_, ?_, hpeak _, hlocals, hscope, ?_⟩, ?_⟩
  · unfold nextQuad
    rw [hprogram, Array.size_push]
  · intro i _ hi
    show g'.program.quads[i]? = g.program.quads[i]?
    unfold nextQuad at hi
    rw [hprogram, Array.getElem?_push, if_neg (by omega)]
  · intro a c hc
    show g'.program.constants.find? a = some c
    rw [hprogram]
    exact hc
  · show g'.program = { g.program with
      quads := g'.program.quads, constants := g'.program.constants }
    rw [hprogram]
  · rw [hprogram]
    exact Array.getElem?_push_size

/-- A jump got its target. -/
structure Generator.Patches (index target : Nat) (g g' : Generator) : Prop where
  next : g'.nextQuad = g.nextQuad
  kept : ∀ lo hi, index < lo ∨ hi ≤ index → g.draft.Kept lo hi g'.draft
  quad : ∀ q, g.program.quads[index]? = some q → q.isJump = true →
    g'.program.quads[index]? = some { q with result := some (.jump target) }

theorem Generator.Patches.other {index target i : Nat} (h : g.Patches index target g')
    (hne : i ≠ index) : g'.program.quads[i]? = g.program.quads[i]? :=
  (h.kept i (i + 1) (by omega)).code i (Nat.le_refl _) (Nat.lt_succ_self _)

theorem Generator.patches {index target : Nat}
    (hprogram : g'.program = { g.program with
      quads := Control.patched g.program.quads index target })
    (hpool : g'.pool = g.pool) (hlocals : g'.locals = g.locals)
    (hscope : g'.currentFunction = g.currentFunction) : g.Patches index target g' := by
  refine ⟨?_, ?_, ?_⟩
  · rw [nextQuad, hprogram]
    exact Control.size_patched _ _ _
  · intro lo hi houtside
    refine ⟨?_, ?_, ?_, hlocals, hscope, ?_⟩
    · intro i hlo hhi
      show g'.program.quads[i]? = g.program.quads[i]?
      rw [hprogram]
      exact Control.getElem?_patched_of_ne _ _ (by omega)
    · intro a c hc
      show g'.program.constants.find? a = some c
      rw [hprogram]
      exact hc
    · intro ty
      show g.pool.peak .temporaries ty ≤ g'.pool.peak .temporaries ty
      rw [hpool]
    · show g'.program = { g.program with
        quads := g'.program.quads, constants := g'.program.constants }
      rw [hprogram]
  · intro q hq hjump
    rw [hprogram]
    exact Control.getElem?_patched_self hq hjump target

/-- One quad was appended, and a jump before it got its target. -/
structure Generator.Rejoins (q : Quad) (index target : Nat) (g g' : Generator) : Prop where
  next : g'.nextQuad = g.nextQuad + 1
  kept : ∀ lo hi, hi ≤ g.nextQuad → index < lo ∨ hi ≤ index → g.draft.Kept lo hi g'.draft
  quad : g'.program.quads[g.nextQuad]? = some q
  jump : ∀ q, g.program.quads[index]? = some q → q.isJump = true →
    g'.program.quads[index]? = some { q with result := some (.jump target) }

theorem Generator.rejoins {q : Quad} {index target : Nat} (hlt : index < g.nextQuad)
    (hprogram : g'.program = { g.program with
      quads := Control.patched (g.program.quads.push q) index target })
    (hpool : g'.pool = g.pool) (hlocals : g'.locals = g.locals)
    (hscope : g'.currentFunction = g.currentFunction) : g.Rejoins q index target g' := by
  -- the quad is appended before the jump is patched
  obtain ⟨g₁, hg₁⟩ : ∃ g₁ : Generator, g₁ = { g with
      program := { g.program with quads := g.program.quads.push q } } := ⟨_, rfl⟩
  have happends : g.Appends q g₁ := by
    rw [hg₁]
    exact appends (fun _ _ => Nat.le_refl _) rfl rfl rfl
  have hpatches : g₁.Patches index target g' := by
    rw [hg₁]
    exact patches hprogram hpool hlocals hscope
  refine ⟨hpatches.next.trans happends.next, ?_, ?_, ?_⟩
  · intro lo hi hhi houtside
    exact (happends.kept.narrow (Nat.zero_le lo) hhi).trans (hpatches.kept lo hi houtside)
  · exact (hpatches.other (by omega)).trans happends.quad
  · intro q' hq' hjump
    exact hpatches.quad q' ((happends.kept.code _ (Nat.zero_le _) hlt).trans hq') hjump

namespace Source

/-- The image has what the draft has, and its code from `lo` to `hi`. -/
structure Image.Covers (I : Image) (lo hi : Nat) (d : Draft) : Prop where
  code : ∀ i, lo ≤ i → i < hi → I.code[i]? = d.program.quads[i]?
  constants : ∀ a c, d.program.constants.find? a = some c → I.constants.find? a = some c.value
  temporaries : ∀ ty, d.pool.peak .temporaries ty ≤ I.slots.temporaries.get ty
  address : ∀ x v, d.locals.find? x = some v → I.address x = some v.address

namespace Image

variable {I : Image} {lo hi : Nat} {d d' : Draft}

theorem Covers.narrow {lo' hi' : Nat} (h : I.Covers lo hi d) (hlo : lo ≤ lo') (hhi : hi' ≤ hi) :
    I.Covers lo' hi' d :=
  ⟨fun i h₁ h₂ => h.code i (by omega) (by omega), h.constants, h.temporaries, h.address⟩

/-- A part of the code that was put down earlier and kept is covered, too. -/
theorem Covers.earlier {lo' hi' : Nat} (h : I.Covers lo hi d') (hkept : d.Kept lo' hi' d')
    (hlo : lo ≤ lo') (hhi : hi' ≤ hi) : I.Covers lo' hi' d := by
  refine ⟨?_, ?_, ?_, ?_⟩
  · intro i h₁ h₂
    rw [h.code i (by omega) (by omega), hkept.code i h₁ h₂]
  · intro a c hc
    exact h.constants a c (hkept.constants a c hc)
  · intro ty
    exact Nat.le_trans (hkept.temporaries ty) (h.temporaries ty)
  · intro x v hx
    exact h.address x v (hkept.locals ▸ hx)

theorem Covers.before {q : Quad} (h : I.Covers lo g'.nextQuad g'.draft) (happends : g.Appends q g')
    (hlo : lo ≤ g.nextQuad) : I.Covers lo g.nextQuad g.draft ∧ I.code[g.nextQuad]? = some q := by
  have hnext := happends.next
  refine ⟨h.earlier (happends.kept.narrow (Nat.zero_le _) (Nat.le_refl _)) (Nat.le_refl _)
    (by omega), ?_⟩
  rw [h.code g.nextQuad hlo (by omega)]
  exact happends.quad

/-- A temporary taken while the draft grew is one of the image. -/
theorem Covers.isTemporary {p p' : Pool} {t : Nat} (h : I.Covers lo hi d)
    (htakes : Pool.Takes I.sizes p .temporaries ty t p')
    (hpeak : p'.peak .temporaries ty ≤ d.pool.peak .temporaries ty) : I.IsTemporary t ty := by
  have hlt := htakes.valid.offset_lt_peak htakes.located htakes.isLive
  exact ⟨htakes.located, hlt.trans_le (hpeak.trans (h.temporaries ty))⟩

/-- Code that spares some slots spares fewer. -/
theorem Computes.mono {held held' : List Nat} {e : Expr} {i j a : Nat}
    (h : I.Computes held e i j a ty) (hsub : held' ⊆ held) : I.Computes held' e i j a ty := by
  induction h generalizing held' with
  | literal located constant => exact .literal located constant
  | var address kind => exact .var address kind
  | binary hleft hright type target free quad ihleft ihright =>
    exact .binary (ihleft hsub) (ihright (List.cons_subset_cons _ hsub)) type target (fun h =>
      free (hsub h)) quad

end Image

end Source

/-! ## Reductions -/

/-- What is open: the stacks of a generator besides that of the operands. -/
structure Nesting where
  operators : List Opcode
  fences : List Nat
  conditionals : List Conditional
  loops : List Loop

def Generator.nesting (g : Generator) : Nesting := ⟨g.operators, g.fences, g.conditionals, g.loops⟩

namespace Compile

/-- An event is compiled alone when there is no result to drop. -/
theorem yields_dispatch {e : Event} (h : Yields (apply e) g u g') (hnone : g.finishedCall = none) :
    Yields (dispatch e) g u g' := by
  unfold apply at h
  split at h
  · obtain ⟨_, g₁, hdrop, h⟩ := yields_bind.mp h
    rw [dropResult, yields_get_bind, hnone] at hdrop
    cases hdrop
    exact h
  · exact h

/-- An operator is pushed. -/
theorem yields_operator {symbol : String} (h : Yields (apply (.pushOperator symbol)) g u g')
    (hnone : g.finishedCall = none) (hsymbol : Opcode.ofSymbol? symbol = some op) :
    g' = { g with operators := op :: g.operators } := by
  have hdispatch := yields_dispatch h hnone
  simp only [dispatch, hsymbol] at hdispatch
  exact yields_pushOperator hdispatch

/-- A reduction takes one operator and two operands. -/
theorem yields_reduceTop (h : Yields reduceTop g u g') :
    ∃ op ops right left rest, g.operators = op :: ops ∧ g.operands = right :: left :: rest ∧
      Yields (if op = .assign then assign left right
        else match op.compoundBase? with
          | some base => compoundAssign left op base right
          | none => binary left op right) { g with operators := ops, operands := rest } u g' := by
  unfold reduceTop at h
  obtain ⟨op, g₁, ho, h⟩ := yields_bind.mp h
  obtain ⟨ops, hoperators, rfl⟩ := yields_popOperator ho
  obtain ⟨right, g₂, hr, h⟩ := yields_bind.mp h
  obtain ⟨rest₁, hright, rfl⟩ := yields_pop hr
  obtain ⟨left, g₃, hl, h⟩ := yields_bind.mp h
  obtain ⟨rest, hleft, rfl⟩ := yields_pop hl
  dsimp only at hright hleft
  rw [hleft] at hright
  exact ⟨op, ops, right, left, rest, hoperators, hright, h⟩

/-- Nothing is left to reduce inside the innermost parenthesis. -/
theorem yields_reduceAll_of_fence (h : Yields reduceAll g u g')
    (hfence : g.operators.length ≤ g.fence) : g' = g := by
  rw [reduceAll, yields_get_bind, Nat.sub_eq_zero_of_le hfence] at h
  exact (yields_pure.mp h).2

/-- With nothing left to reduce, the topmost operand is taken. -/
theorem yields_reduceAll_pop {α : Type} {k : Entry → Compile α} {x : α}
    (h : Yields (do
      reduceAll
      let e ← pop
      k e) g x g')
    (hfence : g.operators.length ≤ g.fence) :
    ∃ e rest, g.operands = e :: rest ∧ Yields (k e) { g with operands := rest } x g' := by
  obtain ⟨_, _, hreduce, hrest⟩ := yields_bind.mp h
  obtain rfl := yields_reduceAll_of_fence hreduce hfence
  obtain ⟨e, _, hpop, hlast⟩ := yields_bind.mp hrest
  obtain ⟨rest, hoperands, rfl⟩ := yields_pop hpop
  exact ⟨e, rest, hoperands, hlast⟩

theorem yields_reduceAll_one (h : Yields reduceAll g u g')
    (hone : g.operators.length = g.fence + 1) : Yields reduceTop g u g' := by
  rw [reduceAll, yields_get_bind, hone, Nat.add_sub_cancel_left] at h
  unfold reduceTimes at h
  obtain ⟨_, g₁, htop, h⟩ := yields_bind.mp h
  cases h
  exact htop

/-- Closing a parenthesis around one operator that computes. -/
theorem yields_closeParenthesis {ops : List Opcode} {fences : List Nat} {left right : Entry}
    {rest : List Entry} (h : Yields closeParenthesis g u g') (hoperators : g.operators = op :: ops)
    (hfences : g.fences = ops.length :: fences) (hoperands : g.operands = right :: left :: rest)
    (hassign : op ≠ .assign) (hbase : op.compoundBase? = none) :
    ∃ g₁, Yields (binary left op right) { g with operators := ops, operands := rest } () g₁ ∧
      (g₁.fences = g.fences → g' = { g₁ with fences := fences }) := by
  unfold closeParenthesis at h
  obtain ⟨_, g₁, hreduce, h⟩ := yields_bind.mp h
  have hone : g.operators.length = g.fence + 1 := by
    rw [Generator.fence, hoperators, hfences]
    rfl
  obtain ⟨op', ops', right', left', rest', hoperators', hoperands', htop⟩ :=
    yields_reduceTop (yields_reduceAll_one hreduce hone)
  cases hoperators.symm.trans hoperators'
  cases hoperands.symm.trans hoperands'
  rw [if_neg hassign, hbase] at htop
  refine ⟨g₁, htop, fun hsame => ?_⟩
  rw [yields_get_bind, hsame, hfences] at h
  exact yields_set.mp h

end Compile

/-! ## Expressions -/

namespace Source

theorem Operator.opcode_ne_assign (op : Operator) : op.opcode ≠ .assign := by
  rcases op with op | op | op <;> cases op <;> decide

theorem Operator.compoundBase?_opcode (op : Operator) : op.opcode.compoundBase? = none := by
  rcases op with op | op | op <;> cases op <;> rfl

theorem Operator.ofSymbol?_symbol (op : Operator) :
    Opcode.ofSymbol? op.opcode.symbol = some op.opcode := by
  rcases op with op | op | op <;> cases op <;> decide

theorem resultType?_ne_pointer {left right : Scalar} (hop : op ≠ .assign)
    (h : op.resultType? left right = some ty) : ty ≠ .pointer := by
  rintro rfl
  unfold Opcode.resultType? at h
  split at h <;> grind

theorem Literal.canonical_value (l : Literal) : l.value.canonical = l.value := by
  cases l with
  | float x finite =>
    have hexponent : x.exponentField ≠ 2047 := by
      unfold Binary64.isFinite at finite
      exact bne_iff_ne.mp finite
    have hnan : x.isNaN = false := by
      unfold Binary64.isNaN
      rw [beq_eq_false_iff_ne.mpr hexponent, Bool.false_and]
    show Value.float x.canonical = Value.float x
    unfold Binary64.canonical
    rw [hnan, if_neg Bool.false_ne_true]
  | int | bool | string => rfl

/-- Code for the expression was appended, and `entry` was pushed for its value. -/
structure Expr.Compiled (I : Image) (e : Expr) (g : Generator) (entry : Entry) (g' : Generator) :
    Prop where
  sound : g'.books.Sound I.sizes I.kinds
  grown : g.nextQuad ≤ g'.nextQuad
  kept : g.draft.Kept 0 g.nextQuad g'.draft
  nesting : g'.nesting = g.nesting
  operands : g'.operands = entry :: g.operands
  computes : I.Covers g.nextQuad g'.nextQuad g'.draft →
    I.Computes (g.operands.map (·.address)) e g.nextQuad g'.nextQuad entry.address entry.ty

variable {I : Image} {g g' : Generator}

/-- The slot of its value is one to read. -/
theorem Expr.Compiled.usable {e : Expr} {entry : Entry} (h : e.Compiled I g entry g') :
    Books.Usable g'.pool entry :=
  h.sound.operands entry (show entry ∈ g'.operands from h.operands ▸ List.mem_cons_self)

/-- A literal is read from its slot, without code. -/
theorem compiled_literal {l : Literal} (hs : g.books.Sound I.sizes I.kinds)
    (h : Yields (Compile.pushConstant l.value) g () g') :
    ∃ entry, (Expr.literal l).Compiled I g entry g' := by
  unfold Compile.pushConstant at h
  obtain ⟨a, g₁, hc, h⟩ := yields_bind.mp h
  obtain ⟨hsound, ⟨c, hfind, hvalue⟩, hscalar, p, journal, names, constants, literals, hconstants,
      hkeeps, rfl⟩ :=
    Compile.yields_constant hc hs l.canonical_value
  rw [yields_get_bind] at h
  cases h
  obtain ⟨hlive, hlocated⟩ := hsound.constants a c hfind
  refine ⟨_, ?_, Nat.le_refl _, ⟨fun _ _ _ => rfl, hconstants, hkeeps.peak _, rfl, rfl, rfl⟩, rfl,
    rfl, ?_⟩
  · exact hsound.push ⟨rfl, hscalar, hlive⟩ fun _ _ ht =>
      (Located.not_temporary hlocated (by decide) ht).elim
  · intro hcovers
    have hconstant := hcovers.constants a c hfind
    rw [hvalue] at hlocated hconstant
    exact .literal hlocated hconstant

/-- So is a variable. -/
theorem compiled_var {x : String} (hs : g.books.Sound I.sizes I.kinds)
    (h : Yields (Compile.pushVariable x) g () g') :
    ∃ entry, (Expr.var x).Compiled I g entry g' := by
  obtain ⟨v, k, hfind, hk, rfl⟩ := Compile.yields_pushVariable h hs
  refine ⟨_, hs.pushLocal hk, Nat.le_refl _, .refl _, rfl, rfl, ?_⟩
  intro hcovers
  exact .var (hcovers.address x v hfind) hk.kind

/-- A parenthesis closed around an operator with its operands. -/
theorem compiled_binary {left right : Expr} {op : Operator} {g₁ g₂ g₃ g₄ g₅ : Generator}
    {el er : Entry} (hopen : g₁ = { g with fences := g.operators.length :: g.fences })
    (hleft : left.Compiled I g₁ el g₂)
    (hop : g₃ = { g₂ with operators := op.opcode :: g₂.operators })
    (hright : right.Compiled I g₃ er g₄) (h : Yields Compile.closeParenthesis g₄ () g₅) :
    ∃ entry, (Expr.binary left op right).Compiled I g entry g₅ := by
  subst hopen hop
  have hnesting₂ : g₂.nesting = { g.nesting with fences := g.operators.length :: g.fences } :=
    hleft.nesting
  have hnesting₄ : g₄.nesting = ⟨op.opcode :: g.operators, g.operators.length :: g.fences,
      g.conditionals, g.loops⟩ := by
    have hright := hright.nesting
    rw [hright]
    show (⟨op.opcode :: g₂.nesting.operators, g₂.nesting.fences, g₂.nesting.conditionals,
        g₂.nesting.loops⟩ : Nesting) = _
    rw [hnesting₂]
    rfl
  have hoperands₄ : g₄.operands = er :: el :: g.operands := by
    have hright := hright.operands
    rw [hright]
    exact congrArg _ hleft.operands
  obtain ⟨g', hbinary, hg₅⟩ := Compile.yields_closeParenthesis h
    (congrArg Nesting.operators hnesting₄) (congrArg Nesting.fences hnesting₄) hoperands₄
    op.opcode_ne_assign op.compoundBase?_opcode
  obtain ⟨ty, t, p, p', journal, name, hty, htakes, hkeeps, rfl⟩ :=
    Compile.yields_binary hbinary hright.sound.pool
  replace hg₅ := hg₅ rfl
  have hel := hright.sound.operands el (show el ∈ g₄.operands by rw [hoperands₄]; simp)
  have hlast : g₄.Appends ⟨op.opcode, some (.addr el.address), some (.addr er.address),
      some (.addr t)⟩ g₅ := by
    rw [hg₅, ← hel.value, ← hright.usable.value]
    exact Generator.appends (htakes.keeps.trans hkeeps).peak rfl rfl rfl
  have hgrown₂ : g.nextQuad ≤ g₂.nextQuad := hleft.grown
  have hgrown₄ : g₂.nextQuad ≤ g₄.nextQuad := hright.grown
  have hkept₂ : g.draft.Kept 0 g.nextQuad g₂.draft := hleft.kept
  have hkept₄ : g₂.draft.Kept 0 g₂.nextQuad g₄.draft := hright.kept
  refine ⟨⟨t, ty, none, false, name⟩, ?_, ?_, ?_, ?_, ?_, ?_⟩
  · rw [hg₅]
    exact hright.sound.combine hoperands₄ (resultType?_ne_pointer op.opcode_ne_assign hty) htakes
      hkeeps
  · rw [hlast.next]
    omega
  · exact (hkept₂.append hkept₄ hgrown₂).append hlast.kept (Nat.le_trans hgrown₂ hgrown₄)
  · rw [hg₅]
    show (⟨g.operators, g.fences, g₄.nesting.conditionals, g₄.nesting.loops⟩ : Nesting) = _
    rw [hnesting₄]
    rfl
  · rw [hg₅]
  · intro hcovers
    obtain ⟨hcovers₄, hquad⟩ := hcovers.before hlast (Nat.le_trans hgrown₂ hgrown₄)
    have hcovers₂ :=
      hcovers₄.earlier (hkept₄.narrow (Nat.zero_le _) (Nat.le_refl _)) (Nat.le_refl _) hgrown₄
    have hcomputes := hright.computes (hcovers₄.narrow hgrown₂ (Nat.le_refl _))
    rw [show ({ g₂ with operators := op.opcode :: g₂.operators } : Generator).operands =
      el :: g.operands from hleft.operands] at hcomputes
    have hpeak : p.peak .temporaries ty ≤ g₅.draft.pool.peak .temporaries ty := by
      rw [hg₅]
      exact hkeeps.peak _ _
    rw [hlast.next]
    refine .binary (hleft.computes hcovers₂) hcomputes hty
      (hcovers.isTemporary htakes hpeak) ?_ hquad
    -- a fresh temporary is none of the operands below
    intro hmem
    obtain ⟨e, he, heq⟩ := List.mem_map.mp hmem
    have husable := hright.sound.operands e (show e ∈ g₄.operands by rw [hoperands₄]; simp [he])
    exact htakes.ne_of_isLive husable.live heq

/-- An accepted expression is compiled. -/
theorem Expr.compiled (e : Expr) (hs : g.books.Sound I.sizes I.kinds) (h : Accepts g e.events g') :
    ∃ entry, e.Compiled I g entry g' := by
  induction e generalizing g g' with
  | literal l => exact compiled_literal hs (Compile.yields_dispatch h.single_inv hs.finishedCall)
  | var x => exact compiled_var hs (Compile.yields_dispatch h.single_inv hs.finishedCall)
  | binary left op right ihleft ihright =>
    obtain ⟨g₄, h, hclose⟩ := Accepts.snoc_inv h
    obtain ⟨g₃, h, hright⟩ := h.append_inv
    obtain ⟨g₂, h, hop⟩ := h.snoc_inv
    obtain ⟨g₁, hopen, hleft⟩ := h.append_inv
    have hopen := yields_modify.mp (Compile.yields_dispatch hopen.single_inv hs.finishedCall)
    have hs₁ : g₁.books.Sound I.sizes I.kinds := by
      rw [hopen]
      exact hs
    obtain ⟨el, hleft⟩ := ihleft hs₁ hleft
    have hop := Compile.yields_operator hop hleft.sound.finishedCall op.ofSymbol?_symbol
    have hs₃ : g₃.books.Sound I.sizes I.kinds := by
      rw [hop]
      exact hleft.sound
    obtain ⟨er, hright⟩ := ihright hs₃ hright
    exact compiled_binary hopen hleft hop hright
      (Compile.yields_dispatch hclose hright.sound.finishedCall)

end Source

end Quadruple
