/-
  Statements become code that performs them.

  A statement is read by a generator with no operand and no operator waiting, and leaves it so
  (`Idle`).  Its code is appended, and the only quads that change later are its jumps, which get
  their targets before it ends:
      if c A           [c]  GOTOF end   [A]                   end:
      if c A else B    [c]  GOTOF other [A]  GOTO end  other: [B]  end:
      while c A   top: [c]  GOTOF end   [A]  GOTO top         end:
  So the code of the parts is followed to the end, around the jumps that are patched on the way.
-/
import Quadruple.Proofs.Translation

namespace Quadruple

variable {x : String} {e : Source.Expr} {g₁ g₂ g₃ g₄ g₅ g₆ : Generator} {body : Source.Stmt}
  {a : Nat}

namespace Compile

variable {sizes : Sizes} {g g' : Generator} {u : Unit}

/-- With no operator waiting, printing takes the topmost operand. -/
theorem yields_print (h : Yields print g u g') (hp : g.pool.Valid sizes)
    (hnone : g.operators = []) :
    ∃ value rest p journal, g.operands = value :: rest ∧ Pool.Keeps sizes g.pool [value.address] p ∧
      g' = { g with
        pool := p
        journal := journal
        program :=
          { g.program with quads := g.program.quads.push ⟨.print, none, none, some value.value⟩ }
        operands := rest } := by
  obtain ⟨value, rest, hoperands, h⟩ := yields_reduceAll_pop h (by rw [hnone]; exact Nat.zero_le _)
  obtain ⟨_, g₃, he, h⟩ := yields_bind.mp h
  obtain ⟨-, -, rfl⟩ := yields_emit he
  obtain ⟨p, hkeeps, rfl⟩ := yields_release h hp
  exact ⟨value, rest, p, _, hoperands, hkeeps, rfl⟩

/-- With no operator waiting, a condition is the topmost operand. -/
theorem yields_conditionalJump {construct : String} {n : Nat}
    (h : Yields (conditionalJump construct) g n g') (hp : g.pool.Valid sizes)
    (hnone : g.operators = []) :
    ∃ condition rest p journal, g.operands = condition :: rest ∧ condition.ty = .bool ∧
      n = g.nextQuad ∧
      Pool.Keeps sizes g.pool [condition.address] p ∧
      g' = { g with
        pool := p
        journal := journal
        program :=
          { g.program with
            quads := g.program.quads.push ⟨.gotoFalse, some condition.value, none, none⟩ }
        operands := rest } := by
  obtain ⟨condition, rest, hoperands, h⟩ :=
    yields_reduceAll_pop h (by rw [hnone]; exact Nat.zero_le _)
  split at h
  · cases h
  rename_i hbool
  obtain ⟨index, g₃, he, h⟩ := yields_bind.mp h
  obtain ⟨-, rfl, rfl⟩ := yields_emit he
  obtain ⟨_, g₄, hrelease, h⟩ := yields_bind.mp h
  obtain ⟨p, hkeeps, rfl⟩ := yields_release hrelease hp
  cases h
  exact ⟨condition, rest, p, _, hoperands, not_not.mp hbool, rfl, hkeeps, rfl⟩

end Compile

namespace Source

/-- No operand and no operator is waiting. -/
structure Idle (g : Generator) : Prop where
  operands : g.operands = []
  operators : g.operators = []
  fences : g.fences = []

/-- Code for the statement was appended, and nothing else is different from before. -/
structure Stmt.Compiled (I : Image) (s : Stmt) (g g' : Generator) : Prop where
  sound : g'.books.Sound I.sizes I.kinds
  grown : g.nextQuad ≤ g'.nextQuad
  kept : g.draft.Kept 0 g.nextQuad g'.draft
  nesting : g'.nesting = g.nesting
  operands : g'.operands = []
  performs : I.Covers g.nextQuad g'.nextQuad g'.draft → I.Performs s g.nextQuad g'.nextQuad

variable {I : Image} {g g' : Generator}

theorem Idle.of_nesting (h : Idle g) (hnesting : g'.nesting = g.nesting)
    (hoperands : g'.operands = []) : Idle g' :=
  ⟨hoperands, (congrArg Nesting.operators hnesting).trans h.operators,
    (congrArg Nesting.fences hnesting).trans h.fences⟩

theorem Stmt.Compiled.idle {s : Stmt} (h : s.Compiled I g g') (hidle : Idle g) : Idle g' :=
  hidle.of_nesting h.nesting h.operands

/-- A statement is compiled when its last quad is, and does what the code before it prepares. -/
theorem Stmt.Compiled.of_last {s : Stmt} {q : Quad} (hlast : g₁.Appends q g')
    (hgrown : g.nextQuad ≤ g₁.nextQuad) (hkept : g.draft.Kept 0 g.nextQuad g₁.draft)
    (hsound : g'.books.Sound I.sizes I.kinds) (hnesting : g'.nesting = g.nesting)
    (hoperands : g'.operands = [])
    (hperforms : I.Covers g.nextQuad g₁.nextQuad g₁.draft → I.code[g₁.nextQuad]? = some q →
      I.Performs s g.nextQuad (g₁.nextQuad + 1)) : s.Compiled I g g' := by
  have hnext := hlast.next
  refine ⟨hsound, by omega, hkept.append hlast.kept hgrown, hnesting, hoperands, fun hcovers => ?_⟩
  obtain ⟨hcovers₁, hquad⟩ := hcovers.before hlast hgrown
  rw [hnext]
  exact hperforms hcovers₁ hquad

/-! ## Assignments and prints -/

/-- The events of an assignment, up to the operator that assigns. -/
theorem reads_assignment {symbol : String} {op : Opcode} (hs : g.books.Sound I.sizes I.kinds)
    (hidle : Idle g) (hsymbol : Opcode.ofSymbol? symbol = some op)
    (h : Accepts g ([.pushVariable x, .pushOperator symbol] ++ e.events ++ [.executeRemaining])
      g') :
    ∃ v k right g₁, g.locals.find? x = some v ∧ Books.IsLocal I.sizes I.kinds g.pool g.names x v k ∧
      e.Compiled I { g with operands := [⟨v.address, k.scalar, none, false, x⟩], operators := [op] }
        right g₁ ∧
      Yields (if op = .assign then Compile.assign ⟨v.address, k.scalar, none, false, x⟩ right
        else match op.compoundBase? with
          | some base => Compile.compoundAssign ⟨v.address, k.scalar, none, false, x⟩ op base right
          | none => Compile.binary ⟨v.address, k.scalar, none, false, x⟩ op right)
        { g₁ with operators := [], operands := [] } () g' := by
  obtain ⟨g₃, h, hexecute⟩ := h.snoc_inv
  obtain ⟨g₂, hfirst, he⟩ := h.append_inv
  cases hfirst with
  | cons hvariable hrest =>
    have hoperator := hrest.single_inv
    obtain ⟨v, k, hfind, hk, rfl⟩ :=
      Compile.yields_pushVariable (Compile.yields_dispatch hvariable hs.finishedCall) hs
    have hg₂ := Compile.yields_operator hoperator hs.finishedCall hsymbol
    dsimp only at hg₂
    rw [hidle.operators, hidle.operands] at hg₂
    have hs₂ : g₂.books.Sound I.sizes I.kinds := by
      have hpushed := hs.pushLocal hk
      rw [show g.books.operands = [] from hidle.operands] at hpushed
      rw [hg₂]
      exact hpushed
    obtain ⟨right, hright⟩ := e.compiled hs₂ he
    rw [hg₂] at hright
    have hoperators : g₃.operators = [op] := congrArg Nesting.operators hright.nesting
    have hfences : g₃.fences = [] := (congrArg Nesting.fences hright.nesting).trans hidle.fences
    have hone : g₃.operators.length = g₃.fence + 1 := by
      rw [Generator.fence, hoperators, hfences]
      rfl
    have hreduce := Compile.yields_dispatch hexecute hright.sound.finishedCall
    obtain ⟨op', ops, right', left, rest, hops, hoperands, htop⟩ :=
      Compile.yields_reduceTop (Compile.yields_reduceAll_one hreduce hone)
    rw [hoperators] at hops
    rw [hright.operands] at hoperands
    cases hops
    cases hoperands
    exact ⟨v, k, right, g₃, hfind, hk, hright, htop⟩

theorem Arithmetic.ofSymbol?_compound (op : Arithmetic) :
    Opcode.ofSymbol? op.compound.symbol = some op.compound := by
  cases op <;> decide

theorem Arithmetic.compoundBase?_compound (op : Arithmetic) :
    op.compound.compoundBase? = some op.opcode := by
  cases op <;> rfl

theorem Arithmetic.compound_ne_assign (op : Arithmetic) : op.compound ≠ .assign := by
  cases op <;> decide

theorem Arithmetic.resultType?_compound (op : Arithmetic) (left right : Scalar) :
    op.compound.resultType? left right = op.opcode.resultType? left right := by
  cases op <;> rfl

/-- What an assignment leaves when its operands are given back. -/
theorem nesting_of_assignment {left right : Entry} {op : Opcode} (hidle : Idle g)
    (hright : e.Compiled I { g with operands := [left], operators := [op] } right g₁) :
    { g₁.nesting with operators := [] } = g.nesting := by
  show _ = (⟨g.operators, g.fences, g.conditionals, g.loops⟩ : Nesting)
  rw [hright.nesting, hidle.operators]
  rfl

/-- `x = e`: the code of `e` and one `ASSIGN`. -/
theorem compiled_assign (hs : g.books.Sound I.sizes I.kinds) (hidle : Idle g)
    (h : Accepts g (Stmt.assign x e).events g') : (Stmt.assign x e).Compiled I g g' := by
  obtain ⟨v, k, right, g₁, hfind, hk, hright, htop⟩ :=
    reads_assignment hs hidle (show Opcode.ofSymbol? "=" = some .assign by decide) h
  rw [if_pos rfl] at htop
  have hstack : g₁.operands = [right, ⟨v.address, k.scalar, none, false, x⟩] ++ [] :=
    hright.operands
  have hkept₁ : g.draft.Kept 0 g.nextQuad g₁.draft := hright.kept
  obtain ⟨htype, p, journal, hkeeps, rfl⟩ := Compile.yields_assign htop hright.sound.pool rfl
    k.scalar_ne_pointer hright.usable.scalar
  have hnesting := nesting_of_assignment hidle hright
  refine .of_last (Generator.appends hkeeps.peak rfl rfl rfl) hright.grown hkept₁
    (hright.sound.consume hstack hkeeps) hnesting rfl ?_
  intro hcovers hquad
  rw [hright.usable.value] at hquad
  have haddress := hcovers.address x v ((congrArg (·.find? x) hkept₁.locals).trans hfind)
  exact .assign ((hright.computes hcovers).mono (List.nil_subset _)) haddress hk.kind htype hquad

/-- `x op= e`: the code of `e`, the operation on both values, and one `ASSIGN`. -/
theorem compiled_compound {op : Arithmetic} (hs : g.books.Sound I.sizes I.kinds) (hidle : Idle g)
    (h : Accepts g (Stmt.compound x op e).events g') : (Stmt.compound x op e).Compiled I g g' := by
  obtain ⟨v, k, right, g₁, hfind, hk, hright, htop⟩ :=
    reads_assignment hs hidle op.ofSymbol?_compound h
  rw [if_neg op.compound_ne_assign, op.compoundBase?_compound] at htop
  have hstack : g₁.operands = [right, ⟨v.address, k.scalar, none, false, x⟩] ++ [] :=
    hright.operands
  have hkept₁ : g.draft.Kept 0 g.nextQuad g₁.draft := hright.kept
  obtain ⟨ty, t, p, p', journal, hty, hstore, htakes, hkeeps, rfl⟩ :=
    Compile.yields_compoundAssign htop hright.sound.pool
  rw [op.resultType?_compound] at hty
  -- the state between the two quads
  obtain ⟨g₂, hg₂⟩ : ∃ g₂ : Generator, g₂ = { g₁ with
      pool := p
      program := { g₁.program with
        quads := g₁.program.quads.push ⟨op.opcode, some (.addr v.address), some right.value,
          some (.addr t)⟩ } } := ⟨_, rfl⟩
  have hfirst : g₁.Appends ⟨op.opcode, some (.addr v.address), some (.addr right.address),
      some (.addr t)⟩ g₂ := by
    rw [hg₂, ← hright.usable.value]
    exact Generator.appends htakes.peak rfl rfl rfl
  have hgrown₁ : g.nextQuad ≤ g₁.nextQuad := hright.grown
  have hnesting := nesting_of_assignment hidle hright
  refine .of_last (q := ⟨.assign, some (.addr t), none, some (.addr v.address)⟩) ?_ ?_
    (hkept₁.append hfirst.kept hgrown₁)
    (hright.sound.consume hstack (htakes.keeps_of_given hkeeps)) hnesting rfl ?_
  · rw [hg₂]
    exact Generator.appends hkeeps.peak rfl rfl rfl
  · rw [hfirst.next]
    omega
  · intro hcovers₂ hquad₂
    obtain ⟨hcovers₁, hquad₁⟩ := hcovers₂.before hfirst hgrown₁
    have haddress := hcovers₁.address x v ((congrArg (·.find? x) hkept₁.locals).trans hfind)
    have htarget : I.IsTemporary t ty :=
      hcovers₂.isTemporary htakes (by rw [hg₂]; exact Nat.le_refl _)
    rw [hfirst.next] at hquad₂ ⊢
    exact .compound ((hright.computes hcovers₁).mono (List.nil_subset _)) haddress hk.kind hty
      hstore htarget hquad₁ hquad₂

/-- `print e`: the code of `e` and one `PRINT`. -/
theorem compiled_print (hs : g.books.Sound I.sizes I.kinds) (hidle : Idle g)
    (h : Accepts g (Stmt.print e).events g') : (Stmt.print e).Compiled I g g' := by
  obtain ⟨g₁, he, hprint⟩ := Accepts.snoc_inv h
  obtain ⟨entry, hvalue⟩ := e.compiled hs he
  obtain ⟨value, rest, p, journal, hoperands, hkeeps, rfl⟩ := Compile.yields_print
    (Compile.yields_dispatch hprint hvalue.sound.finishedCall) hvalue.sound.pool
    ((congrArg Nesting.operators hvalue.nesting).trans hidle.operators)
  have hstack : g₁.operands = [entry] ++ [] := hvalue.operands.trans (congrArg _ hidle.operands)
  cases hstack.symm.trans hoperands
  refine .of_last (Generator.appends hkeeps.peak rfl rfl rfl) hvalue.grown hvalue.kept
    (hvalue.sound.consume hstack hkeeps) hvalue.nesting rfl fun hcovers hquad => ?_
  rw [hvalue.usable.value] at hquad
  exact .print ((hvalue.computes hcovers).mono (List.nil_subset _)) hquad

/-! ## Conditionals and loops -/

/-- Code for a condition, and the jump taken when it is false, still without a target. -/
structure Tests (I : Image) (e : Expr) (g : Generator) (a : Nat) (g₁ g₂ : Generator) : Prop where
  sound : g₂.books.Sound I.sizes I.kinds
  nesting : g₂.nesting = g.nesting
  operands : g₂.operands = []
  grown : g.nextQuad ≤ g₁.nextQuad
  kept : g.draft.Kept 0 g.nextQuad g₁.draft
  jump : g₁.Appends ⟨.gotoFalse, some (.addr a), none, none⟩ g₂
  computes : I.Covers g.nextQuad g₁.nextQuad g₁.draft →
    I.Computes [] e g.nextQuad g₁.nextQuad a .bool

/-- A condition: its code and one jump that is taken when it is false. -/
theorem compiled_condition {construct : String} {entry : Entry} {n : Nat} (hidle : Idle g)
    (hvalue : e.Compiled I g entry g₁) (h : Yields (Compile.conditionalJump construct) g₁ n g₂) :
    n = g₁.nextQuad ∧ Tests I e g entry.address g₁ g₂ := by
  obtain ⟨condition, rest, p, journal, hoperands, hbool, rfl, hkeeps, rfl⟩ :=
    Compile.yields_conditionalJump h hvalue.sound.pool
      ((congrArg Nesting.operators hvalue.nesting).trans hidle.operators)
  have hstack : g₁.operands = [entry] ++ [] := hvalue.operands.trans (congrArg _ hidle.operands)
  cases hstack.symm.trans hoperands
  refine ⟨rfl, hvalue.sound.consume hstack hkeeps, hvalue.nesting, rfl, hvalue.grown, hvalue.kept,
    ?_, ?_⟩
  · rw [← hvalue.usable.value]
    exact Generator.appends hkeeps.peak rfl rfl rfl
  · intro hcovers
    rw [← hbool]
    exact (hvalue.computes hcovers).mono (List.nil_subset _)

/-- A condition, its pending jump at `n`, and the code that is run when it holds. -/
structure Guards (I : Image) (e : Expr) (body : Stmt) (g : Generator) (a n : Nat) (g' : Generator) :
    Prop where
  le : g.nextQuad ≤ n
  lt : n < g'.nextQuad
  kept : g.draft.Kept 0 g.nextQuad g'.draft
  quad : g'.program.quads[n]? = some ⟨.gotoFalse, some (.addr a), none, none⟩
  computes : I.Covers g.nextQuad n g'.draft → I.Computes [] e g.nextQuad n a .bool
  performs : I.Covers (n + 1) g'.nextQuad g'.draft → I.Performs body (n + 1) g'.nextQuad

/-- What the body puts down after a condition leaves the code of the condition alone. -/
theorem Tests.guards (htests : Tests I e g a g₁ g₂) (hdraft : g₃.draft = g₂.draft)
    (hbody : body.Compiled I g₃ g₄) : Guards I e body g a g₁.nextQuad g₄ := by
  have hprogram : g₃.program = g₂.program := congrArg Draft.program hdraft
  have hnext₃ : g₃.nextQuad = g₁.nextQuad + 1 := by
    rw [Generator.nextQuad, hprogram]
    exact htests.jump.next
  have hgrown₄ := hbody.grown
  have hkept₃ : g₁.draft.Kept 0 g₁.nextQuad g₃.draft := hdraft ▸ htests.jump.kept
  have hkept₄ := hkept₃.append hbody.kept (by omega)
  refine ⟨htests.grown, by omega, htests.kept.append hkept₄ htests.grown, ?_, ?_, ?_⟩
  · have hsame : g₄.program.quads[g₁.nextQuad]? = g₃.program.quads[g₁.nextQuad]? :=
      hbody.kept.code _ (Nat.zero_le _) (by omega)
    rw [hsame, hprogram]
    exact htests.jump.quad
  · intro hcovers
    exact htests.computes (hcovers.earlier (hkept₄.narrow (Nat.zero_le _) (Nat.le_refl _))
      (Nat.le_refl _) (Nat.le_refl _))
  · intro hcovers
    have hperforms := hbody.performs (hnext₃ ▸ hcovers)
    rwa [hnext₃] at hperforms

/-- The innermost conditional while a branch of it is compiled. -/
theorem nesting_of_branch {c : Conditional} (hnesting : g₂.nesting = g.nesting)
    (hopen : g₃ = { g₂ with conditionals := c :: g₂.conditionals })
    (hbody : body.Compiled I g₃ g₄) :
    g₄.nesting = { g.nesting with conditionals := c :: g.conditionals } := by
  rw [hbody.nesting, hopen]
  show { g₂.nesting with conditionals := c :: g₂.nesting.conditionals } = _
  rw [hnesting]
  rfl

/-- A conditional with one branch: the jump leads to its end. -/
theorem compiled_ifThen (htests : Tests I e g a g₁ g₂)
    (hopen : g₃ = { g₂ with conditionals := ⟨g₁.nextQuad, none⟩ :: g₂.conditionals })
    (hbody : body.Compiled I g₃ g₄) (hclose : Yields Compile.closeConditional g₄ () g₅) :
    (Stmt.ifThen e body).Compiled I g g₅ := by
  have hguards : Guards I e body g a g₁.nextQuad g₄ := htests.guards (by rw [hopen]; rfl) hbody
  have hnesting₄ := nesting_of_branch htests.nesting hopen hbody
  obtain ⟨c, rest, hconditionals, hg₅⟩ := Compile.yields_closeConditional hclose
  cases (congrArg Nesting.conditionals hnesting₄).symm.trans hconditionals
  have hpatch : g₄.Patches g₁.nextQuad g₄.nextQuad g₅ := by
    rw [hg₅]
    exact Generator.patches rfl rfl rfl rfl
  have hle := hguards.le
  have hlt := hguards.lt
  have hnext₅ := hpatch.next
  refine ⟨hg₅ ▸ hbody.sound, by omega, hguards.kept.trans (hpatch.kept _ _ (Or.inr hle)),
    hg₅ ▸ congrArg (fun n => { n with conditionals := g.conditionals }) hnesting₄,
    hg₅ ▸ hbody.operands, fun hcovers => ?_⟩
  have hcondition := hcovers.earlier (hpatch.kept _ g₁.nextQuad (Or.inr (Nat.le_refl _)))
    (Nat.le_refl _) (by omega)
  have hbranch := hcovers.earlier
    (hpatch.kept (g₁.nextQuad + 1) g₄.nextQuad (Or.inl (by omega))) (by omega) (by omega)
  have hjump :
      I.code[g₁.nextQuad]? = some ⟨.gotoFalse, some (.addr a), none, some (.jump g₄.nextQuad)⟩ := by
    rw [hcovers.code _ hle (by omega)]
    exact hpatch.quad _ hguards.quad rfl
  rw [hnext₅]
  exact .ifThen (hguards.computes hcondition) hjump (hguards.performs hbranch)

/-- A conditional with two branches: the jump leads to the second one, and the first one ends with a
jump over it. -/
theorem compiled_ifElse {other : Stmt} {g₇ : Generator} (htests : Tests I e g a g₁ g₂)
    (hopen : g₃ = { g₂ with conditionals := ⟨g₁.nextQuad, none⟩ :: g₂.conditionals })
    (hbody : body.Compiled I g₃ g₄) (helse : Yields Compile.elseBranch g₄ () g₅)
    (hother : other.Compiled I g₅ g₆) (hclose : Yields Compile.closeConditional g₆ () g₇) :
    (Stmt.ifElse e body other).Compiled I g g₇ := by
  have hguards : Guards I e body g a g₁.nextQuad g₄ := htests.guards (by rw [hopen]; rfl) hbody
  have hnesting₄ := nesting_of_branch htests.nesting hopen hbody
  obtain ⟨n, rest, journal, -, hconditionals, hg₅⟩ := Compile.yields_elseBranch helse
  cases (congrArg Nesting.conditionals hnesting₄).symm.trans hconditionals
  have hexit : g₄.Rejoins ⟨.goto, none, none, none⟩ g₁.nextQuad (g₄.nextQuad + 1) g₅ := by
    rw [hg₅]
    exact Generator.rejoins hguards.lt rfl rfl rfl rfl
  have hnesting₆ :
      g₆.nesting = { g.nesting with
        conditionals := ⟨g₁.nextQuad, some g₄.nextQuad⟩ :: g.conditionals } := by
    rw [hother.nesting, hg₅]
    show { g₄.nesting with conditionals := ⟨g₁.nextQuad, some g₄.nextQuad⟩ :: g.conditionals } = _
    rw [hnesting₄]
  obtain ⟨c, rest, hconditionals, hg₇⟩ := Compile.yields_closeConditional hclose
  cases (congrArg Nesting.conditionals hnesting₆).symm.trans hconditionals
  have hpatch : g₆.Patches g₄.nextQuad g₆.nextQuad g₇ := by
    rw [hg₇]
    exact Generator.patches rfl rfl rfl rfl
  have hle := hguards.le
  have hlt := hguards.lt
  have hnext₅ := hexit.next
  have hgrown₆ := hother.grown
  have hnext₇ := hpatch.next
  -- what is kept of the first branch and the condition, around the jump between them
  have hkept : ∀ lo hi, hi ≤ g₄.nextQuad → g₁.nextQuad < lo ∨ hi ≤ g₁.nextQuad →
      g₄.draft.Kept lo hi g₇.draft := by
    intro lo hi hhi houtside
    have hkept₆ := hother.kept.narrow (Nat.zero_le lo) (show hi ≤ g₅.nextQuad by omega)
    exact ((hexit.kept lo hi hhi houtside).trans hkept₆).trans (hpatch.kept lo hi (Or.inr hhi))
  refine ⟨hg₇ ▸ hother.sound, by omega, hguards.kept.trans (hkept _ _ (by omega) (Or.inr hle)),
    hg₇ ▸ congrArg (fun n => { n with conditionals := g.conditionals }) hnesting₆,
    hg₇ ▸ hother.operands, fun hcovers => ?_⟩
  have hcondition := hcovers.earlier
    (hkept _ g₁.nextQuad (by omega) (Or.inr (Nat.le_refl _))) (Nat.le_refl _) (by omega)
  have hbranch := hcovers.earlier
    (hkept (g₁.nextQuad + 1) g₄.nextQuad (Nat.le_refl _) (Or.inl (by omega))) (by omega) (by omega)
  have hotherwise := hcovers.earlier
    (hpatch.kept g₅.nextQuad g₆.nextQuad (Or.inl (by omega))) (by omega) (by omega)
  have hcode : ∀ n, n < g₅.nextQuad → g₆.program.quads[n]? = g₅.program.quads[n]? :=
    fun n hn => hother.kept.code n (Nat.zero_le _) hn
  have hjump :
      I.code[g₁.nextQuad]? = some ⟨.gotoFalse, some (.addr a), none,
        some (.jump (g₄.nextQuad + 1))⟩ := by
    rw [hcovers.code _ hle (by omega)]
    exact ((hpatch.other (by omega)).trans (hcode _ (by omega))).trans
      (hexit.jump _ hguards.quad rfl)
  have hover : I.code[g₄.nextQuad]? = some ⟨.goto, none, none, some (.jump g₆.nextQuad)⟩ := by
    rw [hcovers.code _ (by omega) (by omega)]
    exact hpatch.quad _ ((hcode _ (by omega)).trans hexit.quad) rfl
  have hperforms := hother.performs hotherwise
  rw [hnext₅] at hperforms
  rw [hnext₇]
  exact .ifElse (hguards.computes hcondition) hjump (hguards.performs hbranch) hover hperforms

/-- A loop: the jump leads past its end, and its last quad leads back to its condition. -/
theorem compiled_loop (hstart : g₁ = { g with loops := ⟨g.nextQuad, none⟩ :: g.loops })
    (htests : Tests I e g₁ a g₂ g₃)
    (hopen : g₄ = { g₃ with loops := ⟨g.nextQuad, some g₂.nextQuad⟩ :: g.loops })
    (hbody : body.Compiled I g₄ g₅) (hclose : Yields Compile.closeLoop g₅ () g₆) :
    (Stmt.loop e body).Compiled I g g₆ := by
  have hguards : Guards I e body g₁ a g₂.nextQuad g₅ := htests.guards (by rw [hopen]; rfl) hbody
  have hnesting₅ :
      g₅.nesting = { g.nesting with loops := ⟨g.nextQuad, some g₂.nextQuad⟩ :: g.loops } := by
    rw [hbody.nesting, hopen]
    show { g₃.nesting with loops := ⟨g.nextQuad, some g₂.nextQuad⟩ :: g.loops } = _
    rw [htests.nesting, hstart]
    rfl
  obtain ⟨l, exit, rest, journal, -, hloops, hexit, hg₆⟩ := Compile.yields_closeLoop hclose
  cases (congrArg Nesting.loops hnesting₅).symm.trans hloops
  cases hexit
  have hback : g₅.Rejoins ⟨.goto, none, none, some (.jump g.nextQuad)⟩ g₂.nextQuad
      (g₅.nextQuad + 1) g₆ := by
    rw [hg₆]
    exact Generator.rejoins hguards.lt rfl rfl rfl rfl
  have hnext₁ : g₁.nextQuad = g.nextQuad := by
    rw [hstart]
    rfl
  have hle := hguards.le
  have hlt := hguards.lt
  have hnext₆ := hback.next
  have hkept₅ : g.draft.Kept 0 g.nextQuad g₅.draft := by
    have hkept := hguards.kept
    rwa [hnext₁, hstart] at hkept
  refine ⟨hg₆ ▸ hbody.sound, by omega,
    hkept₅.trans (hback.kept _ _ (by omega) (Or.inr (by omega))),
    hg₆ ▸ congrArg (fun n => { n with loops := g.loops }) hnesting₅, hg₆ ▸ hbody.operands,
    fun hcovers => ?_⟩
  have hcondition := hcovers.earlier
    (hback.kept g₁.nextQuad g₂.nextQuad (by omega) (Or.inr (Nat.le_refl _))) (by omega) (by omega)
  have hturn := hcovers.earlier
    (hback.kept (g₂.nextQuad + 1) g₅.nextQuad (Nat.le_refl _) (Or.inl (by omega))) (by omega)
    (by omega)
  have hjump :
      I.code[g₂.nextQuad]? = some ⟨.gotoFalse, some (.addr a), none,
        some (.jump (g₅.nextQuad + 1))⟩ := by
    rw [hcovers.code _ (by omega) (by omega)]
    exact hback.jump _ hguards.quad rfl
  have hrepeat : I.code[g₅.nextQuad]? = some ⟨.goto, none, none, some (.jump g.nextQuad)⟩ := by
    rw [hcovers.code _ (by omega) (by omega)]
    exact hback.quad
  have hcomputes := hguards.computes hcondition
  rw [hnext₁] at hcomputes
  rw [hnext₆]
  exact .loop hcomputes hjump (hguards.performs hturn) hrepeat

/-! ## All statements -/

theorem Tests.idle (h : Tests I e g a g₁ g₂) (hidle : Idle g) : Idle g₂ :=
  hidle.of_nesting h.nesting h.operands

/-- The events that open a conditional. -/
theorem reads_condition (hs : g.books.Sound I.sizes I.kinds) (hidle : Idle g)
    (h : Accepts g (e.events ++ [.openConditional]) g') :
    ∃ a g₁ g₂, Tests I e g a g₁ g₂ ∧
      g' = { g₂ with conditionals := ⟨g₁.nextQuad, none⟩ :: g₂.conditionals } ∧
      g'.books.Sound I.sizes I.kinds ∧ Idle g' := by
  obtain ⟨g₁, he, hopen⟩ := h.snoc_inv
  obtain ⟨entry, hvalue⟩ := e.compiled hs he
  obtain ⟨n, g₂, hjump, hopen⟩ :=
    yields_bind.mp (Compile.yields_dispatch hopen hvalue.sound.finishedCall)
  obtain ⟨rfl, htests⟩ := compiled_condition hidle hvalue hjump
  obtain rfl := yields_modify.mp hopen
  have hidle₂ := htests.idle hidle
  exact ⟨entry.address, g₁, g₂, htests, rfl, htests.sound, hidle₂.operands, hidle₂.operators,
    hidle₂.fences⟩

/-- The events that open a loop. -/
theorem reads_loopCondition (hs : g.books.Sound I.sizes I.kinds) (hidle : Idle g)
    (h : Accepts g ([.saveLoopStart] ++ e.events ++ [.setLoopCondition]) g') :
    ∃ a g₁ g₂ g₃, g₁ = { g with loops := ⟨g.nextQuad, none⟩ :: g.loops } ∧ Tests I e g₁ a g₂ g₃ ∧
      g' = { g₃ with loops := ⟨g.nextQuad, some g₂.nextQuad⟩ :: g.loops } ∧
      g'.books.Sound I.sizes I.kinds ∧ Idle g' := by
  obtain ⟨g₂, h, htest⟩ := h.snoc_inv
  obtain ⟨g₁, hstart, he⟩ := h.append_inv
  have hg₁ := yields_modify.mp (Compile.yields_dispatch hstart.single_inv hs.finishedCall)
  have hs₁ : g₁.books.Sound I.sizes I.kinds := hg₁ ▸ hs
  have hidle₁ : Idle g₁ := hg₁ ▸ ⟨hidle.operands, hidle.operators, hidle.fences⟩
  obtain ⟨entry, hvalue⟩ := e.compiled hs₁ he
  obtain ⟨n, g₃, hjump, htest⟩ :=
    yields_bind.mp (Compile.yields_dispatch htest hvalue.sound.finishedCall)
  obtain ⟨rfl, htests⟩ := compiled_condition hidle₁ hvalue hjump
  have hloops : g₃.loops = ⟨g.nextQuad, none⟩ :: g.loops := by
    rw [show g₃.loops = g₁.loops from congrArg Nesting.loops htests.nesting, hg₁]
  rw [yields_get_bind, hloops] at htest
  obtain rfl := yields_set.mp htest
  have hidle₃ := htests.idle hidle₁
  exact ⟨entry.address, g₁, g₂, g₃, hg₁, htests, rfl, htests.sound, hidle₃.operands,
    hidle₃.operators, hidle₃.fences⟩

/-- The event between the branches of a conditional. -/
theorem reads_elseBranch (hs : g.books.Sound I.sizes I.kinds) (hidle : Idle g)
    (h : Yields Compile.elseBranch g () g') : g'.books.Sound I.sizes I.kinds ∧ Idle g' := by
  obtain ⟨n, rest, journal, -, -, rfl⟩ := Compile.yields_elseBranch h
  exact ⟨hs, hidle.operands, hidle.operators, hidle.fences⟩

/-- One statement after the other. -/
theorem compiled_seq {first second : Stmt} (hfirst : first.Compiled I g g₁)
    (hsecond : second.Compiled I g₁ g') : (Stmt.seq first second).Compiled I g g' := by
  have hgrown₁ := hfirst.grown
  have hgrown₂ := hsecond.grown
  refine ⟨hsecond.sound, by omega, hfirst.kept.append hsecond.kept hgrown₁,
    hsecond.nesting.trans hfirst.nesting, hsecond.operands, ?_⟩
  intro hcovers
  have hcovers₁ := hcovers.earlier (hsecond.kept.narrow (Nat.zero_le _) (Nat.le_refl _))
    (Nat.le_refl _) hgrown₂
  exact .seq (hfirst.performs hcovers₁) (hsecond.performs (hcovers.narrow hgrown₁ (Nat.le_refl _)))

/-- An accepted statement is compiled. -/
theorem Stmt.compiled (s : Stmt) (hs : g.books.Sound I.sizes I.kinds) (hidle : Idle g)
    (h : Accepts g s.events g') : s.Compiled I g g' := by
  induction s generalizing g g' with
  | skip =>
    cases h
    exact ⟨hs, Nat.le_refl _, .refl _, rfl, hidle.operands, fun _ => .skip⟩
  | assign x e => exact compiled_assign hs hidle h
  | compound x op e => exact compiled_compound hs hidle h
  | print e => exact compiled_print hs hidle h
  | ifThen e body ih =>
    obtain ⟨g₄, h, hclose⟩ := Accepts.snoc_inv h
    obtain ⟨g₃, hopen, hbody⟩ := h.append_inv
    obtain ⟨a, g₁, g₂, htests, hg₃, hs₃, hidle₃⟩ := reads_condition hs hidle hopen
    have hbody := ih hs₃ hidle₃ hbody
    exact compiled_ifThen htests hg₃ hbody (Compile.yields_dispatch hclose hbody.sound.finishedCall)
  | ifElse e body other ihbody ihother =>
    obtain ⟨g₆, h, hclose⟩ := Accepts.snoc_inv h
    obtain ⟨g₅, h, hother⟩ := h.append_inv
    obtain ⟨g₄, h, helse⟩ := h.snoc_inv
    obtain ⟨g₃, hopen, hbody⟩ := h.append_inv
    obtain ⟨a, g₁, g₂, htests, hg₃, hs₃, hidle₃⟩ := reads_condition hs hidle hopen
    have hbody := ihbody hs₃ hidle₃ hbody
    have helse := Compile.yields_dispatch helse hbody.sound.finishedCall
    obtain ⟨hs₅, hidle₅⟩ := reads_elseBranch hbody.sound (hbody.idle hidle₃) helse
    have hother := ihother hs₅ hidle₅ hother
    exact compiled_ifElse htests hg₃ hbody helse hother
      (Compile.yields_dispatch hclose hother.sound.finishedCall)
  | loop e body ih =>
    obtain ⟨g₅, h, hclose⟩ := Accepts.snoc_inv h
    obtain ⟨g₄, hopen, hbody⟩ := h.append_inv
    obtain ⟨a, g₁, g₂, g₃, hg₁, htests, hg₄, hs₄, hidle₄⟩ := reads_loopCondition hs hidle hopen
    have hbody := ih hs₄ hidle₄ hbody
    exact compiled_loop hg₁ htests hg₄ hbody
      (Compile.yields_dispatch hclose hbody.sound.finishedCall)
  | seq first second ihfirst ihsecond =>
    obtain ⟨g₁, hfirst, hsecond⟩ := Accepts.append_inv h
    have hfirst := ihfirst hs hidle hfirst
    exact compiled_seq hfirst (ihsecond hfirst.sound (hfirst.idle hidle) hsecond)

end Source

end Quadruple
