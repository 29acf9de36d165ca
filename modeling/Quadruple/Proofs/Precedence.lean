/-
  Operator precedence.

  A front end that does not know where an expression ends reports it flat: operands and operators as
  they come.  Before an operator of priority `q` it asks for the reductions of the priorities 4 down
  to `q`, one request for each, and at the end for whatever is left.  Each request fires one
  operator at most, and only the topmost, so it is not plain that the operators fire as the grammar
  wants it.

  They do: a flat expression compiles as its parse tree does when every operator of the tree is
  reported in parentheses.  The reason is the shape of what is pending (`Pending`): the operators
  since the innermost open parenthesis have strictly descending priorities from the top.  So the
  requests from 4 down to `q` meet each operator that binds as tightly as `q` in its turn, and none
  is left behind (`dispatchAll_requests`):

      dispatchAll (requests q (5 - q)) g  =  outcome (reduceTimes ops.length) g

  The induction follows the grammar: what is left of a subexpression is reduced exactly when the
  operator after it is pushed.

  The parse tree is given by a grammar (`Infix.Parses`), in which the left operand of an operator
  binds at least as tightly and the right one more tightly; each expression has exactly one tree
  (`Infix.exists_parses`, `Parses.unique`).
-/
import Quadruple.Proofs.Fences
import Quadruple.Proofs.Translation

namespace Quadruple

variable {c : Compile Unit} {g g' : Generator} {n p q : Nat} {op : Source.Operator}
  {ops : List Source.Operator}

/-! ## Outcomes -/

/-- What a success is followed by may use that it was one. -/
theorem bind_congr_ok {ε α β : Type} {x : Except ε α} {f h : α → Except ε β}
    (hfh : ∀ a, x = .ok a → f a = h a) : (x >>= f) = (x >>= h) := by
  cases x with
  | error e => rfl
  | ok a => exact hfh a rfl

namespace Compile

/-- The state in which a computation ends, or its error. -/
def outcome (c : Compile Unit) (g : Generator) : Except CompileError Generator :=
  match c.run.run g with
  | (.ok _, g') => .ok g'
  | (.error e, _) => .error e

/-- The outcome of a sequence is that of its second part after the first. -/
theorem outcome_bind (c d : Compile Unit) (g : Generator) :
    outcome (c >>= fun _ => d) g = outcome c g >>= outcome d := by
  unfold outcome
  rw [run_bind]
  rcases c.run.run g with ⟨r, g'⟩
  cases r with
  | ok u => rfl
  | error e => rfl

theorem run_of_outcome (h : outcome c g = .ok g') : (c.run.run g).2 = g' := by
  unfold outcome at h
  rcases hrun : c.run.run g with ⟨r, s⟩
  rw [hrun] at h
  cases r with
  | ok u => exact Except.ok.inj h
  | error e => cases h

theorem Oblivious.outcome_withStacks (hc : Oblivious c) (g : Generator) (operators : List Opcode)
    (fences : List Nat) :
    outcome c (g.withStacks operators fences) = (outcome c g).map
      (·.withStacks operators fences) := by
  unfold outcome
  rw [hc]
  rcases c.run.run g with ⟨r, g'⟩
  cases r with
  | ok u => rfl
  | error e => rfl

theorem Oblivious.stacks_of_outcome (hc : Oblivious c) (h : outcome c g = .ok g') :
    g'.operators = g.operators ∧ g'.fences = g.fences := by
  rw [← run_of_outcome h]
  exact hc.stacks g

/-- The state after events, each dispatched as it comes, or the error of the first that is refused.
-/
def dispatchAll (events : List Event) (g : Generator) : Except CompileError Generator :=
  events.foldlM (fun g e => outcome (dispatch e) g) g

theorem dispatchAll_cons (e : Event) (rest : List Event) (g : Generator) :
    dispatchAll (e :: rest) g = outcome (dispatch e) g >>= dispatchAll rest := List.foldlM_cons

/-- Events in a row are dispatched in a row. -/
theorem dispatchAll_append (first second : List Event) (g : Generator) :
    dispatchAll (first ++ second) g = dispatchAll first g >>= dispatchAll second :=
      List.foldlM_append

/-! ## Reductions -/

theorem outcome_reduceTop_cons (g : Generator) (op : Opcode) (rest : List Opcode)
    (fences : List Nat) :
    outcome reduceTop (g.withStacks (op :: rest) fences) = outcome (settle op)
      (g.withStacks rest fences) := by
  rw [outcome, run_reduceTop_cons (g := g.withStacks (op :: rest) fences) rfl]
  rfl

theorem tail_of_outcome_reduceTop (h : outcome reduceTop g = .ok g') :
    g'.operators = g.operators.tail ∧ g'.fences = g.fences := by
  rw [← run_of_outcome h]
  exact tail_reduceTop g

theorem fences_of_outcome_reduceTimes (h : outcome (reduceTimes n) g = .ok g') :
    g'.fences = g.fences := by
  rw [← run_of_outcome h]
  exact (drop_reduceTimes n g).2

theorem outcome_reduceTimes_succ (n : Nat) (g : Generator) :
    outcome (reduceTimes (n + 1)) g = outcome reduceTop g >>= outcome (reduceTimes n) :=
      outcome_bind _ _ g

/-- The last of several reductions, split off. -/
theorem outcome_reduceTimes_succ' (n : Nat) (g : Generator) :
    outcome (reduceTimes (n + 1)) g = outcome (reduceTimes n) g >>= outcome reduceTop := by
  induction n generalizing g with
  | zero =>
    rw [outcome_reduceTimes_succ]
    show (outcome reduceTop g >>= fun g' => .ok g') = outcome reduceTop g
    cases outcome reduceTop g with
    | ok g' => rfl
    | error e => rfl
  | succ n ih =>
    rw [outcome_reduceTimes_succ, outcome_reduceTimes_succ, bind_assoc]
    exact bind_congr fun g' => ih g'

theorem outcome_reduceTimes_one (g : Generator) : outcome (reduceTimes 1) g = outcome reduceTop g :=
  outcome_reduceTimes_succ' 0 g

/-- Everything since the innermost open parenthesis. -/
theorem outcome_reduceAll (h : g.operators.length = g.fence + n) :
    outcome reduceAll g = outcome (reduceTimes n) g := by
  have hcount : g.operators.length - g.fence = n := by omega
  unfold outcome reduceAll
  rw [run_get_bind, hcount]

/-- A closing parenthesis reduces all since it was opened, and forgets its fence. -/
theorem outcome_closeParenthesis {f : Nat} {rest : List Nat} (hfences : g.fences = f :: rest)
    (h : g.operators.length = f + n) :
    outcome closeParenthesis g = outcome (reduceTimes n) g >>= fun g' =>
      .ok (g'.withStacks g'.operators rest) := by
  have hfence : g.fence = f := by
    rw [Generator.fence, hfences]
    rfl
  rw [closeParenthesis, outcome_bind, outcome_reduceAll (n := n) (by omega)]
  refine bind_congr_ok fun g' hg' => ?_
  rw [outcome, run_get_bind, fences_of_outcome_reduceTimes hg', hfences]
  rfl

/-- What does not see the stacks is the same between parentheses. -/
theorem Oblivious.outcome_between (hc : Oblivious c) (g : Generator) (fences : List Nat) :
    (outcome c (g.withStacks g.operators fences) >>= fun g' =>
      .ok (g'.withStacks g'.operators g.fences)) = outcome c g := by
  rw [hc.outcome_withStacks]
  cases hrun : outcome c g with
  | error e => rfl
  | ok g' =>
    obtain ⟨hoperators, hfences⟩ := hc.stacks_of_outcome hrun
    show (.ok (g'.withStacks g.operators g.fences) : Except CompileError Generator) = .ok g'
    rw [← hoperators, ← hfences]
    rfl

/-- A request for the priority of the topmost operator fires it. -/
theorem outcome_reduce_of_priority {op : Opcode} {rest : List Opcode}
    (hoperators : g.operators = op :: rest) (hfence : g.fence < g.operators.length)
    (hp : op.priority? = some p) : outcome (reduce p) g = outcome reduceTop g := by
  unfold outcome
  rw [run_reduce_cons hoperators hfence, if_pos hp]

/-- Any other request does nothing. -/
theorem outcome_reduce_skip
    (h : ∀ op rest, g.operators = op :: rest → g.fence < g.operators.length → op.priority? ≠ some p)
    : outcome (reduce p) g = .ok g := by
  have hreduce : (reduce p).run.run g = (.ok (), g) := by
    by_cases hle : g.operators.length ≤ g.fence
    · exact run_reduce_of_le hle p
    · have hfence := Nat.not_le.mp hle
      obtain ⟨op, rest, hoperators⟩ := List.exists_cons_of_length_pos (Nat.zero_lt_of_lt hfence)
      rw [run_reduce_cons hoperators hfence, if_neg (h op rest hoperators hfence)]
      rfl
  rw [outcome, hreduce]

end Compile

namespace Source

open Compile

/-! ## Flat expressions and their trees -/

/-- How tightly an operator binds. -/
def Operator.priority : Operator → Nat
  | logic _ => 1
  | comparison _ => 2
  | arithmetic .add | arithmetic .subtract => 3
  | arithmetic .multiply | arithmetic .divide => 4

theorem Operator.priority?_opcode (op : Operator) : op.opcode.priority? = some op.priority := by
  rcases op with op | op | op <;> cases op <;> rfl

theorem Operator.priority_le (op : Operator) : op.priority ≤ 4 := by
  rcases op with op | op | op <;> cases op <;> decide

mutual

/-- An operand of a flat expression.  What stands between parentheses may be reported with or
without a request to reduce what is left of it. -/
inductive Term where
  | constant (v : Value)
  | var (x : String)
  | group (inner : Infix) (settled : Bool)

/-- Operands with operators between them, as they are read from left to right. -/
inductive Infix where
  | term (a : Term)
  | extend (e : Infix) (op : Operator) (a : Term)

end

/-- The requests to reduce the priorities from `p + n - 1` down to `p`. -/
def requests (p : Nat) : Nat → List Event
  | 0 => []
  | n + 1 => .reduce (p + n) :: requests p n

/-- The requests before an operator: from the highest priority down to its own. -/
def Operator.requests (op : Operator) : List Event := Source.requests op.priority (5 - op.priority)

mutual

/-- What a front end reports for an operand. -/
def Term.stream : Term → List Event
  | .constant v => [.pushConstant v]
  | .var x => [.pushVariable x]
  | .group inner settled =>
    .openParenthesis :: (inner.stream ++ (if settled then [.executeRemaining] else []) ++
      [.closeParenthesis])

/-- What it reports for operands and operators, up to the last operand. -/
def Infix.stream : Infix → List Event
  | .term a => a.stream
  | .extend e op a => e.stream ++ (op.requests ++ .pushOperator op.opcode.symbol :: a.stream)

end

/-- What it reports for a whole expression. -/
def Infix.events (e : Infix) : List Event := e.stream ++ [.executeRemaining]

/-- Two expressions with an operator between them. -/
def Infix.join (left : Infix) (op : Operator) : Infix → Infix
  | .term a => .extend left op a
  | .extend right op' a => .extend (left.join op right) op' a

/-- The operators outside parentheses, from left to right. -/
def Infix.operators : Infix → List Operator
  | .term _ => []
  | .extend e op _ => e.operators ++ [op]

inductive Tree where
  | constant (v : Value)
  | var (x : String)
  | node (left : Tree) (op : Operator) (right : Tree)

variable {e : Infix} {t : Tree}

/-- What a front end reports for a tree, with parentheses around every operator. -/
def Tree.events : Tree → List Event
  | constant v => [.pushConstant v]
  | var x => [.pushVariable x]
  | node left op right =>
    .openParenthesis ::
      (left.events ++ .pushOperator op.opcode.symbol :: (right.events ++ [.closeParenthesis]))

/-- The grammar: the flat expression, all of whose operators bind at least as tightly as `q`, has
the tree.  Operators of one priority associate to the left. -/
inductive Infix.Parses : Nat → Infix → Tree → Prop where
  | constant (q : Nat) (v : Value) : Parses q (.term (.constant v)) (.constant v)
  | var (q : Nat) (x : String) : Parses q (.term (.var x)) (.var x)
  | group {q : Nat} {inner : Infix} {settled : Bool} {t : Tree} (hinner : Parses 0 inner t) :
    Parses q (.term (.group inner settled)) t
  | node {q : Nat} {left right : Infix} {op : Operator} {l r : Tree} (hq : q ≤ op.priority)
    (hleft : Parses op.priority left l) (hright : Parses (op.priority + 1) right r) :
    Parses q (left.join op right) (.node l op r)

namespace Infix

theorem stream_join (left : Infix) (op : Operator) (right : Infix) :
    (left.join op right).stream = left.stream ++
    (op.requests ++ .pushOperator op.opcode.symbol :: right.stream) := by
  cases right with
  | term a => rfl
  | extend right op' a =>
    rw [join, Infix.stream, stream_join left op right, Infix.stream]
    simp only [List.append_assoc, List.cons_append]

theorem operators_join (left : Infix) (op : Operator) (right : Infix) :
    (left.join op right).operators = left.operators ++ op :: right.operators := by
  cases right with
  | term a => rfl
  | extend right op' a =>
    rw [join, operators, operators_join left op right, operators, List.append_assoc,
      List.cons_append]

/-! ### Every expression has a tree -/

/-- One more operator, with the whole expression to its left. -/
theorem Parses.snoc {u : Tree} {a : Term} (hq : q ≤ op.priority) (h : Parses op.priority e t)
    (ha : Parses (op.priority + 1) (.term a) u) : Parses q (.extend e op a) (.node t op u) := by
  show Parses q (e.join op (.term a)) (.node t op u)
  exact .node hq h ha

/-- One more operator: it takes the whole expression to its left, or its right operand only. -/
theorem Parses.extend {u : Tree} {a : Term} (h : Parses q e t) (ha : ∀ p, Parses p (.term a) u)
    (hq : q ≤ op.priority) : ∃ t', Parses q (.extend e op a) t' := by
  induction h with
  | constant q v => exact ⟨_, .snoc hq (.constant _ v) (ha _)⟩
  | var q x => exact ⟨_, .snoc hq (.var _ x) (ha _)⟩
  | group hinner _ => exact ⟨_, .snoc hq (.group hinner) (ha _)⟩
  | @node q left right op' l r hq' hleft hright _ ihright =>
    by_cases hlt : op'.priority < op.priority
    · obtain ⟨t', ht'⟩ := ihright hlt
      have hnode : Parses q (left.join op' (right.extend op a)) (.node l op' t') :=
        .node hq' hleft ht'
      exact ⟨_, hnode⟩
    · exact ⟨_, .snoc hq (.node (by omega) hleft hright) (ha _)⟩

end Infix

mutual

theorem Term.exists_parses : ∀ a : Term, ∃ t, ∀ q, Infix.Parses q (.term a) t
  | .constant v => ⟨_, fun q => .constant q v⟩
  | .var x => ⟨_, fun q => .var q x⟩
  | .group inner _ => by
    obtain ⟨t, ht⟩ := Infix.exists_parses inner
    exact ⟨t, fun q => .group ht⟩

/-- Every expression has a tree, by induction on it. -/
theorem Infix.exists_parses : ∀ e : Infix, ∃ t, Infix.Parses 0 e t
  | .term a => by
    obtain ⟨t, ht⟩ := Term.exists_parses a
    exact ⟨t, ht 0⟩
  | .extend e op a => by
    obtain ⟨t, ht⟩ := Infix.exists_parses e
    obtain ⟨u, hu⟩ := Term.exists_parses a
    exact ht.extend hu (Nat.zero_le _)

end

namespace Infix

/-! ### And only one -/

theorem Parses.le_priority (h : Parses q e t) : ∀ op ∈ e.operators, q ≤ op.priority := by
  induction h with
  | constant q v => simp [operators]
  | var q x => simp [operators]
  | group hinner _ => simp [operators]
  | node hq hleft hright ihleft ihright =>
    intro op hop
    rw [operators_join] at hop
    rcases List.mem_append.mp hop with hop | hop
    · exact Nat.le_trans hq (ihleft op hop)
    · rcases List.mem_cons.mp hop with rfl | hop
      · exact hq
      · have := ihright op hop
        omega

theorem join_ne_term (left : Infix) (op : Operator) (right : Infix) (a : Term) :
    left.join op right ≠ .term a := by
  cases right with
  | term b => intro h; cases h
  | extend right op' b => intro h; cases h

theorem join_inj {left left' : Infix} {op op' : Operator} : ∀ {right right' : Infix},
    left.join op right = left'.join op' right' → right.operators.length = right'.operators.length →
    left = left' ∧ op = op' ∧ right = right'
  | .term a, .term a', h, _ => by
    cases h
    exact ⟨rfl, rfl, rfl⟩
  | .term a, .extend r' o' a', _, hlength => by simp [operators] at hlength
  | .extend r o a, .term a', _, hlength => by simp [operators] at hlength
  | .extend r o a, .extend r' o' a', h, hlength => by
    rw [join, join] at h
    injection h with hjoin hop hterm
    obtain ⟨hleft, hop', hright⟩ := join_inj hjoin (by simpa [operators] using hlength)
    exact ⟨hleft, hop', by rw [hright, hop, hterm]⟩

/-- Where a list is split in two ways, each of the elements at the splits lies on the far side of
the other. -/
theorem mem_of_split {α : Type} {before before' rest rest' : List α} {x y : α}
    (h : before ++ x :: rest = before' ++ y :: rest') (hlt : rest.length < rest'.length) :
    y ∈ before ∧ x ∈ rest' := by
  rcases List.append_eq_append_iff.mp h with ⟨between, -, hrest⟩ | ⟨between, hbefore, hrest⟩
  · have := congrArg List.length hrest
    simp only [List.length_cons, List.length_append] at this
    omega
  · cases between with
    | nil =>
      have := congrArg List.length hrest
      simp only [List.length_cons, List.nil_append] at this
      omega
    | cons z between =>
      rw [List.cons_append] at hrest
      injection hrest with hhead htail
      rw [hbefore, htail, hhead]
      exact ⟨by simp, by simp⟩

/-- The operator at the root is the last of those that bind least, so it is found in one place only.
-/
theorem Parses.not_shorter {left left' right right' : Infix} {op' : Operator} {l r' : Tree}
    (hleft : Parses op.priority left l) (hright' : Parses (op'.priority + 1) right' r')
    (h : left.join op right = left'.join op' right') :
    ¬ right.operators.length < right'.operators.length := by
  intro hlt
  have hsplit : left.operators ++ op :: right.operators = left'.operators ++ op' ::
      right'.operators := by
    rw [← operators_join, ← operators_join, h]
  obtain ⟨hmem, hmem'⟩ := mem_of_split hsplit hlt
  have hle := hleft.le_priority op' hmem
  have hle' := hright'.le_priority op hmem'
  omega

/-- It has only one, by induction on the grammar. -/
theorem Parses.unique {q' : Nat} {t' : Tree} (h : Parses q e t) (h' : Parses q' e t') : t = t' := by
  induction h generalizing q' t' with
  | constant q v =>
    generalize he : Infix.term (.constant v) = e' at h'
    cases h' with
    | constant => cases he; rfl
    | var | group => cases he
    | node => exact absurd he.symm (join_ne_term _ _ _ _)
  | var q x =>
    generalize he : Infix.term (.var x) = e' at h'
    cases h' with
    | var => cases he; rfl
    | constant | group => cases he
    | node => exact absurd he.symm (join_ne_term _ _ _ _)
  | @group q inner settled t hinner ih =>
    generalize he : Infix.term (.group inner settled) = e' at h'
    cases h' with
    | constant => cases he
    | var => cases he
    | group hinner' =>
      cases he
      exact ih hinner'
    | node => exact absurd he.symm (join_ne_term _ _ _ _)
  | @node q left right op l r hq hleft hright ihleft ihright =>
    generalize he : left.join op right = e' at h'
    cases h' with
    | constant => exact absurd he (join_ne_term _ _ _ _)
    | var => exact absurd he (join_ne_term _ _ _ _)
    | group => exact absurd he (join_ne_term _ _ _ _)
    | node hq' hleft' hright' =>
      have hlength : right.operators.length = _ := Nat.le_antisymm
        (Nat.not_lt.mp (hleft'.not_shorter hright he.symm))
        (Nat.not_lt.mp (hleft.not_shorter hright' he))
      obtain ⟨rfl, rfl, rfl⟩ := join_inj he hlength
      rw [ihleft hleft', ihright hright']

end Infix

/-! ## Trees -/

/-- The computation of a tree, which has no need of the operator stack. -/
def Tree.compute : Tree → Compile Unit
  | constant v => pushConstant v
  | var x => pushVariable x
  | node left op right => do
    left.compute
    right.compute
    settle op.opcode

theorem Tree.oblivious_compute : ∀ t : Tree, Oblivious t.compute
  | constant v => inherited_oblivious.pushConstant (oblivious_constant v)
  | var x => inherited_oblivious.pushVariable x
  | node left _ right =>
    .bind left.oblivious_compute fun _ => .bind right.oblivious_compute fun _ =>
      inherited_oblivious.settle _

theorem outcome_operator (op : Operator) (g : Generator) :
    outcome (dispatch (.pushOperator op.opcode.symbol)) g =
      .ok (g.withStacks (op.opcode :: g.operators) g.fences) := by
  rw [dispatch, op.ofSymbol?_symbol]
  dsimp only
  rw [pushOperator, op.priority?_opcode]
  rfl

/-- An operator pushed between its operands and reduced after the second. -/
theorem Tree.outcome_node (left right : Tree) (op : Operator) (g : Generator) :
    outcome (node left op right).compute g =
      (outcome left.compute g >>= fun g' =>
        outcome right.compute (g'.withStacks (op.opcode :: g'.operators) g'.fences) >>=
          outcome reduceTop) := by
  rw [Tree.compute, outcome_bind]
  refine bind_congr fun g' => ?_
  rw [outcome_bind, right.oblivious_compute.outcome_withStacks]
  cases hright : outcome right.compute g' with
  | error e => rfl
  | ok g'' =>
    obtain ⟨hoperators, hfences⟩ := right.oblivious_compute.stacks_of_outcome hright
    show outcome (settle op.opcode) g'' = outcome reduceTop
        (g''.withStacks (op.opcode :: g'.operators) g'.fences)
    rw [outcome_reduceTop_cons, ← hoperators, ← hfences]
    rfl

/-- Reported in parentheses, a tree is computed whatever the state. -/
theorem Tree.dispatchAll_events (t : Tree) (g : Generator) :
    dispatchAll t.events g = outcome t.compute g := by
  induction t generalizing g with
  | constant v => exact (dispatchAll_cons _ _ g).trans (bind_pure _)
  | var x => exact (dispatchAll_cons _ _ g).trans (bind_pure _)
  | node left op right ihleft ihright =>
    rw [Tree.events, dispatchAll_cons,
      ← (node left op right).oblivious_compute.outcome_between g (g.operators.length :: g.fences)]
    show dispatchAll _ (g.withStacks g.operators (g.operators.length :: g.fences)) = _
    rw [dispatchAll_append, ihleft, Tree.outcome_node, bind_assoc]
    refine bind_congr_ok fun g₁ hg₁ => ?_
    obtain ⟨hoperators₁, hfences₁⟩ := left.oblivious_compute.stacks_of_outcome hg₁
    rw [dispatchAll_cons, outcome_operator, bind_assoc]
    show dispatchAll _ (g₁.withStacks (op.opcode :: g₁.operators) g₁.fences) = _
    rw [dispatchAll_append, ihright]
    refine bind_congr_ok fun g₂ hg₂ => ?_
    obtain ⟨hoperators₂, hfences₂⟩ := right.oblivious_compute.stacks_of_outcome hg₂
    have hlength : g₂.operators.length = g.operators.length + 1 := by
      rw [hoperators₂]
      exact congrArg (fun l => List.length l + 1) hoperators₁
    rw [dispatchAll_cons, dispatch, outcome_closeParenthesis (hfences₂.trans hfences₁) hlength,
      outcome_reduceTimes_one]
    exact bind_pure _

/-! ## What is pending -/

/-- The operator before the next operand, if there is one since the innermost open parenthesis,
binds less tightly. -/
structure Ready (g : Generator) (q : Nat) : Prop where
  fence_le : g.fence ≤ g.operators.length
  looser : ∀ op rest p, g.operators = op :: rest → g.fence < g.operators.length →
    op.priority? = some p → p < q

namespace Ready

variable {g : Generator}

theorem mono (h : Ready g p) (hpq : p ≤ q) : Ready g q :=
  ⟨h.fence_le, fun op rest r hoperators hfence hr =>
    Nat.lt_of_lt_of_le (h.looser op rest r hoperators hfence hr) hpq⟩

/-- Nothing is pending. -/
theorem of_empty (h : g.operators.length = g.fence) (q : Nat) : Ready g q := by
  refine ⟨by omega, ?_⟩
  intro op rest p _ hfence
  omega

/-- After an operator. -/
theorem push (h : Ready g q) (op : Operator) (g' : Generator) :
    Ready (g'.withStacks (op.opcode :: g.operators) g.fences) (op.priority + 1) := by
  refine ⟨Nat.le_succ_of_le h.fence_le, ?_⟩
  intro op' rest p hoperators _ hp
  cases hoperators
  rw [op.priority?_opcode] at hp
  cases hp
  omega

end Ready

/-- Priorities descend from the top, so the requests meet every operator that they are about. -/
theorem dispatchAll_requests {base : Generator} (hbase : Ready base p)
    (hdescend : ops.Pairwise fun a b => b.priority < a.priority)
    (hrange : ∀ op ∈ ops, p ≤ op.priority ∧ op.priority < p + n)
    (hoperators : g.operators = ops.map (·.opcode) ++ base.operators)
    (hfences : g.fences = base.fences) :
    dispatchAll (requests p n) g = outcome (reduceTimes ops.length) g := by
  have hfence : g.fence = base.fence := Generator.fence_congr hfences
  induction n generalizing ops g with
  | zero =>
    cases ops with
    | nil => rfl
    | cons op ops =>
      have := hrange op List.mem_cons_self
      omega
  | succ n ih =>
    rw [requests, dispatchAll_cons, dispatch]
    cases ops with
    | nil =>
      -- what is below binds less tightly than all that is asked for
      rw [outcome_reduce_skip]
      · exact ih .nil (by simp) hoperators hfences hfence
      · intro op rest hcons habove hp
        have hsame : g.operators = base.operators := hoperators
        rw [hsame] at hcons habove
        have := hbase.looser op rest _ hcons (by omega) hp
        omega
    | cons op ops =>
      obtain ⟨habove, hdescend'⟩ := List.pairwise_cons.mp hdescend
      obtain ⟨hle, hlt⟩ := hrange op List.mem_cons_self
      have hlength : g.fence < g.operators.length := by
        have := hbase.fence_le
        rw [hoperators, List.length_append]
        simp only [List.map_cons, List.length_cons]
        omega
      by_cases hp : op.priority = p + n
      · rw [outcome_reduce_of_priority hoperators hlength (hp ▸ op.priority?_opcode)]
        rw [List.length_cons, outcome_reduceTimes_succ]
        refine bind_congr_ok fun g' hg' => ?_
        obtain ⟨htail, hsame⟩ := tail_of_outcome_reduceTop hg'
        refine ih hdescend' ?_ ?_ (hsame.trans hfences)
          (Generator.fence_congr (hsame.trans hfences))
        · intro op' hop'
          have := habove op' hop'
          have := (hrange op' (List.mem_cons_of_mem _ hop')).1
          omega
        · rw [htail, hoperators]
          rfl
      · rw [outcome_reduce_skip]
        · refine ih hdescend ?_ hoperators hfences hfence
          intro op' hop'
          obtain ⟨hle', hlt'⟩ := hrange op' hop'
          rcases List.mem_cons.mp hop' with rfl | hmem
          · omega
          · have := habove op' hmem
            omega
        · intro op' rest hcons _ hp'
          rw [hoperators] at hcons
          cases hcons
          rw [op.priority?_opcode] at hp'
          exact hp (Option.some.inj hp')

/-- Reported from a state where it may start, the expression leaves these operators pending, the
topmost first; reducing them completes the tree. -/
structure Infix.Pending (e : Infix) (q : Nat) (t : Tree) (ops : List Operator) : Prop where
  descending : ops.Pairwise fun a b => b.priority < a.priority
  tight : ∀ op ∈ ops, q ≤ op.priority
  leaves : ∀ {g g' : Generator}, Ready g q → dispatchAll e.stream g = .ok g' →
    g'.operators = ops.map (·.opcode) ++ g.operators ∧ g'.fences = g.fences
  completes : ∀ {g : Generator}, Ready g q →
    (dispatchAll e.stream g >>= outcome (reduceTimes ops.length)) = outcome t.compute g

namespace Infix

/-- Nothing is pending after an operand that is computed at once. -/
theorem pending_of_computed (q : Nat) (h : ∀ g, dispatchAll e.stream g = outcome t.compute g) :
    e.Pending q t [] := by
  refine ⟨.nil, by simp, ?_, ?_⟩
  · intro g g' _ hg'
    rw [h] at hg'
    exact t.oblivious_compute.stacks_of_outcome hg'
  · intro g _
    rw [h]
    exact bind_pure _

/-- The requests before the next operator complete the expression. -/
theorem Pending.requested (h : e.Pending op.priority t ops) (hg : Ready g op.priority) :
    (dispatchAll e.stream g >>= dispatchAll op.requests) = outcome t.compute g := by
  rw [← h.completes hg]
  refine bind_congr_ok fun g' hg' => ?_
  obtain ⟨hoperators, hfences⟩ := h.leaves hg hg'
  refine dispatchAll_requests hg h.descending ?_ hoperators hfences
  intro op' hop'
  have := op'.priority_le
  have := h.tight op' hop'
  omega

/-- An operator stays pending behind what is pending of its right operand. -/
theorem Pending.join {left right : Infix} {l r : Tree} {ops' : List Operator}
    (hleft : left.Pending op.priority l ops) (hright : right.Pending (op.priority + 1) r ops')
    (hq : q ≤ op.priority) : (left.join op right).Pending q (.node l op r) (ops' ++ [op]) := by
  have hstream : ∀ {g : Generator}, Ready g q → dispatchAll (left.join op right).stream g =
      (outcome l.compute g >>= fun g' =>
        dispatchAll right.stream (g'.withStacks (op.opcode :: g'.operators) g'.fences)) := by
    intro g hg
    rw [stream_join, dispatchAll_append, ← hleft.requested (hg.mono hq), bind_assoc]
    refine bind_congr fun g' => ?_
    rw [dispatchAll_append]
    refine bind_congr fun g'' => ?_
    rw [dispatchAll_cons, outcome_operator]
    rfl
  have hready : ∀ {g g' : Generator}, Ready g q → outcome l.compute g = .ok g' →
      Ready (g'.withStacks (op.opcode :: g'.operators) g'.fences) (op.priority + 1) := by
    intro g g' hg hg'
    obtain ⟨hoperators, hfences⟩ := l.oblivious_compute.stacks_of_outcome hg'
    rw [hoperators, hfences]
    exact hg.push op g'
  refine ⟨?_, ?_, ?_, ?_⟩
  · refine List.pairwise_append.mpr ⟨hright.descending, List.pairwise_singleton _ _, ?_⟩
    intro a ha b hb
    rw [List.mem_singleton.mp hb]
    exact hright.tight a ha
  · intro op' hop'
    rcases List.mem_append.mp hop' with hop' | hop'
    · have := hright.tight op' hop'
      omega
    · rw [List.mem_singleton.mp hop']
      exact hq
  · intro g g' hg hg'
    rw [hstream hg] at hg'
    cases hl : outcome l.compute g with
    | error e =>
      rw [hl] at hg'
      cases hg'
    | ok g₁ =>
      rw [hl] at hg'
      obtain ⟨hoperators₁, hfences₁⟩ := l.oblivious_compute.stacks_of_outcome hl
      obtain ⟨hoperators, hfences⟩ := hright.leaves (hready hg hl) hg'
      rw [hoperators, hfences, List.map_append, List.append_assoc, ← hoperators₁, ← hfences₁]
      exact ⟨rfl, rfl⟩
  · intro g hg
    rw [hstream hg, Tree.outcome_node, bind_assoc]
    refine bind_congr_ok fun g' hg' => ?_
    rw [List.length_append, List.length_singleton, ← hright.completes (hready hg hg'), bind_assoc]
    exact bind_congr fun g'' => outcome_reduceTimes_succ' _ g''

/-- Between parentheses nothing is pending at first, and nothing is left in the end. -/
theorem Pending.between {inner : Infix} (h : inner.Pending 0 t ops) (settled : Bool)
    (g : Generator) :
    dispatchAll (Infix.term (.group inner settled)).stream g = outcome t.compute g := by
  have hready : Ready (g.withStacks g.operators (g.operators.length :: g.fences)) 0 :=
    .of_empty rfl 0
  rw [Infix.stream, Term.stream, dispatchAll_cons,
    ← t.oblivious_compute.outcome_between g (g.operators.length :: g.fences)]
  show dispatchAll _ (g.withStacks g.operators (g.operators.length :: g.fences)) = _
  rw [← h.completes hready, List.append_assoc, dispatchAll_append, bind_assoc]
  refine bind_congr_ok fun g₁ hg₁ => ?_
  obtain ⟨hoperators, hfences⟩ := h.leaves hready hg₁
  have hlength : g₁.operators.length = g.operators.length + ops.length := by
    rw [hoperators, List.length_append, List.length_map]
    exact Nat.add_comm _ _
  cases settled with
  | false =>
    show dispatchAll [.closeParenthesis] g₁ = _
    rw [dispatchAll_cons, dispatch, outcome_closeParenthesis hfences hlength]
    exact bind_pure _
  | true =>
    show dispatchAll [.executeRemaining, .closeParenthesis] g₁ = _
    have hfence : g₁.fence = g.operators.length := by
      rw [Generator.fence, hfences]
      rfl
    rw [dispatchAll_cons, dispatch, outcome_reduceAll (hfence ▸ hlength)]
    refine bind_congr_ok fun g₂ hg₂ => ?_
    have hcomputed : outcome t.compute (g.withStacks g.operators (g.operators.length :: g.fences)) =
        .ok g₂ := by
      rw [← h.completes hready, hg₁]
      exact hg₂
    obtain ⟨hoperators₂, hfences₂⟩ := t.oblivious_compute.stacks_of_outcome hcomputed
    rw [dispatchAll_cons, dispatch,
      outcome_closeParenthesis (n := 0) hfences₂ (congrArg List.length hoperators₂)]
    rfl

/-- What is pending after an expression, by induction on its derivation. -/
theorem Parses.exists_pending (h : Parses q e t) : ∃ ops, e.Pending q t ops := by
  induction h with
  | constant q v =>
    exact ⟨[], pending_of_computed q fun g => (dispatchAll_cons _ _ g).trans (bind_pure _)⟩
  | var q x =>
    exact ⟨[], pending_of_computed q fun g => (dispatchAll_cons _ _ g).trans (bind_pure _)⟩
  | @group q inner settled t hinner ih =>
    obtain ⟨ops, hpending⟩ := ih
    exact ⟨[], pending_of_computed q (hpending.between settled)⟩
  | node hq hleft hright ihleft ihright =>
    obtain ⟨ops, hpending⟩ := ihleft
    obtain ⟨ops', hpending'⟩ := ihright
    exact ⟨_, hpending.join hpending' hq⟩

/-- A whole expression computes its tree. -/
theorem Parses.dispatchAll_events (h : Parses 0 e t) (hg : g.operators.length = g.fence) :
    dispatchAll e.events g = outcome t.compute g := by
  obtain ⟨ops, hpending⟩ := h.exists_pending
  have hready : Ready g 0 := .of_empty hg 0
  rw [Infix.events, dispatchAll_append, ← hpending.completes hready]
  refine bind_congr_ok fun g' hg' => ?_
  obtain ⟨hoperators, hfences⟩ := hpending.leaves hready hg'
  have hlength : g'.operators.length = g'.fence + ops.length := by
    have hfence : g'.fence = g.fence := Generator.fence_congr hfences
    rw [hoperators, List.length_append, List.length_map]
    omega
  rw [dispatchAll_cons, dispatch, outcome_reduceAll hlength]
  exact bind_pure _

end Infix

/-! ## Events of expressions -/

theorem isControl_requests (p n : Nat) : ∀ event ∈ requests p n, event.isControl = false := by
  induction n with
  | zero => simp [requests]
  | succ n ih =>
    rw [requests, List.forall_mem_cons]
    exact ⟨rfl, ih⟩

mutual

theorem Term.isControl_stream : ∀ a : Term, ∀ event ∈ a.stream, event.isControl = false
  | .constant v => List.forall_mem_singleton.mpr rfl
  | .var x => List.forall_mem_singleton.mpr rfl
  | .group inner settled => by
    rw [Term.stream, List.forall_mem_cons, List.forall_mem_append, List.forall_mem_append]
    refine ⟨rfl, ⟨Infix.isControl_stream inner, ?_⟩, List.forall_mem_singleton.mpr rfl⟩
    cases settled with
    | false => simp
    | true => exact List.forall_mem_singleton.mpr rfl

theorem Infix.isControl_stream : ∀ e : Infix, ∀ event ∈ e.stream, event.isControl = false
  | .term a => Term.isControl_stream a
  | .extend e op a => by
    rw [Infix.stream, List.forall_mem_append, List.forall_mem_append, List.forall_mem_cons]
    exact ⟨Infix.isControl_stream e, isControl_requests _ _, rfl, Term.isControl_stream a⟩

end

theorem Infix.isControl_events (e : Infix) : ∀ event ∈ e.events, event.isControl = false := by
  rw [Infix.events, List.forall_mem_append]
  exact ⟨e.isControl_stream, List.forall_mem_singleton.mpr rfl⟩

theorem Tree.isControl_events (t : Tree) : ∀ event ∈ t.events, event.isControl = false := by
  induction t with
  | constant v => exact List.forall_mem_singleton.mpr rfl
  | var x => exact List.forall_mem_singleton.mpr rfl
  | node left op right ihleft ihright =>
    rw [Tree.events, List.forall_mem_cons, List.forall_mem_append, List.forall_mem_cons,
      List.forall_mem_append]
    exact ⟨rfl, ihleft, rfl, ihright, List.forall_mem_singleton.mpr rfl⟩

end Source

/-! ## Scripts -/

namespace Compile

/-- The state after a part of a script, or the error of the event that was refused, wherever it
stands. -/
def verdict : Except ScriptError Unit × Generator → Except CompileError Generator
  | (.ok _, g) => .ok g
  | (.error e, _) => .error e.error

/-- The first event of a script, split off. -/
theorem verdict_applyFrom_cons (i : Nat) (e : Event) (rest : List Event) (g : Generator) :
    verdict (applyFrom i (e :: rest) g) = outcome (apply e) g >>= fun g' =>
      verdict (applyFrom (i + 1) rest g') := by
  rw [outcome, applyFrom]
  rcases (apply e).run.run g with ⟨r, g'⟩
  cases r with
  | ok u => rfl
  | error e => rfl

theorem yields_dropResult_of_none (h : g.finishedCall = none) : Yields dropResult g () g := by
  rw [dropResult, yields_get_bind, h]
  rfl

/-- Dropping a result never fails, and leaves none to be claimed. -/
theorem exists_yields_dropResult (g : Generator) :
    ∃ g', Yields dropResult g () g' ∧ g'.finishedCall = none := by
  cases hfinished : g.finishedCall with
  | none => exact ⟨g, yields_dropResult_of_none hfinished, hfinished⟩
  | some f =>
    unfold dropResult
    simp only [yields_get_bind, hfinished, yields_set_bind]
    cases (g.program.functions.find? f).bind (·.returnType) with
    | none => exact ⟨_, rfl, rfl⟩
    | some ty => exact ⟨_, rfl, rfl⟩

/-- A straight event is dispatched once the result was dropped. -/
theorem outcome_apply {e : Event} (he : e.isControl = false) (h : Yields dropResult g () g') :
    outcome (apply e) g = outcome (dispatch e) g' := by
  have hne : e ≠ .pushCallResult := by
    rintro rfl
    cases he
  unfold outcome apply
  rw [if_pos hne, h.run_bind]

/-- Once no result is waiting to be claimed, straight events do what they are dispatched to. -/
theorem verdict_applyFrom_of_none {i : Nat} {events : List Event}
    (hplain : ∀ e ∈ events, e.isControl = false) (h : g.finishedCall = none) :
    verdict (applyFrom i events g) = dispatchAll events g := by
  induction events generalizing i g with
  | nil => rfl
  | cons e rest ih =>
    obtain ⟨he, hrest⟩ := List.forall_mem_cons.mp hplain
    rw [verdict_applyFrom_cons, dispatchAll_cons, outcome_apply he (yields_dropResult_of_none h)]
    refine bind_congr_ok fun g' hg' => ih hrest ?_
    rw [← run_of_outcome hg', (moves_dispatch he g).finishedCall, h]

/-- The first of them drops the result, if one is waiting. -/
theorem verdict_applyFrom {i : Nat} {events : List Event}
    (hplain : ∀ e ∈ events, e.isControl = false) (hne : events ≠ []) (h : Yields dropResult g () g')
    (hnone : g'.finishedCall = none) : verdict (applyFrom i events g) = dispatchAll events g' := by
  cases events with
  | nil => exact absurd rfl hne
  | cons e rest =>
    obtain ⟨he, hrest⟩ := List.forall_mem_cons.mp hplain
    rw [verdict_applyFrom_cons, dispatchAll_cons, outcome_apply he h]
    refine bind_congr_ok fun g'' hg'' => verdict_applyFrom_of_none hrest ?_
    rw [← run_of_outcome hg'', (moves_dispatch he g').finishedCall, hnone]

end Compile

namespace Source

open Compile

/-- From every state with no operator since the innermost open parenthesis, a flat expression
compiles as its parse tree does in parentheses: both end in the same state, or with the same error.
-/
theorem Infix.flat_compiles_as_tree {g : Generator} (hreached : g.Reached)
    (hnone : g.operators.length ≤ g.fence) (e : Infix) :
    (∃! t, e.Parses 0 t) ∧
      ∀ t, e.Parses 0 t → verdict (applyFrom 0 e.events g) = verdict (applyFrom 0 t.events g) := by
  obtain ⟨t, ht⟩ := e.exists_parses
  refine ⟨⟨t, ht, fun u hu => hu.unique ht⟩, ?_⟩
  intro t ht
  obtain ⟨g', hdrop, hfinished⟩ := exists_yields_dropResult g
  have hkept := oblivious_dropResult.stacks g
  rw [show dropResult.run.run g = (.ok (), g') from hdrop] at hkept
  have hempty : g'.operators.length = g'.fence := by
    rw [hkept.1, Generator.fence_congr hkept.2]
    exact Nat.le_antisymm hnone hreached.fenced.fence_le
  have hne : e.events ≠ [] := by
    unfold Infix.events
    exact List.append_ne_nil_of_right_ne_nil _ (List.cons_ne_nil _ _)
  have hne' : t.events ≠ [] := by
    cases t <;> exact List.cons_ne_nil _ _
  rw [verdict_applyFrom e.isControl_events hne hdrop hfinished,
    verdict_applyFrom t.isControl_events hne' hdrop hfinished,
    ht.dispatchAll_events hempty, t.dispatchAll_events]

/-- `1 - 2 - 3 * (x + 4) < 5`, with what is left between the parentheses not asked for. -/
def mixed : Infix :=
  .extend (.extend
    (.extend (.extend (.term (.constant (.int 1))) (.arithmetic .subtract) (.constant (.int 2)))
    (.arithmetic .subtract) (.constant (.int 3)))
    (.arithmetic .multiply)
    (.group (.extend (.term (.var "x")) (.arithmetic .add) (.constant (.int 4))) false))
    (.comparison .lessThan) (.constant (.int 5))

/-- `((1 - 2) - (3 * (x + 4))) < 5`. -/
def mixedTree : Tree :=
  .node (.node (.node (.constant (.int 1)) (.arithmetic .subtract) (.constant (.int 2)))
    (.arithmetic .subtract)
    (.node (.constant (.int 3)) (.arithmetic .multiply)
      (.node (.var "x") (.arithmetic .add) (.constant (.int 4)))))
    (.comparison .lessThan) (.constant (.int 5))

theorem parses_mixed : mixed.Parses 0 mixedTree := by
  refine .snoc (by decide) ?_ (.constant _ _)
  show Infix.Parses 2
      (Infix.join
        (.extend (.term (.constant (.int 1))) (.arithmetic .subtract) (.constant (.int 2)))
    (.arithmetic .subtract) (.extend (.term (.constant (.int 3))) (.arithmetic .multiply)
      (.group (.extend (.term (.var "x")) (.arithmetic .add) (.constant (.int 4))) false))) _
  refine .node (by decide) (.snoc (by decide) (.constant _ _) (.constant _ _))
    (.snoc (by decide) (.constant _ _) ?_)
  exact .group (.snoc (by decide) (.var _ _) (.constant _ _))

/-- The steps `function main { int x; x == (`, reported to a fresh compiler. -/
def comparing : List Directive :=
  [.event (.declareFunction "main"), .event (.declareVariable "x" (.scalar .int)),
    .event (.pushVariable "x"), .event (.pushOperator "=="), .event .openParenthesis]

/-- Behind an operator that waits below the parenthesis. -/
theorem Infix.flat_compiles_as_tree_mixed :
    mixed.Parses 0 mixedTree ∧
      verdict (applyFrom 0 mixed.events
        ((Generator.ofSizes Sizes.standard .trace).after comparing)) =
        verdict (applyFrom 0 mixedTree.events
          ((Generator.ofSizes Sizes.standard .trace).after comparing)) :=
  ⟨parses_mixed, (Infix.flat_compiles_as_tree ⟨_, _, comparing, rfl⟩ (by decide) mixed).2 _
    parses_mixed⟩

end Source

end Quadruple
