/-
  The machine's operators are those of the source.

  On operands that the type rules allow, an operator gives the same value in the source and on the
  machine, or fails in both for the same reason (`Operator.corresponds`), and its result has the
  type that the rules say (`Operator.scalar_of_apply`):

      resultType? v.scalar w.scalar = some ty  →  (op.apply v w  ~  op.onMachine (some ty) v w)
-/
import Quadruple.Proofs.Source
import Quadruple.Typing
import Quadruple.Program
import Quadruple.Machine.Arithmetic

namespace Quadruple.Source

variable {α β : Type} {v w : Value} {ty : Scalar}

/-- The machine's fault is the failure of the source; variables go by the names of their addresses.
-/
def Failure.Is (names : Names) : Failure → Fault → Prop
  | .unassigned x, .uninitialized a => names.find? a = some x
  | .zeroDivisor, .divisionByZero => True
  | .overflow a op b, .typeError (.overflow a' op' b') => a' = a ∧ op' = op.opcode ∧ b' = b
  | .output e, .console e' => e' = e
  | _, _ => False

/-- The same result, or the failure and its fault. -/
def Corresponds {α : Type} (names : Names) : Except Failure α → Except Fault α → Prop
  | .ok a, .ok b => b = a
  | .error f, .error g => f.Is names g
  | _, _ => False

theorem Corresponds.ok {names : Names} {a : α} {y : Except Fault α}
    (h : Corresponds names (.ok a) y) : y = .ok a := by
  cases y with
  | ok b =>
    have h : b = a := h
    rw [h]
  | error g => exact h.elim

theorem Corresponds.error {names : Names} {f : Failure} {y : Except Fault α}
    (h : Corresponds names (.error f) y) : ∃ g, y = .error g ∧ f.Is names g := by
  cases y with
  | ok b => exact h.elim
  | error g => exact ⟨g, rfl, h⟩

theorem Corresponds.bind {names : Names} {x : Except Failure α} {y : Except Fault α}
    {f : α → Except Failure β} {g : α → Except Fault β} (h : Corresponds names x y)
    (hf : ∀ a, x = .ok a → Corresponds names (f a) (g a)) :
    Corresponds names (x >>= f) (y >>= g) := by
  cases x with
  | ok a =>
    rw [h.ok]
    exact hf a rfl
  | error e =>
    obtain ⟨d, rfl, hd⟩ := h.error
    exact hd

theorem bind_eq_ok {ε : Type} {x : Except ε α} {f : α → Except ε β} {b : β}
    (h : (x >>= f) = .ok b) : ∃ a, x = .ok a ∧ f a = .ok b := by
  cases x with
  | ok a => exact ⟨a, rfl, h⟩
  | error e => cases h

theorem bind_eq_error {ε : Type} {x : Except ε α} {f : α → Except ε β} {e : ε}
    (h : (x >>= f) = .error e) : x = .error e ∨ ∃ a, x = .ok a ∧ f a = .error e := by
  cases x with
  | ok a => exact Or.inr ⟨a, rfl, h⟩
  | error d =>
    cases h
    exact Or.inl rfl

/-- What the machine computes for an operator whose result goes to a slot of type `ty`. -/
def Operator.onMachine : Operator → Option Scalar → Value → Value → Except Fault Value
  | arithmetic op, ty, v, w => Quadruple.arithmetic op.opcode ty v w
  | comparison op, _, v, w => Value.bool <$> boolean op.opcode v w
  | logic op, _, v, w => Value.bool <$> boolean op.opcode v w

variable {names : Names}

theorem fitsInt64_iff (n : Int) :
    Decimal.fitsInt64 n = true ↔ -(2 ^ 63 : Int) ≤ n ∧ n < (2 ^ 63 : Int) := by
  unfold Decimal.fitsInt64
  rw [Bool.and_eq_true, decide_eq_true_eq, decide_eq_true_eq, Int64.toInt_minValue,
    Int64.toInt_maxValue]
  omega

theorem exactOperation_eq_exact (op : Arithmetic) (a b : Int) :
    exactOperation op.opcode a b = (op.exact a b).elim (.error .divisionByZero) .ok := by
  cases op with
  | divide =>
    unfold exactOperation Arithmetic.exact Arithmetic.opcode
    dsimp only
    by_cases hb : b = 0
    · rw [if_pos hb, if_pos hb]
      rfl
    · rw [if_neg hb, if_neg hb]
      rfl
  | _ => rfl

theorem onInts_corresponds (op : Arithmetic) (a b : Int64) :
    Corresponds names (op.onInts a b) (Value.int <$> integerOperation op.opcode a b) := by
  rw [Arithmetic.onInts, integerOperation, exactOperation_eq_exact]
  cases op.exact a.toInt b.toInt with
  | none => trivial
  | some n =>
    dsimp only [Option.elim_some]
    by_cases hn : -(2 ^ 63 : Int) ≤ n ∧ n < (2 ^ 63 : Int)
    · rw [if_pos hn, if_pos ((fitsInt64_iff n).mpr hn)]
      rfl
    · rw [if_neg hn, if_neg (fun h => hn ((fitsInt64_iff n).mp h))]
      exact ⟨rfl, rfl, rfl⟩

theorem onFloats_corresponds (op : Arithmetic) (x y : Binary64) :
    Corresponds names (op.onFloats x y) (Value.float <$> floatOperation op.opcode x y) := by
  cases op with
  | divide =>
    unfold floatOperation Arithmetic.onFloats Arithmetic.opcode
    dsimp only
    cases y.isZero with
    | true => trivial
    | false => rfl
  | _ => rfl

/-- The type of an arithmetic result: an integer exactly when both sides are. -/
theorem arithmetic_resultType (op : Arithmetic) (v w : Value) :
    op.opcode.resultType? v.scalar w.scalar =
      if v.scalar = .int ∧ w.scalar = .int then some .int
      else if v.scalar.isNumeric && w.scalar.isNumeric then some .float
      else none := by
  cases op <;> rfl

theorem number?_of_isNumeric (h : v.scalar.isNumeric = true) : ∃ x, v.number? = some x := by
  cases v with
  | int n => exact ⟨_, rfl⟩
  | float x => exact ⟨x, rfl⟩
  | _ => cases h

/-- What an arithmetic operator does when the type rules allow its operands. -/
theorem arithmetic_cases (op : Arithmetic) (h : op.opcode.resultType? v.scalar w.scalar = some ty) :
    (∃ a b, v = .int a ∧ w = .int b ∧ ty = .int) ∨
    ty = .float ∧ ∃ x y, v.number? = some x ∧ w.number? = some y ∧
    op.apply v w = op.onFloats x y := by
  rw [arithmetic_resultType] at h
  split at h
  · rename_i hint
    cases h
    cases v with
    | int a =>
      cases w with
      | int b => exact Or.inl ⟨a, b, rfl, rfl, rfl⟩
      | _ => cases hint.2
    | _ => cases hint.1
  · rename_i hnot
    split at h
    · rename_i hnumeric
      cases h
      rw [Bool.and_eq_true] at hnumeric
      obtain ⟨x, hx⟩ := number?_of_isNumeric hnumeric.1
      obtain ⟨y, hy⟩ := number?_of_isNumeric hnumeric.2
      refine Or.inr ⟨rfl, x, y, hx, hy, ?_⟩
      unfold Arithmetic.apply
      split
      · exact (hnot ⟨rfl, rfl⟩).elim
      · rw [hx, hy]
    · cases h

theorem arithmetic_corresponds (op : Arithmetic)
    (h : op.opcode.resultType? v.scalar w.scalar = some ty) :
    Corresponds names (op.apply v w) (Quadruple.arithmetic op.opcode (some ty) v w) := by
  obtain ⟨a, b, rfl, rfl, rfl⟩ | ⟨rfl, x, y, hx, hy, happly⟩ := arithmetic_cases op h
  · exact onInts_corresponds op a b
  · rw [happly]
    rw [Quadruple.arithmetic, hx, hy]
    exact onFloats_corresponds op x y

theorem holds_eq (op : Comparison) (o : Option Ordering) :
    Quadruple.holds op.opcode o = .ok (op.holds o) := by
  cases o with
  | none => cases op <;> rfl
  | some o => cases op <;> cases o <;> rfl

/-- What the type rules allow to be compared: numbers, and truth values. -/
theorem comparison_cases (op : Comparison) (h : op.opcode.resultType? v.scalar w.scalar = some ty) :
    ty = .bool ∧ ((v.scalar.isNumeric = true ∧ w.scalar.isNumeric = true) ∨
      ∃ a b, v = .bool a ∧ w = .bool b) := by
  cases op <;> cases v <;> cases w <;> cases h <;>
    first
      | exact ⟨rfl, Or.inl ⟨rfl, rfl⟩⟩
      | exact ⟨rfl, Or.inr ⟨_, _, rfl, rfl⟩⟩

theorem comparison_corresponds (op : Comparison)
    (h : op.opcode.resultType? v.scalar w.scalar = some ty) :
    ∃ o, compared v w = .ok o ∧ boolean op.opcode v w = .ok (op.holds o) := by
  have hordering : ∃ o, compared v w = .ok o ∧ ordering v w = .ok o := by
    obtain ⟨-, ⟨hv, hw⟩ | ⟨a, b, rfl, rfl⟩⟩ := comparison_cases op h
    · cases v with
      | int a => cases w with
        | int b => exact ⟨_, rfl, rfl⟩
        | float y => exact ⟨_, rfl, rfl⟩
        | _ => cases hw
      | float x => cases w with
        | int b => exact ⟨_, rfl, rfl⟩
        | float y => exact ⟨_, rfl, rfl⟩
        | _ => cases hw
      | _ => cases hv
    · exact ⟨_, rfl, rfl⟩
  obtain ⟨o, hcompared, ho⟩ := hordering
  refine ⟨o, hcompared, ?_⟩
  rw [← holds_eq]
  unfold boolean
  cases op <;>
    · dsimp only [Comparison.opcode]
      rw [ho]

theorem logic_cases (op : Logic) (h : op.opcode.resultType? v.scalar w.scalar = some ty) :
    ty = .bool ∧ ∃ a b, v = .bool a ∧ w = .bool b := by
  cases op <;> cases v <;> cases w <;> cases h <;> exact ⟨rfl, _, _, rfl, rfl⟩

/-- **Operators mean the same.** Where the type rules allow the operands, source and machine get the
same value or fail for the same reason. -/
theorem Operator.corresponds (op : Operator)
    (h : op.opcode.resultType? v.scalar w.scalar = some ty) :
    Corresponds names (op.apply v w) (op.onMachine (some ty) v w) := by
  cases op with
  | arithmetic op => exact arithmetic_corresponds op h
  | comparison op =>
    obtain ⟨o, hcompared, hboolean⟩ := comparison_corresponds op h
    show Corresponds names ((fun o => .bool (op.holds o)) <$> compared v w)
        (Value.bool <$> boolean op.opcode v w)
    rw [hcompared, hboolean]
    rfl
  | logic op =>
    obtain ⟨-, a, b, rfl, rfl⟩ := logic_cases op h
    cases op <;> rfl

/-- The result has the type that the rules say. -/
theorem Operator.scalar_of_apply (op : Operator) {r : Value}
    (h : op.opcode.resultType? v.scalar w.scalar = some ty) (hr : op.apply v w = .ok r) :
    r.scalar = ty := by
  cases op with
  | arithmetic op =>
    obtain ⟨a, b, rfl, rfl, rfl⟩ | ⟨rfl, x, y, -, -, happly⟩ := arithmetic_cases op h
    · have hr : op.onInts a b = .ok r := hr
      unfold Arithmetic.onInts at hr
      split at hr
      · cases hr
      · split at hr
        · cases hr
          rfl
        · cases hr
    · have hr : op.apply v w = .ok r := hr
      rw [happly] at hr
      unfold Arithmetic.onFloats at hr
      split at hr
      · cases hr
        rfl
      · cases hr
        rfl
      · cases hr
        rfl
      · split at hr
        · cases hr
        · cases hr
          rfl
  | comparison op =>
    obtain ⟨rfl, -⟩ := comparison_cases op h
    obtain ⟨o, hcompared, -⟩ := comparison_corresponds op h
    have hr : (fun o => Value.bool (op.holds o)) <$> compared v w = .ok r := hr
    rw [hcompared] at hr
    cases hr
    rfl
  | logic op =>
    obtain ⟨rfl, a, b, rfl, rfl⟩ := logic_cases op h
    cases op
    · cases hr
      rfl
    · cases hr
      rfl

/-- A variable takes what its slot takes, and holds what the slot holds then. -/
theorem Kind.stored_eq (k : Kind) (v : Value) :
    k.stored v = match v.coerce? k.scalar with
      | some w => .ok w
      | none => .error .illTyped := by
  cases k <;> cases v <;> rfl

end Quadruple.Source
