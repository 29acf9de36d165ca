/-
  No temporary is clobbered, and none is leaked.

  Between two events nothing is in hand, so by the ledger the temporaries handed out are those on
  the operand stack and those of the offsets of open array accesses, each once (`Exact`):

      a ∈ pendingTemporaries  ↔  inSegment a temporaries ∧ isLive a

  What
  follows is read off from that: pending operands never share a temporary, a fresh temporary is none
  of theirs, and a function is closed with nothing pending, so with no temporary handed out.
-/
import Quadruple.Proofs.InOrder

namespace Quadruple

namespace Generator

/-- The temporaries on the operand stack and among the offsets of open array accesses. -/
def pendingTemporaries (g : Generator) : List Nat :=
  (g.operands.map (·.address) ++ (g.accesses.filterMap (·.offset)).map (·.address)).filter fun a =>
    g.pool.inSegment a .temporaries

/-- The temporaries handed out are the pending ones, each pending once. -/
def Exact (g : Generator) : Prop :=
  g.pendingTemporaries.Nodup ∧
    ∀ a, a ∈ g.pendingTemporaries ↔ g.pool.inSegment a .temporaries = true ∧ g.pool.isLive a = true

variable {sizes : Sizes} {since : Nat} {g : Generator}

/-- With nothing in hand the ledger counts the pending temporaries. -/
theorem count_pendingTemporaries (hg : Ledger sizes since [] g.account) (a : Nat) :
    g.pendingTemporaries.count a = if g.pool.inSegment a .temporaries =
      true then (g.pool.isLive a).toNat else 0 := by
  unfold pendingTemporaries
  split
  · rename_i htemporary
    refine Eq.trans (List.count_filter ?_)
      (hg.balance a ((Pool.inSegment_temporaries hg.pool a).mp htemporary))
    exact htemporary
  · rename_i hother
    exact List.count_eq_zero.mpr fun hmem => hother (List.mem_filter.mp hmem).2

theorem exact_of_ledger (hg : Ledger sizes since [] g.account) : g.Exact := by
  have hcount := count_pendingTemporaries hg
  constructor
  · rw [List.nodup_iff_count_le_one]
    intro a
    have hle := Bool.toNat_le (g.pool.isLive a)
    rw [hcount a]
    split
    · exact hle
    · exact Nat.zero_le _
  · intro a
    rw [← List.count_pos_iff, hcount a]
    constructor
    · intro hpos
      split at hpos
      · rename_i htemporary
        cases hlive : g.pool.isLive a with
        | true => exact ⟨htemporary, rfl⟩
        | false =>
          rw [hlive] at hpos
          cases hpos
      · cases hpos
    · rintro ⟨htemporary, hlive⟩
      rw [if_pos htemporary, hlive]
      exact Nat.one_pos

/-- Two operands on the stack have different temporaries. -/
theorem Exact.operands_apart (h : g.Exact) : g.operands.Pairwise fun e e' =>
    g.pool.inSegment e.address .temporaries = true → e.address ≠ e'.address := by
  have hnodup := h.1
  rw [pendingTemporaries, List.filter_append] at hnodup
  have hpairwise := List.pairwise_filter.mp (List.nodup_append.mp hnodup).1
  refine (List.pairwise_map.mp hpairwise).imp ?_
  intro e e' hne htemporary heq
  exact hne htemporary (heq ▸ htemporary) heq

/-- A temporary that is handed out is none of the pending ones. -/
theorem Exact.fresh (h : g.Exact) (hp : g.pool.Valid sizes) {ty : Scalar} {t : Nat} {p : Pool}
    (hallocate : g.pool.allocate ty .temporaries = .ok (t, p)) : t ∉ g.pendingTemporaries := by
  intro hmem
  have hlive := ((h.2 t).mp hmem).2
  rw [(hp.allocate hallocate).fresh] at hlive
  cases hlive

/-- Nothing is handed out when nothing is open. -/
theorem Exact.not_live_of_closed (h : g.Exact) (hclosed : ∀ x ∈ Compile.openConstructs g, x.2 = 0)
    {a : Nat} (ha : g.pool.inSegment a .temporaries = true) : g.pool.isLive a = false := by
  have hnone : g.pendingTemporaries = [] := by
    simp [pendingTemporaries, Compile.operands_of_closed hclosed,
      Compile.accesses_of_closed hclosed]
  rw [Bool.eq_false_iff]
  intro hlive
  have hmem := (h.2 a).mpr ⟨ha, hlive⟩
  rw [hnone] at hmem
  cases hmem

end Generator

open Generator

/-- **Temporaries are neither clobbered nor leaked.** After every prefix of a script that is
accepted and names no address by number, and after any number of reductions from there, the
temporaries handed out are those on the operand stack and among the offsets of open accesses, each
once.  So two operands on the stack never share a temporary, the temporary that the next result gets
is none of the pending ones, no quad names a temporary twice, and when the end of a function is
accepted no temporary is handed out in the pool that is then released. -/
theorem temporaries_are_exact {threshold : Level} {sizes : Sizes} {before after : List Event}
    {g' : Generator}
    (h : Compile.applyFrom 0 (before ++ after) (.ofSizes sizes threshold) = (.ok (), g'))
    (hevents : ∀ e ∈ before, e.namesAddress = false) :
    ∃ g, Compile.applyFrom 0 before (.ofSizes sizes threshold) = (.ok (), g) ∧
      g.Exact ∧
      (g.operands.Pairwise fun e e' => g.pool.inSegment e.address .temporaries = true →
        e.address ≠ e'.address) ∧
      (∀ n g₁, Yields (Compile.reduceTimes n) g () g₁ → g₁.Exact ∧
        ∀ ty t p, g₁.pool.allocate ty .temporaries = .ok (t, p) → t ∉ g₁.pendingTemporaries) ∧
      (∀ (n : Nat) (q : Quad), g.program.quads[n]? = some q →
        ∀ a, g.pool.inSegment a .temporaries = true →
        q.addresses.count a ≤ 1) ∧
      (∀ g₁, Yields (Compile.apply .endFunction) g () g₁ →
        (∀ a, g.pool.inSegment a .temporaries = true → g.pool.isLive a = false) ∧
        g₁.pool = (g.pool.releaseSegment .locals).releaseSegment .temporaries) := by
  obtain ⟨g, hbefore, -⟩ := (Accepts.of_applyFrom h).append_inv
  obtain ⟨since, hledger⟩ := hbefore.inOrder hevents
  have hexact := exact_of_ledger hledger
  refine ⟨g, hbefore.applyFrom 0, hexact, hexact.operands_apart, ?_, ?_, ?_⟩
  · intro n g₁ hreduce
    have hledger₁ := (Compile.ensures_reduceTimes n g () g₁ ⟨hledger, rfl⟩ hreduce).1
    have hexact₁ := exact_of_ledger hledger₁
    exact ⟨hexact₁, fun ty t p hallocate => hexact₁.fresh hledger₁.pool hallocate⟩
  · intro n q hq a ha
    exact hledger.apart n q hq a ((Pool.inSegment_temporaries hledger.pool a).mp ha)
  · intro g₁ hend
    obtain ⟨hclosed, hpool⟩ := Compile.yields_apply_endFunction hend
    exact ⟨fun a ha => hexact.not_live_of_closed hclosed ha, hpool⟩

/-- An access to an element of a matrix, up to its second index: the offset so far is a temporary,
and so is the index on the stack. -/
def matrixIndex : List Event :=
  [.declareFunction "main", .declareVariable "m" (.scalar .int), .declareArrayDimension 2,
    .declareArrayDimension 2, .allocateArray, .pushArray "m", .pushConstant (.int 1),
    .pushArrayIndex, .pushConstant (.int 0), .pushOperator "+", .pushConstant (.int 1),
    .executeRemaining]

/-- The rest of the script prints the element. -/
def matrixElement : List Event := [.pushArrayIndex, .closeArrayAccess, .print, .endFunction]

theorem temporaries_are_exact_matrixIndex :
    ∃ g, Compile.applyFrom 0 matrixIndex (.ofSizes (Sizes.uniform 8) .warn) = (.ok (), g) ∧
      g.Exact ∧
      g.pendingTemporaries.length = 2 := by
  have haccepted :
      (Compile.applyFrom 0 (matrixIndex ++ matrixElement) (.ofSizes (Sizes.uniform 8) .warn)).1 =
        .ok () := by
    decide +kernel
  have hpending :
      (Compile.applyFrom 0 matrixIndex
        (.ofSizes (Sizes.uniform 8) .warn)).2.pendingTemporaries.length = 2 := by
    decide +kernel
  obtain ⟨g', hg'⟩ := exists_of_applyFrom haccepted
  obtain ⟨g, hg, hexact, -⟩ := temporaries_are_exact hg' (by decide)
  rw [hg] at hpending
  exact ⟨g, hg, hexact, hpending⟩

end Quadruple
