/-
  Control never leaves a compiled program.

  The bodies of the functions fill the quads without gaps, in the order of their declarations, and
  every jump stays inside the body it is in (`Bodies`):

      0 = start f₁ < start f₂ < … < size       start f ≤ target < end f

  Targets become known at different times:
  some jumps go back to a loop's start, others are patched when a conditional or a loop is closed,
  and conditionals and loops may interleave freely.  So the invariant of a compilation (`Region`)
  speaks of everything from which a target can come: inside the open function lie all pending jumps,
  all starts of open loops, and all targets so far.

  A run of such a program stays inside it: the next quad after one that does not end a function is
  in the same body, a jump stays in its body, a call goes to the start of a body, and a return to a
  quad after a call.
-/
import Quadruple.Proofs.Script
import Quadruple.Proofs.Run
import Quadruple.Proofs.Faults

namespace Quadruple

variable {lo hi n : Nat} {q : Quad} {k : Conditional} {l : Loop} {ids : List String}
  {events : List Event} {p : Program} {m : Machine}

/-! ## Bodies -/

/-- The quads from `i` up to `j` are the body of a function: not empty, ended by `ENDFUNC`, and no
jump leaves them. -/
structure IsBody (quads : Array Quad) (i j : Nat) : Prop where
  nonempty : i < j
  ended : ∃ q, quads[j - 1]? = some q ∧ q.op = .endFunc
  contained : ∀ n q t, i ≤ n → n < j → quads[n]? = some q → q.jumpTarget? = some t → i ≤ t ∧ t < j

/-- The bodies of these functions, one after another, fill the quads from `i` up to `j`. -/
def Bodies (quads : Array Quad) (starts : String → Option Nat) : Nat → List String → Nat → Prop
  | i, [], j => i = j
  | i, id :: rest, j => starts id = some i ∧ ∃ k, IsBody quads i k ∧ Bodies quads starts k rest j

namespace Bodies

variable {quads quads' : Array Quad} {starts starts' : String → Option Nat}

theorem le : ∀ {ids : List String} {i j : Nat}, Bodies quads starts i ids j → i ≤ j
  | [], _, _, h => Nat.le_of_eq h
  | _ :: _, _, _, ⟨_, _, hbody, hrest⟩ => Nat.le_trans (Nat.le_of_lt hbody.nonempty) hrest.le

theorem start_isSome {id : String} :
    ∀ {ids : List String} {i j : Nat}, Bodies quads starts i ids j → id ∈ ids →
    ∃ s, starts id = some s ∧ i ≤ s ∧ s < j
  | id' :: rest, i, j, ⟨hstart, k, hbody, hrest⟩, hmem => by
    have hlt := hbody.nonempty
    have hle := hrest.le
    rcases List.mem_cons.mp hmem with rfl | hmem
    · exact ⟨i, hstart, Nat.le_refl i, by omega⟩
    · obtain ⟨s, hs, hlo, hhi⟩ := start_isSome hrest hmem
      exact ⟨s, hs, by omega, hhi⟩

/-- Bodies depend only on their own quads and on the starts of their own functions. -/
theorem congr (hstarts : ∀ id s, starts id = some s → starts' id = some s) :
    ∀ {ids : List String} {i j : Nat}, Bodies quads starts i ids j →
      (∀ n, n < j → quads'[n]? = quads[n]?) →
      Bodies quads' starts' i ids j
  | [], _, _, h, _ => h
  | id :: rest, i, j, ⟨hstart, k, hbody, hrest⟩, hquads => by
    have hlt := hbody.nonempty
    have hle := hrest.le
    refine ⟨hstarts id i hstart, k, ⟨hlt, ?_, ?_⟩, hrest.congr hstarts hquads⟩
    · rw [hquads (k - 1) (by omega)]
      exact hbody.ended
    · intro n q t hlo hhi hq
      rw [hquads n (by omega)] at hq
      exact hbody.contained n q t hlo hhi hq

/-- One more body. -/
theorem snoc {id : String} {k : Nat} :
    ∀ {ids : List String} {i j : Nat}, Bodies quads starts i ids j →
    starts id = some j → IsBody quads j k → Bodies quads starts i (ids ++ [id]) k
  | [], _, _, h, hstart, hbody => by
    cases h
    exact ⟨hstart, k, hbody, rfl⟩
  | _ :: _, _, _, ⟨hstart', k', hbody', hrest⟩, hstart, hbody =>
    ⟨hstart', k', hbody', hrest.snoc hstart hbody⟩

/-- Every quad is in one of the bodies. -/
theorem cover {n : Nat} :
    ∀ {ids : List String} {i j : Nat}, Bodies quads starts i ids j → i ≤ n → n < j →
    ∃ lo hi, IsBody quads lo hi ∧ lo ≤ n ∧ n < hi ∧ hi ≤ j
  | [], _, _, h, hlo, hhi => by
    cases h
    omega
  | _ :: _, i, j, ⟨_, k, hbody, hrest⟩, hlo, hhi => by
    rcases Nat.lt_or_ge n k with hlt | hge
    · exact ⟨i, k, hbody, hlo, hlt, hrest.le⟩
    · exact hrest.cover hge hhi

end Bodies

/-- A body does not end with any other quad. -/
theorem IsBody.next_lt {quads : Array Quad} (h : IsBody quads lo hi) (hn : n < hi)
    (hq : quads[n]? = some q) (hop : q.op ≠ .endFunc) : n + 1 < hi := by
  have hne : n ≠ hi - 1 := by
    rintro rfl
    obtain ⟨q', hq', hop'⟩ := h.ended
    rw [hq] at hq'
    cases hq'
    exact hop hop'
  omega

/-! ## The invariant of a compilation -/

/-- The function that an event declares. -/
def Event.declares? : Event → Option String
  | declareFunction id => some id
  | _ => none

/-- The functions that events declare, in order. -/
def declaredFunctions (events : List Event) : List String := events.filterMap Event.declares?

/-- The pending jumps of a conditional lie between two quads. -/
def Conditional.Inside (lo hi : Nat) (k : Conditional) : Prop :=
  (lo ≤ k.falseJump ∧ k.falseJump < hi) ∧ ∀ e, k.exitJump = some e → lo ≤ e ∧ e < hi

/-- The start and the pending jump of a loop lie between two quads. -/
def Loop.Inside (lo hi : Nat) (l : Loop) : Prop :=
  (lo ≤ l.start ∧ l.start ≤ hi) ∧ ∀ e, l.exitJump = some e → lo ≤ e ∧ e < hi

theorem Conditional.Inside.mono {hi' : Nat} (h : k.Inside lo hi) (hle : hi ≤ hi') :
    k.Inside lo hi' := by
  obtain ⟨⟨hlo, hhi⟩, hexit⟩ := h
  refine ⟨⟨hlo, by omega⟩, fun e he => ?_⟩
  have := hexit e he
  omega

theorem Loop.Inside.mono {hi' : Nat} (h : l.Inside lo hi) (hle : hi ≤ hi') : l.Inside lo hi' := by
  obtain ⟨⟨hlo, hhi⟩, hexit⟩ := h
  refine ⟨⟨hlo, by omega⟩, fun e he => ?_⟩
  have := hexit e he
  omega

/-- From `s` on lies the open function, if there is one, and nothing else; before it lie the bodies
of the functions declared earlier.  Inside it lie all jump targets, pending jumps and starts of
loops. -/
structure Region (ids : List String) (s : Nat) (c : Control) : Prop where
  bodies : ∃ closed, ids = closed ++ c.currentFunction.toList ∧ Bodies c.quads c.starts 0 closed s
  start : ∀ f, c.currentFunction = some f → c.starts f = some s
  full : c.currentFunction = none → s = c.quads.size
  le : s ≤ c.quads.size
  known : ∀ id, (c.starts id).isSome = true ↔ id ∈ ids
  targets : ∀ n q t, s ≤ n → c.quads[n]? = some q → q.jumpTarget? = some t → s ≤ t ∧
    t ≤ c.quads.size
  conditionals : ∀ k ∈ c.conditionals, k.Inside s c.quads.size
  loops : ∀ l ∈ c.loops, l.Inside s c.quads.size

namespace Region

variable {ids : List String} {s : Nat} {c : Control} {quads : Array Quad} (h : Region ids s c)

include h

theorem setConditionals {conditionals : List Conditional}
    (hinside : ∀ k ∈ conditionals, k.Inside s c.quads.size) :
    Region ids s { c with conditionals := conditionals } :=
  ⟨h.bodies, h.start, h.full, h.le, h.known, h.targets, hinside, h.loops⟩

theorem setLoops {loops : List Loop}
    (hinside : ∀ l ∈ loops, l.Inside s c.quads.size) : Region ids s { c with loops := loops } :=
  ⟨h.bodies, h.start, h.full, h.le, h.known, h.targets, h.conditionals, hinside⟩

theorem setFinished (f : Option String) : Region ids s { c with finishedCall := f } :=
  ⟨h.bodies, h.start, h.full, h.le, h.known, h.targets, h.conditionals, h.loops⟩

/-- The innermost conditional, and those around it. -/
theorem conditionals_cons {rest : List Conditional} (hconditionals : c.conditionals = k :: rest) :
    k.Inside s c.quads.size ∧ ∀ k' ∈ rest, k'.Inside s c.quads.size :=
  List.forall_mem_cons.mp (hconditionals ▸ h.conditionals)

/-- The innermost loop, and those around it. -/
theorem loops_cons {rest : List Loop} (hloops : c.loops = l :: rest) :
    l.Inside s c.quads.size ∧ ∀ l' ∈ rest, l'.Inside s c.quads.size :=
  List.forall_mem_cons.mp (hloops ▸ h.loops)

/-- A conditional is open only inside a function. -/
theorem open_of_conditional (hk : k ∈ c.conditionals) : c.currentFunction.isSome = true := by
  rw [Option.isSome_iff_ne_none]
  intro hnone
  have hfull := h.full hnone
  obtain ⟨⟨hlo, hhi⟩, -⟩ := h.conditionals k hk
  omega

/-- Inside the open function code may be changed and appended, as long as its jumps stay inside. -/
theorem extend (hopen : c.currentFunction.isSome = true)
    (hsize : c.quads.size ≤ quads.size) (hkept : ∀ n, n < s → quads[n]? = c.quads[n]?)
    (htargets : ∀ n q t, s ≤ n → quads[n]? = some q → q.jumpTarget? = some t → s ≤ t ∧
      t ≤ quads.size)
    : Region ids s { c with quads := quads } := by
  obtain ⟨closed, hids, hbodies⟩ := h.bodies
  refine ⟨⟨closed, hids, hbodies.congr (fun _ _ h => h) hkept⟩, h.start, ?_,
    Nat.le_trans h.le hsize, h.known, htargets, fun k hk => (h.conditionals k hk).mono hsize,
    fun l hl => (h.loops l hl).mono hsize⟩
  intro hnone
  have hnone : c.currentFunction = none := hnone
  rw [hnone] at hopen
  cases hopen

theorem grow (hopen : c.currentFunction.isSome = true)
    (hgrown : Grown c.quads quads) : Region ids s { c with quads := quads } := by
  have hle := h.le
  have hsize := hgrown.size
  refine h.extend hopen hsize (fun n hn => hgrown.kept n (by omega)) ?_
  intro n q t hn hq ht
  rcases Nat.lt_or_ge n c.quads.size with hlt | hge
  · rw [hgrown.kept n hlt] at hq
    obtain ⟨hlo, hhi⟩ := h.targets n q t hn hq ht
    omega
  · rw [jumpTarget?_of_not_jump (isJump_of_isPlain (hgrown.plain n q hge hq))] at ht
    cases ht

/-- One more quad, whose target, if it has one, is inside. -/
theorem push (hopen : c.currentFunction.isSome = true)
    (hq : ∀ t, q.jumpTarget? = some t → s ≤ t ∧ t ≤ c.quads.size + 1) :
    Region ids s { c with quads := c.quads.push q } := by
  have hle := h.le
  have hsize : (c.quads.push q).size = c.quads.size + 1 := Array.size_push q
  refine h.extend hopen (by omega) ?_ ?_
  · intro n hn
    have hlt : n < c.quads.size := by omega
    rw [Array.getElem?_push_lt hlt, Array.getElem?_eq_getElem hlt]
  · intro n r t hn hr ht
    rw [hsize]
    rw [Array.getElem?_push] at hr
    split at hr
    · cases hr
      exact hq t ht
    · obtain ⟨hlo, hhi⟩ := h.targets n r t hn hr ht
      omega

theorem push_untargeted (hopen : c.currentFunction.isSome = true)
    (hq : q.jumpTarget? = none) : Region ids s { c with quads := c.quads.push q } := by
  refine h.push hopen ?_
  intro t ht
  rw [hq] at ht
  cases ht

/-- A pending jump inside the open function gets a target inside it. -/
theorem patch (hopen : c.currentFunction.isSome = true) (index target : Nat)
    (hindex : s ≤ index) (htarget : s ≤ target ∧ target ≤ c.quads.size) :
    Region ids s { c with quads := Control.patched c.quads index target } := by
  refine h.extend hopen (Nat.le_of_eq (Control.size_patched _ _ _).symm) ?_ ?_
  · intro n hn
    exact Control.getElem?_patched_of_ne _ _ (by omega)
  · intro n q t hn hq ht
    rw [Control.size_patched]
    rcases Control.getElem?_patched hq with hq | ⟨-, q₀, -, hjump, rfl⟩
    · exact h.targets n q t hn hq ht
    · rw [Control.jumpTarget?_patched hjump] at ht
      cases ht
      exact htarget

/-- The next function starts where the last body ended.  Nothing can be pending there: a loop that
is already open has its start exactly there. -/
theorem declare (hnone : c.currentFunction = none) {id : String} (hnew : c.starts id = none) :
    Region (ids ++ [id]) s { c with
      starts := fun j => if j = id then some c.quads.size else c.starts j
      currentFunction := some id } := by
  obtain ⟨closed, hids, hbodies⟩ := h.bodies
  have hfull := h.full hnone
  rw [hnone, Option.toList_none, List.append_nil] at hids
  subst hids
  refine ⟨⟨ids, rfl, ?_⟩, ?_, ?_, h.le, ?_, h.targets, h.conditionals, h.loops⟩
  · refine hbodies.congr ?_ (fun _ _ => rfl)
    intro j n hj
    have hne : j ≠ id := by
      rintro rfl
      rw [hnew] at hj
      cases hj
    exact (if_neg hne).trans hj
  · intro f hf
    cases hf
    rw [hfull]
    exact if_pos rfl
  · intro hcontra
    cases hcontra
  · intro j
    rw [List.mem_append, List.mem_singleton]
    by_cases hj : j = id
    · subst hj
      simp
    · simp [hj, h.known j]

/-- With its last quad the open function becomes one more body. -/
theorem close {f : String} (hopen : c.currentFunction = some f)
    (hconditionals : c.conditionals = []) (hloops : c.loops = []) :
    Region ids (c.quads.size + 1)
      { c with quads := c.quads.push ⟨.endFunc, none, none, none⟩, currentFunction := none } := by
  have hpushed := h.push_untargeted (q := ⟨.endFunc, none, none, none⟩) (by rw [hopen]; rfl) rfl
  have hle := h.le
  have hsize : (c.quads.push ⟨.endFunc, none, none, none⟩).size = c.quads.size + 1 :=
    Array.size_push _
  obtain ⟨closed, hids, hbodies⟩ := hpushed.bodies
  have hids : ids = closed ++ [f] := by
    rw [hids]
    show closed ++ c.currentFunction.toList = _
    rw [hopen]
    rfl
  have hbody : IsBody (c.quads.push ⟨.endFunc, none, none, none⟩) s (c.quads.size + 1) := by
    refine ⟨by omega, ⟨⟨.endFunc, none, none, none⟩, Array.getElem?_push_size, rfl⟩, ?_⟩
    intro n q t hlo hhi hq ht
    rw [Array.getElem?_push] at hq
    split at hq
    · cases hq
      cases ht
    · obtain ⟨hlo', hhi'⟩ := h.targets n q t hlo hq ht
      omega
  refine ⟨⟨ids, ?_, ?_⟩, ?_, ?_, Nat.le_of_eq hsize.symm, h.known, ?_, ?_, ?_⟩
  · exact (List.append_nil ids).symm
  · rw [hids]
    exact hbodies.snoc (h.start f hopen) hbody
  · intro g hg
    cases hg
  · intro _
    exact hsize.symm
  · intro n q t hn hq ht
    rw [← hsize] at hn
    rw [Array.getElem?_eq_none hn] at hq
    cases hq
  · intro k hk
    have hk : k ∈ c.conditionals := hk
    rw [hconditionals] at hk
    cases hk
  · intro l hl
    have hl : l ∈ c.loops := hl
    rw [hloops] at hl
    cases hl

/-- A new conditional waits for the target of the jump just emitted. -/
theorem branch (hopen : c.currentFunction.isSome = true)
    (hgrown : Grown c.quads quads) (o : Option Operand) :
    Region ids s { c with
      quads := quads.push ⟨.gotoFalse, o, none, none⟩
      conditionals := ⟨quads.size, none⟩ :: c.conditionals } := by
  have hgrow := h.grow hopen hgrown
  have hpush := hgrow.push_untargeted (q := ⟨.gotoFalse, o, none, none⟩) hopen rfl
  refine hpush.setConditionals (List.forall_mem_cons.mpr ⟨⟨⟨hgrow.le, ?_⟩, ?_⟩, hpush.conditionals⟩)
  · show quads.size < (quads.push _).size
    rw [Array.size_push]
    omega
  · intro e he
    cases he

/-- At the other branch the false jump gets its target, and the jump over the branch waits for its
own. -/
theorem turn (hopen : c.currentFunction.isSome = true) {falseJump : Nat}
    {rest : List Conditional} (hconditionals : c.conditionals = ⟨falseJump, none⟩ :: rest) :
    Region ids s { c with
      quads := Control.patched (c.quads.push ⟨.goto, none, none, none⟩) falseJump (c.quads.size + 1)
      conditionals := ⟨falseJump, some c.quads.size⟩ :: rest } := by
  have hle := h.le
  have hsize : (c.quads.push ⟨.goto, none, none, none⟩).size = c.quads.size + 1 := Array.size_push _
  have hpush := h.push_untargeted (q := ⟨.goto, none, none, none⟩) hopen rfl
  obtain ⟨⟨⟨hlo, hhi⟩, -⟩, -⟩ := h.conditionals_cons hconditionals
  dsimp only at hlo hhi
  have hpatch := hpush.patch hopen falseJump (c.quads.size + 1) hlo
    ⟨by omega, Nat.le_of_eq hsize.symm⟩
  refine hpatch.setConditionals (List.forall_mem_cons.mpr ⟨⟨⟨hlo, ?_⟩, fun e he => ?_⟩,
    (hpatch.conditionals_cons hconditionals).2⟩)
  · rw [Control.size_patched, hsize]
    dsimp only
    omega
  · cases he
    rw [Control.size_patched, hsize]
    omega

/-- A conditional ends where the next quad will be. -/
theorem join {rest : List Conditional} (hconditionals : c.conditionals = k :: rest) :
    Region ids s { c with
      quads := Control.patched c.quads (k.exitJump.getD k.falseJump) c.quads.size
      conditionals := rest } := by
  have hk : k ∈ c.conditionals := hconditionals ▸ List.mem_cons_self
  obtain ⟨⟨⟨hlo, -⟩, hexit⟩, -⟩ := h.conditionals_cons hconditionals
  have hindex : s ≤ k.exitJump.getD k.falseJump := by
    cases he : k.exitJump with
    | none => exact hlo
    | some e => exact (hexit e he).1
  have hpatch := h.patch (h.open_of_conditional hk) _ _ hindex ⟨h.le, Nat.le_refl _⟩
  exact hpatch.setConditionals (hpatch.conditionals_cons hconditionals).2

/-- A new loop starts at the next quad. -/
theorem mark : Region ids s { c with loops := ⟨c.quads.size, none⟩ :: c.loops } := by
  refine h.setLoops (List.forall_mem_cons.mpr ⟨⟨⟨h.le, Nat.le_refl _⟩, ?_⟩, h.loops⟩)
  intro e he
  cases he

/-- The innermost loop waits for the target of the jump just emitted. -/
theorem test (hopen : c.currentFunction.isSome = true)
    (hgrown : Grown c.quads quads) (o : Option Operand) {rest : List Loop}
    (hloops : c.loops = l :: rest) :
    Region ids s { c with
      quads := quads.push ⟨.gotoFalse, o, none, none⟩
      loops := { l with exitJump := some quads.size } :: rest } := by
  have hgrow := h.grow hopen hgrown
  have hpush := hgrow.push_untargeted (q := ⟨.gotoFalse, o, none, none⟩) hopen rfl
  obtain ⟨⟨hstart, -⟩, hrest⟩ := hpush.loops_cons hloops
  refine hpush.setLoops (List.forall_mem_cons.mpr ⟨⟨hstart, fun e he => ?_⟩, hrest⟩)
  cases he
  refine ⟨hgrow.le, ?_⟩
  show quads.size < (quads.push _).size
  rw [Array.size_push]
  omega

/-- A loop ends with the jump back to its start, and its exit is after that. -/
theorem again (hopen : c.currentFunction.isSome = true) {exit : Nat}
    {rest : List Loop} (hloops : c.loops = l :: rest) (hexit : l.exitJump = some exit) :
    Region ids s { c with
      quads := Control.patched (c.quads.push ⟨.goto, none, none, some (.jump l.start)⟩) exit
        (c.quads.size + 1)
      loops := rest } := by
  have hle := h.le
  have hsize : (c.quads.push ⟨.goto, none, none, some (.jump l.start)⟩).size = c.quads.size + 1 :=
    Array.size_push _
  obtain ⟨⟨⟨hlo, hhi⟩, hpending⟩, -⟩ := h.loops_cons hloops
  have hpush := h.push (q := ⟨.goto, none, none, some (.jump l.start)⟩) hopen (fun t ht => by
    cases ht
    exact ⟨hlo, by omega⟩)
  have hpatch := hpush.patch hopen exit (c.quads.size + 1) (hpending exit hexit).1
    ⟨by omega, Nat.le_of_eq hsize.symm⟩
  exact hpatch.setLoops (hpatch.loops_cons hloops).2

theorem of_kept {e : Event} (he : e.declares? = none) :
    ∃ s', Region (ids ++ e.declares?.toList) s' c := by
  rw [he, Option.toList_none, List.append_nil]
  exact ⟨s, h⟩

/-- Every accepted event keeps the region, with the function it declares. -/
theorem acts {e : Event} {c' : Control} (hacts : Control.Acts e c c') :
    ∃ s', Region (ids ++ e.declares?.toList) s' c' := by
  cases hacts with
  | straight hplain hgrown houtside =>
    have hdeclares : e.declares? = none := by
      cases e with
      | declareFunction id => cases hplain
      | _ => rfl
    by_cases hopen : c.currentFunction.isSome = true
    · exact (h.grow hopen hgrown).of_kept hdeclares
    · obtain rfl := houtside (Option.not_isSome_iff_eq_none.mp hopen)
      exact h.of_kept hdeclares
  | opens hnone hnew => exact ⟨s, h.declare hnone hnew⟩
  | closes hopen hconditionals hloops => exact (h.close hopen hconditionals hloops).of_kept rfl
  | branches hopen hgrown => exact (h.branch hopen hgrown _).of_kept rfl
  | turns hopen hconditionals => exact (h.turn hopen hconditionals).of_kept rfl
  | joins hconditionals => exact (h.join hconditionals).of_kept rfl
  | marks => exact h.mark.of_kept rfl
  | tests hopen hgrown hloops => exact (h.test hopen hgrown _ hloops).of_kept rfl
  | repeats hopen hloops hexit => exact (h.again hopen hloops hexit).of_kept rfl
  | @calls _ quads f hopen hgrown =>
    have hpush :=
      (h.grow hopen hgrown).push_untargeted
      (q := ⟨.goSub, some (.function f), none, none⟩) hopen rfl
    exact (hpush.setFinished (some f)).of_kept rfl
  | @claims _ f t hopen hfinished =>
    have hpush :=
      h.push_untargeted (q := ⟨.callAssign, some (.function f), none, some (.addr t)⟩) hopen rfl
    exact (hpush.setFinished none).of_kept rfl
  | @returns _ quads o hopen hgrown =>
    have hreturn :=
      (h.grow hopen hgrown).push_untargeted (q := ⟨.returnValue, none, none, o⟩) hopen rfl
    have hend := hreturn.push_untargeted (q := ⟨.endFunc, none, none, none⟩) hopen rfl
    exact hend.of_kept rfl
  | leaves hopen =>
    have hend := h.push_untargeted (q := ⟨.endFunc, none, none, none⟩) hopen rfl
    exact hend.of_kept rfl

end Region

/-! ## Compiled programs -/

theorem region_initial (sizes : Sizes) (threshold : Level) :
    Region [] 0 (Generator.ofSizes sizes threshold).control := by
  refine ⟨⟨[], rfl, rfl⟩, ?_, fun _ => rfl, Nat.le_refl 0, ?_, ?_, ?_, ?_⟩
  · intro f hf
    cases hf
  · intro id
    constructor
    · intro h
      cases h
    · intro h
      cases h
  · intro n q t _ hq
    cases hq
  · intro k hk
    cases hk
  · intro l hl
    cases hl

theorem Region.before {s : Nat} {c : Control} (h : Region ids s c) (e : Event) :
    Region ids s (c.before e) := by
  unfold Control.before
  split
  · exact h
  · exact h.setFinished none

/-- At every moment of a compilation the functions declared so far fill the quads. -/
theorem region_of_accepts {sizes : Sizes} {threshold : Level} {g : Generator}
    (h : Accepts (Generator.ofSizes sizes threshold) events g) :
    ∃ s, Region (declaredFunctions events) s g.control := by
  refine h.induction (P := fun done g => ∃ s, Region (declaredFunctions done) s g.control)
    ⟨0, region_initial sizes threshold⟩ ?_
  rintro done e g g' ⟨s, hregion⟩ happly
  have hids : declaredFunctions (done ++ [e]) = declaredFunctions done ++ e.declares?.toList := by
    unfold declaredFunctions
    rw [List.filterMap_append]
    cases he : e.declares? with
    | none => simp [he]
    | some id => simp [he]
  rw [hids]
  exact (hregion.before e).acts (Compile.control_apply happly)

/-- The bodies of these functions, in this order, fill the program, and it has no other functions.
-/
structure Program.Tiled (p : Program) (ids : List String) : Prop where
  bodies : Bodies p.quads (fun id => (p.functions.find? id).map (·.startQuad)) 0 ids p.quads.size
  complete : ∀ id, p.functions.contains id = true ↔ id ∈ ids

theorem tiled_of_compile {threshold : Level} {sizes : Sizes} {names : Names}
    (h : (compile threshold sizes events).1 = .ok (p, names)) :
    p.Tiled (declaredFunctions events) := by
  obtain ⟨g, g', haccepts, hfinish⟩ := accepts_of_compile h
  obtain ⟨hnone, -, -, -, rfl⟩ := Compile.yields_finish hfinish
  obtain ⟨s, hregion⟩ := region_of_accepts haccepts
  obtain ⟨closed, hids, hbodies⟩ := hregion.bodies
  have hfunction : g.control.currentFunction = none := hnone
  rw [hfunction, Option.toList_none, List.append_nil] at hids
  have hfull : s = g.control.quads.size := hregion.full hfunction
  refine ⟨?_, ?_⟩
  · rw [hids, ← show s = g.program.quads.size from hfull]
    exact hbodies
  · intro id
    rw [← hregion.known id]
    show (g.program.functions.find? id).isSome = true ↔
        ((g.program.functions.find? id).map _).isSome = true
    rw [Option.isSome_map]

/-! ## Runs -/

namespace Program.Tiled

variable {p : Program} {ids : List String}

/-- Functions start inside. -/
theorem start_lt (h : p.Tiled ids) {id : String} {r : Routine}
    (hr : p.functions.find? id = some r) : r.startQuad < p.quads.size := by
  have hmem : id ∈ ids := by
    rw [← h.complete id]
    rw [Table.contains, hr]
    rfl
  obtain ⟨s, hs, -, hlt⟩ := h.bodies.start_isSome hmem
  rw [hr] at hs
  cases hs
  exact hlt

/-- Every quad but the last of a body is followed by one of the same body, and jumps stay in it. -/
theorem step_lt (h : p.Tiled ids) {n' : Nat} (hq : p.quads[n]? = some q) (hop : q.op ≠ .endFunc)
    (hstep : n' = n + 1 ∨ q.jumpTarget? = some n') : n' < p.quads.size := by
  have hn : n < p.quads.size := (Array.getElem?_eq_some_iff.mp hq).1
  obtain ⟨lo, hi, hbody, hlo, hhi, hle⟩ := h.bodies.cover (Nat.zero_le n) hn
  rcases hstep with rfl | ht
  · have hnext := hbody.next_lt hhi hq hop
    omega
  · obtain ⟨-, hlt⟩ := hbody.contained n q n' hlo hhi hq ht
    omega

end Program.Tiled

namespace Machine

/-- The machine stands inside its program, and so do all the places it will return to. -/
def Inside (s : Machine) : Prop := s.ip < s.quads.size ∧ ∀ r ∈ s.returns, r < s.quads.size

/-- A step of tiled code stays inside it. -/
theorem inside_advance (hp : p.Tiled ids) {s s' : Machine} (hquads : s.quads = p.quads)
    (hfunctions : s.functions = p.functions) (h : s.Inside) (hstep : s.advance = .running s') :
    s'.Inside := by
  obtain ⟨hip, hreturns⟩ := h
  obtain ⟨q, hq, hsame, hkind⟩ := advance_running hstep
  have hq' : p.quads[s.ip]? = some q := hquads ▸ hq
  rw [Inside, hsame.quads]
  rcases hkind with hstays | henters | hleaves
  · refine ⟨?_, ?_⟩
    · rw [hquads]
      exact hp.step_lt hq' hstays.op_ne_endFunc hstays.ip
    · rw [hstays.returns]
      exact hreturns
  · have hop : q.op ≠ .endFunc := by
      rw [henters.op]
      exact Opcode.noConfusion
    obtain ⟨id, r, -, hr, hstart⟩ := henters.callee
    refine ⟨?_, ?_⟩
    · rw [hstart, hquads]
      exact hp.start_lt (hfunctions ▸ hr)
    · rw [henters.returns, hquads]
      intro r hr
      rcases List.mem_cons.mp hr with rfl | hr
      · exact hp.step_lt hq' hop (Or.inl rfl)
      · rw [← hquads]
        exact hreturns r hr
  · have hret := hleaves.returns
    rw [hret] at hreturns
    exact ⟨hreturns _ List.mem_cons_self, fun r hr => hreturns r (List.mem_cons_of_mem _ hr)⟩

/-- Execution starts inside. -/
theorem inside_start (hp : p.Tiled ids) {m₀ : Machine} (h : m.start p = .ok m₀) : m₀.Inside := by
  obtain ⟨main, h₀⟩ := exists_started h
  refine ⟨?_, ?_⟩
  · rw [h₀.ip, h₀.quads]
    exact hp.start_lt h₀.entry
  · rw [h₀.returns]
    intro r hr
    cases hr

/-- At every moment of a run of a tiled program. -/
theorem inside_after (hp : p.Tiled ids) {m₀ s : Machine} (h : m.start p = .ok m₀)
    (hs : m₀.after n = some s) : s.Inside ∧ s.quads = p.quads := by
  obtain ⟨main, h₀⟩ := exists_started h
  -- the program is carried along, since a step stays inside only the program it executes
  have hall : s.Inside ∧ s.quads = p.quads ∧ s.functions = p.functions := by
    refine after_induction (P := fun s => s.Inside ∧ s.quads = p.quads ∧ s.functions = p.functions)
      ⟨inside_start hp h, h₀.quads, h₀.functions⟩ ?_ hs
    rintro s s' ⟨hinside, hquads, hfunctions⟩ hstep
    obtain ⟨-, -, hsame, -⟩ := advance_running hstep
    exact ⟨inside_advance hp hquads hfunctions hinside hstep, hsame.quads.trans hquads,
      hsame.functions.trans hfunctions⟩
  exact ⟨hall.1, hall.2.1⟩

/-- A run of a tiled program never stops outside it. -/
theorem fault_ne_outside (hp : p.Tiled ids) {m' : Machine} {budget : Nat} {e : RuntimeError}
    (h : m.run budget p = some (.error e, m')) (ip : Nat) :
    e.fault ≠ .internal (.outsideProgram ip) := by
  intro hfault
  rcases run_eq_error h with hload | ⟨m₀, n, s, hstart, hs, hfaulted⟩
  · -- the program was not loaded
    rw [hfault] at hload
    rcases start_eq_error hload with hload | hload | hload
    · cases hload
    · cases hload
    · cases hload
  · obtain ⟨⟨hip, -⟩, -⟩ := inside_after hp hstart hs
    rcases faulted_cases hfaulted with ⟨hnone, -⟩ | ⟨q, -,
      ⟨limit, hlimit⟩ | ⟨-, hunpatched⟩ | hquad⟩
    · rw [Array.getElem?_eq_getElem hip] at hnone
      cases hnone
    · rw [hfault] at hlimit
      cases hlimit
    · rw [hfault] at hunpatched
      cases hunpatched
    · rw [hfault] at hquad
      cases hquad

end Machine

/-- **Control flow is contained.** In a compiled program the bodies of the functions, in the order
of their declarations, fill the quads from the first to the last; none is empty, each ends with
`ENDFUNC`, and every jump that has a target has it inside its own body.  So in every run, on every
machine and input, the machine stands at a quad of the program at every step, and no run stops
because it left the program. -/
theorem control_flow_is_contained {threshold : Level} {sizes : Sizes} {events : List Event}
    {p : Program} {names : Names} (h : (compile threshold sizes events).1 = .ok (p, names)) :
    p.Tiled (declaredFunctions events) ∧
    (∀ (m m₀ s : Machine) (n : Nat), m.start p = .ok m₀ → m₀.after n = some s →
      s.ip < p.quads.size) ∧
    (∀ (m m' : Machine) (budget : Nat) (e : RuntimeError), m.run budget p = some (.error e, m') →
      ∀ ip, e.fault ≠ .internal (.outsideProgram ip)) := by
  have htiled := tiled_of_compile h
  refine ⟨htiled, ?_, ?_⟩
  · intro m m₀ s n hstart hs
    obtain ⟨⟨hip, -⟩, hquads⟩ := Machine.inside_after htiled hstart hs
    rwa [hquads] at hip
  · intro m m' budget e hrun
    exact Machine.fault_ne_outside htiled hrun

/-- A conditional in one function, and a loop around a call in another. -/
def loopAroundCall : List Event :=
  [.declareFunction "step", .pushConstant (.bool true), .openConditional, .elseBranch,
    .closeConditional, .endFunction,
    .declareFunction "main", .saveLoopStart, .pushConstant (.bool false), .setLoopCondition,
    .callFunction "step", .endCall, .closeLoop, .endFunction]

theorem control_flow_is_contained_loopAroundCall :
    ∃ p names, (compile .warn (Sizes.uniform 2) loopAroundCall).1 = .ok (p, names) ∧
      p.Tiled ["step", "main"] ∧
      (∀ (m m₀ s : Machine) (n : Nat), m.start p = .ok m₀ → m₀.after n = some s →
        s.ip < p.quads.size) ∧
      (∀ (m m' : Machine) (budget : Nat) (e : RuntimeError), m.run budget p = some (.error e, m') →
        ∀ ip, e.fault ≠ .internal (.outsideProgram ip)) := by
  obtain ⟨p, names, h⟩ := exists_of_isOk
    (show (compile .warn (Sizes.uniform 2) loopAroundCall).1.isOk = true by decide +kernel)
  exact ⟨p, names, h, control_flow_is_contained h⟩

end Quadruple
