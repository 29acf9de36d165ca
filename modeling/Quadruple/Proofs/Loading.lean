/-
  A compiled program can be loaded on every machine.

  A machine loads a program when three things hold:
      the sizes fit:        Σ slots of all runs < 2 ^ 64    (`Sizes.Addressable`)
      the layouts agree:    heapStart of the program = Σ slots of all runs
      frames can be made:   locals + temporaries < 2 ^ 64   for every type, of every function
                                                            and of the globals
  The compiler refuses sizes that do not fit, and writes down the start of the heap once.  What it
  counts for a frame are peaks of two runs that do not overlap, so that their sum is at most the
  start of the heap:
      peak locals + peak temporaries  ≤  slots locals + slots temporaries  ≤  heapStart  <  2 ^ 64.
  So the program of a script that compiles is `Loadable`, and every run of it starts.
-/
import Quadruple.Proofs.Run
import Quadruple.Proofs.Stages

namespace Quadruple

/-- All that a machine checks before a run and, of each function, when it makes a frame for it. -/
structure Program.Loadable (p : Program) : Prop where
  sizes : p.sizes.Addressable
  heapStart : p.layout.heapStart = p.heapStart
  main : ∃ r, p.main? = some r
  globals : p.globals.countable = true
  frames : ∀ f r, p.functions.find? f = some r → r.slots.countable = true

/-- Slots that fit below the heap can be counted. -/
theorem SlotCounts.countable_of_le {sizes : Sizes} (hsizes : sizes.Addressable)
    {counts : SlotCounts} (h : ∀ ty, counts.total ty ≤ (Layout.ofSizes sizes).heapStart) :
    counts.countable = true :=
  countable_iff.mpr fun ty => .of_le (h ty) hsizes

/-- The program of a script that compiles can be loaded. -/
theorem loadable_of_compile {threshold : Level} {sizes : Sizes} {events : List Event} {p : Program}
    {names : Names} (h : (compile threshold sizes events).1 = .ok (p, names)) : p.Loadable := by
  obtain ⟨g, g', haccepts, hfinish⟩ := accepts_of_compile h
  obtain ⟨-, -, hmain, -, rfl⟩ := Compile.yields_finish hfinish
  have hg : g.Typed sizes := by
    rw [← haccepts.stage_last (Nat.le_refl _)]
    exact (Generator.typed_ofSizes sizes threshold).stage events _
  have hsizes := addressable_of_compile h
  refine ⟨?_, ?_, ?_, ?_, fun f r hr => SlotCounts.countable_of_le hsizes (hg.frames f r hr)⟩
  · show g.program.sizes.Addressable
    rw [hg.sizes_eq]
    exact hsizes
  · show (Layout.ofSizes g.program.sizes).heapStart = g.program.heapStart
    rw [hg.sizes_eq, hg.heapStart_eq]
  · exact Option.isSome_iff_exists.mp hmain
  · -- the frame of the globals has no temporaries
    refine SlotCounts.countable_of_le hsizes fun ty => ?_
    show (g.pool.peaks .globals).get ty + g.program.globals.temporaries.get ty ≤ _
    rw [Pool.peaks, PerScalar.get_ofFn, hg.unshared ty]
    exact hg.pool.peak_le_heapStart .globals ty

/-- Every machine starts a program that can be loaded. -/
theorem Program.Loadable.exists_start {p : Program} (hp : p.Loadable) (m : Machine) :
    ∃ m₀, m.start p = .ok m₀ := by
  obtain ⟨r, hr⟩ := hp.main
  have hframe : (!(p.globals.countable && r.slots.countable)) = false := by
    rw [hp.globals, hp.frames _ r hr]
    rfl
  unfold Machine.start Machine.load
  dsimp only
  rw [if_neg (not_not.mpr hp.sizes), if_neg (not_not.mpr hp.heapStart), hr]
  dsimp only
  rw [hframe, if_neg Bool.false_ne_true]
  exact ⟨_, rfl⟩

end Quadruple
