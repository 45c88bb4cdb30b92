import LoopNest.Proofs.Kernels

/-! Unless a word overflows, every target has a register block and, for every register block, cache
blocks that are made of whole register blocks. If these are not the smallest ones, the panels that a
step of the reduction works on leave a way of the first cache free, and the block of rows, if it is
more than one register block, leaves two ways of the second. -/

namespace LoopNest

open Checked

namespace MacroKernel

variable {target : Target} {micro : MicroKernel}

/-- The rows and columns of one register block at a given depth fill at most all ways of the first
cache but one. -/
def FitsFirst (target : Target) (micro : MicroKernel) (kc : Int) : Prop :=
  8 * kc * (micro.mr + micro.nr) * target.l1Associativity ≤
    (target.l1Associativity - 1) * target.l1Size

/-- Rows at a given depth fill at most all ways of the second cache but two. -/
def FitsSecond (target : Target) (rows kc : Int) : Prop :=
  8 * rows * kc * target.l2Associativity ≤ (target.l2Associativity - 2) * target.l2Size

/-- Cache blocks that a register block divides and that the caches hold, the smallest ones apart. -/
structure Usable (target : Target) (micro : MicroKernel) (blocks : MacroKernel) : Prop where
  deep : 1 ≤ blocks.kc
  rows : micro.mr ≤ blocks.mc
  rowBlocks : micro.mr ∣ blocks.mc
  columns : micro.nr ≤ blocks.nc
  columnBlocks : micro.nr ∣ blocks.nc
  fits : blocks ≠ least micro → FitsFirst target micro blocks.kc ∧
    (blocks.mc = micro.mr ∨ FitsSecond target blocks.mc blocks.kc)

/-- The depth comes from two quotients that are rounded down, first to ways and then to steps. -/
theorem fitsFirst_exactDepth (rows : 1 ≤ micro.mr) (columns : 1 ≤ micro.nr)
    (sets : 2 ≤ target.l1Associativity) (room : 1 ≤ target.l1Size) :
    FitsFirst target micro (exactDepth target micro) := by
  have ways : (micro.mr + micro.nr) * exactWays micro target.l1Associativity ≤
      (target.l1Associativity - 1) * micro.mr := Int.mul_fdiv_self_le (by omega)
  have steps : micro.mr * target.l1Associativity * 8 * exactDepth target micro ≤
      exactWays micro target.l1Associativity * target.l1Size := by
    apply Int.mul_fdiv_self_le
    have : 0 < micro.mr * target.l1Associativity := by positivity
    omega
  refine Int.le_of_mul_le_mul_left (a := micro.mr) ?_ (by omega)
  calc micro.mr * (8 * exactDepth target micro * (micro.mr + micro.nr) * target.l1Associativity)
      = micro.mr * target.l1Associativity * 8 * exactDepth target micro *
          (micro.mr + micro.nr) := by ring
    _ ≤ exactWays micro target.l1Associativity * target.l1Size * (micro.mr + micro.nr) :=
        Int.mul_le_mul_of_nonneg_right steps (by omega)
    _ = (micro.mr + micro.nr) * exactWays micro target.l1Associativity * target.l1Size := by ring
    _ ≤ (target.l1Associativity - 1) * micro.mr * target.l1Size :=
        Int.mul_le_mul_of_nonneg_right ways (by omega)
    _ = micro.mr * ((target.l1Associativity - 1) * target.l1Size) := by ring

theorem dvd_wholeRows (rows : Int) : micro.mr ∣ wholeRows micro rows := by
  unfold wholeRows
  rcases max_choice (rows - rows.tmod micro.mr) micro.mr with whole | least
  · rw [whole]
    exact Int.dvd_self_sub_tmod
  · rw [least]

/-- Rounding rows to whole register blocks takes some away, unless one block is more than there
are. -/
theorem wholeRows_le {rows : Int} (nonneg : 0 ≤ rows) :
    wholeRows micro rows = micro.mr ∨ wholeRows micro rows ≤ rows := by
  have excess := Int.tmod_nonneg micro.mr nonneg
  unfold wholeRows
  omega

theorem fitsSecond_wholeRows {kc : Int} (deep : 1 ≤ kc) (sets : 3 ≤ target.l2Associativity)
    (room : 1 ≤ target.l2Size) : wholeRows micro (exactRows target kc) = micro.mr ∨
      FitsSecond target (wholeRows micro (exactRows target kc)) kc := by
  have spread : 0 < kc * elementSize * target.l2Associativity := by
    simp only [elementSize]
    positivity
  have size : 0 ≤ (target.l2Associativity - 2) * target.l2Size :=
    Int.mul_nonneg (by omega) (by omega)
  refine (wholeRows_le (Int.fdiv_nonneg size spread.le)).imp_right fun fewer => ?_
  calc 8 * wholeRows micro (exactRows target kc) * kc * target.l2Associativity
      = kc * elementSize * target.l2Associativity * wholeRows micro (exactRows target kc) := by
        simp only [elementSize]
        ring
    _ ≤ kc * elementSize * target.l2Associativity * exactRows target kc :=
        Int.mul_le_mul_of_nonneg_left fewer spread.le
    _ ≤ (target.l2Associativity - 2) * target.l2Size := Int.mul_fdiv_self_le spread

theorem exact_usable (rows : 1 ≤ micro.mr) (columns : 1 ≤ micro.nr) :
    (exact target micro).Usable target micro := by
  obtain ⟨deep, -⟩ := exact_pos target rows columns
  unfold exact at deep ⊢
  dsimp only at deep ⊢
  split
  · exact ⟨le_rfl, le_rfl, dvd_rfl, le_rfl, dvd_rfl, fun other => absurd rfl other⟩
  · rename_i proper
    rw [if_neg proper] at deep
    refine ⟨deep, le_wholeRows _, dvd_wholeRows _, ?_, Int.dvd_mul_left .., fun _ => ?_⟩
    · dsimp only
      omega
    · exact ⟨fitsFirst_exactDepth rows columns (by omega) (by omega),
        fitsSecond_wholeRows deep (by omega) (by omega)⟩

end MacroKernel

/-- Whatever the floating-point step yields, the register block has just enough rows for the results
under way. Every register block, be it this one or another, gets cache blocks that fit. -/
theorem Target.kernels_fit (target : Target) :
    (MicroKernel.forTarget target).Ensures (·.Covers (MicroKernel.exactInFlight target)) ∧
    (∀ vectors, (MicroKernel.ofVectors (MicroKernel.exactInFlight target)
      (MicroKernel.lanes target) vectors).Ensures (·.Covers (MicroKernel.exactInFlight target))) ∧
    ∀ micro : MicroKernel, 1 ≤ micro.mr → 1 ≤ micro.nr →
      (MacroKernel.forTarget target micro).Ensures (·.Usable target micro) := by
  refine ⟨MicroKernel.ensures_forTarget, fun vectors => ?_, fun micro rows columns => ?_⟩
  · exact MicroKernel.ensures_ofVectors (le_max_left ..)
  · apply (MacroKernel.ensures_forTarget rows columns).imp
    rintro _ rfl
    exact MacroKernel.exact_usable rows columns

theorem Target.generic_kernels_fit :
    (MicroKernel.vectorsPerRow 16 2 = 2 → MicroKernel.forTarget .generic = .ok ⟨4, 4⟩) ∧
    (∀ micro, MicroKernel.forTarget .generic = .ok micro → micro.Covers 16) ∧
    MicroKernel.ofVectors 16 2 2 = .ok ⟨4, 4⟩ ∧ MicroKernel.Covers ⟨4, 4⟩ 16 ∧
    MacroKernel.forTarget .generic ⟨4, 4⟩ = .ok ⟨384, 64, 1024⟩ ∧
    MacroKernel.Usable .generic ⟨4, 4⟩ ⟨384, 64, 1024⟩ := by
  obtain ⟨chosen, micro, macros⟩ := kernels_fit .generic
  have register : MicroKernel.ofVectors 16 2 2 = .ok ⟨4, 4⟩ := by decide
  have blocks : MacroKernel.forTarget .generic ⟨4, 4⟩ = .ok ⟨384, 64, 1024⟩ := by decide +kernel
  exact ⟨MicroKernel.forTarget_generic, (ensures_iff.mp chosen).2, register,
    (ensures_iff.mp (micro 2)).2 _ register, blocks,
    (ensures_iff.mp (macros ⟨4, 4⟩ (by decide) (by decide))).2 _ blocks⟩

end LoopNest
