import MapStyle.Color.Lab
import MapStyle.Proofs.Scalar.Real

/-!
# Compression and expansion

Each transfer function of `Lab` has a straight piece up to a threshold of its own and a curved piece
beyond it. Cubing undoes the cube root and one straight line undoes the other, so that all that can
go wrong between the two is the choice of the piece.

**The thresholds correspond**: a value is beyond the one exactly if its image is beyond the other
(`knee_lt_compress_iff`, `kneeCube_lt_expand_iff`), and so what went through the curved piece comes
back through the curved piece. This rests on one equation, that the straight piece of `expand`
arrives at the cube of the knee (`slope_mul_knee`), from where the curved one goes on. Hence the
pieces of `expand` join, and it is strictly increasing because both pieces are; `compress` is too,
as its inverse.
-/

namespace MapStyle.Lab

open Set

variable [RealFunctions] {t u : ℝ}

/-! ### Pieces -/

theorem slope_pos : 0 < (slope : ℝ) := by
  norm_num [slope, knee]

/-- **The straight piece ends where the curved one starts.** -/
theorem slope_mul_knee : slope * (knee - offset) = (kneeCube : ℝ) := by
  norm_num [slope, knee, offset, kneeCube]

/-- The same on the way back. -/
theorem kneeCube_div_slope : kneeCube / slope + offset = (knee : ℝ) := by
  rw [← slope_mul_knee, mul_div_cancel_left₀ _ slope_pos.ne', sub_add_cancel]

theorem compress_of_le (h : t ≤ kneeCube) : compress t = t / slope + offset := if_neg h.not_gt

theorem compress_of_lt (h : kneeCube < t) : compress t = Scalar.cbrt t := if_pos h

theorem expand_of_le (h : u ≤ knee) : expand u = slope * (u - offset) := if_neg h.not_gt

theorem expand_of_lt (h : knee < u) : expand u = u * u * u := if_pos h

/-- At the knee itself the two pieces give the same, so that the curved one may be read there. -/
theorem expand_of_ge (h : knee ≤ u) : expand u = u * u * u := by
  rcases h.eq_or_lt with rfl | hlt
  · rw [expand_of_le le_rfl]
    exact slope_mul_knee
  · exact expand_of_lt hlt

/-! ### Order -/

theorem strictMonoOn_expand_straight : StrictMonoOn expand (Iic (knee : ℝ)) := by
  intro u hu v hv huv
  rw [expand_of_le hu, expand_of_le hv]
  exact mul_lt_mul_of_pos_left (sub_lt_sub_right huv _) slope_pos

theorem strictMonoOn_expand_curved : StrictMonoOn expand (Ici (knee : ℝ)) := by
  intro u hu v hv huv
  rw [expand_of_ge hu, expand_of_ge hv]
  exact Scalar.cube_lt_cube_iff.2 huv

theorem strictMono_expand : StrictMono (expand : ℝ → ℝ) :=
  strictMonoOn_expand_straight.Iic_union_Ici strictMonoOn_expand_curved

/-! ### Thresholds -/

/-- **What is expanded beyond the threshold was beyond it before.** -/
theorem kneeCube_lt_expand_iff : kneeCube < expand u ↔ knee < u := by
  have hknee : expand (knee : ℝ) = kneeCube := expand_of_ge le_rfl
  rw [← hknee, strictMono_expand.lt_iff_lt]

variable [RealCubeRoot]

/-- **What is compressed beyond the threshold was beyond it before.** -/
theorem knee_lt_compress_iff : knee < compress t ↔ kneeCube < t := by
  rcases le_or_gt t kneeCube with hle | hlt
  · have hstraight : t / slope + offset ≤ kneeCube / slope + offset := by
      gcongr
      exact slope_pos.le
    rw [kneeCube_div_slope] at hstraight
    rw [compress_of_le hle]
    exact iff_of_false hstraight.not_gt hle.not_gt
  · rw [compress_of_lt hlt]
    exact Scalar.lt_cbrt_iff

/-! ### There and back -/

theorem expand_compress (t : ℝ) : expand (compress t) = t := by
  -- The piece that `compress` goes through decides the one that `expand` goes through.
  rcases le_or_gt t kneeCube with hle | hlt
  · have hstraight : compress t ≤ knee := not_lt.1 (mt knee_lt_compress_iff.1 hle.not_gt)
    rw [expand_of_le hstraight, compress_of_le hle, add_sub_cancel_right,
      mul_div_cancel₀ _ slope_pos.ne']
  · rw [expand_of_lt (knee_lt_compress_iff.2 hlt), compress_of_lt hlt, Scalar.cube_cbrt]

theorem compress_expand (u : ℝ) : compress (expand u) = u :=
  strictMono_expand.injective (expand_compress _)

theorem strictMono_compress : StrictMono (compress : ℝ → ℝ) := by
  intro s t hst
  rwa [← strictMono_expand.lt_iff_lt, expand_compress, expand_compress]

/-- **Compression and expansion are inverse to each other** and strictly increasing. At its
threshold each gives the same by either of its pieces, which is the threshold of the other; and on
every value the two choose matching pieces. -/
theorem compress_expand_inverse :
    Function.LeftInverse (expand : ℝ → ℝ) compress ∧
      Function.RightInverse (expand : ℝ → ℝ) compress ∧
      StrictMono (compress : ℝ → ℝ) ∧ StrictMono (expand : ℝ → ℝ) ∧
      (kneeCube / slope + offset = (knee : ℝ) ∧ Scalar.cbrt kneeCube = (knee : ℝ)) ∧
      (slope * (knee - offset) = (kneeCube : ℝ) ∧ knee * knee * knee = (kneeCube : ℝ)) ∧
      (∀ t : ℝ, kneeCube < t ↔ knee < compress t) ∧
      ∀ u : ℝ, knee < u ↔ kneeCube < expand u :=
  ⟨expand_compress, compress_expand, strictMono_compress, strictMono_expand,
    ⟨kneeCube_div_slope, Scalar.cbrt_cube knee⟩, ⟨slope_mul_knee, rfl⟩,
    fun _ ↦ knee_lt_compress_iff.symm, fun _ ↦ kneeCube_lt_expand_iff.symm⟩

omit [RealFunctions] [RealCubeRoot] in
/-- With the mathematical cube root: an eighth goes through the curved pieces, and minus one, which
has a cube root as well, through the straight ones. -/
theorem compress_expand_inverse_both_pieces :
    letI := RealFunctions.standard
    RealCubeRoot ∧
      (kneeCube < (1 / 8 : ℝ) ∧ knee < compress (1 / 8 : ℝ) ∧
        expand (compress (1 / 8 : ℝ)) = 1 / 8) ∧
      (-1 : ℝ) ≤ kneeCube ∧ compress (-1 : ℝ) ≤ knee ∧ expand (compress (-1 : ℝ)) = -1 := by
  let := RealFunctions.standard
  obtain ⟨hinverse, -, -, -, -, -, hmatch, -⟩ := compress_expand_inverse
  have heighth : kneeCube < (1 / 8 : ℝ) := by norm_num [kneeCube, knee]
  have hminus : (-1 : ℝ) ≤ kneeCube := by norm_num [kneeCube, knee]
  have hstraight : compress (-1 : ℝ) ≤ knee := not_lt.1 (mt (hmatch _).2 hminus.not_gt)
  exact ⟨RealCubeRoot.standard, ⟨heighth, (hmatch _).1 heighth, hinverse _⟩, hminus, hstraight,
    hinverse _⟩

end MapStyle.Lab
