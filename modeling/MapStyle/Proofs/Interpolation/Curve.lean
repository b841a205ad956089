import MapStyle.Proofs.Interpolation.Pieces

/-!
# Exponential functions of numbers

A function of type *exponential* between points with ascending keys is one curve through all of
them. It is constant beyond the ends, and from one point to the next it keeps to their numbers, runs
in one direction, and has the shape of its base (`Stretch`). If the numbers ascend, so does all of
the curve.

From one point to the next everything follows from the factor, which grows from zero to one
(`stretch_of_blend`). The whole is put together at the keys, one stretch after the other
(`monotoneOn_up_to_key`).

The main statement is `FunctionDefinition.evaluate_interpolates`.
-/

namespace MapStyle

open Set

variable {points : List (ℝ × ℝ)} {base : ℝ} {curve : ℝ → ℝ} {a b : ℝ × ℝ}

/-! ### Glueing at the keys -/

theorem monotoneOn_of_eq {s : Set ℝ} {c : ℝ} (h : ∀ x ∈ s, curve x = c) : MonotoneOn curve s := by
  intro x hx y hy _
  rw [h x hx, h y hy]

/-- **Up to each of its keys a curve rises** if it is constant to the first and rises from each to
the next. -/
theorem monotoneOn_up_to_key (hkeys : KeysAscend points)
    (hbefore : ∀ a, points.head? = some a → ∀ x ≤ a.1, curve x = a.2)
    (hstretch : ∀ i a b, points[i]? = some a → points[i + 1]? = some b →
      MonotoneOn curve (Icc a.1 b.1)) (i : ℕ) :
    ∀ a, points[i]? = some a → MonotoneOn curve (Iic a.1) := by
  induction i with
  | zero =>
    intro a ha
    rw [← List.head?_eq_getElem?] at ha
    exact monotoneOn_of_eq (hbefore a ha)
  | succ i ih =>
    intro b hb
    have hi : i < points.length := Nat.lt_of_succ_lt (List.getElem?_eq_some_iff.1 hb).1
    have ha : points[i]? = some points[i] := List.getElem?_eq_getElem hi
    have hle : points[i].1 ≤ b.1 := (hkeys.lt (Nat.lt_succ_self i) ha hb).le
    have hunion := (ih _ ha).union_right (hstretch i _ b ha hb) isGreatest_Iic (isLeast_Icc hle)
    rwa [Iic_union_Icc_eq_Iic hle] at hunion

variable [RealFunctions]

/-! ### Interpolating curves -/

/-- **A stretch of a curve**, from one point to the next. -/
structure Stretch (base : ℝ) (curve : ℝ → ℝ) (a b : ℝ × ℝ) : Prop where
  /-- It is the blend of the two numbers. -/
  blend : ∀ x ∈ Icc a.1 b.1, curve x = Scalar.lerp a.2 b.2 (exponentialFactor x base a.1 b.1)
  /-- It stays between the two numbers. -/
  between : ∀ x ∈ Icc a.1 b.1, curve x ∈ uIcc a.2 b.2
  /-- It rises if they do. -/
  rises : a.2 ≤ b.2 → MonotoneOn curve (Icc a.1 b.1)
  /-- It falls if they do. -/
  falls : b.2 ≤ a.2 → AntitoneOn curve (Icc a.1 b.1)
  /-- Base one makes it the straight line through the points. -/
  line : base = 1 → FollowsShape id curve a b
  /-- Any other positive base makes it the power curve through the points. -/
  power : 0 < base → base ≠ 1 → FollowsShape (base ^ ·) curve a b
  /-- The factor is a share of the way. -/
  factor : ∀ x ∈ Icc a.1 b.1, exponentialFactor x base a.1 b.1 ∈ Icc 0 1
  /-- Nothing that the factor divides by is zero. -/
  divisors : b.1 - a.1 ≠ 0 ∧ (base ≠ 1 → Scalar.pow base (b.1 - a.1) - 1 ≠ 0)

/-- **A curve interpolates points.** -/
structure Interpolates (points : List (ℝ × ℝ)) (base : ℝ) (curve : ℝ → ℝ) : Prop where
  /-- It goes through every point. -/
  through : ∀ a ∈ points, curve a.1 = a.2
  /-- Up to the first key it is the first number. -/
  before : ∀ a, points.head? = some a → ∀ x ≤ a.1, curve x = a.2
  /-- From the last key on it is the last number. -/
  after : ∀ b, points.getLast? = some b → ∀ x ≥ b.1, curve x = b.2
  /-- From each point to the next it is a stretch of the base. -/
  stretch : ∀ i a b, points[i]? = some a → points[i + 1]? = some b → Stretch base curve a b
  /-- Ascending numbers make it ascend everywhere. -/
  ascends : points.Pairwise (fun a b ↦ a.2 ≤ b.2) → Monotone curve

variable [RealPower]

/-! ### From one point to the next -/

/-- The blend at the upper key is the upper number. -/
theorem blendAt_end (hbase : 0 ≤ base) (h : a.1 < b.1) : blendAt base a b b.1 = b.2 := by
  rw [blendAt, exponentialFactor_upper hbase h, Scalar.lerp_real, mul_one, add_sub_cancel]

/-- **A blend from one key to the next is a stretch.** -/
theorem stretch_of_blend (hbase : 0 ≤ base) (h : a.1 < b.1)
    (hcurve : ∀ x ∈ Icc a.1 b.1, curve x = blendAt base a b x) : Stretch base curve a b where
  blend := hcurve
  between x hx := by
    have hshare := exponentialFactor_mem_Icc hbase h hx
    rw [hcurve x hx, ← segment_eq_uIcc]
    refine ⟨1 - exponentialFactor x base a.1 b.1, exponentialFactor x base a.1 b.1,
      sub_nonneg.2 hshare.2, hshare.1, sub_add_cancel _ _, ?_⟩
    rw [blendAt, Scalar.lerp_real, smul_eq_mul, smul_eq_mul]
    ring
  rises hle x hx y hy hxy := by
    have hgrows := monotoneOn_exponentialFactor hbase h hx.1 hy.1 hxy
    rw [hcurve x hx, hcurve y hy, blendAt, blendAt, Scalar.lerp_real, Scalar.lerp_real]
    exact add_le_add_right (mul_le_mul_of_nonneg_left hgrows (sub_nonneg.2 hle)) _
  falls hle x hx y hy hxy := by
    have hgrows := monotoneOn_exponentialFactor hbase h hx.1 hy.1 hxy
    rw [hcurve x hx, hcurve y hy, blendAt, blendAt, Scalar.lerp_real, Scalar.lerp_real]
    exact add_le_add_right (mul_le_mul_of_nonpos_left hgrows (sub_nonpos.2 hle)) _
  line hone := by
    subst hone
    exact followsShape_of_share h.ne (exponentialFactor_mul_line h) hcurve
  power hpos hone := by
    have hheights : base ^ a.1 ≠ base ^ b.1 := (Real.rpow_right_inj hpos hone).not.2 h.ne
    exact followsShape_of_share hheights (exponentialFactor_mul_power hpos hone h) hcurve
  factor x hx := exponentialFactor_mem_Icc hbase h hx
  divisors := divisors_ne_zero hbase h

/-! ### The whole curve -/

/-- **Blending in pieces interpolates.** -/
theorem interpolates_of_pieces (hkeys : KeysAscend points) (hne : points ≠ []) (hbase : 0 ≤ base)
    (h : Pieces points (blendAt base) fun x ↦ some (.number (curve x))) :
    Interpolates points base curve := by
  have hnumber : ∀ {y z : ℝ}, some (Value.number y) = some (.number z) → y = z := by
    intro y z hyz
    cases hyz
    rfl
  have hthrough : ∀ (i : ℕ) (a : ℝ × ℝ), points[i]? = some a → curve a.1 = a.2 :=
    fun i a ha ↦ hnumber (h.at_key hkeys (blendAt_start base) ha)
  have hbefore : ∀ a, points.head? = some a → ∀ x ≤ a.1, curve x = a.2 :=
    fun a ha x hx ↦ hnumber (h.first a ha x hx)
  have hafter : ∀ b, points.getLast? = some b → ∀ x ≥ b.1, curve x = b.2 :=
    fun b hb x hx ↦ hnumber (h.last b hb x hx)
  have hstretch : ∀ (i : ℕ) (a b : ℝ × ℝ), points[i]? = some a → points[i + 1]? = some b →
      Stretch base curve a b := by
    intro i a b ha hb
    have hlt := hkeys.lt (Nat.lt_succ_self i) ha hb
    refine stretch_of_blend hbase hlt fun x hx ↦ ?_
    -- the upper key belongs to the next piece, whose number the blend reaches
    rcases eq_or_lt_of_le hx.2 with rfl | hxb
    · rw [blendAt_end hbase hlt, hthrough (i + 1) b hb]
    · exact hnumber (h.between i a b ha hb x ⟨hx.1, hxb⟩)
  refine ⟨fun a ha ↦ ?_, hbefore, hafter, hstretch, fun hascend ↦ ?_⟩
  · obtain ⟨i, hi⟩ := List.mem_iff_getElem?.1 ha
    exact hthrough i a hi
  · have hlast : points.getLast? = some (points.getLast hne) := List.getLast?_eq_some_getLast hne
    have hrises := monotoneOn_up_to_key hkeys hbefore (fun i a b ha hb ↦
      (hstretch i a b ha hb).rises (rel_of_pairwise hascend (Nat.lt_succ_self i) ha hb))
      (points.length - 1) _ (List.getLast?_eq_getElem?.symm.trans hlast)
    exact hrises.Iic_union_Ici (monotoneOn_of_eq (hafter _ hlast))

/-! ### Compiled functions -/

namespace FunctionDefinition

variable {d : FunctionDefinition ℝ} {p : Property ℝ} {f : StyleFunction ℝ}

/-- **An exponential function of numbers interpolates.** Between stops that are points with
ascending keys it is one curve, which it follows along zoom or along the numbers of a property. -/
theorem evaluate_interpolates (hf : d.compile p = .ok f) (hnumber : p.type = .number)
    (hexponential : d.strategyFor p = .ok .exponential)
    (hpoints : List.Forall₂ Stop.IsPoint d.stopList points) (hne : points ≠ [])
    (hkeys : KeysAscend points) (hbase : 0 ≤ d.base.getD 1.0) :
    ∃ curve, Interpolates points (d.base.getD 1.0) curve ∧
      ((f.dependence = .camera ∧
          ∀ zoom feature, f.evaluate zoom feature = some (.number (curve zoom))) ∨
        f.dependence = .source ∧ ∃ name, d.property = some name ∧
          ∀ zoom (g : Feature ℝ) x, g.get? name = some (.number x) →
            f.evaluate zoom (some g) = some (.number (curve x))) := by
  -- One curve serves both kinds of input.
  have hpieces := Lookup.pieces_exponential? hkeys (d.base.getD 1.0)
  obtain ⟨curve, hcurve⟩ := hpieces.exists_curve hkeys hne
  have hinterpolates : Interpolates points (d.base.getD 1.0) curve := by
    simp only [hcurve] at hpieces
    exact interpolates_of_pieces hkeys hne hbase hpieces
  refine ⟨curve, hinterpolates, ?_⟩
  cases compile_eq_ok_iff.1 hf with
  | constant _ hstops =>
    rw [hstops] at hpoints
    cases hpoints
    exact absurd rfl hne
  | camera hres _ _ _ hlookup =>
    refine .inl ⟨rfl, fun zoom feature ↦ ?_⟩
    obtain rfl := hres.lookup_eq_exponential hpoints hlookup hnumber hexponential
    exact InputFunction.evaluate_of_answer? (hcurve zoom)
  | @source _ _ _ _ name hres _ _ hname hlookup =>
    refine .inr ⟨rfl, name, hname, fun zoom g x hx ↦ ?_⟩
    obtain rfl := hres.lookup_eq_exponential hpoints hlookup hnumber hexponential
    exact (SourceFunction.evaluate_of_get? hx).trans (InputFunction.evaluate_of_answer? (hcurve x))
  | composite _ hcomposite =>
    rw [isComposite_eq_false_of_points hpoints] at hcomposite
    exact absurd hcomposite Bool.false_ne_true

/-- The powers of two by three of them, along zoom or along a property. -/
noncomputable def doubling (property : Option String) : FunctionDefinition ℝ where
  strategyName := some "exponential"
  property := property
  base := some 2.0
  default := none
  colorSpaceName := none
  stops := some [⟨.plain (.ofScalar 0.0), .ofScalar 1.0⟩, ⟨.plain (.ofScalar 1.0), .ofScalar 2.0⟩,
    ⟨.plain (.ofScalar 3.0), .ofScalar 8.0⟩]

omit [RealFunctions] [RealPower] in
/-- Between its last two points such a function gives the powers of two. -/
theorem evaluate_interpolates_doubling :
    letI := RealFunctions.standard
    (∃ f, (doubling none).compile (.ofType .number) = .ok f ∧ f.dependence = .camera ∧
      ∀ zoom ∈ Icc 1.0 3.0, ∀ feature, f.evaluate zoom feature = some (.number (2.0 ^ zoom))) ∧
    ∃ f, (doubling (some "size")).compile (.ofType .number) = .ok f ∧ f.dependence = .source ∧
      ∀ size ∈ Icc 1.0 3.0, ∀ zoom, f.evaluate zoom (some ⟨[("size", .number size)]⟩) =
        some (.number (2.0 ^ size)) := by
  let := RealFunctions.standard
  have hpoints : ∀ property, List.Forall₂ Stop.IsPoint (doubling property).stopList
      [(0.0, 1.0), (1.0, 2.0), (3.0, 8.0)] := fun property ↦
    .cons ⟨rfl, rfl⟩ (.cons ⟨rfl, rfl⟩ (.cons ⟨rfl, rfl⟩ .nil))
  have hbase : (0 : ℝ) ≤ 2.0 := by norm_num
  have hkeys : KeysAscend [(0.0, 1.0), (1.0, 2.0), (3.0, 8.0)] := by
    norm_num [KeysAscend]
  have hpower : ∀ {curve}, Interpolates [(0.0, 1.0), (1.0, 2.0), (3.0, 8.0)] 2.0 curve →
      ∀ x ∈ Icc (1.0 : ℝ) 3.0, curve x = 2.0 ^ x := by
    intro curve hcurve x hx
    have hstretch := hcurve.stretch 1 (1.0, 2.0) (3.0, 8.0) rfl rfl
    have hfollows := hstretch.power (by norm_num) (by norm_num)
    rw [hfollows.2 (1, 0) ⟨by norm_num, by norm_num⟩ x hx, one_mul, add_zero]
  constructor
  · refine ⟨_, rfl, rfl, fun zoom hzoom feature ↦ ?_⟩
    obtain ⟨curve, hcurve, ⟨-, hvalue⟩ | ⟨hsource, -⟩⟩ := evaluate_interpolates (d := doubling none)
      (p := .ofType .number) rfl rfl rfl (hpoints none) (by simp) hkeys hbase
    · rw [hvalue, hpower hcurve zoom hzoom]
    · cases hsource
  · refine ⟨_, rfl, rfl, fun size hsize zoom ↦ ?_⟩
    obtain ⟨curve, hcurve, ⟨hcamera, -⟩ | ⟨-, name, hname, hvalue⟩⟩ :=
      evaluate_interpolates (d := doubling (some "size")) (p := .ofType .number) rfl rfl rfl
        (hpoints (some "size")) (by simp) hkeys hbase
    · cases hcamera
    · cases hname
      rw [hvalue zoom _ size rfl, hpower hcurve size hsize]

end FunctionDefinition

end MapStyle
