import FuzzyInference.Proofs.Binary64.Rounding

/-!
Differences and quotients of binary64 numbers. Both are correctly rounded: the core library aligns
the significands, computes exactly, and rounds once. Rounding is monotone, so a difference is at
most a larger one, and a quotient of a number by one that is not smaller is at most one.
-/
namespace FuzzyInference.Binary64

attribute [local instance (2000)] instPowNat

open Float.Model Float.Model.UnpackedFloat

/-! ### Rounding is monotone -/

theorem roundDiv_mono {n n' : Nat} (h : n ≤ n') (d : Nat) : roundDiv n d ≤ roundDiv n' d := by
  have hle : n / d ≤ n' / d := Nat.div_le_div_right h
  rcases Nat.lt_or_eq_of_le hle with hlt | heq
  · exact (roundDiv_le n d).trans (Nat.le_trans hlt (le_roundDiv n' d))
  · have hn := Nat.div_add_mod n d
    have hn' := Nat.div_add_mod n' d
    rw [← heq] at hn'
    have hmod : n % d ≤ n' % d := by omega
    simp only [roundDiv, ← heq]
    split <;> split <;> omega

theorem excess_mono {q q' : Nat} (h : q ≤ q') : excess q ≤ excess q' := by
  have hlog : Nat.log2 q ≤ Nat.log2 q' := by
    by_cases hzero : q = 0
    · rw [hzero, Nat.log2_zero]
      exact Nat.zero_le _
    · exact (Nat.le_log2 (by omega)).mpr ((Nat.log2_self_le hzero).trans h)
  unfold excess
  omega

theorem roundUnits_le (n d : Nat) : roundUnits n d ≤ infinityBits := Nat.min_le_right _ _

/-- A larger number of excess digits outweighs every significand. -/
theorem roundUnits_mono {n n' : Nat} (h : n ≤ n') (d : Nat) : roundUnits n d ≤ roundUnits n' d := by
  have hexcess := excess_mono (Nat.div_le_div_right h : n / d ≤ n' / d)
  unfold roundUnits
  rcases Nat.lt_or_eq_of_le hexcess with hlt | heq
  · have hupper := (roundDiv_shifted (n := n) (d := d) (k := excess (n / d))
      (by unfold excess; omega)).1
    have hlower := (roundDiv_shifted (n := n') (d := d) (k := excess (n' / d))
      (by unfold excess; omega)).2 (by unfold excess at hlt ⊢; omega)
    unfold fractionWeight
    omega
  · have hround := roundDiv_mono h (d * 2 ^ excess (n / d))
    rw [← heq]
    omega

theorem roundUnits_mul_left {c : Nat} (hc : 0 < c) (n d : Nat) :
    roundUnits (c * n) (c * d) = roundUnits n d := by
  simp only [roundUnits, Nat.mul_assoc, Nat.mul_div_mul_left _ _ hc, roundDiv_mul_left hc]

/-! ### Values in units of the least magnitude -/

/-- The value of a magnitude in units of the least one. -/
def units (bits : Nat) : Nat := significand bits * 2 ^ scale bits

theorem roundUnits_units {bits : Nat} (h : bits ≤ infinityBits) :
    roundUnits (units bits) 1 = bits := by
  have hexcess : excess (units bits / 1) = scale bits := by
    rw [Nat.div_one]
    exact log2_significand_mul bits
  have hround : roundDiv (units bits) (1 * 2 ^ scale bits) = significand bits := by
    rw [Nat.one_mul]
    exact roundDiv_of_mul (Nat.two_pow_pos _) _
  rw [roundUnits, hexcess, hround, scale_mul_add_significand]
  exact Nat.min_eq_left h

theorem units_le_iff {a b : Nat} (ha : a ≤ infinityBits) (hb : b ≤ infinityBits) :
    units a ≤ units b ↔ a ≤ b := by
  have hmono : ∀ {a b : Nat}, a ≤ infinityBits → b ≤ infinityBits → units a ≤ units b → a ≤ b := by
    intro a b ha hb h
    have hround := roundUnits_mono h 1
    rwa [roundUnits_units ha, roundUnits_units hb] at hround
  refine ⟨hmono ha hb, fun h => ?_⟩
  rcases Nat.le_total (units a) (units b) with hle | hle
  · exact hle
  · have heq : a = b := Nat.le_antisymm h (hmono hb ha hle)
    rw [heq]

theorem units_pos {bits : Nat} (h : 0 < bits) : 0 < units bits :=
  Nat.mul_pos (significand_pos h) (Nat.two_pow_pos _)

/-- The value of a finite number in units of the least magnitude. -/
def value (x : Float) : Int := (sign x).apply (units (magnitude x))

theorem value_le_iff {x y : Float} (hx : magnitude x ≤ infinityBits)
    (hy : magnitude y ≤ infinityBits) : value x ≤ value y ↔ rank x ≤ rank y := by
  have hxy := units_le_iff hx hy
  have hyx := units_le_iff hy hx
  have hxpos : 0 < magnitude x → 0 < units (magnitude x) := units_pos
  have hypos : 0 < magnitude y → 0 < units (magnitude y) := units_pos
  have hxzero : magnitude x = 0 → units (magnitude x) = 0 := fun h => by rw [h]; rfl
  have hyzero : magnitude y = 0 → units (magnitude y) = 0 := fun h => by rw [h]; rfl
  unfold value rank
  cases sign x <;> cases sign y <;> simp only [Sign.apply] <;> omega

/-- The rank of the number nearest to a value in units of the least magnitude. -/
def rankNearest (v : Int) : Int := v.sign * roundUnits v.natAbs 1

/-- The number is the one nearest to a value in units of the least magnitude. -/
structure IsNearest (x : Float) (v : Int) : Prop where
  isNaN : x.isNaN = false
  rank : rank x = rankNearest v

/-- A finite magnitude is packed from its significand and its scale. -/
theorem toNat_pack_magnitude (s : Sign) {bits : Nat} (hpos : 0 < bits) (h : bits ≤ infinityBits) :
    (UnpackedFloat.pack Format.binary64 (.finite s (significand bits) (scale bits - 1074)
      (significand_pos hpos))).toNat = signBit s + bits := by
  rw [toNat_pack_finite s _ (significand_lt bits) (le_significand_or_scale_eq_zero bits),
    scale_mul_add_significand, Nat.min_eq_left h]

/-! ### Differences -/

theorem sub_eq (x y : Float) :
    x - y = ofUnpacked (UnpackedFloat.sub Format.binary64 x.toModel.unpack y.toModel.unpack) := rfl

theorem rank_ofUnpacked {u : UnpackedFloat} {s : Sign} {bits : Nat} (hbits : bits ≤ infinityBits)
    (h : (UnpackedFloat.pack Format.binary64 u).toNat = signBit s + bits) :
    (ofUnpacked u).isNaN = false ∧ rank (ofUnpacked u) = s.apply bits := by
  have hlt : bits < signWeight := Nat.lt_of_le_of_lt hbits (by decide)
  obtain ⟨hmagnitude, hsign⟩ := magnitude_ofUnpacked hlt h
  rw [isNaN_eq_false_iff, rank, hmagnitude, hsign]
  exact ⟨hbits, rfl⟩

theorem roundUnits_zero (d : Nat) : roundUnits 0 d = 0 := by
  simp [roundUnits, excess, roundDiv]

theorem rankNearest_apply (s : Sign) (n : Nat) :
    rankNearest (s.apply n) = s.apply (roundUnits n 1) := by
  unfold rankNearest
  rcases Nat.eq_zero_or_pos n with rfl | hpos
  · cases s <;> simp [Sign.apply, roundUnits_zero]
  · cases s with
    | negative =>
      simp only [Sign.apply, Int.natAbs_neg, Int.natAbs_natCast, Int.sign_neg]
      rw [Int.sign_eq_one_of_pos (by omega)]
      omega
    | positive =>
      simp only [Sign.apply, Int.natAbs_natCast]
      rw [Int.sign_eq_one_of_pos (by omega)]
      omega

theorem isNearest_apply {u : UnpackedFloat} {s : Sign} {n : Nat}
    (h : (UnpackedFloat.pack Format.binary64 u).toNat = signBit s + roundUnits n 1) :
    IsNearest (ofUnpacked u) (s.apply n) := by
  obtain ⟨hdefined, hrank⟩ := rank_ofUnpacked (roundUnits_le n 1) h
  exact ⟨hdefined, hrank.trans (rankNearest_apply s n).symm⟩

theorem isNearest_zero (s : Sign) : IsNearest (ofUnpacked (.zero s)) 0 := by
  have hpack : (UnpackedFloat.pack Format.binary64 (.zero s)).toNat =
      signBit s + roundUnits 0 1 := by
    rw [roundUnits_zero]
    exact toNat_packedZero s
  have hzero : s.apply (0 : Nat) = 0 := by cases s <;> rfl
  have hnearest := isNearest_apply hpack
  rwa [hzero] at hnearest

/-- Nothing is rounded where a finite number is packed again. -/
theorem isNearest_magnitude (s : Sign) {bits : Nat} (hpos : 0 < bits) (h : bits ≤ infinityBits) :
    IsNearest (ofUnpacked (.finite s (significand bits) (scale bits - 1074) (significand_pos hpos)))
      (s.apply (units bits)) := by
  refine isNearest_apply ((toNat_pack_magnitude s hpos h).trans ?_)
  rw [roundUnits_units h]

/-- A significand is moved to the left as far as it has room, and then it is rounded. -/
theorem isNearest_round (s : Sign) {m : Nat} (hm : 0 < m) (c : Nat) :
    IsNearest (ofUnpacked (UnpackedFloat.round Format.binary64 s m (c - 1074)))
      (s.apply (m * 2 ^ c : Nat)) := by
  have ht := targetExponent_binary64 m (c - 1074)
  generalize htarget : Format.binary64.targetExponent (totalExponent m (c - 1074)) = t at ht
  generalize hk : ((c : Int) - 1074 - t).toNat = k
  have hlog : Nat.log2 (m * 2 ^ k) = Nat.log2 m + k := by
    have hshifted := log2_mul_two_pow_div (n := m) (d := 1) (by omega) k
    rwa [Nat.div_one, Nat.div_one] at hshifted
  have hround := toNat_pack_round s (n := m * 2 ^ k) (d := 1) (i := c - k) (j := 0)
    (e := c - 1074 - k) (by decide) (by omega) (.inr rfl)
    (by rw [targetExponent_binary64, Nat.div_one, hlog]; omega)
  rw [Nat.div_one, Nat.mod_one, Nat.mul_assoc, ← Nat.pow_add,
    Nat.add_sub_cancel' (by omega)] at hround
  simp only [UnpackedFloat.round, decreaseExponent, htarget, hk, Nat.shiftLeft_eq]
  exact isNearest_apply hround

theorem isNearest_normalize (M : Int) (c : Nat) (s : Sign) :
    IsNearest (ofUnpacked (UnpackedFloat.normalize Format.binary64 M (c - 1074) s))
      (M * 2 ^ c) := by
  have hvalue : ∀ (t : Sign) {m : Nat}, M = t.apply m → M * 2 ^ c = t.apply (m * 2 ^ c : Nat) := by
    intro t m hM
    rw [hM]
    cases t <;> simp [Sign.apply]
  unfold UnpackedFloat.normalize
  rcases Int.lt_trichotomy M 0 with hlt | heq | hgt
  · have hM : M = Sign.negative.apply (-M).toNat := by
      simp only [Sign.apply]
      omega
    rw [Int.compare_eq_lt.mpr hlt, hvalue .negative hM]
    exact isNearest_round .negative (by omega) c
  · rw [Int.compare_eq_eq.mpr heq, heq, Int.zero_mul]
    exact isNearest_zero s
  · have hM : M = Sign.positive.apply M.toNat := by
      simp only [Sign.apply]
      omega
    rw [Int.compare_eq_gt.mpr hgt, hvalue .positive hM]
    exact isNearest_round .positive (by omega) c

theorem apply_mul_two_pow (s : Sign) (m : Nat) {i c : Nat} (h : c ≤ i) :
    s.apply (m * 2 ^ (i - c) : Nat) * 2 ^ c = s.apply (m * 2 ^ i : Nat) := by
  have hpow : ((m * 2 ^ (i - c) : Nat) : Int) * 2 ^ c = (m * 2 ^ i : Nat) := by
    push_cast
    rw [mul_assoc, ← pow_add, Nat.sub_add_cancel h]
  cases s with
  | negative => rw [Sign.apply, Sign.apply, Int.neg_mul, hpow]
  | positive => exact hpow

/-- Significands of numbers are subtracted at the smaller one of their scales. -/
theorem isNearest_sub_finite (s t : Sign) {a b : Nat} (ha : 0 < significand a)
    (hb : 0 < significand b) :
    IsNearest (ofUnpacked (UnpackedFloat.sub Format.binary64
      (.finite s (significand a) (scale a - 1074) ha)
      (.finite t (significand b) (scale b - 1074) hb)))
      (s.apply (units a) - t.apply (units b)) := by
  generalize hc : min (scale a) (scale b) = c
  have hca : c ≤ scale a := by omega
  have hcb : c ≤ scale b := by omega
  have hmin : min ((scale a : Int) - 1074) (scale b - 1074) = c - 1074 := by omega
  have hashift : ((scale a : Int) - 1074 - (c - 1074)).toNat = scale a - c := by omega
  have hbshift : ((scale b : Int) - 1074 - (c - 1074)).toNat = scale b - c := by omega
  have haligned : (s.apply (significand a * 2 ^ (scale a - c) : Nat) -
      t.apply (significand b * 2 ^ (scale b - c) : Nat)) * 2 ^ c =
        s.apply (units a) - t.apply (units b) := by
    rw [Int.sub_mul, apply_mul_two_pow s _ hca, apply_mul_two_pow t _ hcb]
    rfl
  simp only [UnpackedFloat.sub, decreaseExponent, hmin, hashift, hbshift, Nat.shiftLeft_eq]
  rw [← haligned]
  exact isNearest_normalize _ c .positive

theorem neg_apply (s : Sign) (n : Nat) : (-s).apply n = -s.apply n := by
  cases s with
  | negative => exact (Int.neg_neg _).symm
  | positive => rfl

/-- A difference of finite numbers is the number nearest to the difference of their values. -/
theorem isNearest_sub {x y : Float} (hx : magnitude x < infinityBits)
    (hy : magnitude y < infinityBits) : IsNearest (x - y) (value x - value y) := by
  have hzero : ∀ s : Sign, s.apply (units 0) = 0 := by
    intro s
    cases s <;> rfl
  rw [sub_eq]
  unfold value
  rcases isDefined_of_le (Nat.le_of_lt hx) with ⟨hx₀, hunpack⟩ | ⟨hxpos, -, hunpack⟩ | ⟨hx', -⟩
  · rcases isDefined_of_le (Nat.le_of_lt hy) with ⟨hy₀, hunpack'⟩ | ⟨hypos, -, hunpack'⟩ | ⟨hy', -⟩
    · rw [hunpack, hunpack', hx₀, hy₀, hzero, hzero]
      cases sign x <;> cases sign y <;> exact isNearest_zero _
    · rw [hunpack, hunpack', hx₀, hzero, Int.zero_sub, ← neg_apply]
      exact isNearest_magnitude (-sign y) hypos (Nat.le_of_lt hy)
    · omega
  · rcases isDefined_of_le (Nat.le_of_lt hy) with ⟨hy₀, hunpack'⟩ | ⟨hypos, -, hunpack'⟩ | ⟨hy', -⟩
    · rw [hunpack, hunpack', hy₀, hzero, Int.sub_zero]
      exact isNearest_magnitude (sign x) hxpos (Nat.le_of_lt hx)
    · rw [hunpack, hunpack']
      exact isNearest_sub_finite (sign x) (sign y) (significand_pos hxpos) (significand_pos hypos)
    · omega
  · omega

/-! ### Quotients -/

theorem div_eq (x y : Float) :
    x / y = ofUnpacked (UnpackedFloat.div Format.binary64 x.toModel.unpack y.toModel.unpack) := rfl

/-- Only the difference of the scales of a quotient matters. -/
theorem roundUnits_shifted (m₁ m₂ : Nat) {k i j e₁ e₂ c : Nat} (h : k + i + e₂ = e₁ + c + j) :
    roundUnits (m₁ * 2 ^ k * 2 ^ i) (m₂ * 2 ^ j) =
      roundUnits (m₁ * 2 ^ e₁ * 2 ^ c) (m₂ * 2 ^ e₂) := by
  rw [← roundUnits_mul_left (Nat.two_pow_pos e₂) (m₁ * 2 ^ k * 2 ^ i),
    ← roundUnits_mul_left (Nat.two_pow_pos j) (m₁ * 2 ^ e₁ * 2 ^ c)]
  congr 1
  · rw [Nat.mul_comm (2 ^ e₂), Nat.mul_comm (2 ^ j)]
    simp only [Nat.mul_assoc, ← Nat.pow_add]
    rw [h]
  · rw [Nat.mul_left_comm, Nat.mul_left_comm (2 ^ j), Nat.mul_comm (2 ^ e₂)]

theorem two_pow_le_div {m₁ m₂ k : Nat} (hm₁ : 0 < m₁) (hm₂ : 0 < m₂)
    (h : 53 + Nat.log2 m₂ ≤ Nat.log2 m₁ + k) : 52 ≤ Nat.log2 (m₁ * 2 ^ k / m₂) := by
  have hupper : m₂ < 2 ^ (Nat.log2 m₂ + 1) := Nat.lt_log2_self
  have hlower : 2 ^ (Nat.log2 m₁ + k) ≤ m₁ * 2 ^ k := by
    rw [Nat.pow_add]
    exact Nat.mul_le_mul_right _ (Nat.log2_self_le (by omega))
  have hroom : 2 ^ 52 * 2 ^ (Nat.log2 m₂ + 1) ≤ 2 ^ (Nat.log2 m₁ + k) := by
    rw [← Nat.pow_add]
    exact Nat.pow_le_pow_right (by decide) (by omega)
  have hquotient : 2 ^ 52 ≤ m₁ * 2 ^ k / m₂ := by
    rw [Nat.le_div_iff_mul_le hm₂]
    calc 2 ^ 52 * m₂ ≤ 2 ^ 52 * 2 ^ (Nat.log2 m₂ + 1) := Nat.mul_le_mul_left _ (Nat.le_of_lt hupper)
      _ ≤ m₁ * 2 ^ k := hroom.trans hlower
  exact (Nat.le_log2 (by omega)).mpr hquotient

/-- The core library shifts the dividend to the left until the quotient has enough digits to be
rounded. -/
theorem toNat_pack_div (s t : Sign) {a b : Nat} (ha : 0 < significand a) (hb : 0 < significand b) :
    (UnpackedFloat.pack Format.binary64 (UnpackedFloat.div Format.binary64
      (.finite s (significand a) (scale a - 1074) ha)
      (.finite t (significand b) (scale b - 1074) hb))).toNat =
        signBit (s / t) + nearest (units a) (units b) := by
  generalize htarget : min ((scale a : Int) - 1074 - (scale b - 1074))
    (Format.binary64.targetExponent (totalExponent (significand a) (scale a - 1074) -
      totalExponent (significand b) (scale b - 1074))) = e
  generalize hk : ((scale a : Int) - 1074 - (scale b - 1074) - e).toNat = k
  generalize hi : (e + 1074).toNat = i
  generalize hj : (-(e + 1074)).toNat = j
  have he := htarget
  rw [targetExponent_eq, totalExponent, totalExponent] at he
  have hdigits : e ≤ Format.binary64.targetExponent
      (totalExponent (significand a * 2 ^ k / significand b) e) := by
    rw [targetExponent_binary64]
    by_cases hleast : e ≤ -1074
    · omega
    · have hlog := two_pow_le_div (k := k) ha hb (by omega)
      omega
  have hround := toNat_pack_round (s / t) (n := significand a * 2 ^ k) (i := i) (j := j) hb
    (by omega) (by omega) hdigits
  have hunits : roundUnits (significand a * 2 ^ k * 2 ^ i) (significand b * 2 ^ j) =
      nearest (units a) (units b) := by
    rw [nearest_eq_roundUnits]
    exact roundUnits_shifted (c := 1074) _ _ (by omega)
  simp only [UnpackedFloat.div, divCore, htarget, hk, Nat.shiftLeft_eq]
  rw [hround, hunits]

/-- A quotient of finite numbers is the number nearest to the quotient of their values. -/
theorem rank_div {x y : Float} (hx : 0 < magnitude x) (hxlt : magnitude x < infinityBits)
    (hy : 0 < magnitude y) (hylt : magnitude y < infinityBits) :
    (x / y).isNaN = false ∧ rank (x / y) =
      (sign x / sign y).apply (nearest (units (magnitude x)) (units (magnitude y))) := by
  rw [div_eq, unpack_of_finite hx hxlt, unpack_of_finite hy hylt]
  exact rank_ofUnpacked (roundUnits_le _ _) (toNat_pack_div _ _ _ _)

theorem nearest_mono {n n' : Nat} (h : n ≤ n') (d : Nat) : nearest n d ≤ nearest n' d := by
  rw [nearest_eq_roundUnits, nearest_eq_roundUnits]
  exact roundUnits_mono (Nat.mul_le_mul_right _ h) d

theorem nearest_self {d : Nat} (hd : 0 < d) : nearest d d = magnitude 1 := by
  have hone : nearest 1 1 = magnitude 1 := by decide +kernel
  have hcancel := nearest_mul_left hd 1 1
  rwa [Nat.mul_one, hone] at hcancel

/-! ### Distances and slopes -/

section Slope

variable {x y : Float}

theorem roundUnits_pos {n : Nat} (h : 0 < n) : 0 < roundUnits n 1 := by
  have hleast : roundUnits 1 1 = 1 := by decide
  have hmono := roundUnits_mono h 1
  rw [hleast] at hmono
  exact hmono

theorem rank_sub_of_le (hx : magnitude x < infinityBits) (hy : magnitude y < infinityBits)
    (h : rank y ≤ rank x) : rank (x - y) = roundUnits (value x - value y).toNat 1 := by
  have hrank := (isNearest_sub hx hy).rank
  have hvalue := (value_le_iff (Nat.le_of_lt hy) (Nat.le_of_lt hx)).mpr h
  have hcast : value x - value y = Sign.positive.apply (value x - value y).toNat := by
    simp only [Sign.apply]
    omega
  rw [hcast, rankNearest_apply] at hrank
  exact hrank

/-- A distance of finite numbers is at most that of numbers that are further apart. -/
theorem rank_sub_le {u v : Float} (hx : magnitude x < infinityBits)
    (hy : magnitude y < infinityBits) (hu : magnitude u < infinityBits)
    (hv : magnitude v < infinityBits) (h : rank y ≤ rank x)
    (hupper : rank x ≤ rank u) (hlower : rank v ≤ rank y) :
    0 ≤ rank (x - y) ∧ rank (x - y) ≤ rank (u - v) := by
  have hxu := (value_le_iff (Nat.le_of_lt hx) (Nat.le_of_lt hu)).mpr hupper
  have hvy := (value_le_iff (Nat.le_of_lt hv) (Nat.le_of_lt hy)).mpr hlower
  have hfurther : (value x - value y).toNat ≤ (value u - value v).toNat := by omega
  have hmono := roundUnits_mono hfurther 1
  rw [rank_sub_of_le hx hy h, rank_sub_of_le hu hv (by omega)]
  omega

theorem rank_sub_pos (hx : magnitude x < infinityBits) (hy : magnitude y < infinityBits)
    (h : rank y < rank x) : 0 < rank (x - y) := by
  have hvalue := mt (value_le_iff (Nat.le_of_lt hx) (Nat.le_of_lt hy)).mp (by omega)
  have hpos := roundUnits_pos (n := (value x - value y).toNat) (by omega)
  rw [rank_sub_of_le hx hy (by omega)]
  omega

theorem rank_sub_eq_zero (hx : magnitude x < infinityBits) (hy : magnitude y < infinityBits)
    (h : rank x = rank y) : rank (x - y) = 0 := by
  have hvalue := (value_le_iff (Nat.le_of_lt hx) (Nat.le_of_lt hy)).mpr (by omega)
  have hnone : (value x - value y).toNat = 0 := by omega
  rw [rank_sub_of_le hx hy (by omega), hnone, roundUnits_zero]
  rfl

theorem isInf_sub_of_isInf (hx : x.isInf = true) (hy : magnitude y < infinityBits) :
    (x - y).isInf = true := by
  have hinfinite : ∀ s, (ofUnpacked (.infinity s)).isInf = true := by
    intro s
    cases s <;> decide +kernel
  rw [sub_eq, unpack_of_infinity (isInf_iff.mp hx)]
  rcases isDefined_of_le (Nat.le_of_lt hy) with ⟨-, hunpack⟩ | ⟨_, -, hunpack⟩ | ⟨hy', -⟩
  · rw [hunpack]
    exact hinfinite _
  · rw [hunpack]
    exact hinfinite _
  · omega

theorem isNaN_div_of_isInf (hx : x.isInf = true) (hy : y.isInf = true) : (x / y).isNaN = true := by
  have hundefined : (ofUnpacked .notANumber).isNaN = true := by decide +kernel
  rw [div_eq, unpack_of_infinity (isInf_iff.mp hx), unpack_of_infinity (isInf_iff.mp hy)]
  exact hundefined

/-- A quotient of a finite number by one that is not smaller is in the unit interval. -/
theorem rank_div_le_one (hx : magnitude x < infinityBits) (hy : y.isNaN = false)
    (hnonneg : 0 ≤ rank x) (hle : rank x ≤ rank y) (hpos : 0 < rank y) :
    (x / y).isNaN = false ∧ 0 ≤ rank (x / y) ∧ rank (x / y) ≤ rank 1 := by
  have hone : rank 1 = magnitude 1 := by decide +kernel
  have hzero : ∀ s : Sign, (ofUnpacked (.zero s)).isNaN = false ∧ 0 ≤ rank (ofUnpacked (.zero s)) ∧
      rank (ofUnpacked (.zero s)) ≤ rank 1 := by
    intro s
    have hrank : rank (ofUnpacked (.zero s)) = 0 := (isNearest_zero s).rank
    exact ⟨(isNearest_zero s).isNaN, by omega, by omega⟩
  have hxabs := natAbs_rank x
  have hyabs := natAbs_rank y
  have hbound := isNaN_eq_false_iff.mp hy
  rcases isDefined_of_le (Nat.le_of_lt hx) with ⟨hx₀, hunpack⟩ | ⟨hxpos, -, hunpack⟩ | ⟨hx', -⟩
  · rcases isDefined_of_le hbound with ⟨hy₀, -⟩ | ⟨_, -, hunpack'⟩ | ⟨-, hunpack'⟩
    · omega
    · rw [div_eq, hunpack, hunpack']
      exact hzero _
    · rw [div_eq, hunpack, hunpack']
      exact hzero _
  · rcases isDefined_of_le hbound with ⟨hy₀, -⟩ | ⟨hypos, hy', -⟩ | ⟨-, hunpack'⟩
    · omega
    · obtain ⟨hdefined, hrank⟩ := rank_div hxpos hx hypos hy'
      have hle := (units_le_iff (Nat.le_of_lt hx) (Nat.le_of_lt hy')).mpr (by omega)
      have hmono := nearest_mono hle (units (magnitude y))
      rw [nearest_self (units_pos hypos)] at hmono
      rw [sign_of_rank_pos (by omega), sign_of_rank_pos hpos] at hrank
      change rank (x / y) = (nearest _ _ : Nat) at hrank
      exact ⟨hdefined, by omega, by omega⟩
    · rw [div_eq, hunpack, hunpack']
      exact hzero _
  · omega

end Slope

end FuzzyInference.Binary64
