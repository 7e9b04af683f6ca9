import Mathlib
import TensorGraph.Proofs.Einsum.Diagonal
import TensorGraph.Scalar.Binary32

/-!
# Positions on a diagonal that are stored as floating point numbers

A natural number is stored as the nearest 32-bit number, which keeps its leading 24 bits. Positions are
read back as they were emitted only where these bits are enough.
-/

namespace TensorGraph.Binary32

open Float.Model (Format UnpackedFloat)

/-- A pattern without a sign and below infinity is kept, and stands for no number below zero. -/
theorem ofBits_of_lt {bits : Nat} (hbits : bits < 255 * 2 ^ 23) :
    (Float32.ofBits bits.toUInt32).toBits.toNat = bits ∧ ¬ Float32.ofBits bits.toUInt32 < 0 := by
  have hnat : bits.toUInt32.toBitVec.toNat = bits := by
    rw [UInt32.toNat_toBitVec, Nat.toUInt32, UInt32.toNat_ofNat']
    omega
  generalize bits.toUInt32 = word at hnat ⊢
  have hexponent : @UnpackedFloat.unpackExponent Format.binary32 word.toBitVec ≠ -1#8 := by
    intro heq
    have hfield := congrArg BitVec.toNat heq
    rw [UnpackedFloat.unpackExponent_def, BitVec.extractLsb'_toNat, hnat,
      Nat.shiftRight_eq_div_pow] at hfield
    change bits / 2 ^ 23 % 2 ^ 8 = 255 at hfield
    omega
  have hsign : @UnpackedFloat.unpackSign Format.binary32 word.toBitVec = 0#1 := by
    apply BitVec.eq_of_toNat_eq
    rw [UnpackedFloat.unpackSign_def, BitVec.extractLsb'_toNat, hnat, Nat.shiftRight_eq_div_pow]
    change bits / 2 ^ 31 % 2 ^ 1 = 0
    omega
  have hkept : (Float32.ofBits word).toBits.toBitVec = word.toBitVec :=
    UnpackedFloat.pack_unpack_of_valid ⟨fun heq => absurd heq hexponent⟩
  refine ⟨by rw [← UInt32.toNat_toBitVec, hkept, hnat], ?_⟩
  change ¬ (decide ((UnpackedFloat.unpack Format.binary32 (Float32.ofBits word).toBits.toBitVec).lt
    (0 : Float32).toModel.unpack) = true)
  have hzero : (0 : Float32).toModel.unpack = .zero .positive := by rfl
  rw [hkept, hzero]
  unfold UnpackedFloat.unpack
  simp only [hsign, if_neg hexponent]
  split_ifs <;> simp [UnpackedFloat.lt, UnpackedFloat.compare, UnpackedFloat.Sign.ofBitVec]

/-- What is read from a pattern with these fields. -/
theorem truncate_ofBits {field fraction : Nat} (hpos : 0 < field) (hfield : field < 255)
    (hfraction : fraction < 2 ^ 23) :
    truncate (Float32.ofBits (field * 2 ^ 23 + fraction).toUInt32) =
      saturate (integerPart (2 ^ 23 + fraction) ((field : Int) - 150)) := by
  have hquotient : (field * 2 ^ 23 + fraction) / 2 ^ 23 % 256 = field := by omega
  have hremainder : (field * 2 ^ 23 + fraction) % 2 ^ 23 = fraction := by omega
  have hsign : ¬ 2 ^ 31 ≤ field * 2 ^ 23 + fraction := by omega
  have hdecoded : decode (field * 2 ^ 23 + fraction) =
      .finite false (2 ^ 23 + fraction) ((field : Int) - 150) := by
    unfold decode
    rw [show signBit = 2 ^ 31 from rfl, show hiddenBit = 2 ^ 23 from rfl]
    simp only [hquotient, hremainder, if_neg hfield.ne, if_neg hpos.ne', decide_eq_false hsign]
  rw [truncate, content, (ofBits_of_lt (by omega)).1, hdecoded]

/-- The number that is stored for a natural number. -/
def nearest (n : Nat) : Nat :=
  if n.log2 ≤ 23 then n else roundDiv n (2 ^ (n.log2 - 23)) * 2 ^ (n.log2 - 23)

theorem roundDiv_eq (n d : Nat) : roundDiv n d = n / d ∨ roundDiv n d = n / d + 1 :=
  ite_eq_or_eq _ _ _

/-- Nothing is rounded where all but the leading bits are zero. -/
theorem nearest_eq_iff {n : Nat} : nearest n = n ↔ 2 ^ (n.log2 - 23) ∣ n := by
  unfold nearest
  split_ifs with hshort
  · simp [Nat.sub_eq_zero_of_le hshort]
  · refine ⟨fun heq => ⟨_, heq.symm.trans (Nat.mul_comm _ _)⟩, fun hdvd => ?_⟩
    have hexact : roundDiv n (2 ^ (n.log2 - 23)) = n / 2 ^ (n.log2 - 23) := by
      rw [roundDiv, if_pos]
      exact .inl (by rw [Nat.mod_eq_zero_of_dvd hdvd]; exact Nat.two_pow_pos _)
    rw [hexact, Nat.div_mul_cancel hdvd]

/-- The fields of the nearest number. A carry out of the fraction raises the exponent field. -/
theorem exists_fields {n : Nat} (hn : n ≠ 0) (hfits : n < Word.limit) :
    ∃ field fraction, 0 < field ∧ field < 255 ∧ fraction < 2 ^ 23 ∧
      bitsOfNat n = field * 2 ^ 23 + fraction ∧
      integerPart (2 ^ 23 + fraction) ((field : Int) - 150) = nearest n := by
  have htop : n.log2 < 64 := (Nat.log2_lt hn).2 hfits
  obtain ⟨hlow, hhigh⟩ := (Nat.log2_eq_iff hn).1 rfl
  rw [bitsOfNat, if_neg hn, show hiddenBit = 2 ^ 23 from rfl, nearest]
  generalize n.log2 = top at *
  dsimp only
  split_ifs with hshort
  · obtain ⟨shift, hshift⟩ := Nat.exists_eq_add_of_le hshort
    have hpow : 2 ^ top * 2 ^ shift = 2 ^ 23 := by rw [← Nat.pow_add, ← hshift]
    rw [Nat.pow_succ] at hhigh
    have hfirst : 2 ^ 23 ≤ n * 2 ^ shift := by
      rw [← hpow]
      exact Nat.mul_le_mul_right _ hlow
    have hlast : n * 2 ^ shift < 2 ^ 24 := by
      calc n * 2 ^ shift < 2 ^ top * 2 * 2 ^ shift :=
            Nat.mul_lt_mul_of_pos_right hhigh (Nat.two_pow_pos _)
        _ = 2 ^ 24 := by rw [Nat.mul_right_comm, hpow]; rfl
    rw [show 23 - top = shift by omega, Nat.pow_eq]
    refine ⟨top + 127, n * 2 ^ shift - 2 ^ 23, by omega, by omega, by omega, by omega, ?_⟩
    rw [Nat.add_sub_cancel' hfirst, show ((top + 127 : Nat) : Int) - 150 = -(shift : Int) by omega]
    cases shift with
    | zero => exact Nat.mul_one (n * 1) |>.trans (Nat.mul_one n)
    | succ shift => exact Nat.mul_div_cancel n (Nat.two_pow_pos _)
  · obtain ⟨shift, hshift⟩ := Nat.exists_eq_add_of_le (Nat.le_of_not_le hshort)
    subst hshift
    rw [Nat.add_sub_cancel_left, Nat.pow_eq]
    rw [Nat.pow_add] at hlow
    rw [Nat.add_right_comm, Nat.pow_add] at hhigh
    have hfirst : 2 ^ 23 ≤ n / 2 ^ shift := (Nat.le_div_iff_mul_le (Nat.two_pow_pos _)).2 hlow
    have hlast : n / 2 ^ shift < 2 ^ 24 := (Nat.div_lt_iff_lt_mul (Nat.two_pow_pos _)).2 hhigh
    have hround := roundDiv_eq n (2 ^ shift)
    generalize roundDiv n (2 ^ shift) = rounded at hround ⊢
    rcases (show rounded ≤ 2 ^ 24 by omega).lt_or_eq with hbelow | rfl
    · refine ⟨23 + shift + 127, rounded - 2 ^ 23, by omega, by omega, by omega, by omega, ?_⟩
      rw [Nat.add_sub_cancel' (by omega), show ((23 + shift + 127 : Nat) : Int) - 150 = shift by omega]
      rfl
    · refine ⟨23 + shift + 128, 0, by omega, by omega, by omega, by omega, ?_⟩
      rw [show ((23 + shift + 128 : Nat) : Int) - 150 = (shift + 1 : Nat) by omega]
      show 2 ^ 23 * 2 ^ (shift + 1) = 2 ^ 24 * 2 ^ shift
      ring

/-- What is read back from the nearest number. -/
theorem truncate_ofNat {n : Nat} (hfits : n < Word.limit) :
    truncate (ofNat n) = saturate (nearest n) ∧ ¬ ofNat n < 0 := by
  by_cases hn : n = 0
  · subst hn
    exact ⟨by rfl, by decide⟩
  · obtain ⟨field, fraction, hpos, hfield, hfraction, hbits, hpart⟩ := exists_fields hn hfits
    rw [ofNat, hbits, ← hpart]
    exact ⟨truncate_ofBits hpos hfield hfraction, (ofBits_of_lt (by omega)).2⟩

/-- The numbers that are read back as they were. -/
theorem truncate_ofNat_eq_iff {n : Nat} (hfits : n < Word.limit) :
    truncate (ofNat n) = n ↔
      n < Word.signedLimit ∧ 2 ^ (n.log2 - 23) ∣ n ∨ n + 1 = Word.signedLimit := by
  rw [(truncate_ofNat hfits).1, ← nearest_eq_iff]
  have hlast : nearest (Word.signedLimit - 1) = Word.signedLimit := by decide +kernel
  have hpos : 0 < Word.signedLimit := by decide
  unfold saturate
  constructor
  · omega
  · rintro (⟨hsigned, heq⟩ | heq)
    · omega
    · obtain rfl : n = Word.signedLimit - 1 := by omega
      rw [hlast]
      omega

end TensorGraph.Binary32

namespace TensorGraph.Einsum

open List

/-- What is read back for an entry on the diagonal. -/
theorem pickedPosition_diagonal {len step i place flat : Nat} {index : List Nat}
    (hindex : index[place]? = some i) (hi : i < len) (hlen : len < Word.limit)
    (hfits : i * step < Word.limit) :
    Evaluation.pickedPosition place flat (diagonalIndices len step : Tensor Float32) index =
      .ok (Binary32.truncate (Binary32.ofNat (i * step))) := by
  have hentry : (index.drop place).take 1 = [i] := by
    rw [take_one, head?_drop, hindex]
    rfl
  have hget := (diagonalIndices_valid hlen step : (_ : Tensor Float32).Valid).get_eq rfl
    (.cons hi .nil : InRange [i] (Layout.lens [⟨len, 1⟩]))
  have hsign := decide_eq_false (Binary32.truncate_ofNat hfits).2
  show ((diagonalIndices len step : Tensor Float32).get ((index.drop place).take 1) >>= _) = _
  rw [hentry, hget, value_diagonalIndices hi, ok_bind]
  exact if_neg (Bool.eq_false_iff.1 hsign)

/-- A position on the diagonal lies inside the flattened axis. It is read back as it was emitted
exactly where all but its leading 24 bits are zero, as they are in a small cube, or where it is the
greatest signed value. -/
theorem diagonal_position_kept {axes len flat step i place : Nat} {index : List Nat}
    (haxes : 0 < axes) (hflat : power? len axes = some flat)
    (hstep : diagonalStep? axes len = some step) (hi : i < len) (hindex : index[place]? = some i) :
    step = ∑ exponent ∈ Finset.range axes, len ^ exponent ∧ i * step < len ^ axes ∧
      (Evaluation.pickedPosition place flat (diagonalIndices len step : Tensor Float32) index =
          .ok ((i * step : Nat) : Int) ↔
        i * step < Word.signedLimit ∧ 2 ^ ((i * step).log2 - 23) ∣ i * step ∨
          i * step + 1 = Word.signedLimit) ∧
      (len ^ axes ≤ 2 ^ 24 →
        Evaluation.pickedPosition place flat (diagonalIndices len step : Tensor Float32) index =
          .ok ((i * step : Nat) : Int)) := by
  obtain ⟨hcube, rfl⟩ := power?_eq_some_iff.1 hflat
  obtain ⟨-, rfl⟩ := diagonalStep?_eq_some_iff.1 hstep
  have hbelow := mul_diagonalStep_lt hi axes
  have hlen : len < Word.limit := (Nat.le_self_pow haxes.ne' _).trans_lt hcube
  have hkept := Binary32.truncate_ofNat_eq_iff (hbelow.trans hcube)
  rw [pickedPosition_diagonal hindex hi hlen (hbelow.trans hcube), Except.ok.injEq, hkept]
  refine ⟨rfl, hbelow, Iff.rfl, fun hsmall => .inl ⟨?_, ?_⟩⟩
  · exact (hbelow.trans_le hsmall).trans (by decide)
  · have hlog : (i * diagonalStep axes len).log2 < 24 := by
      rw [Nat.log2_eq_log_two]
      exact Nat.log_lt_of_lt_pow' (by decide) (hbelow.trans_le hsmall)
    rw [Nat.sub_eq_zero_of_le (Nat.le_of_lt_succ hlog)]
    exact one_dvd _

theorem diagonal_position_kept_six :
    power? 6 9 = some 10077696 ∧ diagonalStep? 9 6 = some 2015539 ∧
      Evaluation.pickedPosition 1 10077696 (diagonalIndices 6 2015539 : Tensor Float32) [0, 5] =
        .ok 10077695 := by
  have hflat : power? 6 9 = some 10077696 := by decide
  have hstep : diagonalStep? 9 6 = some 2015539 := by decide
  exact ⟨hflat, hstep, (@diagonal_position_kept 9 6 _ _ 5 1 [0, 5] (by decide) hflat hstep
    (by decide) rfl).2.2.2 (by decide)⟩

/-- A position with more than 24 significant bits is read back as a neighbour. -/
theorem not_diagonal_position_kept : ¬ ∀ axes len flat step i, 0 < axes →
    power? len axes = some flat → diagonalStep? axes len = some step → i < len →
      Evaluation.pickedPosition 0 flat (diagonalIndices len step : Tensor Float32) [i] =
        .ok ((i * step : Nat) : Int) := by
  intro hall
  have hkept := hall 3 257 16974593 66307 255 (by decide) (by decide) (by decide) (by decide)
  rw [pickedPosition_diagonal rfl (by decide) (by decide) (by decide), Except.ok.injEq] at hkept
  exact absurd hkept (by decide +kernel)

end TensorGraph.Einsum
