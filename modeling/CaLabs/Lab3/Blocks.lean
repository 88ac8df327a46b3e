import CaLabs.Lab3.Host
import Mathlib.Algebra.BigOperators.Intervals
import Mathlib.Algebra.Order.BigOperators.Group.Finset
import Mathlib.Data.BitVec

/-! The blocks of the MRAM that each tasklet of a DPU processes. -/
namespace CaLabs.Lab3

/-- The macros of a build: sizeof(T) is 2 to the DIV, BLOCK_SIZE 2 to the BLOCK_SIZE_LOG2. -/
structure Build where
  div : ℕ
  blockSizeLog2 : ℕ
  nrTasklets : ℕ
  div_le : div ≤ 3
  le_blockSizeLog2 : 3 ≤ blockSizeLog2
  blockSizeLog2_le : blockSizeLog2 ≤ 11
  nrTasklets_pos : 0 < nrTasklets

/-- The integer type T. -/
abbrev Build.Elem (B : Build) : Type := BitVec (8 * 2 ^ B.div)

namespace Build
variable (B : Build)

def sizeofT : ℕ := 2 ^ B.div

def blockSize : ℕ := 2 ^ B.blockSizeLog2

/-- The elements of a whole block. -/
def blockElems : ℕ := 2 ^ (B.blockSizeLog2 - B.div)

lemma sizeofT_pos : 0 < B.sizeofT := Nat.two_pow_pos _

lemma blockElems_pos : 0 < B.blockElems := Nat.two_pow_pos _

lemma blockSize_eq : B.blockSize = B.sizeofT * B.blockElems := by
  have hle : B.div ≤ B.blockSizeLog2 := B.div_le.trans B.le_blockSizeLog2
  rw [blockSize, sizeofT, blockElems, ← pow_add, Nat.add_sub_cancel' hle]

lemma eight_dvd_blockSize : 8 ∣ B.blockSize := pow_dvd_pow 2 B.le_blockSizeLog2

lemma blockSize_le : B.blockSize ≤ 2048 := Nat.pow_le_pow_right (by decide) B.blockSizeLog2_le

lemma stride_pos : 0 < B.blockSize * B.nrTasklets :=
  Nat.mul_pos (Nat.two_pow_pos _) B.nrTasklets_pos

/-- act_tf_size. byte_index stays close to the 64 MB of the MRAM, far from wrapping around. -/
def actTfSize (size byteIndex : ℕ) : ℕ :=
  if byteIndex + B.blockSize > size then size - byteIndex else B.blockSize

/-- The transfers of n elements from element u on. -/
lemma actTfSize_mul (n u : ℕ) :
    B.actTfSize (B.sizeofT * n) (B.sizeofT * u) = B.sizeofT * min B.blockElems (n - u) := by
  unfold actTfSize
  rw [B.blockSize_eq, ← Nat.mul_add]
  by_cases h : n < u + B.blockElems
  · rw [if_pos (Nat.mul_lt_mul_of_pos_left h B.sizeofT_pos), ← Nat.mul_sub, min_eq_right (by omega)]
  · have hle := Nat.mul_le_mul_left B.sizeofT (not_lt.mp h)
    rw [if_neg (not_lt.mpr hle), min_eq_left (by omega)]

end Build

/-- The assertions on the size of a transfer. -/
structure TransferOk (size : ℕ) : Prop where
  aligned : size % 8 = 0
  eight_le : size ≥ 8
  le_2048 : size ≤ 2048

instance (size : ℕ) : Decidable (TransferOk size) :=
  decidable_of_iff (size % 8 = 0 ∧ size ≥ 8 ∧ size ≤ 2048)
    ⟨fun h => ⟨h.1,h.2.1,h.2.2⟩,fun h => ⟨h.aligned,h.eight_le,h.le_2048⟩⟩

/-- The transfers of a size that is a multiple of 8 pass the assertions. -/
lemma Build.transferOk (B : Build) {size byteIndex : ℕ} (hsize : 8 ∣ size)
    (hindex : 8 ∣ byteIndex) (h : byteIndex < size) : TransferOk (B.actTfSize size byteIndex) := by
  have hblock := B.eight_dvd_blockSize
  have hle := B.blockSize_le
  have hpos := Nat.two_pow_pos B.blockSizeLog2
  change 0 < B.blockSize at hpos
  unfold Build.actTfSize
  split_ifs
  · exact ⟨by omega,by omega,by omega⟩
  · exact ⟨by omega,by omega,hle⟩

/-- The elements of a block. -/
lemma filter_block (B : Build) (n q : ℕ) :
    {j ∈ Finset.range n | j / B.blockElems = q} =
      Finset.Ico (q * B.blockElems)
        (q * B.blockElems + min B.blockElems (n - q * B.blockElems)) := by
  ext j
  rw [Finset.mem_filter, Finset.mem_range, Finset.mem_Ico, Nat.div_eq_iff B.blockElems_pos]
  have hpos := B.blockElems_pos
  omega

/-- From block q on, every nt-th block is block q or comes from block q + nt on. -/
lemma from_block_iff (nt : ℕ) {p q : ℕ} (hne : p ≠ q) :
    (q ≤ p ∧ p % nt = q % nt) ↔ q + nt ≤ p ∧ p % nt = (q + nt) % nt := by
  rw [Nat.add_mod_right]
  refine and_congr_left fun hmod => ⟨fun hle => ?_,fun hle => by omega⟩
  have hdvd := Nat.dvd_of_mod_eq_zero (Nat.sub_mod_eq_zero_of_mod_eq hmod)
  have hnt := Nat.le_of_dvd (by omega) hdvd
  omega

lemma eight_dvd_padded (s x : ℕ) : 8 ∣ padded s x * s := by
  unfold padded roundup
  split_ifs with h
  · exact (Dvd.intro_left (x / 8 + 1) (by ring)).mul_right s
  · exact Nat.dvd_of_mod_eq_zero (not_not.mp h)

/-- The size of each DPU is that of a number of elements and a multiple of 8. -/
lemma sizeOf_elems {B : Build} {n dpus : ℕ} (hw : NoWrap n dpus B.sizeofT)
    (hu : inputSizeDpu8bytes n dpus B.sizeofT * (dpus - 1) ≤ inputSize8bytes n B.sizeofT) (i : ℕ) :
    sizeOf n dpus B.sizeofT i = B.sizeofT * (sizeOf n dpus B.sizeofT i / B.sizeofT) ∧
      8 ∣ sizeOf n dpus B.sizeofT i := by
  have hdpu : 8 ∣ inputSizeDpu8bytes n dpus B.sizeofT * B.sizeofT := by
    rw [hw.inputSizeDpu8bytes_eq B.sizeofT_pos]
    exact eight_dvd_padded _ _
  by_cases hi : i < dpus - 1
  · rw [hw.sizeOf_of_lt B.sizeofT_pos hi, Nat.mul_div_cancel _ B.sizeofT_pos]
    exact ⟨Nat.mul_comm _ _,hdpu⟩
  · rw [hw.sizeOf_last B.sizeofT_pos hi hu, Nat.mul_div_cancel _ B.sizeofT_pos]
    refine ⟨Nat.mul_comm _ _,?_⟩
    rw [Nat.sub_mul, Nat.mul_right_comm]
    refine Nat.dvd_sub ?_ (hdpu.mul_right _)
    rw [hw.inputSize8bytes_eq]
    exact eight_dvd_padded _ _

end CaLabs.Lab3
