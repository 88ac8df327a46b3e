import Mathlib.Data.Nat.Notation
import Mathlib.Order.Interval.Finset.Nat
import Mathlib.Tactic.Ring

/-! The sizes that the hosts of tasks 2, 3 and 4 of lab 3 compute, and when they partition the
input. -/
namespace CaLabs.Lab3

/-- A value stored in a uint32_t. -/
def u32 (n : ℕ) : ℕ := n % 2 ^ 32

/-- Unsigned subtraction. -/
def u32Sub (a b : ℕ) : ℕ := u32 (a + 2 ^ 32 - b)

/-- For n ≥ 1. -/
def divceil (n m : ℕ) : ℕ := (n - 1) / m + 1

def roundup (n m : ℕ) : ℕ := n / m * m + m

/-- The number of elements rounded up when its bytes are no multiple of 8. -/
def padded (s x : ℕ) : ℕ := if x * s % 8 ≠ 0 then roundup x 8 else x

section Sizes
variable (n dpus s : ℕ)

/-- input_size_8bytes for n elements of s bytes. -/
def inputSize8bytes : ℕ := u32 (padded s n)

/-- input_size_dpu. -/
def inputSizeDpu : ℕ := divceil n dpus

/-- input_size_dpu_8bytes. -/
def inputSizeDpu8bytes : ℕ := u32 (padded s (inputSizeDpu n dpus))

/-- transfer_size of every DPU. -/
def transferSize : ℕ := u32 (inputSizeDpu8bytes n dpus s * s)

/-- input_arguments[i].size. -/
def sizeOf (i : ℕ) : ℕ :=
  if i < dpus - 1 then u32 (inputSizeDpu8bytes n dpus s * s)
  else u32 (u32Sub (inputSize8bytes n s) (u32 (inputSizeDpu8bytes n dpus s * (dpus - 1))) * s)

/-- The number of elements that the host allocates for an array. -/
def allocated : ℕ := u32 (inputSizeDpu8bytes n dpus s * dpus)

/-- The elements that DPU i is told to process. -/
def chunk (i : ℕ) : Finset ℕ :=
  Finset.Ico (i * inputSizeDpu8bytes n dpus s)
    (i * inputSizeDpu8bytes n dpus s + sizeOf n dpus s i / s)

/-- The sizes partition the input. -/
structure Partitions : Prop where
  noUnderflow : inputSizeDpu8bytes n dpus s * (dpus - 1) ≤ inputSize8bytes n s
  size_le : ∀ i < dpus, sizeOf n dpus s i ≤ transferSize n dpus s
  disjoint : ∀ i < dpus, ∀ j < dpus, i ≠ j → Disjoint (chunk n dpus s i) (chunk n dpus s j)
  inside : ∀ i < dpus, ∀ k ∈ chunk n dpus s i, k < allocated n dpus s
  covers : ∀ k < n, ∃ i < dpus, k ∈ chunk n dpus s i

/-- All byte counts fit in 32 bits. -/
structure Fits : Prop where
  total : padded s n * s < 2 ^ 32
  arrays : padded s (inputSizeDpu n dpus) * dpus * s < 2 ^ 32

/-- The counts of elements and the sizes of the chunks fit in 32 bits. -/
structure NoWrap : Prop where
  total : padded s n < 2 ^ 32
  chunk : padded s (inputSizeDpu n dpus) * s < 2 ^ 32
  lastChunk : (padded s n - padded s (inputSizeDpu n dpus) * (dpus - 1)) * s < 2 ^ 32

/-- The elements added by rounding up. -/
def padding (x : ℕ) : ℕ := if x * s % 8 = 0 then 0 else 8 - x % 8

/-- The elements that dpus chunks of input_size_dpu elements have more than the input. -/
def shortfall : ℕ := dpus * inputSizeDpu n dpus - n

end Sizes

lemma padded_eq (s x : ℕ) : padded s x = x + padding s x := by
  unfold padded padding roundup
  by_cases h : x * s % 8 = 0
  · simp [h]
  · have hx : x % 8 ≠ 0 := fun h0 => h (by rw [Nat.mul_mod, h0, Nat.zero_mul, Nat.zero_mod])
    simp only [ne_eq, h, not_false_eq_true, if_true, if_false]
    omega

lemma le_mul_divceil {n m : ℕ} (hm : 0 < m) : n ≤ m * divceil n m := by
  unfold divceil
  have hdiv := Nat.div_add_mod (n - 1) m
  have hlt := Nat.mod_lt (n - 1) hm
  rw [Nat.mul_add, Nat.mul_one]
  omega

lemma divceil_pos (n m : ℕ) : 0 < divceil n m := Nat.succ_pos _

section NoWrap
variable {n dpus s : ℕ}

lemma u32_of_lt {x : ℕ} (h : x < 2 ^ 32) : u32 x = x := Nat.mod_eq_of_lt h

lemma u32Sub_of_le {a b : ℕ} (hab : b ≤ a) (ha : a < 2 ^ 32) : u32Sub a b = a - b := by
  unfold u32Sub u32
  omega

lemma lt_of_mul_lt {x y b : ℕ} (hy : 0 < y) (h : x * y < b) : x < b :=
  lt_of_le_of_lt (Nat.le_mul_of_pos_right x hy) h

lemma Fits.noWrap (h : Fits n dpus s) (hs : 0 < s) (hd : 0 < dpus) : NoWrap n dpus s where
  total := lt_of_mul_lt hs h.total
  chunk := lt_of_le_of_lt (Nat.mul_le_mul_right s (Nat.le_mul_of_pos_right _ hd)) h.arrays
  lastChunk := lt_of_le_of_lt (Nat.mul_le_mul_right s (Nat.sub_le _ _)) h.total

lemma NoWrap.inputSize8bytes_eq (h : NoWrap n dpus s) : inputSize8bytes n s = padded s n :=
  u32_of_lt h.total

lemma NoWrap.inputSizeDpu8bytes_eq (h : NoWrap n dpus s) (hs : 0 < s) :
    inputSizeDpu8bytes n dpus s = padded s (inputSizeDpu n dpus) :=
  u32_of_lt (lt_of_mul_lt hs h.chunk)

lemma Fits.allocated_eq (h : Fits n dpus s) (hs : 0 < s) (hd : 0 < dpus) :
    allocated n dpus s = inputSizeDpu8bytes n dpus s * dpus := by
  rw [allocated, (h.noWrap hs hd).inputSizeDpu8bytes_eq hs, u32_of_lt (lt_of_mul_lt hs h.arrays)]

lemma NoWrap.transferSize_eq (h : NoWrap n dpus s) (hs : 0 < s) :
    transferSize n dpus s = inputSizeDpu8bytes n dpus s * s := by
  rw [transferSize, h.inputSizeDpu8bytes_eq hs, u32_of_lt h.chunk]

lemma NoWrap.sizeOf_of_lt (h : NoWrap n dpus s) (hs : 0 < s) {i : ℕ} (hi : i < dpus - 1) :
    sizeOf n dpus s i = inputSizeDpu8bytes n dpus s * s := by
  rw [sizeOf, if_pos hi]
  exact h.transferSize_eq hs

/-- The size of the last DPU when the subtraction does not wrap around. -/
lemma NoWrap.sizeOf_last (h : NoWrap n dpus s) (hs : 0 < s) {i : ℕ} (hi : ¬ i < dpus - 1)
    (hle : inputSizeDpu8bytes n dpus s * (dpus - 1) ≤ inputSize8bytes n s) :
    sizeOf n dpus s i =
      (inputSize8bytes n s - inputSizeDpu8bytes n dpus s * (dpus - 1)) * s := by
  have hlt : inputSize8bytes n s < 2 ^ 32 := Nat.mod_lt _ (by decide)
  rw [sizeOf, if_neg hi, u32_of_lt (lt_of_le_of_lt hle hlt), u32Sub_of_le hle hlt,
    h.inputSize8bytes_eq, h.inputSizeDpu8bytes_eq hs]
  exact u32_of_lt h.lastChunk

lemma NoWrap.inputSizeDpu8bytes_pos (h : NoWrap n dpus s) (hs : 0 < s) :
    0 < inputSizeDpu8bytes n dpus s := by
  rw [h.inputSizeDpu8bytes_eq hs, padded_eq]
  exact Nat.add_pos_left (divceil_pos n dpus) _

/-- The chunks of all DPUs together are no shorter than the input. -/
lemma NoWrap.le_chunks (h : NoWrap n dpus s) (hs : 0 < s) (hd : 0 < dpus) :
    n ≤ inputSizeDpu8bytes n dpus s * dpus := by
  have hle : inputSizeDpu n dpus ≤ inputSizeDpu8bytes n dpus s := by
    rw [h.inputSizeDpu8bytes_eq hs, padded_eq]
    exact Nat.le_add_right _ _
  calc n ≤ dpus * inputSizeDpu n dpus := le_mul_divceil hd
    _ ≤ dpus * inputSizeDpu8bytes n dpus s := Nat.mul_le_mul_left _ hle
    _ = inputSizeDpu8bytes n dpus s * dpus := Nat.mul_comm _ _

/-- The first element of a chunk, as the host computes it. -/
lemma u32_chunkStart
    (hle : inputSizeDpu8bytes n dpus s * (dpus - 1) ≤ inputSize8bytes n s) {i : ℕ} (hi : i < dpus) :
    u32 (i * inputSizeDpu8bytes n dpus s) = i * inputSizeDpu8bytes n dpus s := by
  have hlt : inputSize8bytes n s < 2 ^ 32 := Nat.mod_lt _ (by decide)
  have hstart : i * inputSizeDpu8bytes n dpus s ≤ inputSizeDpu8bytes n dpus s * (dpus - 1) := by
    rw [Nat.mul_comm]
    exact Nat.mul_le_mul_left _ (by omega)
  exact u32_of_lt (lt_of_le_of_lt (hstart.trans hle) hlt)

/-- The number of elements that DPU i processes. -/
lemma NoWrap.sizeOf_div (h : NoWrap n dpus s) (hs : 0 < s)
    (hle : inputSizeDpu8bytes n dpus s * (dpus - 1) ≤ inputSize8bytes n s) (i : ℕ) :
    sizeOf n dpus s i / s = if i < dpus - 1 then inputSizeDpu8bytes n dpus s
      else inputSize8bytes n s - inputSizeDpu8bytes n dpus s * (dpus - 1) := by
  split_ifs with hi
  · rw [h.sizeOf_of_lt hs hi, Nat.mul_div_cancel _ hs]
  · rw [h.sizeOf_last hs hi hle, Nat.mul_div_cancel _ hs]

/-- No size exceeds the transfer if the last one does not. -/
lemma NoWrap.sizeOf_le (h : NoWrap n dpus s) (hs : 0 < s)
    (hle : inputSizeDpu8bytes n dpus s * (dpus - 1) ≤ inputSize8bytes n s)
    (hlast : inputSize8bytes n s ≤
      inputSizeDpu8bytes n dpus s * (dpus - 1) + inputSizeDpu8bytes n dpus s) (i : ℕ) :
    sizeOf n dpus s i ≤ inputSizeDpu8bytes n dpus s * s := by
  by_cases hi : i < dpus - 1
  · exact (h.sizeOf_of_lt hs hi).le
  · rw [h.sizeOf_last hs hi hle]
    exact Nat.mul_le_mul_right s (Nat.sub_le_iff_le_add'.mpr hlast)

/-- The elements of a chunk no larger than the transfer belong to that chunk only. -/
lemma chunk_div (hs : 0 < s) {i k : ℕ}
    (hsize : sizeOf n dpus s i ≤ inputSizeDpu8bytes n dpus s * s) (hk : k ∈ chunk n dpus s i) :
    k / inputSizeDpu8bytes n dpus s = i := by
  rw [chunk, Finset.mem_Ico] at hk
  have hq := Nat.div_le_div_right (c := s) hsize
  rw [Nat.mul_div_cancel _ hs] at hq
  refine Nat.div_eq_of_lt_le hk.1 ?_
  rw [Nat.add_mul, Nat.one_mul]
  exact lt_of_lt_of_le hk.2 (Nat.add_le_add_left hq _)

/-- Every element up to the rounded total is in some chunk. -/
lemma exists_chunk (h : NoWrap n dpus s) (hs : 0 < s) (hd : 0 < dpus)
    (hle : inputSizeDpu8bytes n dpus s * (dpus - 1) ≤ inputSize8bytes n s) {k : ℕ}
    (hk : k < inputSize8bytes n s) : ∃ i < dpus, k ∈ chunk n dpus s i := by
  have hpos := h.inputSizeDpu8bytes_pos hs
  by_cases hq : k / inputSizeDpu8bytes n dpus s < dpus - 1
  · refine ⟨_,lt_of_lt_of_le hq (Nat.sub_le dpus 1),?_⟩
    rw [chunk, Finset.mem_Ico, h.sizeOf_div hs hle, if_pos hq]
    exact ⟨Nat.div_mul_le_self k _,Nat.lt_div_mul_add hpos⟩
  · refine ⟨dpus - 1,Nat.sub_lt hd Nat.one_pos,?_⟩
    rw [chunk, Finset.mem_Ico, h.sizeOf_div hs hle, if_neg (lt_irrefl _)]
    have hge := (Nat.le_div_iff_mul_le hpos).mp (not_lt.mp hq)
    have hcomm := Nat.mul_comm (dpus - 1) (inputSizeDpu8bytes n dpus s)
    omega

lemma padding_le (s x : ℕ) : padding s x ≤ 8 := by
  unfold padding
  split_ifs
  · exact Nat.zero_le 8
  · exact Nat.sub_le 8 _

/-- Nothing wraps around when a chunk fits in the 64 MB of an MRAM and the last size does not
underflow. -/
lemma noWrap_of_mram (hs : 0 < s) (hs8 : s ≤ 8) (hd : 0 < dpus) (hn : n < 2 ^ 32)
    (hm : padded s (inputSizeDpu n dpus) * s ≤ 2 ^ 26)
    (hu : inputSizeDpu8bytes n dpus s * (dpus - 1) ≤ inputSize8bytes n s) : NoWrap n dpus s := by
  obtain ⟨m,rfl⟩ : ∃ m, dpus = m + 1 := ⟨dpus - 1,by omega⟩
  have hchunk : padded s (inputSizeDpu n (m + 1)) ≤ 2 ^ 26 :=
    (Nat.le_mul_of_pos_right _ hs).trans hm
  have hle := le_mul_divceil (n := n) hd
  have hmul : (m + 1) * inputSizeDpu n (m + 1) ≤
      padded s (inputSizeDpu n (m + 1)) * m + padded s (inputSizeDpu n (m + 1)) := by
    rw [← Nat.mul_succ, Nat.mul_comm]
    exact Nat.mul_le_mul_right _ (by rw [padded_eq]; exact Nat.le_add_right _ _)
  have hle' : n ≤ (m + 1) * inputSizeDpu n (m + 1) := hle
  have hpad := padding_le s n
  have hpn := padded_eq s n
  rw [inputSizeDpu8bytes, u32_of_lt (by omega), Nat.add_sub_cancel] at hu
  have htotal : padded s n < 2 ^ 32 := by
    unfold inputSize8bytes u32 at hu
    omega
  refine ⟨htotal,by omega,?_⟩
  rw [Nat.add_sub_cancel]
  have hdiff : padded s n - padded s (inputSizeDpu n (m + 1)) * m ≤
      padded s (inputSizeDpu n (m + 1)) + 8 := by omega
  have hbytes := Nat.mul_le_mul_right s hdiff
  rw [Nat.add_mul] at hbytes
  omega

/-- The arithmetic of the two comparisons. -/
lemma size_conditions {m d u v e : ℕ} (hn : d * m + d = n + e) :
    ((d + u) * m ≤ n + v ↔ e + u * m ≤ d + v) ∧
      (n + v ≤ (d + u) * m + (d + u) ↔ v ≤ e + u * (m + 1)) := by
  have hmul : (d + u) * m = d * m + u * m := Nat.add_mul d u m
  have hsucc : u * (m + 1) = u * m + u := Nat.mul_succ u m
  rw [hmul, hsucc]
  constructor <;> constructor <;> intro h <;> omega

/-- The sizes partition the input if and only if the elements missing to full chunks balance
the ones added by rounding: the padding of the total is no more than the shortfall and the
padding of all DPUs, and the shortfall and the padding of all DPUs but one no more than one
chunk and the padding of the total. -/
theorem partitions_iff (hd : 0 < dpus) (hs : 0 < s) (h : Fits n dpus s) :
    Partitions n dpus s ↔
      padding s n ≤ shortfall n dpus + padding s (inputSizeDpu n dpus) * dpus ∧
      shortfall n dpus + padding s (inputSizeDpu n dpus) * (dpus - 1) ≤
        inputSizeDpu n dpus + padding s n := by
  obtain ⟨m,rfl⟩ : ∃ m, dpus = m + 1 := ⟨dpus - 1,by omega⟩
  have hw := h.noWrap hs hd
  have hn8 := hw.inputSize8bytes_eq.trans (padded_eq s n)
  have hd8 := (hw.inputSizeDpu8bytes_eq hs).trans (padded_eq s (inputSizeDpu n (m + 1)))
  have hn : inputSizeDpu n (m + 1) * m + inputSizeDpu n (m + 1) = n + shortfall n (m + 1) := by
    have hcomm : (m + 1) * inputSizeDpu n (m + 1) =
        inputSizeDpu n (m + 1) * m + inputSizeDpu n (m + 1) := by ring
    have hle : n ≤ (m + 1) * inputSizeDpu n (m + 1) := le_mul_divceil hd
    rw [shortfall, hcomm]
    omega
  obtain ⟨hunder,hover⟩ := size_conditions (u := padding s (inputSizeDpu n (m + 1)))
    (v := padding s n) hn
  have hm : m + 1 - 1 = m := Nat.add_sub_cancel m 1
  rw [hm, ← hunder, ← hover, ← hn8, ← hd8]
  constructor
  · rintro ⟨hno,hsize,-,-,-⟩
    have hmax := hsize m (Nat.lt_succ_self m)
    rw [hw.transferSize_eq hs, hw.sizeOf_last hs (by omega) hno, hm] at hmax
    rw [hm] at hno
    exact ⟨Nat.sub_le_iff_le_add'.mp (Nat.le_of_mul_le_mul_right hmax hs),hno⟩
  · rintro ⟨hlast,hno⟩
    rw [← hm] at hno hlast
    have hsize := hw.sizeOf_le hs hno hlast
    refine ⟨hno,fun i _ => ?_,fun i _ j _ hij => ?_,fun i hi k hk => ?_,fun k hk => ?_⟩
    · rw [hw.transferSize_eq hs]
      exact hsize i
    · rw [Finset.disjoint_left]
      intro k hki hkj
      exact hij ((chunk_div hs (hsize i) hki).symm.trans (chunk_div hs (hsize j) hkj))
    · rw [h.allocated_eq hs hd, Nat.mul_comm,
        ← Nat.div_lt_iff_lt_mul (hw.inputSizeDpu8bytes_pos hs), chunk_div hs (hsize i) hk]
      exact hi
    · exact exists_chunk hw hs hd hno (by omega)

end NoWrap

/-- Nine elements of four bytes on two DPUs. -/
theorem partitions_nine_on_two : Partitions 9 2 4 :=
  (partitions_iff (by decide) (by decide) ⟨by decide,by decide⟩).mpr (by decide)

/-- Five elements of eight bytes on four DPUs: three chunks of two elements are more than the
input has, and the size of the last DPU wraps around. -/
theorem five_on_four_underflows : ¬ Partitions 5 4 8 := fun h => absurd h.noUnderflow (by decide)

end CaLabs.Lab3
