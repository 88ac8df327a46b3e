import CaLabs.Lab3.Blocks
import CaLabs.Lab3.FinalReductions

/-! Task 4 of lab 3 from the vector of the host to dpu_reduc_res. -/
namespace CaLabs.Lab3

section Kernel
variable {T : Type*} [AddCommMonoid T] (B : Build)

/-- The vec_red of the host and of the DPUs. -/
def vecRed (vec : ℕ → T) (res : T) : ℕ → T
  | 0 => res
  | size+1 => vecRed vec res size + vec size

lemma vecRed_eq (vec : ℕ → T) (res : T) (size : ℕ) :
    vecRed vec res size = res + ∑ j ∈ Finset.range size, vec j := by
  induction size with
  | zero => rw [vecRed, Finset.sum_range_zero, add_zero]
  | succ size ih => rw [vecRed, ih, Finset.sum_range_succ, add_assoc]

/-- The loop of main_kernel1 over the blocks of a tasklet, from byte_index on: none when an
assertion fails. The MRAM holds elements, as blocks start at multiples of sizeof(T). -/
def reduceBlocks (mram : ℕ → T) (size byteIndex : ℕ) (res : T) : Option T :=
  if byteIndex < size then
    if TransferOk (B.actTfSize size byteIndex) then
      reduceBlocks mram size (byteIndex + B.blockSize * B.nrTasklets)
        (vecRed (fun j => mram (byteIndex / B.sizeofT + j)) res
          (B.actTfSize size byteIndex / B.sizeofT))
    else none
  else some res
termination_by size - byteIndex
decreasing_by
  have hpos := B.stride_pos
  omega

/-- tasklet_partials[tasklet_id] before the final reduction. -/
def taskletPartial (mram : ℕ → T) (size taskletId : ℕ) : Option T :=
  reduceBlocks B mram size (taskletId * 2 ^ B.blockSizeLog2) 0

variable {B}

/-- The loop adds the elements of every nt-th block. -/
lemma reduceBlocks_eq (mram : ℕ → T) {n : ℕ} (hsize : 8 ∣ B.sizeofT * n) (q : ℕ) (res : T) :
    reduceBlocks B mram (B.sizeofT * n) (q * B.blockSize) res =
      some (res + ∑ j ∈ Finset.range n, if q ≤ j / B.blockElems ∧
        j / B.blockElems % B.nrTasklets = q % B.nrTasklets then mram j else 0) := by
  have hq : q * B.blockSize = B.sizeofT * (q * B.blockElems) := by
    rw [B.blockSize_eq, Nat.mul_left_comm]
  induction hm : n - q using Nat.strong_induction_on generalizing q res with
  | _ m ih =>
    subst hm
    rw [reduceBlocks]
    have hpos := B.blockElems_pos
    have hle : q ≤ q * B.blockElems := Nat.le_mul_of_pos_right q hpos
    by_cases h : q * B.blockElems < n
    · have hlt : q * B.blockSize < B.sizeofT * n := by
        rw [hq]
        exact Nat.mul_lt_mul_of_pos_left h B.sizeofT_pos
      have hnext : q * B.blockSize + B.blockSize * B.nrTasklets =
          (q + B.nrTasklets) * B.blockSize := by
        rw [Nat.add_mul, Nat.mul_comm B.blockSize]
      have hok := B.transferOk hsize (B.eight_dvd_blockSize.mul_left q) hlt
      have hpos' := B.nrTasklets_pos
      rw [if_pos hlt, if_pos hok, hnext, ih _ (by omega) (q + B.nrTasklets) _
        (by rw [B.blockSize_eq, Nat.mul_left_comm]) rfl, hq, B.actTfSize_mul,
        Nat.mul_div_cancel_left _ B.sizeofT_pos, Nat.mul_div_cancel_left _ B.sizeofT_pos, vecRed_eq,
        add_assoc]
      congr 2
      -- block q and the blocks from q + nt on
      have hblock : ∑ j ∈ Finset.range (min B.blockElems (n - q * B.blockElems)),
          mram (q * B.blockElems + j) =
          ∑ j ∈ Finset.range n, if j / B.blockElems = q then mram j else 0 := by
        rw [← Finset.sum_filter, filter_block, Finset.sum_Ico_eq_sum_range,
          Nat.add_sub_cancel_left]
      rw [hblock, ← Finset.sum_add_distrib]
      refine Finset.sum_congr rfl fun j _ => ?_
      by_cases hj : j / B.blockElems = q
      · have hnt : ¬ q + B.nrTasklets ≤ q := by omega
        simp only [hj, if_true, hnt, false_and, if_false, add_zero, le_refl, and_self]
      · simp only [if_neg hj, zero_add, from_block_iff _ hj]
    · have hge : ¬ q * B.blockSize < B.sizeofT * n := by
        rw [hq]
        exact not_lt.mpr (Nat.mul_le_mul_left _ (not_lt.mp h))
      rw [if_neg hge, Finset.sum_eq_zero, add_zero]
      intro j hj
      have hj' := Finset.mem_range.mp hj
      have hlt : j / B.blockElems < q := by
        rw [Nat.div_lt_iff_lt_mul hpos]
        omega
      rw [if_neg]
      omega

/-- The tasklets of a DPU add every element once. -/
lemma sum_partials (mram : ℕ → T) {n : ℕ} (hsize : 8 ∣ B.sizeofT * n) :
    ∃ partials : ℕ → T,
      (∀ t, taskletPartial B mram (B.sizeofT * n) t = some (partials t)) ∧
      ∑ t ∈ Finset.range B.nrTasklets, partials t = ∑ j ∈ Finset.range n, mram j := by
  refine ⟨_,fun t => reduceBlocks_eq mram hsize t 0,?_⟩
  simp only [zero_add]
  rw [Finset.sum_comm]
  refine Finset.sum_congr rfl fun j _ => ?_
  have hmod := Nat.mod_lt (j / B.blockElems) B.nrTasklets_pos
  rw [Finset.sum_eq_single (j / B.blockElems % B.nrTasklets)]
  · rw [if_pos ⟨Nat.mod_le _ _,(Nat.mod_mod _ _).symm⟩]
  · intro t ht hne
    rw [if_neg]
    rintro ⟨-,hmod'⟩
    rw [Nat.mod_eq_of_lt (Finset.mem_range.mp ht)] at hmod'
    exact hne hmod'.symm
  · intro hnot
    exact absurd (Finset.mem_range.mpr hmod) hnot

end Kernel

section Host
variable (B : Build) (strategy : Strategy) (n dpus : ℕ)

/-- The elements of the MRAM heap of DPU i after dpu_push_xfer, from X and the earlier heaps. -/
def received (X : ℕ → B.Elem) (heap : ℕ → ℕ → B.Elem) (i j : ℕ) : B.Elem :=
  if j < transferSize n dpus B.sizeofT / B.sizeofT then
    X (u32 (i * inputSizeDpu8bytes n dpus B.sizeofT) + j)
  else heap i j

/-- The 8 bytes that tasklet 0 writes: tasklet_sum and what lies next to it on the stack. -/
def storeResult (beside : BitVec 64) (sum : B.Elem) : BitVec 64 :=
  beside >>> (8 * 2 ^ B.div) <<< (8 * 2 ^ B.div) ||| sum.setWidth 64

/-- The first sizeof(T) bytes of an element of dpu_partials. -/
def trim (word : BitVec 64) : B.Elem := word.setWidth _

/-- dpu_reduc_res. -/
def dpuReducRes (dpuPartials : ℕ → BitVec 64) : ℕ → B.Elem
  | 0 => 0
  | i+1 => dpuReducRes dpuPartials i + trim B (dpuPartials i)

/-- host_reduc_res. -/
def hostReducRes (X : ℕ → B.Elem) : B.Elem := vecRed X 0 n

/-- A value that dpu_reduc_res can have after a repetition, under any schedule on each DPU. -/
def DpuResult (X : ℕ → B.Elem) (heap : ℕ → ℕ → B.Elem) (r : B.Elem) : Prop :=
  ∃ (partials : ℕ → ℕ → B.Elem) (sums : ℕ → B.Elem) (beside : ℕ → BitVec 64),
    (∀ i < dpus, ∀ t < B.nrTasklets, taskletPartial B (received B n dpus X heap i)
      (sizeOf n dpus B.sizeofT i) t = some (partials i t)) ∧
    (∀ i < dpus, Returns strategy B.nrTasklets (partials i) (sums i)) ∧
    r = dpuReducRes B (fun i => storeResult B (beside i) (sums i)) dpus

/-- The repetition ends, with the sum that the host computes. -/
structure ReducesCorrectly (X : ℕ → B.Elem) (heap : ℕ → ℕ → B.Elem) : Prop where
  ends : ∃ r, DpuResult B strategy n dpus X heap r
  equal : ∀ r, DpuResult B strategy n dpus X heap r → r = hostReducRes B n X

variable {B strategy n dpus}

/-- The result of a DPU comes back whole. -/
lemma trim_storeResult (beside : BitVec 64) (sum : B.Elem) :
    trim B (storeResult B beside sum) = sum := by
  have hw : 8 * 2 ^ B.div ≤ 64 :=
    Nat.mul_le_mul_left 8 (Nat.pow_le_pow_right (by decide) B.div_le)
  ext j hj
  have hj64 : j < 64 := by omega
  simp [trim, storeResult, hj, hj64]

lemma dpuReducRes_eq (sums : ℕ → B.Elem) (beside : ℕ → BitVec 64) (d : ℕ) :
    dpuReducRes B (fun i => storeResult B (beside i) (sums i)) d =
      ∑ i ∈ Finset.range d, sums i := by
  induction d with
  | zero => rfl
  | succ d ih => rw [dpuReducRes, ih, trim_storeResult, Finset.sum_range_succ]

/-- Whatever the schedules are, dpu_reduc_res is the sum of all elements that the DPUs are told to
read. -/
lemma dpuResult_iff (hw : NoWrap n dpus B.sizeofT)
    (hu : inputSizeDpu8bytes n dpus B.sizeofT * (dpus - 1) ≤ inputSize8bytes n B.sizeofT)
    (X : ℕ → B.Elem) (heap : ℕ → ℕ → B.Elem) (r : B.Elem) :
    DpuResult B strategy n dpus X heap r ↔ r = ∑ i ∈ Finset.range dpus,
      ∑ j ∈ Finset.range (sizeOf n dpus B.sizeofT i / B.sizeofT), received B n dpus X heap i j := by
  have hpartials : ∀ i, ∃ partials : ℕ → B.Elem,
      (∀ t, taskletPartial B (received B n dpus X heap i) (sizeOf n dpus B.sizeofT i) t =
        some (partials t)) ∧
      ∑ t ∈ Finset.range B.nrTasklets, partials t =
        ∑ j ∈ Finset.range (sizeOf n dpus B.sizeofT i / B.sizeofT),
          received B n dpus X heap i j := fun i => by
    obtain ⟨hmul,hdvd⟩ := sizeOf_elems hw hu i
    have hsum := sum_partials (received B n dpus X heap i) (hmul ▸ hdvd)
    rwa [← hmul] at hsum
  choose partials hpart hsum using hpartials
  constructor
  · rintro ⟨partials',sums,beside,hpart',hreturns,rfl⟩
    rw [dpuReducRes_eq]
    refine Finset.sum_congr rfl fun i hi => ?_
    have hi' := Finset.mem_range.mp hi
    rw [(hreturns i hi').eq_sum B.nrTasklets_pos, ← hsum i]
    refine Finset.sum_congr rfl fun t ht => ?_
    have hsame := hpart' i hi' t (Finset.mem_range.mp ht)
    rw [hpart i t] at hsame
    exact (Option.some.inj hsame).symm
  · rintro rfl
    refine ⟨partials,_,fun _ => 0,fun i _ t _ => hpart i t,
      fun i _ => returns_sum strategy B.nrTasklets_pos (partials i),?_⟩
    rw [dpuReducRes_eq]
    exact Finset.sum_congr rfl fun i _ => (hsum i).symm

/-- Element k of those that are read: past the transfer to the last DPU it is what the MRAM of
that DPU holds. -/
def element (B : Build) (n dpus : ℕ) (X : ℕ → B.Elem) (heap : ℕ → ℕ → B.Elem) (k : ℕ) : B.Elem :=
  if k < inputSizeDpu8bytes n dpus B.sizeofT * dpus then X k
  else heap (dpus - 1) (k - inputSizeDpu8bytes n dpus B.sizeofT * (dpus - 1))

lemma sum_range_blocks {T : Type*} [AddCommMonoid T] (f : ℕ → T) (d m : ℕ) :
    ∑ i ∈ Finset.range m, ∑ j ∈ Finset.range d, f (d * i + j) =
      ∑ k ∈ Finset.range (d * m), f k := by
  induction m with
  | zero => rw [Nat.mul_zero, Finset.sum_range_zero, Finset.sum_range_zero]
  | succ m ih => rw [Finset.sum_range_succ, ih, Nat.mul_succ, Finset.sum_range_add]

/-- The chunks of the DPUs are all elements up to input_size_8bytes. -/
lemma sum_received (hd : 0 < dpus) (hw : NoWrap n dpus B.sizeofT)
    (hu : inputSizeDpu8bytes n dpus B.sizeofT * (dpus - 1) ≤ inputSize8bytes n B.sizeofT)
    (X : ℕ → B.Elem) (heap : ℕ → ℕ → B.Elem) :
    ∑ i ∈ Finset.range dpus, ∑ j ∈ Finset.range (sizeOf n dpus B.sizeofT i / B.sizeofT),
      received B n dpus X heap i j =
    ∑ k ∈ Finset.range (inputSize8bytes n B.sizeofT), element B n dpus X heap k := by
  obtain ⟨m,rfl⟩ : ∃ m, dpus = m + 1 := ⟨dpus - 1,by omega⟩
  have hsize := hw.sizeOf_div B.sizeofT_pos hu
  have hstart := fun i hi => @u32_chunkStart n (m + 1) B.sizeofT hu i hi
  rw [Nat.add_sub_cancel] at hu hsize
  set d := inputSizeDpu8bytes n (m + 1) B.sizeofT with hdef
  have hreceived : ∀ i < m + 1, ∀ j, received B n (m + 1) X heap i j =
      if j < d then X (d * i + j) else heap i j := by
    intro i hi j
    rw [received, hw.transferSize_eq B.sizeofT_pos, ← hdef, Nat.mul_div_cancel _ B.sizeofT_pos,
      hstart i hi, Nat.mul_comm]
  have hfull : ∀ i < m, ∑ j ∈ Finset.range (sizeOf n (m + 1) B.sizeofT i / B.sizeofT),
      received B n (m + 1) X heap i j =
      ∑ j ∈ Finset.range d, element B n (m + 1) X heap (d * i + j) := by
    intro i hi
    rw [hsize, if_pos hi]
    refine Finset.sum_congr rfl fun j hj => ?_
    have hj' := Finset.mem_range.mp hj
    have hnext : d * (i + 1) ≤ d * (m + 1) := Nat.mul_le_mul_left d (by omega)
    rw [Nat.mul_succ] at hnext
    rw [hreceived i (by omega), if_pos hj', element, ← hdef, if_pos (by omega)]
  have hmul : d * (m + 1) = d * m + d := Nat.mul_succ d m
  rw [Finset.sum_range_succ, Finset.sum_congr rfl fun i hi => hfull i (Finset.mem_range.mp hi),
    sum_range_blocks, hsize, if_neg (lt_irrefl m)]
  conv_rhs => rw [← Nat.add_sub_cancel' hu, Finset.sum_range_add]
  congr 1
  refine Finset.sum_congr rfl fun j _ => ?_
  rw [hreceived m (by omega), element, ← hdef, hmul, Nat.add_sub_cancel, Nat.add_sub_cancel_left]
  by_cases hj : j < d
  · rw [if_pos hj, if_pos (by omega)]
  · rw [if_neg hj, if_neg (by omega)]

/-- The vector lies in the transfers. -/
lemma element_of_lt (hd : 0 < dpus) (hw : NoWrap n dpus B.sizeofT) (X : ℕ → B.Elem)
    (heap : ℕ → ℕ → B.Elem) {k : ℕ} (hk : k < n) : element B n dpus X heap k = X k :=
  if_pos (lt_of_lt_of_le hk (hw.le_chunks B.sizeofT_pos hd))

/-- A repetition ends with the sum of the vector and of the elements added by rounding up. -/
theorem dpuResult_iff_sum (hd : 0 < dpus) (hw : NoWrap n dpus B.sizeofT)
    (hu : inputSizeDpu8bytes n dpus B.sizeofT * (dpus - 1) ≤ inputSize8bytes n B.sizeofT)
    (X : ℕ → B.Elem) (heap : ℕ → ℕ → B.Elem) (r : B.Elem) :
    DpuResult B strategy n dpus X heap r ↔ r = hostReducRes B n X +
      ∑ j ∈ Finset.range (padding B.sizeofT n), element B n dpus X heap (n + j) := by
  rw [dpuResult_iff hw hu, sum_received hd hw hu, hw.inputSize8bytes_eq, padded_eq,
    Finset.sum_range_add, hostReducRes, vecRed_eq, zero_add,
    Finset.sum_congr rfl fun k hk => element_of_lt hd hw X heap (Finset.mem_range.mp hk)]

lemma padding_eq_zero_iff {s x : ℕ} : padding s x = 0 ↔ x * s % 8 = 0 := by
  unfold padding
  split_ifs with h
  · exact ⟨fun _ => h,fun _ => rfl⟩
  · exact ⟨fun h0 => by omega,fun h0 => absurd h0 h⟩

lemma elem_one_ne_zero (B : Build) : (1 : B.Elem) ≠ 0 := by
  have hpos := Nat.two_pow_pos B.div
  have hlt : 1 < 2 ^ (8 * 2 ^ B.div) := Nat.one_lt_two_pow (by omega)
  intro h
  have hnat := congrArg BitVec.toNat h
  simp [Nat.mod_eq_of_lt hlt] at hnat

/-- The DPUs reduce the vector, whatever the memory holds that the host has not written, exactly
when the vector ends at a multiple of 8 bytes. -/
theorem reduces_correctly_iff (hd : 1 ≤ dpus) (hw : NoWrap n dpus B.sizeofT)
    (hu : inputSizeDpu8bytes n dpus B.sizeofT * (dpus - 1) ≤ inputSize8bytes n B.sizeofT) :
    (∀ X heap, ReducesCorrectly B strategy n dpus X heap) ↔ n * B.sizeofT % 8 = 0 := by
  rw [← padding_eq_zero_iff]
  constructor
  · intro h
    by_contra hne
    -- a vector of zeros, next to which lies a one
    let X : ℕ → B.Elem := fun k => if k = n then 1 else 0
    let heap : ℕ → ℕ → B.Elem := fun _ j =>
      if inputSizeDpu8bytes n dpus B.sizeofT * (dpus - 1) + j = n then 1 else 0
    have helement : ∀ j, element B n dpus X heap (n + j) = if j = 0 then 1 else 0 := by
      intro j
      have hsub : inputSizeDpu8bytes n dpus B.sizeofT * (dpus - 1) ≤
          inputSizeDpu8bytes n dpus B.sizeofT * dpus := Nat.mul_le_mul_left _ (Nat.sub_le _ _)
      have hX : n + j = n ↔ j = 0 := by omega
      by_cases hin : n + j < inputSizeDpu8bytes n dpus B.sizeofT * dpus
      · simp only [element, if_pos hin, X, hX]
      · have hback : inputSizeDpu8bytes n dpus B.sizeofT * (dpus - 1) +
            (n + j - inputSizeDpu8bytes n dpus B.sizeofT * (dpus - 1)) = n ↔ j = 0 := by omega
        simp only [element, if_neg hin, heap, hback]
    have hzero : hostReducRes B n X = 0 := by
      rw [hostReducRes, vecRed_eq, zero_add]
      exact Finset.sum_eq_zero fun k hk => if_neg (Finset.mem_range.mp hk).ne
    have hequal := (h X heap).equal _ ((dpuResult_iff_sum hd hw hu X heap _).mpr rfl)
    rw [hzero, zero_add] at hequal
    simp only [helement, Finset.sum_ite_eq', Finset.mem_range, Nat.pos_of_ne_zero hne, if_true]
      at hequal
    exact elem_one_ne_zero B hequal
  · intro h X heap
    have hresult := fun r => @dpuResult_iff_sum B strategy n dpus hd hw hu X heap r
    rw [h] at hresult
    simp only [Finset.sum_range_zero, add_zero] at hresult
    exact ⟨⟨_,(hresult _).mpr rfl⟩,fun r hr => (hresult r).mp hr⟩

/-- 32-bit integers, blocks of 256 bytes and three tasklets. -/
def int32Build : Build := ⟨2,8,3,by decide,by decide,by decide,by decide⟩

/-- Four elements on two DPUs are 16 bytes. -/
theorem reduces_four :
    ReducesCorrectly int32Build .treeBarrier 4 2 (fun k => BitVec.ofNat _ k) (fun _ _ => 7) :=
  (reduces_correctly_iff (by decide) ⟨by decide,by decide,by decide⟩
    (by decide)).mpr (by decide) _ _

/-- One element on one DPU is rounded up to eight: the element next to it is added. -/
theorem one_element_adds_padding :
    ¬ ReducesCorrectly int32Build .single 1 1 (fun k => if k = 1 then 7 else 0) (fun _ _ => 0) := by
  intro h
  have hsum := (@dpuResult_iff_sum int32Build .single 1 1 (by decide)
    ⟨by decide,by decide,by decide⟩ (by decide) (fun k => if k = 1 then 7 else 0)
    (fun _ _ => 0) _).mpr rfl
  exact absurd (h.equal _ hsum) (by decide)

end Host
end CaLabs.Lab3
