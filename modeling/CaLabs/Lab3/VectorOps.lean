import CaLabs.Lab3.VectorKernel

/-! The hosts of tasks 2 and 3 of lab 3: the repetitions of the main loop, from the vectors to the
Y that is read back. -/
namespace CaLabs.Lab3.Vector
open Lib
section
variable {B : Build}

/-- Y, Y_host and the MRAM heaps of the DPUs between two repetitions. -/
structure HostState (B : Build) where
  y : ℕ → B.Elem
  yHost : ℕ → B.Elem
  heap : ℕ → ℕ → B.Elem

variable (op : VectorOp B) (n dpus : ℕ)

/-- The first element of DPU i in the arrays of the host. -/
def chunkStart (B : Build) (n dpus i : ℕ) : ℕ := u32 (i * inputSizeDpu8bytes n dpus B.sizeofT)

/-- dpu_push_xfer of transfer_size bytes to an offset of the heap. -/
def pushXfer (B : Build) (offset size : ℕ) (buffer heap : ℕ → B.Elem) (a : ℕ) : B.Elem :=
  if offset / B.sizeofT ≤ a ∧ a < offset / B.sizeofT + size / B.sizeofT then
    buffer (a - offset / B.sizeofT)
  else heap a

/-- The MRAM heap of DPU i at its launch: X at offset 0 and Y at y_offset. -/
def loaded (x : ℕ → B.Elem) (st : HostState B) (i : ℕ) : ℕ → B.Elem :=
  pushXfer B (transferSize n dpus B.sizeofT) (transferSize n dpus B.sizeofT)
    (fun j => st.y (chunkStart B n dpus i + j))
    (pushXfer B 0 (transferSize n dpus B.sizeofT) (fun j => x (chunkStart B n dpus i + j))
      (st.heap i))

/-- Y after the chunks of the first DPUs have been copied back. -/
def retrieved (heap : ℕ → ℕ → B.Elem) (y : ℕ → B.Elem) : ℕ → ℕ → B.Elem
  | 0 => y
  | i+1 => fun k =>
      if chunkStart B n dpus i ≤ k ∧
          k < chunkStart B n dpus i + transferSize n dpus B.sizeofT / B.sizeofT then
        heap i (transferSize n dpus B.sizeofT / B.sizeofT + (k - chunkStart B n dpus i))
      else retrieved heap y i k

/-- A run of DPU i from the loaded heap. -/
def KernelRun (x : ℕ → B.Elem) (st : HostState B) (i k : ℕ) (s : Kernel B.Elem) : Prop :=
  Tasklets.Run (code B op.onDpu (sizeOf n dpus B.sizeofT i) (transferSize n dpus B.sizeofT))
    B.nrTasklets (launch (loaded n dpus x st i)) k s

/-- One repetition, under any schedule on each DPU. -/
structure Repetition (x : ℕ → B.Elem) (st st' : HostState B) : Prop where
  runs : ∀ i < dpus, ∃ k s, KernelRun op n dpus x st i k s ∧ s.Finished
    (code B op.onDpu (sizeOf n dpus B.sizeofT i) (transferSize n dpus B.sizeofT)) B.nrTasklets ∧
    st'.heap i = s.mem
  y : st'.y = retrieved n dpus st'.heap st.y dpus
  yHost : st'.yHost = op.onHost x st.yHost n

/-- The warm-up and timed repetitions. -/
def Repetitions (x : ℕ → B.Elem) (st : HostState B) : ℕ → HostState B → Prop
  | 0,st' => st' = st
  | reps+1,st' => ∃ m, Repetitions x st reps m ∧ Repetition op n dpus x m st'

variable {op n dpus} {x : ℕ → B.Elem} {st st' : HostState B}

section Chunks
variable (hw : NoWrap n dpus B.sizeofT)
  (hu : inputSizeDpu8bytes n dpus B.sizeofT * (dpus - 1) ≤ inputSize8bytes n B.sizeofT)
include hw

lemma transfer_eq : transferSize n dpus B.sizeofT =
    B.sizeofT * inputSizeDpu8bytes n dpus B.sizeofT := by
  rw [hw.transferSize_eq B.sizeofT_pos, Nat.mul_comm]

lemma transfer_div : transferSize n dpus B.sizeofT / B.sizeofT =
    inputSizeDpu8bytes n dpus B.sizeofT := by
  rw [transfer_eq hw, Nat.mul_div_cancel_left _ B.sizeofT_pos]

include hu

lemma loaded_x {i j : ℕ} (hi : i < dpus) (hj : j < inputSizeDpu8bytes n dpus B.sizeofT) :
    loaded n dpus x st i j = x (i * inputSizeDpu8bytes n dpus B.sizeofT + j) := by
  rw [loaded, pushXfer, transfer_div hw, if_neg (by omega), pushXfer, Nat.zero_div,
    transfer_div hw, if_pos (by omega), Nat.sub_zero, chunkStart, u32_chunkStart hu hi]

lemma loaded_y {i j : ℕ} (hi : i < dpus) (hj : j < inputSizeDpu8bytes n dpus B.sizeofT) :
    loaded n dpus x st i (inputSizeDpu8bytes n dpus B.sizeofT + j) =
      st.y (i * inputSizeDpu8bytes n dpus B.sizeofT + j) := by
  rw [loaded, pushXfer, transfer_div hw, if_pos (by omega), chunkStart, u32_chunkStart hu hi,
    Nat.add_sub_cancel_left]

/-- The chunks that are copied back are disjoint. -/
lemma retrieved_apply (heap : ℕ → ℕ → B.Elem) (y : ℕ → B.Elem) {m : ℕ} (hm : m ≤ dpus)
    {i j : ℕ} (hi : i < m) (hj : j < inputSizeDpu8bytes n dpus B.sizeofT) :
    retrieved n dpus heap y m (i * inputSizeDpu8bytes n dpus B.sizeofT + j) =
      heap i (inputSizeDpu8bytes n dpus B.sizeofT + j) := by
  induction m with
  | zero => exact absurd hi (Nat.not_lt_zero i)
  | succ m ih =>
    rw [retrieved, transfer_div hw, chunkStart, u32_chunkStart hu (by omega)]
    dsimp only
    by_cases him : i = m
    · rw [him, if_pos (by omega), Nat.add_sub_cancel_left]
    · have hnext : (i + 1) * inputSizeDpu8bytes n dpus B.sizeofT ≤
          m * inputSizeDpu8bytes n dpus B.sizeofT := Nat.mul_le_mul_right _ (by omega)
      rw [Nat.add_mul, Nat.one_mul] at hnext
      rw [if_neg (by omega)]
      exact ih (by omega) (by omega)

/-- Element k of the vector is among the processed elements of its DPU. -/
lemma lt_sizeOf {k : ℕ} (hd : 0 < dpus) (hk : k < n) :
    k / inputSizeDpu8bytes n dpus B.sizeofT < dpus ∧
    k % inputSizeDpu8bytes n dpus B.sizeofT <
      sizeOf n dpus B.sizeofT (k / inputSizeDpu8bytes n dpus B.sizeofT) / B.sizeofT := by
  have hle := hw.le_chunks B.sizeofT_pos hd
  have hpos := hw.inputSizeDpu8bytes_pos B.sizeofT_pos
  have hpn := padded_eq B.sizeofT n
  have hn8 := hw.inputSize8bytes_eq
  have hlt : k / inputSizeDpu8bytes n dpus B.sizeofT < dpus := by
    rw [Nat.div_lt_iff_lt_mul hpos, Nat.mul_comm]
    omega
  refine ⟨hlt,?_⟩
  rw [hw.sizeOf_div B.sizeofT_pos hu]
  have hmod := Nat.mod_lt k hpos
  have hdm := Nat.div_add_mod k (inputSizeDpu8bytes n dpus B.sizeofT)
  split_ifs with hi
  · exact hmod
  · rw [show k / inputSizeDpu8bytes n dpus B.sizeofT = dpus - 1 by omega] at hdm
    omega

/-- A repetition works on every element of the vector once. -/
lemma Repetition.apply (h : Repetition op n dpus x st st') {k : ℕ} (hd : 0 < dpus) (hk : k < n) :
    st'.y k = op.elem (x k) (st.y k) := by
  obtain ⟨hlt,hsize⟩ := lt_sizeOf hw hu hd hk
  have hmod := Nat.mod_lt k (hw.inputSizeDpu8bytes_pos B.sizeofT_pos)
  have hdm : k / inputSizeDpu8bytes n dpus B.sizeofT * inputSizeDpu8bytes n dpus B.sizeofT +
      k % inputSizeDpu8bytes n dpus B.sizeofT = k := Nat.div_add_mod' k _
  obtain ⟨steps,s,hrun,hfin,hheap⟩ := h.runs _ hlt
  obtain ⟨hmul,hdvd⟩ := sizeOf_elems hw hu (k / inputSizeDpu8bytes n dpus B.sizeofT)
  unfold KernelRun at hrun
  rw [transfer_eq hw, hmul, op.onDpu_eq] at hrun hfin
  have hread := retrieved_apply hw hu st'.heap st.y le_rfl hlt hmod
  rw [hdm] at hread
  rw [h.y, hread, hheap, worked_of_finished (hmul ▸ hdvd) hrun hfin hmod, if_pos hsize,
    loaded_x hw hu hlt hmod, loaded_y hw hu hlt hmod, hdm]

/-- The DPUs and the host stay in step. -/
lemma Repetitions.equal {reps : ℕ} (h : Repetitions op n dpus x st reps st') (hd : 0 < dpus)
    (h0 : ∀ k < n, st.y k = st.yHost k) : ∀ k < n, st'.y k = st'.yHost k := by
  induction reps generalizing st' with
  | zero =>
    obtain rfl : st' = st := h
    exact h0
  | succ reps ih =>
    obtain ⟨m,hm,hrep⟩ := h
    intro k hk
    rw [hrep.apply hw hu hd hk, hrep.yHost, op.onHost_apply, if_pos hk, ih hm k hk]

lemma exists_repetition (op : VectorOp B) (x : ℕ → B.Elem) (st : HostState B) :
    ∃ st', Repetition op n dpus x st st' := by
  have hrun : ∀ i, ∃ k s, KernelRun op n dpus x st i k s ∧ s.Finished
      (code B op.onDpu (sizeOf n dpus B.sizeofT i) (transferSize n dpus B.sizeofT))
      B.nrTasklets := fun i => by
    obtain ⟨hmul,hdvd⟩ := sizeOf_elems hw hu i
    unfold KernelRun
    rw [transfer_eq hw, hmul, op.onDpu_eq]
    exact exists_run B op.elem _ _ _ (hmul ▸ hdvd)
  choose k s hk hfin using hrun
  exact ⟨⟨retrieved n dpus (fun i => (s i).mem) st.y dpus,_,fun i => (s i).mem⟩,
    fun i _ => ⟨k i,s i,hk i,hfin i,rfl⟩,rfl,rfl⟩

lemma exists_repetitions (op : VectorOp B) (x : ℕ → B.Elem) (st : HostState B) (reps : ℕ) :
    ∃ st', Repetitions op n dpus x st reps st' := by
  induction reps with
  | zero => exact ⟨st,rfl⟩
  | succ reps ih =>
    obtain ⟨m,hm⟩ := ih
    obtain ⟨st',hst'⟩ := exists_repetition hw hu op x m
    exact ⟨st',m,hm,hst'⟩

/-- Along every schedule of a DPU the transfers have permitted sizes and stay in X and Y, nothing is
stuck and the run ends. -/
lemma KernelRun.sound {i k : ℕ} {s : Kernel B.Elem} (h : KernelRun op n dpus x st i k s) :
    (∀ t < B.nrTasklets, TransfersOk B (sizeOf n dpus B.sizeofT i) (s.pc t) ∧
      InReach B (sizeOf n dpus B.sizeofT i) (transferSize n dpus B.sizeofT)
        (transferSize n dpus B.sizeofT + sizeOf n dpus B.sizeofT i) (s.pc t)) ∧
    (s.Finished (code B op.onDpu (sizeOf n dpus B.sizeofT i) (transferSize n dpus B.sizeofT))
        B.nrTasklets ∨
      ∃ s', Tasklets.Step (code B op.onDpu (sizeOf n dpus B.sizeofT i)
        (transferSize n dpus B.sizeofT)) B.nrTasklets s s') ∧
    k ≤ (launch (loaded n dpus x st i)).total B.nrTasklets
      (rank (sizeOf n dpus B.sizeofT i)) := by
  obtain ⟨hmul,hdvd⟩ := sizeOf_elems hw hu i
  generalize sizeOf n dpus B.sizeofT i / B.sizeofT = elems at hmul
  unfold KernelRun at h
  rw [transfer_eq hw, hmul, op.onDpu_eq] at h ⊢
  rw [hmul] at hdvd
  exact ⟨fun t ht => ⟨transfers_ok hdvd h t ht,in_reach hdvd h t ht⟩,(invariant_of_run hdvd h).goes,
    run_ends hdvd h⟩

end Chunks

/-- What the program promises for its repetitions, from vectors with arbitrary contents past the
input and arbitrary MRAMs. -/
structure Works (op : VectorOp B) (n dpus : ℕ) (x y : ℕ → B.Elem) (heap : ℕ → ℕ → B.Elem)
    (reps : ℕ) : Prop where
  ends : ∃ st, Repetitions op n dpus x ⟨y,y,heap⟩ reps st
  equal : ∀ st, Repetitions op n dpus x ⟨y,y,heap⟩ reps st → ∀ k < n, st.y k = st.yHost k
  transfers : ∀ st, Repetitions op n dpus x ⟨y,y,heap⟩ reps st → ∀ i < dpus, ∀ k s,
    KernelRun op n dpus x st i k s →
    ∀ t < B.nrTasklets, TransfersOk B (sizeOf n dpus B.sizeofT i) (s.pc t) ∧
      InReach B (sizeOf n dpus B.sizeofT i) (transferSize n dpus B.sizeofT)
        (transferSize n dpus B.sizeofT + sizeOf n dpus B.sizeofT i) (s.pc t)
  schedules : ∀ st, Repetitions op n dpus x ⟨y,y,heap⟩ reps st → ∀ i < dpus, ∀ k s,
    KernelRun op n dpus x st i k s →
    (s.Finished (code B op.onDpu (sizeOf n dpus B.sizeofT i) (transferSize n dpus B.sizeofT))
        B.nrTasklets ∨
      ∃ s', Tasklets.Step (code B op.onDpu (sizeOf n dpus B.sizeofT i)
        (transferSize n dpus B.sizeofT)) B.nrTasklets s s') ∧
    k ≤ (launch (loaded n dpus x st i)).total B.nrTasklets (rank (sizeOf n dpus B.sizeofT i))

/-- For every input_size, number of DPUs and build for which the last size does not underflow and
two chunks fit in the 64 MB of the MRAM. The transfers reach to transfer_size + size, which on the
last DPU can be more than two chunks. -/
theorem vector_ops_correct (op : VectorOp B) (hn : n < 2 ^ 32) (hd : 1 ≤ dpus)
    (hm : 2 * (padded B.sizeofT (inputSizeDpu n dpus) * B.sizeofT) ≤ 2 ^ 26)
    (hu : inputSizeDpu8bytes n dpus B.sizeofT * (dpus - 1) ≤ inputSize8bytes n B.sizeofT)
    (x y : ℕ → B.Elem) (heap : ℕ → ℕ → B.Elem) (reps : ℕ) :
    Works op n dpus x y heap reps := by
  have hs8 : B.sizeofT ≤ 8 := Nat.pow_le_pow_right (by decide) B.div_le
  have hw := noWrap_of_mram B.sizeofT_pos hs8 hd hn (by omega) hu
  exact ⟨exists_repetitions hw hu op x _ reps,fun st h => h.equal hw hu hd fun _ _ => rfl,
    fun st _ i _ k s h => (h.sound hw hu).1,fun st _ i _ k s h => (h.sound hw hu).2⟩

/-- Nine elements on two DPUs, three repetitions of a division. -/
theorem vector_ops_nine : Works
    (.arithm .div : VectorOp ⟨2,8,3,by decide,by decide,by decide,by decide⟩) 9 2
    (fun k => BitVec.ofNat _ (7 * k)) (fun k => BitVec.ofNat _ k) (fun _ _ => 1) 3 :=
  vector_ops_correct (.arithm .div) (by decide) (by decide) (by decide) (by decide) _ _ _ 3

end
end CaLabs.Lab3.Vector
