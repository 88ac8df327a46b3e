import CaLabs.Lab3.Blocks
import CaLabs.Lib.Tasklets

/-! The kernels of tasks 2 and 3 of lab 3 on one DPU: each tasklet reads blocks of X and Y, works
on them in its WRAM and writes the blocks of Y back. -/
namespace CaLabs.Lab3.Vector
open Lib

/-- The loop of the functions on vectors: elements 0 to l - 1 of bufferY, in place. -/
def elementwise {T : Type*} (f : T → T → T) (bufferY bufferX : ℕ → T) : ℕ → ℕ → T
  | 0 => bufferY
  | l+1 => Function.update (elementwise f bufferY bufferX l) l (f (bufferX l) (bufferY l))

lemma elementwise_apply {T : Type*} (f : T → T → T) (y x : ℕ → T) (l j : ℕ) :
    elementwise f y x l j = if j < l then f (x j) (y j) else y j := by
  induction l with
  | zero => rfl
  | succ l ih =>
    by_cases hj : j = l
    · rw [hj, elementwise, Function.update_self, if_pos (Nat.lt_succ_self l)]
    · have hiff : j < l + 1 ↔ j < l := by omega
      rw [elementwise, Function.update_of_ne hj, ih]
      simp only [hiff]

/-- The macro OP of task 3. -/
inductive Op where
  | add | sub | mult | div

section Functions
variable {B : Build}

namespace Task2

/-- axpy, on a block of a DPU. -/
def axpy (bufferY bufferX : ℕ → B.Elem) (alpha : B.Elem) (lSize : ℕ) : ℕ → B.Elem :=
  elementwise (fun x y => alpha * x + y) bufferY bufferX lSize

def axpyHost (a b : ℕ → B.Elem) (alpha : B.Elem) (nrElements : ℕ) : ℕ → B.Elem :=
  elementwise (fun x y => alpha * x + y) b a nrElements

end Task2

namespace Task3

/-- arithm_op, on a block of a DPU. -/
def arithmOp (op : Op) (bufferY bufferX : ℕ → B.Elem) (lSize : ℕ) : ℕ → B.Elem :=
  match op with
  | .add => elementwise (fun x y => x + y) bufferY bufferX lSize
  | .sub => elementwise (fun x y => x - y) bufferY bufferX lSize
  | .mult => elementwise (fun x y => x * y) bufferY bufferX lSize
  | .div => elementwise (fun x y => if y ≠ 0 then x.sdiv y else 0) bufferY bufferX lSize

/-- The host's function kept its name. -/
def axpyHost (op : Op) (a b : ℕ → B.Elem) (nrElements : ℕ) : ℕ → B.Elem :=
  match op with
  | .add => elementwise (fun x y => x + y) b a nrElements
  | .sub => elementwise (fun x y => x - y) b a nrElements
  | .mult => elementwise (fun x y => x * y) b a nrElements
  | .div => elementwise (fun x y => if y ≠ 0 then x.sdiv y else 0) b a nrElements

end Task3
end Functions

/-- The programs of tasks 2 and 3. -/
inductive VectorOp (B : Build) where
  | axpy (alpha : B.Elem) | arithm (op : Op)

namespace VectorOp
variable {B : Build}

/-- The call in main_kernel1. -/
def onDpu : VectorOp B → (ℕ → B.Elem) → (ℕ → B.Elem) → ℕ → ℕ → B.Elem
  | axpy alpha,bufferY,bufferX,numElems => Task2.axpy bufferY bufferX alpha numElems
  | arithm op,bufferY,bufferX,numElems => Task3.arithmOp op bufferY bufferX numElems

/-- The call in the main of the host. -/
def onHost : VectorOp B → (ℕ → B.Elem) → (ℕ → B.Elem) → ℕ → ℕ → B.Elem
  | axpy alpha,x,yHost,inputSize => Task2.axpyHost x yHost alpha inputSize
  | arithm op,x,yHost,inputSize => Task3.axpyHost op x yHost inputSize

/-- What either does to one element. -/
def elem : VectorOp B → B.Elem → B.Elem → B.Elem
  | axpy alpha,x,y => alpha * x + y
  | arithm .add,x,y => x + y
  | arithm .sub,x,y => x - y
  | arithm .mult,x,y => x * y
  | arithm .div,x,y => if y ≠ 0 then x.sdiv y else 0

lemma onDpu_eq (op : VectorOp B) : op.onDpu = elementwise op.elem := by
  cases op with
  | axpy alpha => rfl
  | arithm op => cases op <;> rfl

lemma onHost_apply (op : VectorOp B) (x y : ℕ → B.Elem) (n k : ℕ) :
    op.onHost x y n k = if k < n then op.elem (x k) (y k) else y k := by
  cases op with
  | axpy alpha => exact elementwise_apply _ y x n k
  | arithm op => cases op <;> exact elementwise_apply _ y x n k

end VectorOp

section
variable {T : Type*}

/-- The places of a tasklet, with its byte_index and the blocks in its WRAM. -/
inductive Pc (T : Type*) where
  | start | loop (byteIndex : ℕ)
  | readX (byteIndex : ℕ) | readY (byteIndex : ℕ) (x : ℕ → T)
  | compute (byteIndex : ℕ) (x y : ℕ → T) | write (byteIndex : ℕ) (y : ℕ → T)
  | returned | aborted

variable (B : Build) (work : (ℕ → T) → (ℕ → T) → ℕ → ℕ → T) (size transfer : ℕ)

/-- num_elems. -/
def numElems (byteIndex : ℕ) : ℕ := B.actTfSize size byteIndex / B.sizeofT

/-- Tasklet i of main_kernel1 with its call of axpy or arithm_op, on the elements of the MRAM from
DPU_MRAM_HEAP_POINTER on: all addresses are multiples of sizeof(T). -/
def code (i : ℕ) : Pc T → Action (Pc T) (ℕ → T)
  | .start => .barrier (.loop (i * 2 ^ B.blockSizeLog2))
  | .loop byteIndex => .step fun m =>
      (if byteIndex < size then
        if TransferOk (B.actTfSize size byteIndex) then .readX byteIndex else .aborted
      else .returned,m)
  | .readX byteIndex => .step fun m =>
      (.readY byteIndex fun j => m (byteIndex / B.sizeofT + j),m)
  | .readY byteIndex x => .step fun m =>
      (.compute byteIndex x fun j => m ((transfer + byteIndex) / B.sizeofT + j),m)
  | .compute byteIndex x y => .step fun m =>
      (.write byteIndex (work y x (numElems B size byteIndex)),m)
  | .write byteIndex y => .step fun m =>
      (.loop (byteIndex + B.blockSize * B.nrTasklets),fun a =>
        if (transfer + byteIndex) / B.sizeofT ≤ a ∧
            a < (transfer + byteIndex) / B.sizeofT + numElems B size byteIndex then
          y (a - (transfer + byteIndex) / B.sizeofT)
        else m a)
  | .returned | .aborted => .done

abbrev Kernel (T : Type*) := Tasklets (Pc T) (ℕ → T)

/-- The launch of the kernel on the contents of the MRAM. -/
def launch (m : ℕ → T) : Kernel T where
  pc := fun _ => .start
  mem := m

/-- The barriers that a tasklet has passed. -/
def epoch : Pc T → ℕ
  | .start => 0
  | _ => 1

/-- A tasklet has written the blocks of its own that start below byte b. -/
def Past (b : ℕ) : Pc T → Prop
  | .start | .aborted => False
  | .returned => True
  | .loop byteIndex | .readX byteIndex | .readY byteIndex _ | .compute byteIndex _ _
  | .write byteIndex _ => b < byteIndex

end

section
variable {T : Type*} (B : Build) (f : T → T → T) (n d : ℕ) (m₀ : ℕ → T)

/-- One of the blocks of tasklet i. -/
def OwnBlock (i byteIndex : ℕ) : Prop :=
  ∃ q, q % B.nrTasklets = i ∧ byteIndex = q * B.blockSize

/-- What the WRAM of tasklet i holds, where the chunks of X and Y have d elements and the first n
are processed. Past the chunk of X its block may reach into that of Y. -/
def Own (i : ℕ) : Pc T → Prop
  | .start | .returned => True
  | .loop b => OwnBlock B i b
  | .readX b => OwnBlock B i b ∧ b < B.sizeofT * n
  | .readY b x => OwnBlock B i b ∧ b < B.sizeofT * n ∧
      ∀ j, b / B.sizeofT + j < d → x j = m₀ (b / B.sizeofT + j)
  | .compute b x y => OwnBlock B i b ∧ b < B.sizeofT * n ∧
      (∀ j, b / B.sizeofT + j < d → x j = m₀ (b / B.sizeofT + j)) ∧
      ∀ j < numElems B (B.sizeofT * n) b, b / B.sizeofT + j < d →
        y j = m₀ (d + (b / B.sizeofT + j))
  | .write b y => OwnBlock B i b ∧ b < B.sizeofT * n ∧
      ∀ j < numElems B (B.sizeofT * n) b, b / B.sizeofT + j < d →
        y j = f (m₀ (b / B.sizeofT + j)) (m₀ (d + (b / B.sizeofT + j)))
  | .aborted => False

/-- The tasklet that owns an element has written its block. -/
def Written (s : Kernel T) (j : ℕ) : Prop :=
  j < n ∧ Past (j / B.blockElems * B.blockSize) (s.pc (j / B.blockElems % B.nrTasklets))

/-- Every element of the chunk of Y has been worked on once or not at all. -/
structure Worked (s : Kernel T) : Prop where
  x : ∀ j < d, s.mem j = m₀ j
  written : ∀ j < d, Written B n s j → s.mem (d + j) = f (m₀ j) (m₀ (d + j))
  unwritten : ∀ j < d, ¬ Written B n s j → s.mem (d + j) = m₀ (d + j)

structure Invariant (s : Kernel T) : Prop where
  same : s.SameEpoch B.nrTasklets epoch
  own : ∀ i < B.nrTasklets, Own B f n d m₀ i (s.pc i)
  worked : Worked B f n d m₀ s

variable {B f n d m₀} {s s' : Kernel T}

lemma block_div (q : ℕ) : q * B.blockSize / B.sizeofT = q * B.blockElems := by
  rw [B.blockSize_eq, Nat.mul_left_comm, Nat.mul_div_cancel_left _ B.sizeofT_pos]

lemma block_div_y (q : ℕ) :
    (B.sizeofT * d + q * B.blockSize) / B.sizeofT = d + q * B.blockElems := by
  rw [B.blockSize_eq, Nat.mul_left_comm q, ← Nat.mul_add, Nat.mul_div_cancel_left _ B.sizeofT_pos]

lemma numElems_block (q : ℕ) : numElems B (B.sizeofT * n) (q * B.blockSize) =
    min B.blockElems (n - q * B.blockElems) := by
  rw [numElems, B.blockSize_eq, Nat.mul_left_comm, B.actTfSize_mul,
    Nat.mul_div_cancel_left _ B.sizeofT_pos]

/-- A block holds the elements whose quotient is its number. -/
lemma mem_block (q j : ℕ) : (q * B.blockElems ≤ j ∧
    j < q * B.blockElems + min B.blockElems (n - q * B.blockElems)) ↔
      j < n ∧ j / B.blockElems = q := by
  have h := Finset.ext_iff.mp (filter_block B n q) j
  rw [Finset.mem_filter, Finset.mem_range, Finset.mem_Ico] at h
  exact h.symm

lemma Worked.congr (h : Worked B f n d m₀ s) (hmem : s'.mem = s.mem)
    (hw : ∀ j, Written B n s' j ↔ Written B n s j) : Worked B f n d m₀ s' where
  x j hj := by
    rw [hmem]
    exact h.x j hj
  written j hj hjw := by
    rw [hmem]
    exact h.written j hj ((hw j).mp hjw)
  unwritten j hj hjw := by
    rw [hmem]
    exact h.unwritten j hj fun hw' => hjw ((hw j).mpr hw')

/-- A step of tasklet i that writes nothing. -/
lemma Worked.move (h : Worked B f n d m₀ s) {i : ℕ} {p : Pc T} {holder : Option ℕ}
    (hp : ∀ j < n, j / B.blockElems % B.nrTasklets = i →
      (Past (j / B.blockElems * B.blockSize) p ↔
        Past (j / B.blockElems * B.blockSize) (s.pc i))) :
    Worked B f n d m₀ ⟨Function.update s.pc i p,s.mem,holder⟩ := by
  refine h.congr rfl fun j => and_congr_right fun hj => ?_
  change Past _ (Function.update s.pc i p _) ↔ _
  by_cases hi : j / B.blockElems % B.nrTasklets = i
  · rw [hi, Function.update_self]
    exact hp j hj hi
  · rw [Function.update_of_ne hi]

lemma blockSize_pos : 0 < B.blockSize := Nat.two_pow_pos _

/-- The blocks of a tasklet below its next one are those below its block and the block itself. -/
lemma past_next {p q : ℕ} (hmod : p % B.nrTasklets = q % B.nrTasklets) :
    p * B.blockSize < q * B.blockSize + B.blockSize * B.nrTasklets ↔
      p = q ∨ p * B.blockSize < q * B.blockSize := by
  have hpos : 0 < B.blockSize := blockSize_pos
  have hnt := B.nrTasklets_pos
  have hnext : q * B.blockSize + B.blockSize * B.nrTasklets =
      (q + B.nrTasklets) * B.blockSize := by
    rw [Nat.add_mul, Nat.mul_comm B.blockSize]
  rw [hnext, Nat.mul_lt_mul_right hpos, Nat.mul_lt_mul_right hpos]
  by_cases hpq : p = q
  · omega
  · have hiff := from_block_iff B.nrTasklets hpq
    rw [Nat.add_mod_right] at hiff
    omega

/-- A block is written back. -/
lemma Worked.write (h : Worked B f n d m₀ s) {q : ℕ} {y : ℕ → T} {holder : Option ℕ}
    (hpc : s.pc (q % B.nrTasklets) = .write (q * B.blockSize) y)
    (hy : ∀ j < min B.blockElems (n - q * B.blockElems), q * B.blockElems + j < d →
      y j = f (m₀ (q * B.blockElems + j)) (m₀ (d + (q * B.blockElems + j)))) :
    Worked B f n d m₀
      ⟨Function.update s.pc (q % B.nrTasklets)
        (.loop (q * B.blockSize + B.blockSize * B.nrTasklets)),
      fun a => if d + q * B.blockElems ≤ a ∧
          a < d + q * B.blockElems + min B.blockElems (n - q * B.blockElems) then
        y (a - (d + q * B.blockElems)) else s.mem a,holder⟩ := by
  have hrange : ∀ j, (d + q * B.blockElems ≤ d + j ∧
      d + j < d + q * B.blockElems + min B.blockElems (n - q * B.blockElems)) ↔
        j < n ∧ j / B.blockElems = q := fun j => by
    rw [← mem_block]
    omega
  have hwritten : ∀ j, Written B n ⟨Function.update s.pc (q % B.nrTasklets)
      (.loop (q * B.blockSize + B.blockSize * B.nrTasklets)),s.mem,holder⟩ j ↔
        (j < n ∧ j / B.blockElems = q) ∨ Written B n s j := by
    intro j
    unfold Written
    dsimp only
    by_cases hi : j / B.blockElems % B.nrTasklets = q % B.nrTasklets
    · rw [hi, Function.update_self, hpc]
      have hnext := past_next (B := B) hi
      simp only [Past, hnext]
      tauto
    · have hne : j / B.blockElems ≠ q := fun he => hi (by rw [he])
      rw [Function.update_of_ne hi]
      tauto
  refine ⟨fun j hj => ?_,fun j hj hjw => ?_,fun j hj hjw => ?_⟩
  · dsimp only
    rw [if_neg (by omega)]
    exact h.x j hj
  · dsimp only
    by_cases hin : j < n ∧ j / B.blockElems = q
    · have hmem := (hrange j).mpr hin
      have hsub : d + j - (d + q * B.blockElems) = j - q * B.blockElems := by omega
      have hback : q * B.blockElems + (j - q * B.blockElems) = j := by omega
      have hval := hy (j - q * B.blockElems) (by omega) (by omega)
      rw [if_pos hmem, hsub, hval, hback]
    · rw [if_neg ((hrange j).not.mpr hin)]
      exact h.written j hj (((hwritten j).mp hjw).resolve_left hin)
  · have hnot := (not_congr (hwritten j)).mp hjw
    push Not at hnot
    dsimp only
    rw [if_neg ((hrange j).not.mpr fun hin => hnot.1 hin.1 hin.2)]
    exact h.unwritten j hj hnot.2

/-- The element of the DPU's chunk that lies at place j of block q. -/
lemma block_quotient {q j : ℕ} (hj : j < min B.blockElems (n - q * B.blockElems)) :
    q * B.blockElems + j < n ∧ (q * B.blockElems + j) / B.blockElems = q :=
  (mem_block q _).mp ⟨Nat.le_add_right _ _,by omega⟩

lemma epoch_start {p : Pc T} (hp : p ≠ .start) : epoch p = 1 := by
  cases p with
  | start => exact absurd rfl hp
  | _ => rfl

/-- What tasklet i does by itself. -/
lemma Invariant.own_step (h : Invariant B f n d m₀ s) (hsize : 8 ∣ B.sizeofT * n) {i : ℕ}
    (hi : i < B.nrTasklets) {g : (ℕ → T) → Pc T × (ℕ → T)}
    (hc : code B (elementwise f) (B.sizeofT * n) (B.sizeofT * d) i (s.pc i) = .step g) :
    epoch (g s.mem).1 = epoch (s.pc i) ∧ Own B f n d m₀ i (g s.mem).1 ∧
      Worked B f n d m₀ ⟨Function.update s.pc i (g s.mem).1,(g s.mem).2,s.holder⟩ := by
  have hown := h.own i hi
  cases hpc : s.pc i with
  | start | returned | aborted =>
    rw [hpc] at hc
    cases hc
  | loop b =>
    rw [hpc] at hc hown
    cases hc
    obtain ⟨q,rfl,rfl⟩ := hown
    by_cases hb : q * B.blockSize < B.sizeofT * n
    · have hok := B.transferOk hsize (B.eight_dvd_blockSize.mul_left q) hb
      simp only [if_pos hb, if_pos hok]
      exact ⟨rfl,⟨⟨q,rfl,rfl⟩,hb⟩,h.worked.move fun j _ _ => by rw [hpc]; exact Iff.rfl⟩
    · simp only [if_neg hb]
      refine ⟨rfl,trivial,h.worked.move fun j hj _ => ?_⟩
      rw [hpc]
      have hle : j / B.blockElems * B.blockElems ≤ j := Nat.div_mul_le_self j _
      have hlt := Nat.mul_lt_mul_of_pos_left (lt_of_le_of_lt hle hj) B.sizeofT_pos
      rw [Nat.mul_left_comm, ← B.blockSize_eq] at hlt
      exact ⟨fun _ => lt_of_lt_of_le hlt (not_lt.mp hb),fun _ => trivial⟩
  | readX b =>
    rw [hpc] at hc hown
    cases hc
    obtain ⟨hblock,hb⟩ := hown
    exact ⟨rfl,⟨hblock,hb,fun j hj => h.worked.x _ hj⟩,
      h.worked.move fun j _ _ => by rw [hpc]; exact Iff.rfl⟩
  | readY b x =>
    rw [hpc] at hc hown
    cases hc
    obtain ⟨⟨q,hq,rfl⟩,hb,hx⟩ := hown
    refine ⟨rfl,⟨⟨q,hq,rfl⟩,hb,hx,fun j hj hjd => ?_⟩,
      h.worked.move fun j _ _ => by rw [hpc]; exact Iff.rfl⟩
    rw [numElems_block] at hj
    rw [block_div] at hjd ⊢
    rw [block_div_y]
    dsimp only
    rw [Nat.add_assoc]
    refine h.worked.unwritten _ hjd fun hw => ?_
    -- the block is still its own
    have hpast := hw.2
    rw [(block_quotient hj).2, hq, hpc] at hpast
    exact absurd hpast (lt_irrefl _)
  | compute b x y =>
    rw [hpc] at hc hown
    cases hc
    obtain ⟨hblock,hb,hx,hy⟩ := hown
    refine ⟨rfl,⟨hblock,hb,fun j hj hjd => ?_⟩,
      h.worked.move fun j _ _ => by rw [hpc]; exact Iff.rfl⟩
    rw [elementwise_apply, if_pos hj, hx j hjd, hy j hj hjd]
  | write b y =>
    rw [hpc] at hc hown
    cases hc
    obtain ⟨⟨q,rfl,rfl⟩,hb,hy⟩ := hown
    have hnext : q * B.blockSize + B.blockSize * B.nrTasklets =
        (q + B.nrTasklets) * B.blockSize := by
      rw [Nat.add_mul, Nat.mul_comm B.blockSize]
    refine ⟨rfl,⟨q + B.nrTasklets,Nat.add_mod_right _ _,hnext⟩,?_⟩
    rw [numElems_block, block_div] at hy
    simp only [block_div_y, numElems_block]
    exact h.worked.write hpc hy

/-- The barrier before the loops. -/
lemma Own.barrier {i : ℕ} {p q : Pc T}
    (hc : code B (elementwise f) (B.sizeofT * n) (B.sizeofT * d) i p = .barrier q) :
    p = .start ∧ q = .loop (i * B.blockSize) := by
  cases p with
  | start =>
    cases hc
    exact ⟨rfl,rfl⟩
  | loop b | readX b | readY b x | compute b x y | write b y | returned | aborted => cases hc

/-- Only the barrier orders the tasklets. -/
lemma code_cases (i : ℕ) (p : Pc T) :
    (∃ g, code B (elementwise f) (B.sizeofT * n) (B.sizeofT * d) i p = .step g) ∨
    (∃ q, code B (elementwise f) (B.sizeofT * n) (B.sizeofT * d) i p = .barrier q) ∨
    code B (elementwise f) (B.sizeofT * n) (B.sizeofT * d) i p = .done := by
  cases p with
  | start => exact .inr (.inl ⟨_,rfl⟩)
  | returned | aborted => exact .inr (.inr rfl)
  | loop b | readX b | readY b x | compute b x y | write b y => exact .inl ⟨_,rfl⟩

theorem Invariant.step (h : Invariant B f n d m₀ s) (hsize : 8 ∣ B.sizeofT * n)
    (hs : Tasklets.Step (code B (elementwise f) (B.sizeofT * n) (B.sizeofT * d)) B.nrTasklets
      s s') :
    Invariant B f n d m₀ s' := by
  cases hs with
  | @own i g hi hc =>
    obtain ⟨he,hown,hworked⟩ := h.own_step hsize hi hc
    exact ⟨h.same.update he,Tasklets.forall_update _ (fun j hj _ => h.own j hj) hown,hworked⟩
  | @barrier next hc =>
    have hb := fun i hi => Own.barrier (hc i hi)
    refine ⟨h.same.barrier fun i hi => ?_,fun i hi => ?_,h.worked.congr rfl fun j => ?_⟩
    · rw [(hb i hi).1, (hb i hi).2]
      rfl
    · simp only [if_pos hi, (hb i hi).2]
      exact ⟨i,Nat.mod_eq_of_lt hi,rfl⟩
    · have hlt := Nat.mod_lt (j / B.blockElems) B.nrTasklets_pos
      refine and_congr_right fun _ => ?_
      simp only [if_pos hlt, (hb _ hlt).1, (hb _ hlt).2]
      have hle := Nat.mul_le_mul_right B.blockSize (Nat.mod_le (j / B.blockElems) B.nrTasklets)
      exact ⟨fun hpast => absurd hpast (not_lt.mpr hle),fun hno => hno.elim⟩
  | @handshake i j p q _ _ hc _ =>
    obtain ⟨g,hg⟩ | ⟨g,hg⟩ | hg := code_cases (B := B) (f := f) (n := n) (d := d) i (s.pc i)
    all_goals rw [hg] at hc
    all_goals cases hc
  | @lock i p _ hc _ | @unlock i p _ hc _ =>
    obtain ⟨g,hg⟩ | ⟨g,hg⟩ | hg := code_cases (B := B) (f := f) (n := n) (d := d) i (s.pc i)
    all_goals rw [hg] at hc
    all_goals cases hc

/-- No state is stuck. -/
lemma Invariant.goes (h : Invariant B f n d m₀ s) :
    s.Finished (code B (elementwise f) (B.sizeofT * n) (B.sizeofT * d)) B.nrTasklets ∨
      ∃ s', Tasklets.Step (code B (elementwise f) (B.sizeofT * n) (B.sizeofT * d)) B.nrTasklets
        s s' := by
  by_cases hstep : ∃ i < B.nrTasklets, ∃ g,
      code B (elementwise f) (B.sizeofT * n) (B.sizeofT * d) i (s.pc i) = .step g
  · obtain ⟨i,hi,g,hg⟩ := hstep
    exact .inr ⟨_,.own hi hg⟩
  push Not at hstep
  by_cases hstart : ∃ i < B.nrTasklets, s.pc i = .start
  · obtain ⟨i,hi,hpc⟩ := hstart
    refine .inr ⟨_,@Tasklets.Step.barrier _ _ _ _ s (fun j => .loop (j * 2 ^ B.blockSizeLog2))
      fun j hj => ?_⟩
    by_cases hj0 : s.pc j = .start
    · rw [hj0]
      rfl
    · have he := h.same i hi j hj
      rw [epoch_start hj0, hpc] at he
      exact (Nat.zero_ne_one he).elim
  · push Not at hstart
    refine .inl fun i hi => ?_
    obtain ⟨g,hg⟩ | ⟨q,hq⟩ | hd := code_cases (B := B) (f := f) (n := n) (d := d) i (s.pc i)
    · exact absurd hg (hstep i hi g)
    · exact absurd (Own.barrier hq).1 (hstart i hi)
    · exact hd

/-- Every step lowers the rank, as byte_index grows. -/
def rank (size : ℕ) : Pc T → ℕ
  | .start => 5 * size + 6
  | .loop b => 5 * (size - b) + 5
  | .readX b => 5 * (size - b) + 4
  | .readY b _ => 5 * (size - b) + 3
  | .compute b _ _ => 5 * (size - b) + 2
  | .write b _ => 5 * (size - b) + 1
  | .returned | .aborted => 0

lemma Invariant.falls (h : Invariant B f n d m₀ s) :
    s.Falls (code B (elementwise f) (B.sizeofT * n) (B.sizeofT * d)) B.nrTasklets
      (rank (B.sizeofT * n)) := by
  intro i hi
  have hown := h.own i hi
  have hpos := B.stride_pos
  cases hpc : s.pc i with
  | start | readX b | readY b x | compute b x y => simp only [code, rank]; omega
  | loop b =>
    simp only [code]
    split_ifs <;> simp only [rank] <;> omega
  | write b y =>
    rw [hpc] at hown
    have hb := hown.2.1
    simp only [code, rank]
    omega
  | returned | aborted => trivial

/-- The transfer that a tasklet makes next has a permitted size. -/
def TransfersOk (B : Build) (size : ℕ) : Pc T → Prop
  | .readX b | .readY b _ | .write b _ => TransferOk (B.actTfSize size b)
  | .aborted => False
  | _ => True

/-- The bytes that a tasklet transfers next lie in the given number of bytes from
DPU_MRAM_HEAP_POINTER on. -/
def InReach (B : Build) (size transfer reach : ℕ) : Pc T → Prop
  | .readX b => b + B.actTfSize size b ≤ reach
  | .readY b _ | .write b _ => transfer + b + B.actTfSize size b ≤ reach
  | _ => True

lemma invariant_launch : Invariant B f n d m₀ (launch m₀) where
  same _ _ _ _ := rfl
  own _ _ := trivial
  worked := ⟨fun _ _ => rfl,fun _ _ hw => hw.2.elim,fun _ _ _ => rfl⟩

/-- Every state of a run satisfies the invariant. -/
theorem invariant_of_run (hsize : 8 ∣ B.sizeofT * n) {k : ℕ} (h : Tasklets.Run
    (code B (elementwise f) (B.sizeofT * n) (B.sizeofT * d)) B.nrTasklets (launch m₀) k s) :
    Invariant B f n d m₀ s :=
  h.invariant invariant_launch fun _ _ ha hs => ha.step hsize hs

lemma OwnBlock.transferOk {i b : ℕ} (h : OwnBlock B i b) (hsize : 8 ∣ B.sizeofT * n)
    (hb : b < B.sizeofT * n) : TransferOk (B.actTfSize (B.sizeofT * n) b) := by
  obtain ⟨q,-,rfl⟩ := h
  exact B.transferOk hsize (B.eight_dvd_blockSize.mul_left q) hb

/-- In every state of a run the transfers that come next have a permitted size, and no assertion
has failed. -/
theorem transfers_ok (hsize : 8 ∣ B.sizeofT * n) {k : ℕ} (h : Tasklets.Run
    (code B (elementwise f) (B.sizeofT * n) (B.sizeofT * d)) B.nrTasklets (launch m₀) k s) :
    ∀ i < B.nrTasklets, TransfersOk B (B.sizeofT * n) (s.pc i) := by
  intro i hi
  have hown := (invariant_of_run hsize h).own i hi
  cases hpc : s.pc i with
  | readX b =>
    rw [hpc] at hown
    exact hown.1.transferOk hsize hown.2
  | readY b x | write b y =>
    rw [hpc] at hown
    exact hown.1.transferOk hsize hown.2.1
  | aborted =>
    rw [hpc] at hown
    exact hown.elim
  | start | loop b | compute b x y | returned => trivial

/-- The tasklets stay in the bytes of X and Y that the DPU is told to process. -/
theorem in_reach (hsize : 8 ∣ B.sizeofT * n) {k : ℕ} (h : Tasklets.Run
    (code B (elementwise f) (B.sizeofT * n) (B.sizeofT * d)) B.nrTasklets (launch m₀) k s) :
    ∀ i < B.nrTasklets, InReach B (B.sizeofT * n) (B.sizeofT * d)
      (B.sizeofT * d + B.sizeofT * n) (s.pc i) := by
  intro i hi
  have hown := (invariant_of_run hsize h).own i hi
  have hend : ∀ b, b < B.sizeofT * n → b + B.actTfSize (B.sizeofT * n) b ≤ B.sizeofT * n := by
    intro b hb
    unfold Build.actTfSize
    split_ifs <;> omega
  cases hpc : s.pc i with
  | readX b =>
    rw [hpc] at hown
    exact (hend b hown.2).trans (Nat.le_add_left _ _)
  | readY b x | write b y =>
    rw [hpc] at hown
    have hle := hend b hown.2.1
    simp only [InReach]
    omega
  | aborted | start | loop b | compute b x y | returned => trivial

/-- When all tasklets have returned, the processed elements of the chunk of Y have been worked on
and the others are as before. -/
theorem worked_of_finished (hsize : 8 ∣ B.sizeofT * n) {k : ℕ} (h : Tasklets.Run
    (code B (elementwise f) (B.sizeofT * n) (B.sizeofT * d)) B.nrTasklets (launch m₀) k s)
    (hfin : s.Finished (code B (elementwise f) (B.sizeofT * n) (B.sizeofT * d)) B.nrTasklets)
    {j : ℕ} (hj : j < d) : s.mem (d + j) = if j < n then f (m₀ j) (m₀ (d + j)) else m₀ (d + j) := by
  have hinv := invariant_of_run hsize h
  by_cases hjn : j < n
  · rw [if_pos hjn]
    refine hinv.worked.written j hj ⟨hjn,?_⟩
    have hlt := Nat.mod_lt (j / B.blockElems) B.nrTasklets_pos
    have hown := hinv.own _ hlt
    have hdone := hfin _ hlt
    cases hpc : s.pc (j / B.blockElems % B.nrTasklets) with
    | returned => trivial
    | aborted =>
      rw [hpc] at hown
      exact hown.elim
    | start | loop b | readX b | readY b x | compute b x y | write b y =>
      rw [hpc] at hdone
      cases hdone
  · rw [if_neg hjn]
    exact hinv.worked.unwritten j hj fun hw => hjn hw.1

/-- Every schedule ends. -/
theorem run_ends (hsize : 8 ∣ B.sizeofT * n) {k : ℕ} (h : Tasklets.Run
    (code B (elementwise f) (B.sizeofT * n) (B.sizeofT * d)) B.nrTasklets (launch m₀) k s) :
    k ≤ (launch m₀).total B.nrTasklets (rank (B.sizeofT * n)) := by
  have hle := h.length_le B.nrTasklets_pos invariant_launch
    (fun a b (ha : Invariant B f n d m₀ a) hs => ha.step hsize hs) fun a ha => ha.falls
  omega

/-- There is a schedule to the end. -/
theorem exists_run (B : Build) (f : T → T → T) (n d : ℕ) (m₀ : ℕ → T)
    (hsize : 8 ∣ B.sizeofT * n) : ∃ k s, Tasklets.Run
      (code B (elementwise f) (B.sizeofT * n) (B.sizeofT * d)) B.nrTasklets (launch m₀) k s ∧
      s.Finished (code B (elementwise f) (B.sizeofT * n) (B.sizeofT * d)) B.nrTasklets :=
  Tasklets.exists_finished (I := Invariant B f n d m₀) B.nrTasklets_pos
    (fun _ _ ha hs => ha.step hsize hs) (fun _ ha => ha.falls) (fun _ ha => ha.goes) _
    invariant_launch rfl

end
end CaLabs.Lab3.Vector
