import CaLabs.Mips.Execute

/-! The little-endian byte memory behind the word accesses of the simulators. -/
namespace CaLabs.Mips

/-- Byte k of a word, counted from the low end. -/
def byteOf (k : ℕ) (x : Word) : Byte := x.extractLsb' (8*k) 8

lemma getLsbD_byteOf (k : ℕ) (x : Word) (i : ℕ) :
    (byteOf k x).getLsbD i = (decide (i < 8) && x.getLsbD (8*k+i)) :=
  BitVec.getLsbD_extractLsb' ..

/-- A word is determined by its four bytes. -/
lemma eq_of_byteOf {x y : Word} (h : ∀ k < 4, byteOf k x = byteOf k y) : x = y := by
  apply BitVec.eq_of_getLsbD_eq
  intro i hi
  have hk := congrArg (fun b => b.getLsbD (i % 8)) (h (i/8) (by omega))
  simp only [getLsbD_byteOf, Nat.mod_lt i (by decide : 8 > 0), decide_true, Bool.true_and,
    Nat.div_add_mod] at hk
  exact hk

@[simp] lemma byteOf_or (k : ℕ) (x y : Word) : byteOf k (x ||| y) = byteOf k x ||| byteOf k y :=
  BitVec.extractLsb'_or

@[simp] lemma byteOf_and (k : ℕ) (x y : Word) : byteOf k (x &&& y) = byteOf k x &&& byteOf k y :=
  BitVec.extractLsb'_and

/-- Shifts by whole bytes. -/
lemma byteOf_ushiftRight (k j : ℕ) (x : Word) : byteOf k (x >>> (8*j)) = byteOf (k+j) x := by
  apply BitVec.eq_of_getLsbD_eq
  intro i hi
  rw [getLsbD_byteOf, getLsbD_byteOf, BitVec.getLsbD_ushiftRight,
    show 8*j + (8*k+i) = 8*(k+j)+i by ring]

lemma byteOf_shiftLeft {k : ℕ} (hk : k < 4) (j : ℕ) (x : Word) :
    byteOf k (x <<< (8*j)) = if j ≤ k then byteOf (k-j) x else 0 := by
  apply BitVec.eq_of_getLsbD_eq
  intro i hi
  rw [getLsbD_byteOf, BitVec.getLsbD_shiftLeft]
  split_ifs with hj
  · have h1 : 8*k+i < 32 := by omega
    have h2 : ¬8*k+i < 8*j := by omega
    rw [getLsbD_byteOf, show 8*k+i - 8*j = 8*(k-j)+i by omega]
    simp [h1, h2]
  · have h2 : 8*k+i < 8*j := by omega
    simp [h2]

lemma byteOf_setWidth {n : ℕ} (k : ℕ) (x : BitVec n) (hk : n ≤ 8*k) :
    byteOf k (x.setWidth 32) = 0 := by
  apply BitVec.eq_of_getLsbD_eq
  intro i hi
  rw [getLsbD_byteOf, BitVec.getLsbD_setWidth, BitVec.getLsbD_of_ge x _ (by omega)]
  simp

lemma byteOf_zero_setWidth (b : Byte) : byteOf 0 (b.setWidth 32) = b := by
  apply BitVec.eq_of_getLsbD_eq
  intro i hi
  rw [getLsbD_byteOf, BitVec.getLsbD_setWidth]
  have h32 : 8*0+i < 32 := by omega
  simp [hi, show i < 32 by omega]

lemma byteOf_readBytes (bytes : ℕ → Byte) (offset : ℕ) {k : ℕ} (hk : k < 4) :
    byteOf k (readBytes bytes offset) = bytes (offset+k) := by
  have hzero : ∀ j : ℕ, ∀ b : Byte, byteOf (j+1) (b.setWidth 32) = 0 := fun j b =>
    byteOf_setWidth (j+1) b (by omega)
  have hshift : ∀ j (b : Byte), byteOf k (b.setWidth 32 <<< (8*j)) = if k = j then b else 0 :=
    fun j b => by
      rw [byteOf_shiftLeft hk]
      rcases lt_trichotomy k j with h | h | h
      · rw [if_neg (by omega), if_neg (by omega)]
      · rw [if_pos (by omega), if_pos h, h, Nat.sub_self, byteOf_zero_setWidth]
      · rw [if_pos (by omega), if_neg (by omega), byteOf_setWidth _ _ (by omega)]
  have h0 := hshift 0 (bytes offset)
  rw [Nat.mul_zero, BitVec.shiftLeft_zero] at h0
  rw [readBytes, byteOf_or, byteOf_or, byteOf_or, hshift 3, hshift 2, hshift 1, h0]
  interval_cases k <;> simp

/-- Sign extension by a mask, as the load cases do it. -/
lemma or_mask_eq_signExtend {n : ℕ} (x : BitVec (n+1)) {mask : Word} (hn : n < 31)
    (hm : ∀ i < 32, mask.getLsbD i = decide (n ≤ i)) :
    (x.setWidth 32 ||| if x.setWidth 32 &&& BitVec.twoPow 32 n ≠ 0 then mask else 0) =
      x.signExtend 32 := by
  have hbit : (x.setWidth 32).getLsbD n = x.msb := by
    rw [BitVec.getLsbD_setWidth, BitVec.msb_eq_getLsbD_last]
    simp [show n < 32 by omega]
  have hcond : x.setWidth 32 &&& BitVec.twoPow 32 n ≠ 0 ↔ x.msb = true := by
    rw [BitVec.and_twoPow, hbit]
    cases x.msb
    · simp
    · have hne : BitVec.twoPow 32 n ≠ 0#32 := fun he => by
        have hz := congrArg (fun y => y.getLsbD n) he
        simp [show n < 32 by omega] at hz
      simpa using hne
  apply BitVec.eq_of_getLsbD_eq
  intro i hi
  rw [BitVec.getLsbD_or, BitVec.getLsbD_setWidth, BitVec.getLsbD_signExtend]
  cases hx : x.msb with
  | false =>
    rw [if_neg fun h => by rw [hcond.mp h] at hx; cases hx]
    by_cases hlt : i < n+1
    · simp [hi, hlt]
    · simp [hi, hlt, BitVec.getLsbD_of_ge x i (by omega)]
  | true =>
    rw [if_pos (hcond.mpr hx), hm i hi]
    by_cases hlt : i < n
    · simp [hi, show i < n+1 by omega, show ¬n ≤ i by omega]
    · by_cases he : i = n
      · have htop : x.getLsbD n = true := by
          rw [BitVec.msb_eq_getLsbD_last] at hx
          simpa using hx
        simp [he, htop, show n < 32 by omega]
      · simp [hi, show n ≤ i by omega, show ¬i < n+1 by omega]

lemma byteOf_append_setWidth (h l : Byte) {k : ℕ} (hk : k < 4) :
    byteOf k ((h ++ l).setWidth 32) = if k = 0 then l else if k = 1 then h else 0 := by
  apply BitVec.eq_of_getLsbD_eq
  intro i hi
  rw [getLsbD_byteOf, BitVec.getLsbD_setWidth, BitVec.getLsbD_append]
  split_ifs with hlt h0 h1 h0 h1
  · simp [hi, h0, show i < 32 by omega]
  · omega
  · omega
  · omega
  · simp [hi, h1, show 8+i < 32 by omega]
  · rw [BitVec.getLsbD_of_ge h _ (by omega)]
    simp

/-- The four bytes of a word in order. -/
lemma append_byteOf (x : Word) :
    (byteOf 3 x ++ byteOf 2 x ++ byteOf 1 x ++ byteOf 0 x).setWidth 32 = x := by
  apply BitVec.eq_of_getLsbD_eq
  intro i hi
  simp only [BitVec.getLsbD_setWidth, BitVec.getLsbD_append, getLsbD_byteOf]
  split_ifs with h0 h1 h2
  · simp [hi, h0]
  · simp [hi, h1, show 8 + (i-8) = i by omega]
  · simp [hi, h2, show 16 + (i-8-8) = i by omega]
  · simp [hi, show i-8-8-8 < 8 by omega, show 24 + (i-8-8-8) = i by omega]

/-- One byte of a word, shifted down and masked. -/
lemma ushiftRight_and_byte (x : Word) (j : ℕ) :
    (x >>> (8*j)) &&& 0xFF#32 = (byteOf j x).setWidth 32 := by
  apply eq_of_byteOf
  intro k hk
  rw [byteOf_and, byteOf_ushiftRight]
  cases k with
  | zero =>
    rw [byteOf_zero_setWidth, show byteOf 0 0xFF#32 = BitVec.allOnes 8 by decide,
      BitVec.and_allOnes, Nat.zero_add]
  | succ k =>
    have hzero : byteOf (k+1) 0xFF#32 = 0#8 := by
      have hk3 : k < 3 := by omega
      interval_cases k <;> decide
    rw [byteOf_setWidth _ _ (by omega), hzero, BitVec.and_zero]
    rfl

/-- One half of a word, shifted down and masked. -/
lemma ushiftRight_and_half (x : Word) (j : ℕ) :
    (x >>> (8*j)) &&& 0xFFFF#32 = (byteOf (j+1) x ++ byteOf j x).setWidth 32 := by
  apply eq_of_byteOf
  intro k hk
  rw [byteOf_and, byteOf_ushiftRight, byteOf_append_setWidth _ _ hk]
  have hmask : byteOf k 0xFFFF#32 = if k < 2 then BitVec.allOnes 8 else 0#8 := by
    interval_cases k <;> decide
  rw [hmask]
  by_cases h0 : k = 0
  · rw [if_pos (show k < 2 by omega), if_pos h0, BitVec.and_allOnes, h0, Nat.zero_add]
  · rw [if_neg h0]
    by_cases h1 : k = 1
    · rw [if_pos (show k < 2 by omega), if_pos h1, BitVec.and_allOnes, h1, Nat.add_comm]
    · rw [if_neg (show ¬k < 2 by omega), if_neg h1, BitVec.and_zero]
      rfl

/-! The reference memory. -/

/-- The bytes that loads and stores address. -/
abbrev ByteMemory := Word → Byte

def accessSize (opcode : ℕ) : ℕ :=
  if opcode = opLw ∨ opcode = opSw then 4
  else if opcode = opLh ∨ opcode = opLhu ∨ opcode = opSh then 2
  else 1

/-- A load or store with a naturally aligned address, as it comes out of decode and execute. -/
structure AlignedAccess (op : PipeOp) : Prop where
  isMem : op.isMem = true
  kind : isLoad op.opcode ∨ isStore op.opcode
  aligned : op.memAddr.toNat % accessSize op.opcode = 0

namespace ByteMemory

/-- The sign- or zero-extended value at the address, lowest byte first. -/
def load (b : ByteMemory) (op : PipeOp) : Word :=
  let a := op.memAddr
  if op.opcode = opLw then (b (a+3) ++ b (a+2) ++ b (a+1) ++ b a).setWidth 32
  else if op.opcode = opLh then (b (a+1) ++ b a).signExtend 32
  else if op.opcode = opLhu then (b (a+1) ++ b a).setWidth 32
  else if op.opcode = opLb then (b a).signExtend 32
  else (b a).setWidth 32

/-- A store replaces the bytes it addresses where some region has them. -/
def store (b : ByteMemory) (op : PipeOp) : ByteMemory := fun a =>
  let k := (a - op.memAddr).toNat
  if k < accessSize op.opcode ∧ (findRegion a).isSome then byteOf k op.memValue else b a

def step (b : ByteMemory) (op : PipeOp) : ByteMemory :=
  if isStore op.opcode then b.store op else b

end ByteMemory

/-- The byte at an address of the simulated memory, zero outside the regions. -/
def byteAt (m : Memory) : ByteMemory := fun a =>
  match findRegion a with
  | some r => m r (regionOffset r a)
  | none => 0

/-! The bytes of an aligned word are all in one region, or none is. -/

section Word
variable {w : Word} (hw : WordAligned w) {k : ℕ} (hk : k < 4)
include hw hk

lemma toNat_add_byte : (w + BitVec.ofNat 32 k).toNat = w.toNat + k := by
  unfold WordAligned at hw
  have hlt := w.isLt
  rw [BitVec.toNat_add, BitVec.toNat_ofNat]
  omega

lemma contains_add_byte (r : MemRegion) :
    r.contains (w + BitVec.ofNat 32 k) = r.contains w := by
  have hadd := toNat_add_byte hw hk
  unfold WordAligned at hw
  rw [Bool.eq_iff_iff]
  cases r <;>
    simp only [MemRegion.contains, Bool.and_eq_true, decide_eq_true_eq, BitVec.le_def,
      BitVec.lt_def, hadd, MemRegion.start, MemRegion.size] <;>
    simp <;> omega

lemma findRegion_add_byte : findRegion (w + BitVec.ofNat 32 k) = findRegion w := by
  simp only [findRegion, contains_add_byte hw hk]

lemma regionOffset_add_byte {r : MemRegion} (hr : r.contains w = true) :
    regionOffset r (w + BitVec.ofNat 32 k) = regionOffset r w + k := by
  have hadd := toNat_add_byte hw hk
  have hle : r.start.toNat ≤ w.toNat := by
    simp only [MemRegion.contains, Bool.and_eq_true, decide_eq_true_eq, BitVec.le_def] at hr
    exact hr.1
  have hlt := (w + BitVec.ofNat 32 k).isLt
  have hlt' := w.isLt
  rw [regionOffset, regionOffset, BitVec.toNat_sub, BitVec.toNat_sub, hadd]
  omega

end Word

lemma contains_of_findRegion {a : Word} {r : MemRegion} (h : findRegion a = some r) :
    r.contains a = true := by
  unfold findRegion at h
  simpa using List.find?_some h

/-- Every byte of an aligned word is inside the region's array. -/
lemma regionOffset_lt {w : Word} (hw : WordAligned w) {r : MemRegion}
    (h : findRegion w = some r) : regionOffset r w + 3 < r.size.toNat := by
  have hc := contains_of_findRegion h
  have hlt := w.isLt
  unfold WordAligned at hw
  cases r <;>
    simp only [MemRegion.contains, Bool.and_eq_true, decide_eq_true_eq, BitVec.le_def,
      BitVec.lt_def, MemRegion.start, MemRegion.size, regionOffset, BitVec.toNat_sub] at hc ⊢ <;>
    simp at hc ⊢ <;> omega

/-- The bytes of a word of memory. -/
lemma byteOf_memRead32 (m : Memory) {w : Word} (hw : WordAligned w) {k : ℕ} (hk : k < 4) :
    byteOf k (memRead32 m w) = byteAt m (w + BitVec.ofNat 32 k) := by
  rw [memRead32, byteAt, findRegion_add_byte hw hk]
  cases hr : findRegion w with
  | none => simp [byteOf]
  | some r =>
    dsimp only
    rw [byteOf_readBytes _ _ hk, regionOffset_add_byte hw hk (contains_of_findRegion hr)]

lemma writeBytes_add (bytes : ℕ → Byte) (offset : ℕ) (value : Word) {k : ℕ} (hk : k < 4) :
    writeBytes bytes offset value (offset+k) = byteOf k value := by
  unfold writeBytes byteOf
  interval_cases k <;> simp

lemma writeBytes_of_ne (bytes : ℕ → Byte) (offset : ℕ) (value : Word) {i : ℕ}
    (h : i < offset ∨ offset+4 ≤ i) : writeBytes bytes offset value i = bytes i := by
  unfold writeBytes
  rw [Function.update_of_ne (by omega), Function.update_of_ne (by omega),
    Function.update_of_ne (by omega), Function.update_of_ne (by omega)]

/-- A word store replaces the four bytes of its word. -/
lemma byteAt_memWrite32 (m : Memory) {w : Word} (hw : WordAligned w) (value a : Word) :
    byteAt (memWrite32 m w value) a =
      if (a - w).toNat < 4 ∧ (findRegion a).isSome then byteOf (a - w).toNat value
      else byteAt m a := by
  have hsplit : w + BitVec.ofNat 32 (a - w).toNat = a := by
    rw [BitVec.ofNat_toNat, BitVec.setWidth_eq, add_sub_cancel]
  rw [byteAt, memWrite32]
  cases hrw : findRegion w with
  | none =>
    have hno : ¬((a - w).toNat < 4 ∧ (findRegion a).isSome) := by
      rintro ⟨hk,hsome⟩
      rw [← hsplit, findRegion_add_byte hw hk, hrw] at hsome
      cases hsome
    rw [if_neg hno]
    rfl
  | some r =>
    by_cases hk : (a - w).toNat < 4
    · have hra : findRegion a = some r := by
        rw [← hsplit, findRegion_add_byte hw hk, hrw]
      have hoff := regionOffset_add_byte hw hk (contains_of_findRegion hrw)
      rw [hsplit] at hoff
      rw [hra, if_pos ⟨hk,rfl⟩]
      simp only [Function.update_self]
      rw [hoff, writeBytes_add _ _ _ hk]
    · rw [if_neg fun h => hk h.1, byteAt]
      cases hra : findRegion a with
      | none => rfl
      | some r' =>
        by_cases hr : r' = r
        · subst hr
          simp only [Function.update_self]
          apply writeBytes_of_ne
          by_contra hin
          have hca := contains_of_findRegion hra
          have hcw := contains_of_findRegion hrw
          simp only [MemRegion.contains, Bool.and_eq_true, decide_eq_true_eq,
            BitVec.le_def] at hca hcw
          have hlta := a.isLt
          have hltw := w.isLt
          rw [regionOffset, regionOffset, BitVec.toNat_sub, BitVec.toNat_sub] at hin
          rw [BitVec.toNat_sub] at hk
          omega
        · simp only [Function.update_of_ne hr]

/-! The address of an access inside its word. -/

lemma toNat_and_three (a : Word) : (a &&& 3#32).toNat = a.toNat % 4 := by
  rw [BitVec.toNat_and]
  exact Nat.and_two_pow_sub_one_eq_mod a.toNat 2

lemma and_two_ne_zero_iff (a : Word) : a &&& 2#32 ≠ 0 ↔ 2 ≤ a.toNat % 4 := by
  have hbit : a.getLsbD 1 = decide (2 ≤ a.toNat % 4) := by
    rw [← BitVec.testBit_toNat, Nat.testBit_eq_decide_div_mod_eq, pow_one]
    congr 1
    exact propext ⟨fun h => by omega,fun h => by omega⟩
  rw [show (2#32 : Word) = BitVec.twoPow 32 1 by decide, BitVec.and_twoPow, hbit]
  by_cases h : 2 ≤ a.toNat % 4
  · rw [decide_eq_true h, if_pos rfl]
    exact iff_of_true (by decide) h
  · rw [decide_eq_false h]
    exact iff_of_false (by simp) h

lemma toNat_wordOf (a : Word) : (wordOf a).toNat = a.toNat - a.toNat % 4 := by
  have hshift : wordOf a = (a >>> 2) <<< 2 := by
    have hmask : ∀ i < 32, (~~~3#32).getLsbD i = decide (2 ≤ i) := by decide
    apply BitVec.eq_of_getLsbD_eq
    intro i hi
    rw [wordOf, BitVec.getLsbD_and, hmask i hi, BitVec.getLsbD_shiftLeft,
      BitVec.getLsbD_ushiftRight]
    by_cases h : i < 2
    · simp [h, show ¬2 ≤ i by omega]
    · simp [h, hi, show 2 ≤ i by omega, show 2 + (i-2) = i by omega]
  have hlt := a.isLt
  rw [hshift, BitVec.toNat_shiftLeft, BitVec.toNat_ushiftRight, Nat.shiftLeft_eq,
    Nat.shiftRight_eq_div_pow]
  omega

lemma wordOf_add_byte (a : Word) (j : ℕ) :
    wordOf a + BitVec.ofNat 32 (a.toNat % 4 + j) = a + BitVec.ofNat 32 j := by
  have hw := toNat_wordOf a
  have hlt := a.isLt
  apply BitVec.eq_of_toNat_eq
  rw [BitVec.toNat_add, BitVec.toNat_add, hw, BitVec.toNat_ofNat, BitVec.toNat_ofNat]
  omega

/-! The cases of the memory stage against the reference. -/

section Access
variable {op : PipeOp} (m : Memory)

/-- A byte of the access is a byte of its word. -/
lemma byteAt_access (a : Word) {j : ℕ} (hj : a.toNat % 4 + j < 4) :
    byteAt m (a + BitVec.ofNat 32 j) = byteOf (a.toNat % 4 + j) (memRead32 m (wordOf a)) := by
  rw [byteOf_memRead32 m (wordOf_aligned a) hj, wordOf_add_byte]

lemma byteAt_access_zero (a : Word) :
    byteAt m a = byteOf (a.toNat % 4) (memRead32 m (wordOf a)) := by
  have h := byteAt_access m a (show a.toNat % 4 + 0 < 4 by omega)
  rwa [BitVec.add_zero] at h

/-- A halfword in the lower or in the upper half of its word. -/
lemma half_eq (a val : Word) (h2 : a.toNat % 2 = 0) :
    (if a &&& 2#32 ≠ 0 then (val >>> 16) &&& 0xFFFF#32 else val &&& 0xFFFF#32) =
      (byteOf (a.toNat % 4 + 1) val ++ byteOf (a.toNat % 4) val).setWidth 32 := by
  by_cases h : 2 ≤ a.toNat % 4
  · rw [if_pos ((and_two_ne_zero_iff a).mpr h), show a.toNat % 4 = 2 by omega]
    exact ushiftRight_and_half val 2
  · rw [if_neg fun hne => h ((and_two_ne_zero_iff a).mp hne), show a.toNat % 4 = 0 by omega]
    simpa using ushiftRight_and_half val 0

/-- A byte in any of the four places of its word. -/
lemma byte_eq (a val : Word) :
    loadValue opLbu a val = (byteOf (a.toNat % 4) val).setWidth 32 := by
  have hlt : a.toNat % 4 < 4 := Nat.mod_lt _ (by decide)
  have hplace := toNat_and_three a
  unfold loadValue
  rw [if_neg (by decide), if_neg (by decide), hplace]
  generalize a.toNat % 4 = i at hlt
  interval_cases i
  · simpa [opLbu, opLb] using ushiftRight_and_byte val 0
  · exact ushiftRight_and_byte val 1
  · exact ushiftRight_and_byte val 2
  · exact ushiftRight_and_byte val 3

/-- A load returns what the reference does. -/
lemma loadValue_eq (h : AlignedAccess op) (hl : isLoad op.opcode) :
    loadValue op.opcode op.memAddr (memRead32 m (wordOf op.memAddr)) = (byteAt m).load op := by
  have halign := h.aligned
  set a := op.memAddr
  set val := memRead32 m (wordOf a)
  have hbyte : ∀ j, a.toNat % 4 + j < 4 →
      byteAt m (a + BitVec.ofNat 32 j) = byteOf (a.toNat % 4 + j) val :=
    fun j hj => byteAt_access m a hj
  have hzero : byteAt m a = byteOf (a.toNat % 4) val := byteAt_access_zero m a
  rcases hl with ho | ho | ho | ho | ho <;> simp only [ho, ByteMemory.load] at halign ⊢
  · have h4 : a.toNat % 4 = 0 := halign
    rw [h4] at hbyte hzero
    have h1 : byteAt m (a+1) = byteOf 1 val := hbyte 1 (by decide)
    have h2 : byteAt m (a+2) = byteOf 2 val := hbyte 2 (by decide)
    have h3 : byteAt m (a+3) = byteOf 3 val := hbyte 3 (by decide)
    rw [h1, h2, h3, hzero]
    exact (append_byteOf val).symm
  · have h2 : a.toNat % 2 = 0 := halign
    have h1 : byteAt m (a+1) = byteOf (a.toNat % 4 + 1) val := hbyte 1 (by omega)
    have hmask : ∀ i < 32, (0xFFFF8000#32).getLsbD i = decide (15 ≤ i) := by decide
    have hext := or_mask_eq_signExtend (byteOf (a.toNat % 4 + 1) val ++ byteOf (a.toNat % 4) val)
      (by decide) hmask
    rw [← half_eq a val h2] at hext
    rw [h1, hzero]
    exact hext
  · have h2 : a.toNat % 2 = 0 := halign
    have h1 : byteAt m (a+1) = byteOf (a.toNat % 4 + 1) val := hbyte 1 (by omega)
    rw [h1, hzero]
    exact half_eq a val h2
  · have hmask : ∀ i < 32, (0xFFFFFF80#32).getLsbD i = decide (7 ≤ i) := by decide
    have hext := or_mask_eq_signExtend (byteOf (a.toNat % 4) val) (by decide) hmask
    rw [← byte_eq a val] at hext
    rw [hzero]
    exact hext
  · rw [hzero]
    exact byte_eq a val

/-- Bytes j to j+n-1 of a word replaced by the low ones of another. -/
lemma byteOf_merge {k j n : ℕ} (hk : k < 4) (val value : Word) {keep pick : Word}
    (hkeep : byteOf k keep = if j ≤ k ∧ k < j+n then 0#8 else BitVec.allOnes 8)
    (hpick : j ≤ k → byteOf (k-j) pick = if k < j+n then BitVec.allOnes 8 else 0#8) :
    byteOf k ((val &&& keep) ||| ((value &&& pick) <<< (8*j))) =
      if j ≤ k ∧ k < j+n then byteOf (k-j) value else byteOf k val := by
  rw [byteOf_or, byteOf_and, byteOf_shiftLeft hk, hkeep]
  by_cases hj : j ≤ k
  · rw [if_pos hj, byteOf_and, hpick hj]
    by_cases hn : k < j+n
    · have hin : j ≤ k ∧ k < j+n := ⟨hj,hn⟩
      rw [if_pos hn, if_pos hin, if_pos hin, BitVec.and_zero, BitVec.and_allOnes,
        BitVec.zero_or]
    · have hout : ¬(j ≤ k ∧ k < j+n) := fun h => hn h.2
      rw [if_neg hn, if_neg hout, if_neg hout, BitVec.and_allOnes, BitVec.and_zero,
        BitVec.or_zero]
  · have hout : ¬(j ≤ k ∧ k < j+n) := fun h => hj h.1
    rw [if_neg hj, if_neg hout, if_neg hout, BitVec.and_allOnes]
    exact BitVec.or_zero

/-- A store leaves the word with the addressed bytes replaced. -/
lemma byteOf_storeValue (h : AlignedAccess op) (hs : isStore op.opcode) (val : Word) {k : ℕ}
    (hk : k < 4) :
    byteOf k (storeValue op.opcode op.memAddr op.memValue val) =
      if op.memAddr.toNat % 4 ≤ k ∧ k < op.memAddr.toNat % 4 + accessSize op.opcode then
        byteOf (k - op.memAddr.toNat % 4) op.memValue
      else byteOf k val := by
  have halign := h.aligned
  set a := op.memAddr
  rcases hs with ho | ho | ho <;> simp only [ho] at halign ⊢
  · have h4 : a.toNat % 4 = 0 := halign
    rw [h4, if_pos ⟨Nat.zero_le k,show k < 0 + 4 by omega⟩]
    rfl
  · have h2 : a.toNat % 2 = 0 := halign
    have hunfold : storeValue opSh a op.memValue val =
        if a &&& 2#32 ≠ 0 then (val &&& 0x0000FFFF#32) ||| (op.memValue <<< 16)
        else (val &&& 0xFFFF0000#32) ||| (op.memValue &&& 0xFFFF#32) := rfl
    rw [hunfold]
    by_cases hhigh : 2 ≤ a.toNat % 4
    · rw [if_pos ((and_two_ne_zero_iff a).mpr hhigh), show a.toNat % 4 = 2 by omega]
      have hmerge := @byteOf_merge k 2 2 hk val op.memValue 0x0000FFFF#32 (BitVec.allOnes 32)
        (by interval_cases k <;> decide) (fun _ => by interval_cases k <;> decide)
      rwa [BitVec.and_allOnes] at hmerge
    · rw [if_neg fun hne => hhigh ((and_two_ne_zero_iff a).mp hne),
        show a.toNat % 4 = 0 by omega]
      have hmerge := @byteOf_merge k 0 2 hk val op.memValue 0xFFFF0000#32 0xFFFF#32
        (by interval_cases k <;> decide) (fun _ => by interval_cases k <;> decide)
      rwa [Nat.mul_zero, BitVec.shiftLeft_zero] at hmerge
  · have hlt : a.toNat % 4 < 4 := Nat.mod_lt _ (by decide)
    have hmerge : ∀ j, ∀ keep : Word,
        (∀ k < 4, byteOf k keep = if j ≤ k ∧ k < j+1 then 0#8 else BitVec.allOnes 8) →
        byteOf k ((val &&& keep) ||| ((op.memValue &&& 0xFF#32) <<< (8*j))) =
          if j ≤ k ∧ k < j+1 then byteOf (k-j) op.memValue else byteOf k val :=
      fun j keep hkeep => byteOf_merge hk val op.memValue (hkeep k hk) fun hj => by
        have hbyte : ∀ i < 4, byteOf i 0xFF#32 =
            if i = 0 then BitVec.allOnes 8 else 0#8 := by decide
        rw [hbyte _ (by omega)]
        congr 1
        exact propext ⟨fun h => by omega,fun h => by omega⟩
    unfold storeValue
    rw [if_pos rfl, toNat_and_three, show accessSize opSb = 1 from rfl]
    generalize a.toNat % 4 = i at hlt
    interval_cases i
    · have h0 := hmerge 0 0xFFFFFF00#32 (by decide)
      rwa [Nat.mul_zero, BitVec.shiftLeft_zero] at h0
    · exact hmerge 1 0xFFFF00FF#32 (by decide)
    · exact hmerge 2 0xFF00FFFF#32 (by decide)
    · exact hmerge 3 0x00FFFFFF#32 (by decide)

/-- An aligned access does not cross the end of its word. -/
lemma AlignedAccess.fits (h : AlignedAccess op) :
    op.memAddr.toNat % 4 + accessSize op.opcode ≤ 4 := by
  have halign := h.aligned
  unfold accessSize at halign ⊢
  split_ifs at halign ⊢ <;> omega

/-- One step of the memory stage is one step of the reference. -/
theorem byteAt_memoryStep (h : AlignedAccess op) :
    byteAt (memoryStep op m).2 = (byteAt m).step op := by
  rw [ByteMemory.step, memoryStep]
  by_cases hl : isLoad op.opcode
  · have hs : ¬isStore op.opcode := by
      rcases hl with ho | ho | ho | ho | ho <;> rw [ho] <;> decide
    rw [if_pos hl, if_neg hs]
  · have hs : isStore op.opcode := h.kind.resolve_left hl
    have hword : memWord op m = memRead32 m (wordOf op.memAddr) := if_pos h.isMem
    rw [if_neg hl, if_pos hs, if_pos hs]
    funext b
    dsimp only
    rw [byteAt_memWrite32 m (wordOf_aligned _), ByteMemory.store, hword]
    have hfits := h.fits
    have hw := toNat_wordOf op.memAddr
    have hltb := b.isLt
    have hlta := op.memAddr.isLt
    have hbw : (b - wordOf op.memAddr).toNat =
        (2 ^ 32 - (wordOf op.memAddr).toNat + b.toNat) % 2 ^ 32 := BitVec.toNat_sub ..
    have hba : (b - op.memAddr).toNat = (2 ^ 32 - op.memAddr.toNat + b.toNat) % 2 ^ 32 :=
      BitVec.toNat_sub ..
    -- the addressed bytes of the word are those of the access
    have hiff : (b - op.memAddr).toNat < accessSize op.opcode ↔
        op.memAddr.toNat % 4 ≤ (b - wordOf op.memAddr).toNat ∧
          (b - wordOf op.memAddr).toNat < op.memAddr.toNat % 4 + accessSize op.opcode := by
      omega
    by_cases hin : (b - wordOf op.memAddr).toNat < 4
    · rw [byteOf_storeValue h hs _ hin]
      by_cases hr : (findRegion b).isSome = true
      · rw [if_pos ⟨hin,hr⟩]
        by_cases hb : (b - op.memAddr).toNat < accessSize op.opcode
        · rw [if_pos (hiff.mp hb), if_pos ⟨hb,hr⟩]
          congr 1
          omega
        · rw [if_neg (mt hiff.mpr hb), if_neg fun hc => hb hc.1,
            byteOf_memRead32 m (wordOf_aligned _) hin, BitVec.ofNat_toNat, BitVec.setWidth_eq,
            add_sub_cancel]
      · rw [if_neg fun hc => hr hc.2, if_neg fun hc => hr hc.2]
    · rw [if_neg fun hc => hin hc.1, if_neg fun hc => hin (by have hc1 := hc.1; omega)]

theorem memoryStep_load (h : AlignedAccess op) (hl : isLoad op.opcode) :
    (memoryStep op m).1.regDstValue = (byteAt m).load op := by
  have hword : memWord op m = memRead32 m (wordOf op.memAddr) := if_pos h.isMem
  rw [memoryStep, if_pos hl, ← loadValue_eq m h hl, ← hword]

end Access
end CaLabs.Mips
