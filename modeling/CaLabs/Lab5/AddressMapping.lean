import Mathlib.Algebra.BigOperators.Group.List.Basic
import Mathlib.Data.List.Nodup
import Mathlib.Data.Nat.Bitwise
import Mathlib.Logic.Function.Basic
import Mathlib.Tactic.Ring
import Mathlib.Tactic.Linarith

/-! The linear address mappers: the transactions of a memory and the address vectors that fit it
are in one-to-one correspondence. -/
namespace CaLabs.Lab5

/-- The bits are returned, and what is left of the address. -/
def sliceLowerBits (addr numBits : ℕ) : ℕ × ℕ :=
  (addr &&& (1 <<< numBits - 1),addr >>> numBits)

/-- The levels of an organization end with the row and the column. -/
structure LinearMapper where
  rowBitsIdx : ℕ
  addrBits : ℕ → ℕ
  txOffset : ℕ

namespace LinearMapper
variable (m : LinearMapper)

def numLevels : ℕ := m.rowBitsIdx + 2

def colBitsIdx : ℕ := m.numLevels - 1

/-- The number of address bits is the logarithm of the count of a level; a column has the
granularity of the prefetch size. -/
def setup (rowBitsIdx : ℕ) (count : ℕ → ℕ) (internalPrefetchSize channelWidth : ℕ) :
    LinearMapper where
  rowBitsIdx := rowBitsIdx
  addrBits level :=
    if level = rowBitsIdx + 1 then (count level).log2 - internalPrefetchSize.log2
    else (count level).log2
  txOffset := (internalPrefetchSize * channelWidth / 8).log2

/-- One round of a slicing loop over the address and the address vector. -/
def sliceLevel (addrBits : ℕ → ℕ) (s : ℕ × (ℕ → ℕ)) (level : ℕ) : ℕ × (ℕ → ℕ) :=
  let (bits,addr) := sliceLowerBits s.1 (addrBits level)
  (addr,Function.update s.2 level bits)

def chRaBaRoCo (addr : ℕ) (addrVec : ℕ → ℕ) : ℕ → ℕ :=
  ((List.range m.numLevels).reverse.foldl (sliceLevel m.addrBits) (addr >>> m.txOffset,addrVec)).2

def roBaRaCoCh (addr : ℕ) (addrVec : ℕ → ℕ) : ℕ → ℕ :=
  let s := [0,m.numLevels - 1].foldl (sliceLevel m.addrBits) (addr >>> m.txOffset,addrVec)
  ((List.range' 1 m.rowBitsIdx).foldl (sliceLevel m.addrBits) s).2

/-- A level is scrambled with the bits of the column from row_xor_index on. -/
def xorLevel (s : ℕ × (ℕ → ℕ)) (level : ℕ) : ℕ × (ℕ → ℕ) :=
  if m.addrBits level > 0 then
    let mask := (s.2 m.colBitsIdx >>> s.1) &&& (1 <<< m.addrBits level - 1)
    (s.1 + m.addrBits level,Function.update s.2 level (s.2 level ^^^ mask))
  else s

/-- The address vector before it is scrambled; the rest of the address is the row, cast to an int
of 32 bits. -/
def mop4cl (addr : ℕ) (addrVec : ℕ → ℕ) : ℕ → ℕ :=
  let (low,addr) := sliceLowerBits (addr >>> m.txOffset) 2
  let s := (List.range m.rowBitsIdx).foldl (sliceLevel m.addrBits)
    (addr,Function.update addrVec m.colBitsIdx low)
  let (high,addr) := sliceLowerBits s.1 (m.addrBits m.colBitsIdx - 2)
  let addrVec := Function.update s.2 m.colBitsIdx (s.2 m.colBitsIdx + high <<< 2)
  Function.update addrVec m.rowBitsIdx (addr % 2^32)

def mop4clXor (addr : ℕ) (addrVec : ℕ → ℕ) : ℕ → ℕ :=
  ((List.range m.colBitsIdx).foldl m.xorLevel (0,m.mop4cl addr addrVec)).2

/-- The components of an address vector fit their levels. -/
def Fits (v : ℕ → ℕ) : Prop := ∀ level < m.numLevels, v level < 2^m.addrBits level

/-- The number of address bits of a transaction. -/
def totalBits : ℕ := ((List.range m.numLevels).map m.addrBits).sum

/-- Every transaction of the memory has an address vector that fits, and every such vector is the
one of exactly one transaction. -/
structure OneToOne (apply : ℕ → (ℕ → ℕ) → ℕ → ℕ) : Prop where
  fits : ∀ addr addrVec, addr >>> m.txOffset < 2^m.totalBits → m.Fits (apply addr addrVec)
  unique : ∀ v, m.Fits v → ∃! t, t < 2^m.totalBits ∧ ∀ addr addrVec, addr >>> m.txOffset = t →
    ∀ level < m.numLevels, apply addr addrVec level = v level

end LinearMapper

lemma add_two_pow_mul_lt {a b i j : ℕ} (ha : a < 2^i) (hb : b < 2^j) : a + 2^i * b < 2^(i + j) := by
  rw [Nat.pow_add]
  calc a + 2^i * b < 2^i * (b + 1) := by rw [Nat.mul_succ]; omega
    _ ≤ 2^i * 2^j := Nat.mul_le_mul_left _ hb

/-- The low and the high part of a number. -/
lemma add_two_pow_mul_inj {a a' b b' i : ℕ} (ha : a < 2^i) (ha' : a' < 2^i)
    (h : a + 2^i * b = a' + 2^i * b') : a = a' ∧ b = b' := by
  have hmod : (a + 2^i * b) % 2^i = (a' + 2^i * b') % 2^i := congrArg (· % 2^i) h
  rw [Nat.add_mul_mod_self_left, Nat.add_mul_mod_self_left, Nat.mod_eq_of_lt ha,
    Nat.mod_eq_of_lt ha'] at hmod
  refine ⟨hmod,Nat.eq_of_mul_eq_mul_left (Nat.two_pow_pos i) ?_⟩
  omega

/-- The number that has these components, those of the first levels as its lowest bits. -/
def encode (bits v : ℕ → ℕ) : List ℕ → ℕ
  | [] => 0
  | level :: levels => v level + 2^bits level * encode bits v levels

section Encode
variable {bits v v' : ℕ → ℕ} {levels : List ℕ}

lemma sliceLowerBits_eq (addr n : ℕ) : sliceLowerBits addr n = (addr % 2^n,addr / 2^n) := by
  rw [sliceLowerBits, Nat.one_shiftLeft, Nat.and_two_pow_sub_one_eq_mod,
    Nat.shiftRight_eq_div_pow]

lemma encode_congr (h : ∀ level ∈ levels, v level = v' level) :
    encode bits v levels = encode bits v' levels := by
  induction levels with
  | nil => rfl
  | cons level levels ih =>
    rw [encode, encode, h level List.mem_cons_self,
      ih fun l hl => h l (List.mem_cons_of_mem _ hl)]

lemma encode_lt (h : ∀ level ∈ levels, v level < 2^bits level) :
    encode bits v levels < 2^(levels.map bits).sum := by
  induction levels with
  | nil => exact Nat.one_pos
  | cons level levels ih =>
    have hlevel := h level List.mem_cons_self
    have hrest := ih fun l hl => h l (List.mem_cons_of_mem _ hl)
    rw [encode, List.map_cons, List.sum_cons]
    exact add_two_pow_mul_lt hlevel hrest

lemma encode_injective (h : ∀ level ∈ levels, v level < 2^bits level)
    (h' : ∀ level ∈ levels, v' level < 2^bits level)
    (he : encode bits v levels = encode bits v' levels) : ∀ level ∈ levels, v level = v' level := by
  induction levels with
  | nil => exact fun level hl => absurd hl List.not_mem_nil
  | cons level levels ih =>
    obtain ⟨hlevel,hrest⟩ :=
      add_two_pow_mul_inj (h level List.mem_cons_self) (h' level List.mem_cons_self) he
    intro l hl
    rcases List.mem_cons.mp hl with rfl | hl
    · exact hlevel
    · exact ih (fun l hl => h l (List.mem_cons_of_mem _ hl))
        (fun l hl => h' l (List.mem_cons_of_mem _ hl)) hrest l hl

/-- A slicing loop takes an address apart into components and what is left. -/
lemma slice_eq (hl : levels.Nodup) (addr : ℕ) (vec : ℕ → ℕ) :
    let s := levels.foldl (LinearMapper.sliceLevel bits) (addr,vec)
    (∀ l ∉ levels, s.2 l = vec l) ∧ (∀ l ∈ levels, s.2 l < 2^bits l) ∧
      addr = encode bits s.2 levels + 2^(levels.map bits).sum * s.1 := by
  induction levels generalizing addr vec with
  | nil =>
    refine ⟨fun _ _ => rfl,fun l hl => absurd hl List.not_mem_nil,?_⟩
    rw [encode, List.map_nil, List.sum_nil, Nat.pow_zero, Nat.one_mul, Nat.zero_add]
    rfl
  | cons level levels ih =>
    obtain ⟨hnot,hl⟩ := List.nodup_cons.mp hl
    rw [List.foldl_cons, LinearMapper.sliceLevel, sliceLowerBits_eq]
    obtain ⟨hother,hbound,haddr⟩ :=
      ih hl (addr / 2^bits level) (Function.update vec level (addr % 2^bits level))
    have hlevel := hother level hnot
    rw [Function.update_self] at hlevel
    dsimp only at hother hbound haddr hlevel ⊢
    generalize levels.foldl (LinearMapper.sliceLevel bits) (addr / 2^bits level,
      Function.update vec level (addr % 2^bits level)) = s at hother hbound haddr hlevel ⊢
    refine ⟨fun l hmem => ?_,fun l hmem => ?_,?_⟩
    · rw [List.mem_cons, not_or] at hmem
      rw [hother l hmem.2, Function.update_of_ne hmem.1]
    · rcases List.mem_cons.mp hmem with rfl | hmem
      · rw [hlevel]
        exact Nat.mod_lt _ (Nat.two_pow_pos _)
      · exact hbound l hmem
    · rw [encode, hlevel, List.map_cons, List.sum_cons, Nat.pow_add, Nat.mul_assoc, Nat.add_assoc,
        ← Nat.mul_add, ← haddr, Nat.mod_add_div]

/-- The components of a number that was put together from them. -/
lemma slice_encode (hl : levels.Nodup) (hv : ∀ l ∈ levels, v l < 2^bits l) (rest : ℕ)
    (vec : ℕ → ℕ) :
    let s := levels.foldl (LinearMapper.sliceLevel bits)
      (encode bits v levels + 2^(levels.map bits).sum * rest,vec)
    s.1 = rest ∧ ∀ l ∈ levels, s.2 l = v l := by
  induction levels generalizing vec with
  | nil =>
    refine ⟨?_,fun l hl => absurd hl List.not_mem_nil⟩
    dsimp only [List.foldl_nil]
    rw [encode, List.map_nil, List.sum_nil, Nat.pow_zero, Nat.one_mul, Nat.zero_add]
  | cons level levels ih =>
    obtain ⟨hnot,htail⟩ := List.nodup_cons.mp hl
    have hlevel := hv level List.mem_cons_self
    have hsum : encode bits v (level :: levels) + 2^((level :: levels).map bits).sum * rest =
        v level + 2^bits level *
          (encode bits v levels + 2^(levels.map bits).sum * rest) := by
      rw [encode, List.map_cons, List.sum_cons, Nat.pow_add]
      ring
    rw [hsum, List.foldl_cons, LinearMapper.sliceLevel, sliceLowerBits_eq,
      Nat.add_mul_mod_self_left, Nat.mod_eq_of_lt hlevel, Nat.add_mul_div_left _ _ (Nat.two_pow_pos _),
      Nat.div_eq_of_lt hlevel, Nat.zero_add]
    obtain ⟨hrest,hmem⟩ := ih htail (fun l h => hv l (List.mem_cons_of_mem _ h))
      (Function.update vec level (v level))
    refine ⟨hrest,fun l h => ?_⟩
    rcases List.mem_cons.mp h with rfl | h
    · rw [(slice_eq htail _ _).1 l hnot]
      exact Function.update_self _ _ _
    · exact hmem l h

end Encode

namespace LinearMapper
variable {m : LinearMapper}

/-- A mapper that slices the levels in any order is one-to-one. -/
lemma oneToOne_of_order {levels : List ℕ} (hl : levels.Nodup)
    (hmem : ∀ level, level ∈ levels ↔ level < m.numLevels) :
    m.OneToOne fun addr addrVec =>
      (levels.foldl (sliceLevel m.addrBits) (addr >>> m.txOffset,addrVec)).2 := by
  have hsum : (levels.map m.addrBits).sum = m.totalBits := by
    refine (List.Perm.map _ ?_).sum_eq
    refine (List.perm_ext_iff_of_nodup hl List.nodup_range).mpr fun level => ?_
    rw [hmem, List.mem_range]
  refine ⟨fun addr addrVec _ level hlevel => ?_,fun v hv => ?_⟩
  · exact (slice_eq hl _ _).2.1 level ((hmem level).mpr hlevel)
  · have hv' : ∀ level ∈ levels, v level < 2^m.addrBits level :=
      fun level hlevel => hv level ((hmem level).mp hlevel)
    refine ⟨encode m.addrBits v levels,
      ⟨hsum ▸ encode_lt hv',fun addr addrVec ht level hlevel => ?_⟩,fun t ht => ?_⟩
    · have hslice := slice_encode hl hv' 0 addrVec
      rw [Nat.mul_zero, Nat.add_zero] at hslice
      rw [ht]
      exact hslice.2 level ((hmem level).mpr hlevel)
    · obtain ⟨hlt,happly⟩ := ht
      have hshift : t <<< m.txOffset >>> m.txOffset = t := Nat.shiftLeft_shiftRight t _
      have happly := happly (t <<< m.txOffset) v hshift
      have haddr := (@slice_eq m.addrBits levels hl t v).2.2
      rw [hshift] at happly
      generalize levels.foldl (sliceLevel m.addrBits) (t,v) = s at happly haddr
      rw [encode_congr fun level hlevel => happly level ((hmem level).mp hlevel), hsum] at haddr
      have hzero : s.1 = 0 := by
        by_contra hne
        have := Nat.le_mul_of_pos_right (2^m.totalBits) (Nat.pos_of_ne_zero hne)
        omega
      rw [haddr, hzero, Nat.mul_zero, Nat.add_zero]

theorem chRaBaRoCo_oneToOne (m : LinearMapper) : m.OneToOne m.chRaBaRoCo :=
  oneToOne_of_order (List.nodup_reverse.mpr List.nodup_range) fun level => by
    rw [List.mem_reverse, List.mem_range]

/-- The channel is sliced first and the column next, then the levels between them. -/
theorem roBaRaCoCh_oneToOne (m : LinearMapper) : m.OneToOne m.roBaRaCoCh := by
  have horder : m.roBaRaCoCh = fun addr addrVec =>
      (([0,m.numLevels - 1] ++ List.range' 1 m.rowBitsIdx).foldl (sliceLevel m.addrBits)
        (addr >>> m.txOffset,addrVec)).2 := by
    funext addr addrVec
    rw [List.foldl_append]
    rfl
  have hlast : m.numLevels - 1 = m.rowBitsIdx + 1 := rfl
  rw [horder]
  refine oneToOne_of_order ?_ fun level => ?_
  · rw [List.nodup_append]
    refine ⟨by simp [hlast],List.nodup_range',fun a ha b hb => ?_⟩
    rw [List.mem_range'_1] at hb
    simp only [List.mem_cons, List.not_mem_nil, or_false, hlast] at ha
    omega
  · rw [List.mem_append, List.mem_range'_1, numLevels]
    simp only [List.mem_cons, List.not_mem_nil, or_false]
    omega

section Xor
variable {v : ℕ → ℕ}

/-- The bits of the column that scramble a level. -/
def xorMask (m : LinearMapper) (column level : ℕ) : ℕ :=
  (column >>> ((List.range level).map m.addrBits).sum) % 2^m.addrBits level

lemma xorMask_lt (m : LinearMapper) (column level : ℕ) :
    m.xorMask column level < 2^m.addrBits level := Nat.mod_lt _ (Nat.two_pow_pos _)

/-- The scrambling loop, up to a level that is not above the column. -/
lemma xorLevels_eq {k : ℕ} (hk : k ≤ m.colBitsIdx) (v : ℕ → ℕ) :
    (List.range k).foldl m.xorLevel (0,v) = (((List.range k).map m.addrBits).sum,fun level =>
      if level < k then v level ^^^ m.xorMask (v m.colBitsIdx) level else v level) := by
  induction k with
  | zero => rfl
  | succ k ih =>
    rw [List.range_succ, List.foldl_append, ih (by omega), List.map_append, List.sum_append,
      List.foldl_cons, List.foldl_nil, xorLevel]
    have hcolumn : ¬ m.colBitsIdx < k := by omega
    dsimp only
    rw [if_neg hcolumn, if_neg (Nat.lt_irrefl k), Nat.one_shiftLeft,
      Nat.and_two_pow_sub_one_eq_mod, List.map_cons, List.map_nil, List.sum_cons, List.sum_nil,
      Nat.add_zero]
    split_ifs with hbits
    · refine Prod.ext rfl (funext fun level => ?_)
      dsimp only
      rcases Nat.lt_trichotomy level k with hlt | rfl | hlt
      · rw [Function.update_of_ne (by omega), if_pos hlt, if_pos (by omega)]
      · rw [Function.update_self, if_pos (by omega)]
        rfl
      · rw [Function.update_of_ne (by omega), if_neg (by omega), if_neg (by omega)]
    · have hzero : m.addrBits k = 0 := by omega
      refine Prod.ext (by rw [hzero, Nat.add_zero]) (funext fun level => ?_)
      dsimp only
      rcases Nat.lt_trichotomy level k with hlt | rfl | hlt
      · rw [if_pos hlt, if_pos (by omega)]
      · rw [if_neg (Nat.lt_irrefl _), if_pos (by omega), xorMask, hzero, Nat.pow_zero, Nat.mod_one,
          Nat.xor_zero]
      · rw [if_neg (by omega), if_neg (by omega)]

/-- The address vector, scrambled. -/
def scrambled (m : LinearMapper) (v : ℕ → ℕ) (level : ℕ) : ℕ :=
  if level < m.colBitsIdx then v level ^^^ m.xorMask (v m.colBitsIdx) level else v level

lemma mop4clXor_eq (addr : ℕ) (addrVec : ℕ → ℕ) :
    m.mop4clXor addr addrVec = m.scrambled (m.mop4cl addr addrVec) := by
  rw [mop4clXor, xorLevels_eq (Nat.le_refl _)]
  rfl

lemma scrambled_column : m.scrambled v m.colBitsIdx = v m.colBitsIdx :=
  if_neg (Nat.lt_irrefl _)

/-- Scrambling twice gives the address vector back. -/
lemma scrambled_scrambled (m : LinearMapper) (v : ℕ → ℕ) : m.scrambled (m.scrambled v) = v := by
  funext level
  rw [scrambled, scrambled_column]
  split_ifs with hlevel
  · rw [scrambled, if_pos hlevel, Nat.xor_assoc, Nat.xor_self, Nat.xor_zero]
  · rw [scrambled, if_neg hlevel]

lemma Fits.scrambled (h : m.Fits v) : m.Fits (m.scrambled v) := by
  intro level hlevel
  rw [LinearMapper.scrambled]
  split_ifs
  · exact Nat.xor_lt_two_pow (h level hlevel) (m.xorMask_lt _ _)
  · exact h level hlevel

lemma scrambled_congr {v' : ℕ → ℕ} (h : ∀ level < m.numLevels, v level = v' level) :
    ∀ level < m.numLevels, m.scrambled v level = m.scrambled v' level := by
  intro level hlevel
  rw [LinearMapper.scrambled, LinearMapper.scrambled, h level hlevel,
    h m.colBitsIdx (Nat.lt_succ_self _)]

end Xor

section Mop
variable {v : ℕ → ℕ}

/-- The low bits of the column, the levels above the row, the rest of the column and the row. -/
def mopNumber (m : LinearMapper) (v : ℕ → ℕ) (rest : ℕ) : ℕ :=
  v m.colBitsIdx % 2^2 + 2^2 * (encode m.addrBits v (List.range m.rowBitsIdx) +
    2^((List.range m.rowBitsIdx).map m.addrBits).sum *
      (v m.colBitsIdx / 2^2 + 2^(m.addrBits m.colBitsIdx - 2) * rest))

lemma totalBits_eq (hcol : 2 ≤ m.addrBits m.colBitsIdx) : m.totalBits =
    2 + ((List.range m.rowBitsIdx).map m.addrBits).sum + (m.addrBits m.colBitsIdx - 2) +
      m.addrBits m.rowBitsIdx := by
  have hcolumn : m.colBitsIdx = m.rowBitsIdx + 1 := rfl
  rw [hcolumn] at hcol ⊢
  rw [totalBits, numLevels, List.range_succ, List.range_succ]
  simp only [List.map_append, List.sum_append, List.map_cons, List.map_nil, List.sum_cons,
    List.sum_nil]
  omega

lemma mopNumber_congr {v' : ℕ → ℕ} (rest : ℕ)
    (h : ∀ level < m.numLevels, v level = v' level) :
    m.mopNumber v rest = m.mopNumber v' rest := by
  rw [mopNumber, mopNumber, h m.colBitsIdx (Nat.lt_succ_self _),
    encode_congr fun level hlevel => h level
      (Nat.lt_add_right 2 (List.mem_range.mp hlevel))]

/-- The address vector as the four pieces of the address. -/
lemma mop4cl_spec (addr : ℕ) (addrVec : ℕ → ℕ) (hcol : 2 ≤ m.addrBits m.colBitsIdx) :
    ∃ rest, addr >>> m.txOffset = m.mopNumber (m.mop4cl addr addrVec) rest ∧
      m.mop4cl addr addrVec m.rowBitsIdx = rest % 2^32 ∧
      ∀ level < m.numLevels, level ≠ m.rowBitsIdx →
        m.mop4cl addr addrVec level < 2^m.addrBits level := by
  obtain ⟨hother,hbound,haddr⟩ := @slice_eq m.addrBits (List.range m.rowBitsIdx) List.nodup_range
    (addr >>> m.txOffset / 2^2)
    (Function.update addrVec m.colBitsIdx (addr >>> m.txOffset % 2^2))
  generalize hs : (List.range m.rowBitsIdx).foldl (sliceLevel m.addrBits)
    (addr >>> m.txOffset / 2^2,
      Function.update addrVec m.colBitsIdx (addr >>> m.txOffset % 2^2)) = s
    at hother hbound haddr
  have hcolumn : m.colBitsIdx = m.rowBitsIdx + 1 := rfl
  have hlow : s.2 m.colBitsIdx = addr >>> m.txOffset % 2^2 := by
    rw [hother _ (by rw [List.mem_range]; omega), Function.update_self]
  have hmop : m.mop4cl addr addrVec = Function.update (Function.update s.2 m.colBitsIdx
      (addr >>> m.txOffset % 2^2 + (s.1 % 2^(m.addrBits m.colBitsIdx - 2)) <<< 2))
      m.rowBitsIdx (s.1 / 2^(m.addrBits m.colBitsIdx - 2) % 2^32) := by
    simp only [mop4cl, sliceLowerBits_eq, hs, hlow]
  have hlevel : ∀ level < m.rowBitsIdx, m.mop4cl addr addrVec level = s.2 level := by
    intro level hlt
    rw [hmop, Function.update_of_ne (by omega), Function.update_of_ne (by omega)]
  have hcolumn_eq : m.mop4cl addr addrVec m.colBitsIdx =
      addr >>> m.txOffset % 2^2 + 2^2 * (s.1 % 2^(m.addrBits m.colBitsIdx - 2)) := by
    rw [hmop, Function.update_of_ne (by omega), Function.update_self, Nat.shiftLeft_eq,
      Nat.mul_comm (2^2)]
  have hlow_lt : addr >>> m.txOffset % 2^2 < 2^2 := Nat.mod_lt _ (Nat.two_pow_pos 2)
  refine ⟨s.1 / 2^(m.addrBits m.colBitsIdx - 2),?_,?_,fun level hlt hne => ?_⟩
  · rw [mopNumber, hcolumn_eq, Nat.add_mul_mod_self_left, Nat.mod_eq_of_lt hlow_lt,
      Nat.add_mul_div_left _ _ (Nat.two_pow_pos 2), Nat.div_eq_of_lt hlow_lt, Nat.zero_add,
      encode_congr fun level hlevel' => hlevel level (List.mem_range.mp hlevel'),
      Nat.mod_add_div, ← haddr, Nat.mod_add_div]
  · rw [hmop, Function.update_self]
  · rcases Nat.lt_or_ge level m.rowBitsIdx with habove | hge
    · rw [hlevel level habove]
      exact hbound level (List.mem_range.mpr habove)
    · have hlast : level = m.colBitsIdx := by
        rw [numLevels] at hlt
        omega
      have hhigh := Nat.mod_lt s.1 (Nat.two_pow_pos (m.addrBits m.colBitsIdx - 2))
      have hpow : 2^m.addrBits m.colBitsIdx = 2^2 * 2^(m.addrBits m.colBitsIdx - 2) := by
        rw [← Nat.pow_add, Nat.add_sub_cancel' hcol]
      rw [hlast, hcolumn_eq, hpow]
      omega

lemma lt_of_mopNumber_lt {rest : ℕ} (hcol : 2 ≤ m.addrBits m.colBitsIdx)
    (h : m.mopNumber v rest < 2^m.totalBits) : rest < 2^m.addrBits m.rowBitsIdx := by
  rw [totalBits_eq hcol, Nat.pow_add, Nat.pow_add, Nat.pow_add] at h
  by_contra hle
  have hge : 2^2 * 2^((List.range m.rowBitsIdx).map m.addrBits).sum *
      2^(m.addrBits m.colBitsIdx - 2) * 2^m.addrBits m.rowBitsIdx ≤ m.mopNumber v rest := by
    calc 2^2 * 2^((List.range m.rowBitsIdx).map m.addrBits).sum *
          2^(m.addrBits m.colBitsIdx - 2) * 2^m.addrBits m.rowBitsIdx
        ≤ 2^2 * 2^((List.range m.rowBitsIdx).map m.addrBits).sum *
          2^(m.addrBits m.colBitsIdx - 2) * rest := Nat.mul_le_mul_left _ (Nat.not_lt.mp hle)
      _ ≤ m.mopNumber v rest := by
        rw [mopNumber, Nat.mul_assoc, Nat.mul_assoc]
        refine Nat.le_trans (Nat.mul_le_mul_left (2^2) ?_) (Nat.le_add_left _ _)
        exact Nat.le_trans (Nat.mul_le_mul_left _ (Nat.le_add_left _ _)) (Nat.le_add_left _ _)
  omega

/-- The pieces of an address determine it. -/
lemma mopNumber_injective {v' : ℕ → ℕ} {rest rest' : ℕ}
    (hcol : 2 ≤ m.addrBits m.colBitsIdx)
    (hv : ∀ level < m.numLevels, level ≠ m.rowBitsIdx → v level < 2^m.addrBits level)
    (hv' : ∀ level < m.numLevels, level ≠ m.rowBitsIdx → v' level < 2^m.addrBits level)
    (h : m.mopNumber v rest = m.mopNumber v' rest') :
    rest = rest' ∧ ∀ level < m.numLevels, level ≠ m.rowBitsIdx → v level = v' level := by
  have hcolumn : m.colBitsIdx = m.rowBitsIdx + 1 := rfl
  have hlevels : m.numLevels = m.rowBitsIdx + 2 := rfl
  have habove : ∀ {u : ℕ → ℕ}, (∀ level < m.numLevels, level ≠ m.rowBitsIdx →
      u level < 2^m.addrBits level) → ∀ level ∈ List.range m.rowBitsIdx,
        u level < 2^m.addrBits level := by
    intro u hu level hlevel
    rw [List.mem_range] at hlevel
    exact hu level (by omega) (by omega)
  have hhigh : ∀ {u : ℕ → ℕ}, (∀ level < m.numLevels, level ≠ m.rowBitsIdx →
      u level < 2^m.addrBits level) →
        u m.colBitsIdx / 2^2 < 2^(m.addrBits m.colBitsIdx - 2) := by
    intro u hu
    refine Nat.div_lt_of_lt_mul ?_
    rw [← Nat.pow_add, Nat.add_sub_cancel' hcol]
    exact hu m.colBitsIdx (by omega) (by omega)
  have hfour := Nat.two_pow_pos 2
  obtain ⟨hlow,h⟩ := add_two_pow_mul_inj (Nat.mod_lt _ hfour) (Nat.mod_lt _ hfour) h
  obtain ⟨henc,h⟩ := add_two_pow_mul_inj (encode_lt (habove hv)) (encode_lt (habove hv')) h
  obtain ⟨hdiv,hrest⟩ := add_two_pow_mul_inj (hhigh hv) (hhigh hv') h
  refine ⟨hrest,fun level hlt hne => ?_⟩
  rcases Nat.lt_or_ge level m.rowBitsIdx with hup | hge
  · exact encode_injective (habove hv) (habove hv') henc level (List.mem_range.mpr hup)
  · have hlast : level = m.colBitsIdx := by omega
    rw [hlast, ← Nat.mod_add_div (v m.colBitsIdx) (2^2), hlow, hdiv, Nat.mod_add_div]

lemma mopNumber_lt (hcol : 2 ≤ m.addrBits m.colBitsIdx) (hv : m.Fits v) :
    m.mopNumber v (v m.rowBitsIdx) < 2^m.totalBits := by
  have hhigh : v m.colBitsIdx / 2^2 < 2^(m.addrBits m.colBitsIdx - 2) := by
    refine Nat.div_lt_of_lt_mul ?_
    rw [← Nat.pow_add, Nat.add_sub_cancel' hcol]
    exact hv m.colBitsIdx (Nat.lt_succ_self _)
  have habove : ∀ level ∈ List.range m.rowBitsIdx, v level < 2^m.addrBits level :=
    fun level hlevel => hv level (Nat.lt_add_right 2 (List.mem_range.mp hlevel))
  rw [totalBits_eq hcol, Nat.add_assoc, Nat.add_assoc]
  exact add_two_pow_mul_lt (Nat.mod_lt _ (Nat.two_pow_pos 2)) (add_two_pow_mul_lt
    (encode_lt habove) (add_two_pow_mul_lt hhigh (hv _ (Nat.lt_add_of_pos_right Nat.two_pos))))

/-- The components of an address, when its rest is a row. -/
lemma mop4cl_eq {rest addr : ℕ} (addrVec : ℕ → ℕ) (hcol : 2 ≤ m.addrBits m.colBitsIdx)
    (hrow : m.addrBits m.rowBitsIdx ≤ 31) (ht : addr >>> m.txOffset = m.mopNumber v rest)
    (hrest : rest < 2^m.addrBits m.rowBitsIdx)
    (hv : ∀ level < m.numLevels, level ≠ m.rowBitsIdx → v level < 2^m.addrBits level) :
    m.mop4cl addr addrVec m.rowBitsIdx = rest ∧
      ∀ level < m.numLevels, level ≠ m.rowBitsIdx → m.mop4cl addr addrVec level = v level := by
  obtain ⟨r,hr,hrow_eq,hlevels⟩ := mop4cl_spec addr addrVec hcol
  obtain ⟨rfl,heq⟩ := mopNumber_injective hcol hlevels hv (hr.symm.trans ht)
  have hpow : 2^m.addrBits m.rowBitsIdx < 2^32 := Nat.pow_lt_pow_right (by omega) (by omega)
  rw [Nat.mod_eq_of_lt (hrest.trans hpow)] at hrow_eq
  exact ⟨hrow_eq,heq⟩

/-- A column has the two bits that are sliced first, and a row is a positive int. -/
theorem mop4clXor_oneToOne (m : LinearMapper) (hcol : 2 ≤ m.addrBits m.colBitsIdx)
    (hrow : m.addrBits m.rowBitsIdx ≤ 31) : m.OneToOne m.mop4clXor := by
  refine ⟨fun addr addrVec hlt => ?_,fun v hv => ?_⟩
  · obtain ⟨rest,hr,-,hlevels⟩ := mop4cl_spec addr addrVec hcol
    rw [hr] at hlt
    have hrest := lt_of_mopNumber_lt hcol hlt
    obtain ⟨hrow_eq,-⟩ := mop4cl_eq addrVec hcol hrow hr hrest hlevels
    rw [mop4clXor_eq]
    refine Fits.scrambled fun level hlevel => ?_
    by_cases he : level = m.rowBitsIdx
    · rw [he, hrow_eq]
      exact hrest
    · exact hlevels level hlevel he
  · have hu := hv.scrambled
    refine ⟨m.mopNumber (m.scrambled v) (m.scrambled v m.rowBitsIdx),⟨mopNumber_lt hcol hu,
      fun addr addrVec ht => ?_⟩,fun t ht => ?_⟩
    · obtain ⟨hrow_eq,hlevels⟩ := mop4cl_eq addrVec hcol hrow ht
        (hu _ (Nat.lt_add_of_pos_right Nat.two_pos)) fun level hlevel _ => hu level hlevel
      have hpieces : ∀ level < m.numLevels, m.mop4cl addr addrVec level = m.scrambled v level := by
        intro level hlevel
        by_cases he : level = m.rowBitsIdx
        · rw [he, hrow_eq]
        · exact hlevels level hlevel he
      intro level hlevel
      rw [mop4clXor_eq, scrambled_congr hpieces level hlevel, scrambled_scrambled]
    · obtain ⟨hlt,happly⟩ := ht
      have hshift : t <<< m.txOffset >>> m.txOffset = t := Nat.shiftLeft_shiftRight t _
      have happly := happly (t <<< m.txOffset) v hshift
      rw [mop4clXor_eq] at happly
      have hpieces := scrambled_congr happly
      rw [scrambled_scrambled] at hpieces
      obtain ⟨rest,hr,-,hlevels⟩ := mop4cl_spec (t <<< m.txOffset) v hcol
      rw [hshift] at hr
      have hrest := lt_of_mopNumber_lt hcol (hr ▸ hlt)
      obtain ⟨hrow_eq,-⟩ := mop4cl_eq v hcol hrow (hshift.trans hr) hrest hlevels
      rw [hr, mopNumber_congr rest hpieces, ← hrow_eq,
        hpieces _ (Nat.lt_add_of_pos_right Nat.two_pos)]

end Mop

/-- The DDR4 device of one channel that the preset DDR4_8Gb_x8 organizes. -/
theorem ddr4_mop4clXor_oneToOne :
    (setup 4 (fun level => [1,1,4,4,65536,1024].getD level 0) 8 64).OneToOne
      (setup 4 (fun level => [1,1,4,4,65536,1024].getD level 0) 8 64).mop4clXor :=
  mop4clXor_oneToOne _ (by decide) (by decide)

end LinearMapper
end CaLabs.Lab5
