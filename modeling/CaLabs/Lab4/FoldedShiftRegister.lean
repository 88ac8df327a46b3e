import Mathlib.Data.Nat.Bitwise
import Mathlib.Data.List.Fold
import Mathlib.Data.List.Induction
import Mathlib.Tactic.Ring
import Mathlib.Tactic.Linarith

/-! The global history of the hashed perceptron: a shift register whose value is the history folded
into words of one table index. -/
namespace CaLabs.Lab4

/-! Numbers as sequences of words, the lowest one first. -/

/-- The XOR of the first n words of a number. -/
def wordXor (W : ℕ) : ℕ → ℕ → ℕ
  | 0, _ => 0
  | n+1, x => x % 2^W ^^^ wordXor W n (x / 2^W)

/-- The number that has these values of V bits. -/
def joined (V : ℕ) : List ℕ → ℕ
  | [] => 0
  | w :: ws => w + 2^V * joined V ws

section Words
variable {W V : ℕ}

lemma wordXor_zero (n : ℕ) : wordXor W n 0 = 0 := by
  induction n with
  | zero => rfl
  | succ n ih => rw [wordXor, Nat.zero_mod, Nat.zero_div, ih, Nat.xor_self]

lemma wordXor_xor (n x y : ℕ) : wordXor W n (x ^^^ y) = wordXor W n x ^^^ wordXor W n y := by
  induction n generalizing x y with
  | zero => exact (Nat.xor_self 0).symm
  | succ n ih =>
    rw [wordXor, wordXor, wordXor, Nat.xor_mod_two_pow, Nat.xor_div_two_pow, ih]
    ac_rfl

/-- The words above the number are zero. -/
lemma wordXor_of_lt {n m x : ℕ} (h : n ≤ m) (hx : x < 2^(W * n)) :
    wordXor W m x = wordXor W n x := by
  induction n generalizing m x with
  | zero =>
    rw [Nat.mul_zero, Nat.pow_zero, Nat.lt_one_iff] at hx
    rw [hx, wordXor_zero, wordXor_zero]
  | succ n ih =>
    obtain ⟨m,rfl⟩ : ∃ k, m = k + 1 := ⟨m - 1,by omega⟩
    rw [wordXor, wordXor, ih (by omega)]
    rw [Nat.mul_succ, Nat.pow_add, Nat.mul_comm] at hx
    exact Nat.div_lt_of_lt_mul hx

/-- A value of k words and what stands above it fold apart. -/
lemma wordXor_append (k n x y : ℕ) (hx : x < 2^(W * k)) :
    wordXor W (k + n) (x + 2^(W * k) * y) = wordXor W k x ^^^ wordXor W n y := by
  induction k generalizing x with
  | zero =>
    rw [Nat.mul_zero, Nat.pow_zero, Nat.lt_one_iff] at hx
    rw [hx, Nat.mul_zero, Nat.pow_zero, Nat.one_mul, Nat.zero_add, Nat.zero_add, wordXor,
      Nat.zero_xor]
  | succ k ih =>
    have hpow : 2^(W * (k + 1)) = 2^W * 2^(W * k) := by rw [Nat.mul_succ, Nat.pow_add, Nat.mul_comm]
    rw [hpow] at hx ⊢
    rw [Nat.add_right_comm, wordXor, wordXor, Nat.mul_assoc, Nat.add_mul_mod_self_left,
      Nat.add_mul_div_left _ _ (Nat.two_pow_pos W), ih _ (Nat.div_lt_of_lt_mul hx), Nat.xor_assoc]

lemma joined_lt {ws : List ℕ} (h : ∀ w ∈ ws, w < 2^V) : joined V ws < 2^(V * ws.length) := by
  induction ws with
  | nil => exact Nat.one_pos
  | cons w ws ih =>
    have hw := h w List.mem_cons_self
    have hws := ih fun x hx => h x (List.mem_cons_of_mem _ hx)
    rw [joined, List.length_cons, Nat.mul_succ, Nat.pow_add, Nat.mul_comm (2^(V * ws.length))]
    calc w + 2^V * joined V ws < 2^V * (joined V ws + 1) := by rw [Nat.mul_succ]; omega
      _ ≤ 2^V * 2^(V * ws.length) := Nat.mul_le_mul_left _ hws

/-- Folding the values together first folds the number that they make up. -/
lemma wordXor_joined {k : ℕ} (ws : List ℕ) (h : ∀ w ∈ ws, w < 2^(W * k)) :
    wordXor W (k * ws.length) (joined (W * k) ws) = wordXor W k (ws.foldr (· ^^^ ·) 0) := by
  induction ws with
  | nil => rw [joined, List.foldr_nil, wordXor_zero, wordXor_zero]
  | cons w ws ih =>
    rw [joined, List.length_cons, Nat.mul_succ, Nat.add_comm,
      wordXor_append k _ _ _ (h w List.mem_cons_self),
      ih fun x hx => h x (List.mem_cons_of_mem _ hx), List.foldr_cons, wordXor_xor]

end Words

def bitmask (n : ℕ) : ℕ := 2^n - 1

lemma and_bitmask (x n : ℕ) : x &&& bitmask n = x % 2^n := Nat.and_two_pow_sub_one_eq_mod x n

structure FoldedShiftRegister where
  lastValueMask : ℕ
  words : List ℕ
  deriving DecidableEq, Repr

namespace FoldedShiftRegister

/-- A value_type has 64 bits. -/
def numWordsPerValue (W : ℕ) : ℕ := 64 / W

def valueLen (W : ℕ) : ℕ := W * numWordsPerValue W

def init (W length : ℕ) : FoldedShiftRegister where
  lastValueMask := bitmask (length % valueLen W)
  words := List.replicate
    (length / valueLen W + if length % valueLen W ≠ 0 then 1 else 0) 0

/-- The loop over joined_words, of as many rounds. -/
def unpack (W : ℕ) : ℕ → ℕ → ℕ → ℕ
  | 0, _, result => result
  | i+1, joinedWords, result => unpack W i (joinedWords >>> W) (result ^^^ (joinedWords >>> W))

def value (W : ℕ) (r : FoldedShiftRegister) : ℕ :=
  let joinedWords := r.words.foldl (· ^^^ ·) 0
  let result :=
    if numWordsPerValue W > 1 then unpack W (numWordsPerValue W + 1) joinedWords joinedWords
    else joinedWords
  result &&& bitmask W

def extractMsb (W x : ℕ) : ℕ :=
  let msbLoc := valueLen W - 1
  (x &&& 1 <<< msbLoc) >>> msbLoc

def shiftAndApplyLsb (W x lsb : ℕ) : ℕ := (x <<< 1 ||| lsb) &&& bitmask (valueLen W)

/-- words.back() &= mask -/
def maskBack (mask : ℕ) : List ℕ → List ℕ
  | [] => []
  | [w] => [w &&& mask]
  | w :: ws => w :: maskBack mask ws

def pushBack (W : ℕ) (r : FoldedShiftRegister) (ins : Bool) : FoldedShiftRegister :=
  let msbs := ins.toNat :: r.words.map (extractMsb W)
  let words := List.zipWith (shiftAndApplyLsb W) r.words msbs
  { r with words := if r.lastValueMask ≠ 0 then maskBack r.lastValueMask words else words }

/-- The outcomes as a number, the last one as its lowest bit. -/
def history (pushed : List Bool) : ℕ := pushed.foldl (fun h ins => 2 * h + ins.toNat) 0

section Push
variable {W : ℕ}

lemma valueLen_pos (hW : 0 < W) (hW' : W ≤ 64) : 0 < valueLen W :=
  Nat.mul_pos hW (Nat.div_pos hW' hW)

lemma shiftAndApplyLsb_eq {x lsb : ℕ} (h : lsb ≤ 1) :
    shiftAndApplyLsb W x lsb = (2 * x + lsb) % 2^valueLen W := by
  have hor : x <<< 1 ||| lsb = 2 * x + lsb := by
    rw [← Nat.shiftLeft_add_eq_or_of_lt (by omega), Nat.shiftLeft_eq, Nat.pow_one, Nat.mul_comm]
  rw [shiftAndApplyLsb, hor, and_bitmask]

lemma extractMsb_eq {x : ℕ} (hV : 0 < valueLen W) (hx : x < 2^valueLen W) :
    extractMsb W x = 2 * x / 2^valueLen W := by
  have hpow : 2^valueLen W = 2 * 2^(valueLen W - 1) := by
    rw [← Nat.pow_succ', Nat.succ_eq_add_one, Nat.sub_add_cancel hV]
  have hlt : x / 2^(valueLen W - 1) < 2 := Nat.div_lt_of_lt_mul (by rw [Nat.mul_comm]; omega)
  rw [extractMsb, hpow, Nat.mul_div_mul_left _ _ Nat.two_pos, Nat.shiftRight_and_distrib,
    Nat.shiftRight_eq_div_pow, Nat.shiftLeft_shiftRight, Nat.and_one_is_mod,
    Nat.mod_eq_of_lt hlt]

lemma extractMsb_le {x : ℕ} (hV : 0 < valueLen W) (hx : x < 2^valueLen W) :
    extractMsb W x ≤ 1 := by
  rw [extractMsb_eq hV hx]
  exact Nat.lt_succ_iff.mp (Nat.div_lt_of_lt_mul (by omega))

/-- The carries make the values shift as one number. -/
lemma joined_shift {ws : List ℕ} {c : ℕ} (hV : 0 < valueLen W) (hc : c ≤ 1)
    (h : ∀ w ∈ ws, w < 2^valueLen W) :
    joined (valueLen W)
        (List.zipWith (shiftAndApplyLsb W) ws (c :: ws.map (extractMsb W))) =
      (2 * joined (valueLen W) ws + c) % 2^(valueLen W * ws.length) := by
  induction ws generalizing c with
  | nil =>
    rw [List.zipWith_nil_left, List.length_nil, Nat.mul_zero, Nat.pow_zero, Nat.mod_one]
    rfl
  | cons w ws ih =>
    have hw := h w List.mem_cons_self
    rw [List.map_cons, List.zipWith_cons_cons, joined, shiftAndApplyLsb_eq hc,
      ih (extractMsb_le hV hw) fun x hx => h x (List.mem_cons_of_mem _ hx), extractMsb_eq hV hw,
      List.length_cons, Nat.mul_succ, Nat.pow_add, Nat.mul_comm (2^(valueLen W * ws.length)),
      Nat.mod_mul, joined]
    have heven : 2^valueLen W = 2 * 2^(valueLen W - 1) := by
      rw [← Nat.pow_succ', Nat.succ_eq_add_one, Nat.sub_add_cancel hV]
    have hcarry : (2 * w + c) / 2^valueLen W = 2 * w / 2^valueLen W := by
      rw [heven, ← Nat.div_div_eq_div_mul, ← Nat.div_div_eq_div_mul]
      congr 1
      omega
    have hsum : 2 * (w + 2^valueLen W * joined (valueLen W) ws) + c =
        2 * w + c + 2^valueLen W * (2 * joined (valueLen W) ws) := by ring
    rw [hsum, Nat.add_mul_mod_self_left, Nat.add_mul_div_left _ _ (Nat.two_pow_pos _), hcarry,
      Nat.add_comm (2 * w / 2^valueLen W)]

lemma mem_shift_lt {ws cs : List ℕ} {x : ℕ}
    (h : x ∈ List.zipWith (shiftAndApplyLsb W) ws cs) : x < 2^valueLen W := by
  obtain ⟨i,hi,rfl⟩ := List.mem_iff_getElem.mp h
  rw [List.getElem_zipWith, shiftAndApplyLsb, and_bitmask]
  exact Nat.mod_lt _ (Nat.two_pow_pos _)

lemma length_maskBack (mask : ℕ) (ws : List ℕ) : (maskBack mask ws).length = ws.length := by
  fun_induction maskBack mask ws with
  | case1 => rfl
  | case2 => rfl
  | case3 w ws _ ih => rw [List.length_cons, List.length_cons, ih]

lemma mem_maskBack_lt {V mask : ℕ} {ws : List ℕ} (h : ∀ w ∈ ws, w < 2^V) :
    ∀ w ∈ maskBack mask ws, w < 2^V := by
  fun_induction maskBack mask ws with
  | case1 => exact h
  | case2 w =>
    intro x hx
    rw [List.mem_singleton.mp hx]
    exact Nat.lt_of_le_of_lt Nat.and_le_left (h w List.mem_cons_self)
  | case3 w ws _ ih =>
    intro x hx
    rcases List.mem_cons.mp hx with rfl | hx
    · exact h _ List.mem_cons_self
    · exact ih (fun y hy => h y (List.mem_cons_of_mem _ hy)) x hx

/-- Masking the last value cuts the number off. -/
lemma joined_maskBack {V r : ℕ} {ws : List ℕ} (hws : ws ≠ []) (h : ∀ w ∈ ws, w < 2^V) :
    joined V (maskBack (bitmask r) ws) = joined V ws % 2^(V * (ws.length - 1) + r) := by
  generalize hm : bitmask r = mask
  fun_induction maskBack mask ws with
  | case1 => exact absurd rfl hws
  | case2 w =>
    simp only [← hm, joined, and_bitmask, List.length_singleton, Nat.sub_self, Nat.mul_zero,
      Nat.add_zero, Nat.zero_add]
  | case3 w ws hne ih =>
    have hne : ws ≠ [] := fun he => hne he
    obtain ⟨k,hk⟩ : ∃ k, ws.length = k + 1 :=
      ⟨ws.length - 1,by have := List.length_pos_iff.mpr hne; omega⟩
    have hw := h w List.mem_cons_self
    rw [joined, joined, ih hne fun x hx => h x (List.mem_cons_of_mem _ hx), List.length_cons, hk,
      Nat.add_sub_cancel, Nat.add_sub_cancel, Nat.mul_succ, Nat.add_right_comm,
      Nat.pow_add _ (V * k + r), Nat.mul_comm (2^(V * k + r)), Nat.mod_mul,
      Nat.add_mul_mod_self_left, Nat.mod_eq_of_lt hw, Nat.add_mul_div_left _ _ (Nat.two_pow_pos V),
      Nat.div_eq_of_lt hw, Nat.zero_add]

/-- The values hold the last bits of the history, as many as the register has. -/
structure Holds (W length : ℕ) (r : FoldedShiftRegister) (h : ℕ) : Prop where
  mask : r.lastValueMask = bitmask (length % valueLen W)
  length_eq : r.words.length =
    length / valueLen W + if length % valueLen W ≠ 0 then 1 else 0
  bounded : ∀ w ∈ r.words, w < 2^valueLen W
  joined_eq : joined (valueLen W) r.words = h % 2^length

lemma Holds.init (W length : ℕ) : Holds W length (init W length) 0 := by
  refine ⟨rfl,List.length_replicate,fun w hw => ?_,?_⟩
  · rw [List.eq_of_mem_replicate hw]
    exact Nat.two_pow_pos _
  · rw [Nat.zero_mod, FoldedShiftRegister.init]
    generalize length / valueLen W + (if length % valueLen W ≠ 0 then 1 else 0) = n
    induction n with
    | zero => rfl
    | succ n ih => rw [List.replicate_succ, joined, ih, Nat.mul_zero]

lemma bitmask_eq_zero {n : ℕ} : bitmask n = 0 ↔ n = 0 := by
  unfold bitmask
  constructor
  · intro h
    by_contra hn
    have := Nat.one_lt_two_pow hn
    omega
  · rintro rfl
    rfl

lemma Holds.pushBack {length h : ℕ} {r : FoldedShiftRegister} (hV : 0 < valueLen W)
    (hr : Holds W length r h) (ins : Bool) :
    Holds W length (r.pushBack W ins) (2 * h + ins.toNat) := by
  have hshift := joined_shift hV (c := ins.toNat) (by cases ins <;> decide) hr.bounded
  have hlength : (List.zipWith (shiftAndApplyLsb W) r.words
      (ins.toNat :: r.words.map (extractMsb W))).length = r.words.length := by
    rw [List.length_zipWith, List.length_cons, List.length_map, Nat.min_eq_left (Nat.le_succ _)]
  have hbounded : ∀ w ∈ List.zipWith (shiftAndApplyLsb W) r.words
      (ins.toNat :: r.words.map (extractMsb W)), w < 2^valueLen W := fun w => mem_shift_lt
  have hcut : (2 * (h % 2^length) + ins.toNat) % 2^length = (2 * h + ins.toNat) % 2^length := by
    rw [Nat.add_mod, Nat.mul_mod_mod, ← Nat.add_mod]
  rw [hr.joined_eq] at hshift
  have hsplit := Nat.div_add_mod length (valueLen W)
  unfold FoldedShiftRegister.pushBack
  dsimp only
  by_cases hmod : length % valueLen W = 0
  · rw [if_neg (not_not.mpr (hr.mask.trans (bitmask_eq_zero.mpr hmod)))]
    refine ⟨hr.mask,hlength.trans hr.length_eq,hbounded,?_⟩
    have hwhole : valueLen W * r.words.length = length := by
      rw [hr.length_eq, if_neg (not_not.mpr hmod), Nat.add_zero]
      omega
    rw [hshift, hwhole, hcut]
  · have hlen := hr.length_eq
    rw [if_pos hmod] at hlen
    have hne : List.zipWith (shiftAndApplyLsb W) r.words
        (ins.toNat :: r.words.map (extractMsb W)) ≠ [] :=
      List.ne_nil_of_length_pos (by rw [hlength, hlen]; exact Nat.succ_pos _)
    have hmask : r.lastValueMask ≠ 0 := fun h0 => hmod (bitmask_eq_zero.mp (hr.mask ▸ h0))
    rw [if_pos hmask]
    refine ⟨hr.mask,(length_maskBack _ _).trans (hlength.trans hr.length_eq),
      mem_maskBack_lt hbounded,?_⟩
    have hpart : valueLen W * (r.words.length - 1) + length % valueLen W = length := by
      rw [hlen, Nat.add_sub_cancel]
      exact hsplit
    have hle : length ≤ valueLen W * r.words.length := by
      have := Nat.mod_lt length hV
      rw [hlen, Nat.mul_succ]
      omega
    dsimp only
    rw [hr.mask, joined_maskBack hne hbounded, hlength, hpart, hshift,
      Nat.mod_mod_of_dvd _ (Nat.pow_dvd_pow 2 hle), hcut]

end Push

section Value
variable {W : ℕ}

lemma unpack_eq (i j result : ℕ) :
    unpack W i j result &&& bitmask W = (result &&& bitmask W) ^^^ wordXor W i (j / 2^W) := by
  induction i generalizing j result with
  | zero => rw [unpack, wordXor, Nat.xor_zero]
  | succ i ih =>
    rw [unpack, ih, wordXor, Nat.shiftRight_eq_div_pow, and_bitmask, and_bitmask,
      Nat.xor_mod_two_pow, Nat.xor_assoc]

lemma foldr_xor_lt {V : ℕ} {ws : List ℕ} (h : ∀ w ∈ ws, w < 2^V) :
    ws.foldr (· ^^^ ·) 0 < 2^V := by
  induction ws with
  | nil => exact Nat.two_pow_pos V
  | cons w ws ih =>
    exact Nat.xor_lt_two_pow (h w List.mem_cons_self)
      (ih fun x hx => h x (List.mem_cons_of_mem _ hx))

/-- The values are joined and then unpacked into words. -/
lemma value_eq (hW : 0 < W) (hW' : W ≤ 64) {r : FoldedShiftRegister}
    (h : ∀ w ∈ r.words, w < 2^valueLen W) :
    r.value W = wordXor W (numWordsPerValue W) (r.words.foldr (· ^^^ ·) 0) := by
  have hjoined : r.words.foldl (· ^^^ ·) 0 = r.words.foldr (· ^^^ ·) 0 := List.foldl_eq_foldr
  have hlt := foldr_xor_lt h
  have hN : 0 < numWordsPerValue W := Nat.div_pos hW' hW
  rw [value, hjoined]
  generalize r.words.foldr (· ^^^ ·) 0 = x at hlt
  split_ifs with hmany
  · rw [unpack_eq, and_bitmask]
    exact wordXor_of_lt (Nat.le_add_right _ 2) hlt
  · have hone : numWordsPerValue W = 1 := by omega
    rw [hone, and_bitmask, wordXor, wordXor, Nat.xor_zero]

end Value

/-- The value of the register is the XOR of the words of the history, cut to its length, whatever
outcomes were pushed. -/
theorem value_folds_history {W : ℕ} (hW : 0 < W) (hW' : W ≤ 64) (length : ℕ)
    (pushed : List Bool) :
    (pushed.foldl (pushBack W) (init W length)).value W =
      wordXor W (length / W + 1) (history pushed % 2^length) := by
  have hV := valueLen_pos hW hW'
  have hrun : Holds W length (pushed.foldl (pushBack W) (init W length)) (history pushed) := by
    induction pushed using List.reverseRecOn with
    | nil => exact Holds.init W length
    | append_singleton pushed ins ih =>
      rw [history, List.foldl_append, List.foldl_append]
      exact ih.pushBack hV ins
  generalize pushed.foldl (pushBack W) (init W length) = r at hrun
  have hle : W * (length / W) + length % W = length := Nat.div_add_mod length W
  have hwords : length ≤ W * (length / W + 1) := by
    have := Nat.mod_lt length hW
    rw [Nat.mul_succ]
    omega
  have hfit : joined (valueLen W) r.words < 2^(W * (numWordsPerValue W * r.words.length)) := by
    rw [← Nat.mul_assoc]
    exact joined_lt hrun.bounded
  rw [value_eq hW hW' hrun.bounded, ← wordXor_joined r.words hrun.bounded, ← hrun.joined_eq]
  have hcut : joined (valueLen W) r.words < 2^(W * (length / W + 1)) := by
    rw [hrun.joined_eq]
    exact (Nat.mod_lt _ (Nat.two_pow_pos length)).trans_le (Nat.pow_le_pow_right Nat.two_pos hwords)
  rcases Nat.le_total (numWordsPerValue W * r.words.length) (length / W + 1) with hcase | hcase
  · exact (wordXor_of_lt hcase hfit).symm
  · exact wordXor_of_lt hcase hcut

/-- Outcomes that overlap in a register of three words and a half. -/
theorem history14_folds : (([true,false,true,true,false,true,true,false,true,false,true,true,true,
      false,true,false].foldl (pushBack 4) (init 4 14)).value 4 =
    wordXor 4 (14 / 4 + 1) (history [true,false,true,true,false,true,true,false,true,false,true,
      true,true,false,true,false] % 2^14)) :=
  value_folds_history (by decide) (by decide) 14 _

end FoldedShiftRegister
end CaLabs.Lab4
