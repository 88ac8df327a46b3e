import Mathlib.Data.BitVec
import Mathlib.Tactic

/-! Simulated main memory: the five regions of shell.c and its word accesses. -/
namespace CaLabs.Mips

abbrev Word := BitVec 32
abbrev Byte := BitVec 8

/-- The rows of the table MEM_REGIONS, in its order. -/
inductive MemRegion where
  | text | data | stack | kdata | ktext
  deriving DecidableEq, Repr

namespace MemRegion

def start : MemRegion → Word
  | text => 0x00400000
  | data => 0x10000000
  | stack => 0x7ff00000
  | kdata => 0x90000000
  | ktext => 0x80000000

/-- All five MEM_..._SIZE constants are equal. -/
def size (_ : MemRegion) : Word := 0x00100000

def contains (r : MemRegion) (address : Word) : Bool :=
  r.start ≤ address && address < r.start + r.size

end MemRegion

/-- The table that memRead32 and memWrite32 scan from its first row. -/
def memRegions : List MemRegion := [.text,.data,.stack,.kdata,.ktext]

/-- Contents of the malloc'ed byte array of every region, by offset. -/
abbrev Memory := MemRegion → ℕ → Byte

/-- A program by the word at each offset of the text segment; all other bytes are zero. -/
def textWords (word : ℕ → ℕ) : Memory := fun r offset =>
  if r ≠ .text then 0 else BitVec.ofNat 8 (word (offset / 4 * 4) >>> (8 * (offset % 4)))

def findRegion (address : Word) : Option MemRegion :=
  memRegions.find? fun r => r.contains address

def regionOffset (r : MemRegion) (address : Word) : ℕ := (address - r.start).toNat

/-- Four consecutive bytes of one region, the lowest offset in the low byte. -/
def readBytes (bytes : ℕ → Byte) (offset : ℕ) : Word :=
  ((bytes (offset+3)).setWidth 32 <<< 24) ||| ((bytes (offset+2)).setWidth 32 <<< 16) |||
    ((bytes (offset+1)).setWidth 32 <<< 8) ||| (bytes offset).setWidth 32

def writeBytes (bytes : ℕ → Byte) (offset : ℕ) (value : Word) : ℕ → Byte :=
  Function.update (Function.update (Function.update (Function.update bytes
    (offset+3) (value.extractLsb' 24 8)) (offset+2) (value.extractLsb' 16 8))
    (offset+1) (value.extractLsb' 8 8)) offset (value.extractLsb' 0 8)

/-- An address outside every region reads as zero. -/
def memRead32 (m : Memory) (address : Word) : Word :=
  match findRegion address with
  | some r => readBytes (m r) (regionOffset r address)
  | none => 0

/-- A store outside every region is dropped. -/
def memWrite32 (m : Memory) (address value : Word) : Memory :=
  match findRegion address with
  | some r => Function.update m r (writeBytes (m r) (regionOffset r address) value)
  | none => m

/-- The condition asserted of every address that reaches a cache. -/
def WordAligned (address : Word) : Prop := address.toNat % 4 = 0

instance (address : Word) : Decidable (WordAligned address) :=
  inferInstanceAs (Decidable (_ = _))

/-- op->mem_addr & ~3. -/
def wordOf (address : Word) : Word := address &&& ~~~3#32

namespace WordAligned

theorem add {a b : Word} (ha : WordAligned a) (hb : WordAligned b) : WordAligned (a + b) := by
  unfold WordAligned at *
  rw [BitVec.toNat_add]
  omega

theorem shiftLeft_two (a : Word) : WordAligned (a <<< 2) := by
  unfold WordAligned
  rw [BitVec.toNat_shiftLeft, Nat.shiftLeft_eq]
  omega

theorem or {a b : Word} (ha : WordAligned a) (hb : WordAligned b) : WordAligned (a ||| b) := by
  unfold WordAligned at *
  have h := Nat.or_mod_two_pow (a := a.toNat) (b := b.toNat) (n := 2)
  rw [BitVec.toNat_or]
  simpa [ha, hb] using h

theorem and_right (a : Word) {b : Word} (hb : WordAligned b) : WordAligned (a &&& b) := by
  unfold WordAligned at *
  have h := Nat.and_mod_two_pow (a := a.toNat) (b := b.toNat) (n := 2)
  rw [BitVec.toNat_and]
  simpa [hb] using h

theorem next {a : Word} (ha : WordAligned a) : WordAligned (a + 4) := ha.add (by decide)

end WordAligned

theorem wordOf_aligned (address : Word) : WordAligned (wordOf address) :=
  .and_right address (by decide)

theorem MemRegion.start_aligned (r : MemRegion) : WordAligned r.start := by
  cases r <;> decide

lemma regionOffset_aligned (r : MemRegion) {a : Word} (ha : WordAligned a) :
    regionOffset r a % 4 = 0 := by
  have hr := r.start_aligned
  unfold WordAligned at *
  unfold regionOffset
  rw [BitVec.toNat_sub]
  omega

lemma regionOffset_injective (r : MemRegion) : Function.Injective (regionOffset r) := by
  intro a b h
  have he : a - r.start = b - r.start := BitVec.eq_of_toNat_eq h
  exact sub_left_injective he

lemma readBytes_writeBytes_of_disjoint (bytes : ℕ → Byte) (value : Word) {i j : ℕ}
    (h : i+4 ≤ j ∨ j+4 ≤ i) : readBytes (writeBytes bytes j value) i = readBytes bytes i := by
  have hb : ∀ k < 4, writeBytes bytes j value (i+k) = bytes (i+k) := by
    intro k hk
    unfold writeBytes
    rw [Function.update_of_ne (by omega), Function.update_of_ne (by omega),
      Function.update_of_ne (by omega), Function.update_of_ne (by omega)]
  have h0 := hb 0 (by omega)
  rw [Nat.add_zero] at h0
  unfold readBytes
  rw [hb 3 (by omega), hb 2 (by omega), hb 1 (by omega), h0]

/-- A store to one word leaves every other word alone. -/
theorem memRead32_memWrite32_of_ne (m : Memory) (value : Word) {a b : Word}
    (ha : WordAligned a) (hb : WordAligned b) (hne : a ≠ b) :
    memRead32 (memWrite32 m a value) b = memRead32 m b := by
  unfold memRead32 memWrite32
  cases hra : findRegion a with
  | none => rfl
  | some r =>
    cases hrb : findRegion b with
    | none => rfl
    | some r' =>
      by_cases hr : r' = r
      · subst hr
        simp only [Function.update_self]
        apply readBytes_writeBytes_of_disjoint
        have hoa := regionOffset_aligned r' ha
        have hob := regionOffset_aligned r' hb
        have hoff : regionOffset r' a ≠ regionOffset r' b :=
          (regionOffset_injective r').ne hne
        omega
      · simp only [Function.update_of_ne hr]

end CaLabs.Mips
