import CaLabs.Lab2.Refinement

/-! The MSHRs and what the two stages remember of their misses, with every answer of a cache
left open: what each part of a cycle can do to them. -/
namespace CaLabs.Lab2
open Mips Pipeline

lemma blockAddr_blockAddr (address : Word) : blockAddr (blockAddr address) = blockAddr address := by
  simp only [blockAddr, BitVec.and_assoc, BitVec.and_self]

/-- The MSHR is in use for the block of the address. -/
structure Mshr.Holds (m : Mshr) (address : Word) : Prop where
  valid : m.valid = true
  block : blockAddr m.address = blockAddr address

/-- Waiting for a fill that has not come. -/
structure Mshr.Pending (m : Mshr) : Prop where
  valid : m.valid = true
  notDone : m.done = false

/-- No two MSHRs in use hold one block. -/
def MshrFile.Distinct (mshrs : MshrFile) : Prop :=
  ∀ i j address, (mshrs i).Holds address → (mshrs j).Holds address → i = j

section MshrFile
variable {mshrs mshrs' : MshrFile} {address : Word} {i : Fin numMshr}

lemma findMshrForAddress_some (h : findMshrForAddress mshrs address = some i) :
    (mshrs i).Holds address := by
  have hp := List.find?_some h
  simp only [Bool.and_eq_true, beq_iff_eq] at hp
  exact ⟨hp.1,hp.2⟩

lemma findMshrForAddress_none (h : findMshrForAddress mshrs address = none) (i : Fin numMshr) :
    ¬ (mshrs i).Holds address := by
  intro hi
  have hp := List.find?_eq_none.mp h i (List.mem_finRange i)
  simp only [Bool.and_eq_true, beq_iff_eq] at hp
  exact hp ⟨hi.valid,hi.block⟩

lemma checkL1FillReady_some (h : checkL1FillReady mshrs address = true) :
    ∃ i, findMshrForAddress mshrs address = some i ∧ (mshrs i).done = true := by
  unfold checkL1FillReady at h
  cases hf : findMshrForAddress mshrs address with
  | none => simp [hf] at h
  | some i => exact ⟨i,rfl,by simpa [hf] using h⟩

/-- Only the block of the address matters. -/
lemma checkL1FillReady_congr {other : Word} (h : blockAddr address = blockAddr other) :
    checkL1FillReady mshrs address = checkL1FillReady mshrs other := by
  simp only [checkL1FillReady, findMshrForAddress, h]

/-- Freeing either does nothing or ends the use of the MSHR that the search finds. -/
lemma freeMshr_eq (h : findMshrForAddress mshrs address = some i) :
    freeMshr mshrs address =
      Function.update mshrs i { mshrs i with valid := false, done := false } := by
  simp only [freeMshr, h]

/-- MSHRs that hold other blocks are not freed. -/
lemma freeMshr_of_ne {other : Word} (hi : (mshrs i).Holds other)
    (hne : blockAddr other ≠ blockAddr address) : freeMshr mshrs address i = mshrs i := by
  cases hf : findMshrForAddress mshrs address with
  | none => simp only [freeMshr, hf]
  | some j =>
    rw [freeMshr_eq hf]
    refine Function.update_of_ne (fun he => hne ?_) _ _
    rw [← hi.block, he, (findMshrForAddress_some hf).block]

/-- What is still in use after freeing was in use before. -/
lemma freeMshr_holds {other : Word} (h : (freeMshr mshrs address i).Holds other) :
    (mshrs i).Holds other ∧ freeMshr mshrs address i = mshrs i := by
  cases hf : findMshrForAddress mshrs address with
  | none =>
    have he : freeMshr mshrs address = mshrs := by simp only [freeMshr, hf]
    rw [he] at h ⊢
    exact ⟨h,rfl⟩
  | some j =>
    rw [freeMshr_eq hf] at h ⊢
    by_cases he : i = j
    · subst he
      rw [Function.update_self] at h
      exact absurd h.valid Bool.false_ne_true
    · rw [Function.update_of_ne he] at h ⊢
      exact ⟨h,rfl⟩

/-- With distinct blocks no MSHR keeps the freed one. -/
lemma MshrFile.Distinct.freed (hd : mshrs.Distinct)
    (hi : (freeMshr mshrs address i).Holds address) : False := by
  obtain ⟨hold,-⟩ := freeMshr_holds hi
  cases hf : findMshrForAddress mshrs address with
  | none => exact findMshrForAddress_none hf i hold
  | some j =>
    obtain rfl := hd i j address hold (findMshrForAddress_some hf)
    rw [freeMshr_eq hf, Function.update_self] at hi
    exact absurd hi.valid Bool.false_ne_true

lemma MshrFile.Distinct.free (hd : mshrs.Distinct) : (freeMshr mshrs address).Distinct :=
  fun i j other hi hj => hd i j other (freeMshr_holds hi).1 (freeMshr_holds hj).1

/-- Only a fill that has come is freed. -/
lemma freeMshr_pending (hr : checkL1FillReady mshrs address = true) (hp : (mshrs i).Pending) :
    freeMshr mshrs address i = mshrs i := by
  obtain ⟨j,hf,hdone⟩ := checkL1FillReady_some hr
  rw [freeMshr_eq hf]
  refine Function.update_of_ne (fun he => ?_) _ _
  rw [← he, hp.notDone] at hdone
  cases hdone

/-- What an access that misses in the first-level cache does to the MSHRs. -/
inductive Requested (mshrs : MshrFile) (address : Word) : MshrFile → Prop
  | pending {i : Fin numMshr} (h : (mshrs i).Holds address) : Requested mshrs address mshrs
  | fresh {i : Fin numMshr} {m : Mshr} (hnone : ∀ j, ¬ (mshrs j).Holds address)
      (hfree : (mshrs i).valid = false) (hm : m.Holds address) (hdone : m.done = false) :
      Requested mshrs address (Function.update mshrs i m)

namespace Requested

/-- Afterwards some MSHR holds the block. -/
lemma holds (h : Requested mshrs address mshrs') : ∃ i, (mshrs' i).Holds address := by
  cases h with
  | @pending i h => exact ⟨i,h⟩
  | @fresh i m _ _ hm _ => exact ⟨i,by rwa [Function.update_self]⟩

/-- MSHRs in use are not touched. -/
lemma of_valid (h : Requested mshrs address mshrs') (hi : (mshrs i).valid = true) :
    mshrs' i = mshrs i := by
  cases h with
  | pending => rfl
  | fresh _ hfree =>
    refine Function.update_of_ne (fun he => ?_) _ _
    rw [← he, hi] at hfree
    cases hfree

/-- An MSHR in use afterwards was in use before or holds the block of the miss. -/
lemma holds_cases {other : Word} (h : Requested mshrs address mshrs')
    (hi : (mshrs' i).Holds other) : (mshrs i).Holds other ∨
      ((mshrs' i).Holds address ∧ blockAddr other = blockAddr address) := by
  cases h with
  | pending => exact .inl hi
  | @fresh k m _ _ hm _ =>
    by_cases he : i = k
    · subst he
      rw [Function.update_self] at hi ⊢
      exact .inr ⟨hm,hi.block.symm.trans hm.block⟩
    · rw [Function.update_of_ne he] at hi
      exact .inl hi

/-- A new MSHR has no fill yet. -/
lemma ready (h : Requested mshrs address mshrs')
    (hr : checkL1FillReady mshrs' address = true) : checkL1FillReady mshrs address = true := by
  cases h with
  | pending => exact hr
  | @fresh i m hnone _ _ hdone =>
    obtain ⟨j,hj,hd⟩ := checkL1FillReady_some hr
    have hold := findMshrForAddress_some hj
    by_cases he : j = i
    · subst he
      rw [Function.update_self, hdone] at hd
      cases hd
    · rw [Function.update_of_ne he] at hold
      exact absurd hold (hnone j)

lemma distinct (h : Requested mshrs address mshrs') (hd : mshrs.Distinct) : mshrs'.Distinct := by
  cases h with
  | pending => exact hd
  | @fresh k m hnone _ hm _ =>
    have hother : ∀ {j other}, j ≠ k → (Function.update mshrs k m k).Holds other →
        (Function.update mshrs k m j).Holds other → False := by
      intro j other hj hk ho
      rw [Function.update_self] at hk
      rw [Function.update_of_ne hj] at ho
      exact hnone j ⟨ho.valid,by rw [ho.block, ← hk.block, hm.block]⟩
    intro i j other hi hj
    by_cases hik : i = k <;> by_cases hjk : j = k
    · rw [hik, hjk]
    · exact (hother hjk (hik ▸ hi) hj).elim
    · exact (hother hik (hjk ▸ hj) hi).elim
    · rw [Function.update_of_ne hik] at hi
      rw [Function.update_of_ne hjk] at hj
      exact hd i j other hi hj

end Requested
end MshrFile

/-- A new MSHR is taken for a block that none holds; without one all are in use. -/
lemma l2CacheAccess_cases {l2cache l2cache' : Cache} {mshrs mshrs' : MshrFile} {t address : Word}
    {isIcache : Bool} {r : CacheAccessResult} (hnone : ∀ i, ¬ (mshrs i).Holds address)
    (h : l2CacheAccess l2cache mshrs t isIcache address = (r,l2cache',mshrs')) :
    (r = .cacheMissWait ∧ Requested mshrs address mshrs') ∨
      (r = .cacheNoMshr ∧ ∀ i, (mshrs i).valid = true) := by
  unfold l2CacheAccess allocateMshr at h
  cases hf : (List.finRange numMshr).find? fun i => !(mshrs i).valid with
  | none =>
    simp only [hf, Prod.mk.injEq] at h
    refine .inr ⟨h.1.symm,fun i => ?_⟩
    simpa using List.find?_eq_none.mp hf i (List.mem_finRange i)
  | some i =>
    have hfree : (mshrs i).valid = false := by simpa using List.find?_some hf
    simp only [hf] at h
    left
    cases hw : hitWay (l2cache.sets (l2cache.setOf address)) (l2cache.tagOf address) with
    | some b =>
      simp only [hw, Prod.mk.injEq, Function.update_idem, Function.update_self] at h
      obtain ⟨rfl,-,rfl⟩ := h
      exact ⟨rfl,.fresh hnone hfree ⟨rfl,blockAddr_blockAddr address⟩ rfl⟩
    | none =>
      simp only [hw, Prod.mk.injEq] at h
      obtain ⟨rfl,-,rfl⟩ := h
      exact ⟨rfl,.fresh hnone hfree ⟨rfl,blockAddr_blockAddr address⟩ rfl⟩

/-- What an access does to the MSHRs, by its answer. -/
lemma l1CacheAccess_cases {m m' : Memories} {isIcache : Bool} {t address : Word}
    {r : CacheAccessResult} (h : m.l1CacheAccess isIcache t address = (r,m')) :
    m'.controller = m.controller ∧
      ((r = .cacheHit ∧ m'.mshrs = m.mshrs) ∨
        (r = .cacheMissWait ∧ Requested m.mshrs address m'.mshrs) ∨
        (r = .cacheNoMshr ∧ ∀ i, (m.mshrs i).valid = true)) := by
  unfold Memories.l1CacheAccess at h
  cases hw : hitWay ((m.l1 isIcache).sets ((m.l1 isIcache).setOf address))
      ((m.l1 isIcache).tagOf address) with
  | some b =>
    simp only [hw, Prod.mk.injEq] at h
    obtain ⟨rfl,rfl⟩ := h
    unfold Memories.setL1
    split_ifs <;> exact ⟨rfl,.inl ⟨rfl,rfl⟩⟩
  | none =>
    simp only [hw] at h
    cases hf : findMshrForAddress m.mshrs address with
    | some i =>
      simp only [hf, Prod.mk.injEq] at h
      obtain ⟨rfl,rfl⟩ := h
      exact ⟨rfl,.inr (.inl ⟨rfl,.pending (findMshrForAddress_some hf)⟩)⟩
    | none =>
      simp only [hf, Prod.mk.injEq] at h
      obtain ⟨rfl,rfl⟩ := h
      exact ⟨rfl,.inr (l2CacheAccess_cases (findMshrForAddress_none hf) rfl)⟩

end CaLabs.Lab2
