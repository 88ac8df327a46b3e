import CaLabs.Mips.Bytes
import CaLabs.Lab1.Pipe
import CaLabs.Lab2.Refinement

/-! The memory stages of both labs against a little-endian byte memory. -/
namespace CaLabs
open Mips Pipeline

/-- The op that leaves the memory stage in one call, as it was before the call and after. -/
def passed (s s' : PipeState) : List (PipeOp × PipeOp) :=
  match s.memOp,s'.memOp with
  | some op,none => (s'.wbOp.map fun out => (op,out)).toList
  | _,_ => []

/-- The ops that have passed the memory stage after some of its calls, in their order. Between
the calls anything may happen that leaves the main memory alone. -/
inductive Passes {σ : Type*} (pipe : σ → PipeState) (stage : σ → σ → Prop) (s₀ : σ) :
    List (PipeOp × PipeOp) → σ → Prop
  | start : Passes pipe stage s₀ [] s₀
  | between {l s s'} : Passes pipe stage s₀ l s → (pipe s').mem = (pipe s).mem →
      Passes pipe stage s₀ l s'
  | call {l s s'} : Passes pipe stage s₀ l s → stage s s' →
      Passes pipe stage s₀ (l ++ passed (pipe s) (pipe s')) s'

/-- The reference memory after the ops, from the one before them. -/
def reference (b : ByteMemory) (l : List (PipeOp × PipeOp)) : ByteMemory :=
  l.foldl (fun b p => b.step p.1) b

/-- The loads and stores among the ops are naturally aligned. -/
def AllAligned (l : List (PipeOp × PipeOp)) : Prop :=
  ∀ p ∈ l, isLoad p.1.opcode ∨ isStore p.1.opcode → AlignedAccess p.1

/-- The ops have done to memory what the reference does, and the loads return what it has. -/
structure FollowsReference (b : ByteMemory) (l : List (PipeOp × PipeOp)) (m : Memory) :
    Prop where
  memory : byteAt m = reference b l
  loads : ∀ l₁ op out l₂, l = l₁ ++ (op,out) :: l₂ → isLoad op.opcode →
    out.regDstValue = (reference b l₁).load op

lemma reference_append (b : ByteMemory) (l l' : List (PipeOp × PipeOp)) :
    reference b (l ++ l') = reference (reference b l) l' := List.foldl_append

lemma step_of_not_store {op : PipeOp} (h : ¬isStore op.opcode) (b : ByteMemory) :
    b.step op = b := if_neg h

/-- An op that is no load or store passes without touching memory. -/
lemma memoryStep_other {op : PipeOp} (h : ¬(isLoad op.opcode ∨ isStore op.opcode)) (m : Memory) :
    memoryStep op m = (op,m) := by
  rw [memoryStep, if_neg fun hl => h (.inl hl), if_neg fun hs => h (.inr hs)]

/-- One more op. -/
lemma FollowsReference.snoc {b : ByteMemory} {l : List (PipeOp × PipeOp)} {m : Memory}
    (h : FollowsReference b l m) {op : PipeOp}
    (ha : isLoad op.opcode ∨ isStore op.opcode → AlignedAccess op) :
    FollowsReference b (l ++ [(op,(memoryStep op m).1)]) (memoryStep op m).2 := by
  constructor
  · rw [reference_append, ← h.memory]
    by_cases hk : isLoad op.opcode ∨ isStore op.opcode
    · exact byteAt_memoryStep m (ha hk)
    · rw [memoryStep_other hk]
      exact (step_of_not_store (fun hs => hk (.inr hs)) _).symm
  · intro l₁ op' out l₂ hl hload
    rcases List.eq_nil_or_concat l₂ with rfl | ⟨l₃,p,rfl⟩
    · obtain ⟨rfl,hp⟩ := List.append_inj' hl rfl
      obtain ⟨rfl,rfl⟩ := Prod.mk.inj (List.cons.inj hp).1
      rw [← h.memory]
      exact memoryStep_load m (ha (.inl hload)) hload
    · rw [List.concat_eq_append, ← List.cons_append, ← List.append_assoc] at hl
      obtain ⟨rfl,-⟩ := List.append_inj' hl rfl
      exact h.loads l₁ op' out l₃ rfl hload

section Stage
variable {σ : Type*} {pipe : σ → PipeState} {stage : σ → σ → Prop} {s₀ s : σ}
  {l : List (PipeOp × PipeOp)}

/-- A stage that waits or finishes its op follows the reference in every run. -/
theorem passes_reference (hstage : ∀ s s', stage s s' → ∃ go, pipe s' = elasticMem go (pipe s))
    (h : Passes pipe stage s₀ l s) (ha : AllAligned l) :
    FollowsReference (byteAt (pipe s₀).mem) l (pipe s).mem := by
  induction h with
  | start => exact ⟨rfl,fun l₁ op out l₂ hl => by simp at hl⟩
  | between _ hm ih => exact hm ▸ ih ha
  | @call l s s' _ hs ih =>
    have ih := ih fun p hp => ha p (List.mem_append_left _ hp)
    obtain ⟨go,hgo⟩ := hstage s s' hs
    cases hop : (pipe s).memOp with
    | none =>
      have hsame : pipe s' = pipe s := by rw [hgo, elasticMem_none go hop]
      have hnil : passed (pipe s) (pipe s') = [] := by simp only [passed, hop]
      rw [hnil, List.append_nil, hsame]
      exact ih
    | some op =>
      rw [elasticMem_some go hop] at hgo
      cases go with
      | false =>
        have hsame : pipe s' = pipe s := hgo
        have hnil : passed (pipe s) (pipe s') = [] := by simp only [passed, hsame, hop]
        rw [hnil, List.append_nil, hsame]
        exact ih
      | true =>
        have hdone : pipe s' = finishMem op (pipe s) := hgo
        have hpassed : passed (pipe s) (pipe s') =
            [(op,(memoryStep op (pipe s).mem).1)] := by
          rw [hdone]
          simp only [passed, hop, finishMem]
          rfl
        rw [hpassed] at ha ⊢
        rw [hdone]
        exact ih.snoc (ha (op,_) (List.mem_append_right _ List.mem_cons_self))

end Stage

/-! Outside the regions. -/

/-- The bytes of an aligned access are outside every region when its address is. -/
lemma findRegion_access {op : PipeOp} (h : AlignedAccess op) (hr : findRegion op.memAddr = none)
    {j : ℕ} (hj : j < accessSize op.opcode) :
    findRegion (op.memAddr + BitVec.ofNat 32 j) = none := by
  have hfits := h.fits
  have hword : ∀ i, op.memAddr.toNat % 4 + i < 4 →
      findRegion (op.memAddr + BitVec.ofNat 32 i) = findRegion (wordOf op.memAddr) := fun i hi => by
    rw [← wordOf_add_byte, findRegion_add_byte (wordOf_aligned _) hi]
  have hzero := hword 0 (by omega)
  rw [BitVec.add_zero] at hzero
  rw [hword j (by omega), ← hzero, hr]

lemma load_outside {op : PipeOp} (h : AlignedAccess op) (hl : isLoad op.opcode)
    (hr : findRegion op.memAddr = none) {b : ByteMemory} (hb : ∀ a, findRegion a = none → b a = 0) :
    b.load op = 0 := by
  have hbyte : ∀ j < accessSize op.opcode, b (op.memAddr + BitVec.ofNat 32 j) = 0 :=
    fun j hj => hb _ (findRegion_access h hr hj)
  have h0 : b op.memAddr = 0 := hb _ hr
  rcases hl with ho | ho | ho | ho | ho <;> simp only [ho, ByteMemory.load] at hbyte ⊢
  · have h1 : b (op.memAddr + 1) = 0 := hbyte 1 (by decide)
    have h2 : b (op.memAddr + 2) = 0 := hbyte 2 (by decide)
    have h3 : b (op.memAddr + 3) = 0 := hbyte 3 (by decide)
    rw [h0, h1, h2, h3]
    rfl
  · have h1 : b (op.memAddr + 1) = 0 := hbyte 1 (by decide)
    rw [h0, h1]
    rfl
  · have h1 : b (op.memAddr + 1) = 0 := hbyte 1 (by decide)
    rw [h0, h1]
    rfl
  · rw [h0]
    rfl
  · rw [h0]
    rfl

lemma step_outside {op : PipeOp} (h : AlignedAccess op) (hr : findRegion op.memAddr = none)
    (b : ByteMemory) : b.step op = b := by
  by_cases hs : isStore op.opcode
  · rw [ByteMemory.step, if_pos hs]
    funext a
    apply if_neg
    rintro ⟨hk,hsome⟩
    have hnone := findRegion_access h hr hk
    rw [BitVec.ofNat_toNat, BitVec.setWidth_eq, add_sub_cancel] at hnone
    rw [hnone] at hsome
    cases hsome
  · exact step_of_not_store hs b

/-- The reference has no bytes outside the regions. -/
lemma reference_outside {a : Word} (ha : findRegion a = none) (b : ByteMemory)
    (l : List (PipeOp × PipeOp)) : reference b l a = b a := by
  induction l generalizing b with
  | nil => rfl
  | cons p l ih =>
    refine (ih (b.step p.1)).trans ?_
    by_cases hs : isStore p.1.opcode
    · rw [ByteMemory.step, if_pos hs]
      apply if_neg
      rintro ⟨-,hsome⟩
      rw [ha] at hsome
      cases hsome
    · rw [step_of_not_store hs]

/-- Loads and stores are those of a byte memory that starts with zeros: they see and change
nothing outside the regions, and stay inside the array of the region they are in. -/
structure ByteMemoryRun (l : List (PipeOp × PipeOp)) (m : Memory) : Prop where
  follows : FollowsReference (fun _ => 0) l m
  outside : ∀ l₁ op out l₂, l = l₁ ++ (op,out) :: l₂ → findRegion op.memAddr = none →
    (isLoad op.opcode → out.regDstValue = 0) ∧
      reference (fun _ => 0) (l₁ ++ [(op,out)]) = reference (fun _ => 0) l₁
  inside : ∀ p ∈ l, isLoad p.1.opcode ∨ isStore p.1.opcode → ∀ r,
    findRegion (wordOf p.1.memAddr) = some r →
    regionOffset r (wordOf p.1.memAddr) + 3 < r.size.toNat

lemma FollowsReference.byteMemoryRun {l : List (PipeOp × PipeOp)} {m : Memory}
    (h : FollowsReference (fun _ => 0) l m) (ha : AllAligned l) : ByteMemoryRun l m where
  follows := h
  outside l₁ op out l₂ hl hr := by
    have hop : isLoad op.opcode ∨ isStore op.opcode → AlignedAccess op :=
      ha (op,out) (hl ▸ List.mem_append_right _ List.mem_cons_self)
    refine ⟨fun hload => ?_,?_⟩
    · rw [h.loads l₁ op out l₂ hl hload]
      exact load_outside (hop (.inl hload)) hload hr fun a hra => reference_outside hra _ _
    · rw [reference_append]
      by_cases hs : isStore op.opcode
      · exact step_outside (hop (.inr hs)) hr _
      · exact step_of_not_store hs _
  inside p _ _ r hr := regionOffset_lt (wordOf_aligned _) hr

/-- A memory stage behaves as a byte memory, over every sequence of calls. -/
def IsByteMemory {σ : Type*} (pipe : σ → PipeState) (stage : σ → σ → Prop) : Prop :=
  ∀ s₀ l s, (∀ r offset, (pipe s₀).mem r offset = 0) → Passes pipe stage s₀ l s →
    AllAligned l → ByteMemoryRun l (pipe s).mem

lemma isByteMemory_of_elastic {σ : Type*} {pipe : σ → PipeState} {stage : σ → σ → Prop}
    (hstage : ∀ s s', stage s s' → ∃ go, pipe s' = elasticMem go (pipe s)) :
    IsByteMemory pipe stage := by
  intro s₀ l s hzero h ha
  have hbytes : byteAt (pipe s₀).mem = fun _ => 0 := by
    funext a
    rw [byteAt]
    cases findRegion a with
    | none => rfl
    | some r => exact hzero r _
  have hrun := passes_reference hstage h ha
  rw [hbytes] at hrun
  exact hrun.byteMemoryRun ha

/-- The memory stages of lab 1 and of lab 2 implement a little-endian byte memory, whatever
their caches answer. -/
theorem pipeStageMem_isByteMemory :
    (∀ policy, IsByteMemory Lab1.State.pipe
      fun s s' => Lab1.pipeStageMem policy s = .ok s') ∧
    IsByteMemory Lab2.State.pipe fun s s' => Lab2.memSystem.pipeStageMem s = .ok s' :=
  ⟨fun _ => isByteMemory_of_elastic fun _ _ => Lab1.pipeStageMem_elastic,
    isByteMemory_of_elastic fun _ _ => Lab2.MemSystem.pipeStageMem_elastic⟩

end CaLabs
