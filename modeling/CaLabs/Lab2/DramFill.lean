import CaLabs.Lab2.FirstFetch

/-! When a fill from the DRAM completes, and that its block does not reach the second-level
cache. -/
namespace CaLabs.Lab2
open Mips Pipeline

/-- In the cycle that starts in s the controller issues the request with k commands. -/
def IssuesIn (s : State Memories) (req : MemRequest) (k : ℕ) : Prop :=
  ∃ s₁ mshrs mc j, memSystem.stages s = .ok s₁ ∧
    queueMisses (markFills s₁.sys.mshrs s₁.statCycles) s₁.sys.controller s₁.statCycles =
      .ok (mshrs,mc) ∧
    selectRequestToSchedule mc s₁.statCycles = some (req,j) ∧ k = numCommands mc req.address

/-- Cycle c of the run from s₀ issues the request. -/
def IssuedAt (s₀ : State Memories) (c : ℕ) (req : MemRequest) (k : ℕ) : Prop :=
  ∃ s, memSystem.machine.Reaches s₀ c s ∧ IssuesIn s req k

/-- The MSHR is marked as done in cycle d, for the first time since cycle c. -/
structure MarkedAt (s₀ : State Memories) (c d : ℕ) (i : Fin numMshr) : Prop where
  before : ∀ e s, c < e → e ≤ d → memSystem.machine.Reaches s₀ e s →
    (s.sys.mshrs i).done = false
  after : ∃ s, memSystem.machine.Reaches s₀ (d + 1) s ∧ (s.sys.mshrs i).done = true

/-- An access to the address would hit. -/
def InL2 (l2cache : Cache) (address : Word) : Prop :=
  (hitWay (l2cache.sets (l2cache.setOf address)) (l2cache.tagOf address)).isSome = true

/-- In the first n cycles: whenever the MSHR of an issued request is marked as done, the block
is in the second-level cache. -/
def FillsReachL2 (s₀ : State Memories) (n : ℕ) : Prop :=
  ∀ c d req k s₁ s, c < d → d < n → IssuedAt s₀ c req k →
    memSystem.machine.Reaches s₀ (c + 1) s₁ → (s₁.sys.mshrs req.mshr).Holds req.address →
    MarkedAt s₀ c d req.mshr → memSystem.machine.Reaches s₀ (d + 1) s →
    InL2 s.sys.l2cache req.address

section
variable (mem : Memory) (regs : Reg → Word) (hi lo : Word)

/-- Before cycle 260 no fill completes. -/
lemma done_before_first_fill {e : ℕ} (h0 : 0 < e) (he : e ≤ 260) {s : State Memories}
    (h : memSystem.machine.Reaches (initialState initialMemories mem regs hi lo) e s)
    (i : Fin numMshr) : (s.sys.mshrs i).done = false := by
  obtain ⟨t,rfl⟩ : ∃ t, e = t + 1 := ⟨e - 1,by omega⟩
  have hw := first_fetch_waits mem regs hi lo (n := t) (by omega)
  rw [decide_eq_false (by omega : ¬ t = 260)] at hw
  rw [h.unique _ hw]
  by_cases hi : i = 0
  · subst hi
    rfl
  · simp only [waitingState, initialState, firstMemories, Function.update_of_ne hi]

/-- The first fetch of every run is marked in cycle 260. -/
lemma first_fetch_marked :
    MarkedAt (initialState initialMemories mem regs hi lo) 0 260 firstRequest.mshr :=
  ⟨fun _ _ h0 he hs => done_before_first_fill mem regs hi lo h0 he hs _,_,
    first_fetch_waits mem regs hi lo (n := 260) le_rfl,rfl⟩

/-- The first fill of every run leaves the second-level cache empty. -/
lemma first_fill_not_in_l2 {n : ℕ} (hn : 260 < n) :
    ¬ FillsReachL2 (initialState initialMemories mem regs hi lo) n := by
  intro h
  have hdone := first_fetch_waits mem regs hi lo (n := 260) le_rfl
  have hissue : IssuedAt (initialState initialMemories mem regs hi lo) 0 firstRequest
      (numCommands queuedController firstRequest.address) :=
    ⟨_,rfl,missedState mem regs hi lo,_,queuedController,0,initialState_stages mem regs hi lo,
      missedState_queued mem regs hi lo,queuedController_selects,rfl⟩
  have hmarked := first_fetch_marked mem regs hi lo
  have hin := h 0 260 firstRequest _ _ _ (by decide) hn hissue
    (first_fetch_waits mem regs hi lo (n := 0) (by decide)) ⟨rfl,rfl⟩ hmarked hdone
  have hmiss : ¬ InL2 (initialCache l2cacheSize l2cacheWays) firstRequest.address := by
    rw [InL2, initialCache_misses]
    exact Bool.false_ne_true
  exact hmiss hin

/-- Whatever the program, the fills of a run reach the second-level cache only as long as
there are none. -/
theorem fillsReachL2_iff (n : ℕ) :
    FillsReachL2 (initialState initialMemories mem regs hi lo) n ↔ n ≤ 260 := by
  constructor
  · intro h
    by_contra hn
    exact first_fill_not_in_l2 mem regs hi lo (by omega) h
  · intro hn c d req k s₁ s hc hd _ _ _ hmarked _
    obtain ⟨s',hs',hdone⟩ := hmarked.after
    rw [done_before_first_fill mem regs hi lo (Nat.succ_pos d) (by omega) hs'] at hdone
    cases hdone

end

/-- The fill of the exit program's only block. -/
theorem exitProgram_fill_lost :
    ¬ FillsReachL2 (initialState initialMemories exitProgram exitRegs 0 0) 261 :=
  first_fill_not_in_l2 exitProgram exitRegs 0 0 (by decide)

end CaLabs.Lab2
