import CaLabs.Lab1.Stalls

/-! A miss of lab 1 costs exactly dram_access_cycles, whatever else the pipeline waits for. -/
namespace CaLabs.Lab1
open Mips Pipeline

/-- The state in which pipe_stage_fetch starts in the cycle that starts in s. -/
def FetchStart (policy : Policy) (s s₁ : State) : Prop :=
  ∃ m, pipeStageMem policy (afterWb s) = .ok m ∧ s₁ = afterDecode m

/-- pipe_stage_mem calls cache_access for the op. -/
structure MemAccess (s : State) (op : PipeOp) : Prop where
  slot : s.pipe.memOp = some op
  ready : s.memStall = 0
  isMem : op.isMem = true

/-- pipe_stage_fetch calls cache_access. -/
structure FetchAccess (s : State) : Prop where
  empty : s.pipe.decodeOp = none
  ready : s.fetchStall = 0

def Misses (policy : Policy) (c : Cache) (rand : ℕ → ℕ) (address : Word) : Prop :=
  ∃ stall c' rand', cacheAccess policy c rand address = .ok (stall,c',rand') ∧ 0 < stall

instance (policy : Policy) (c : Cache) (rand : ℕ → ℕ) (address : Word) :
    Decidable (Misses policy c rand address) :=
  decidable_of_iff ((match cacheAccess policy c rand address with
    | .ok (stall,_) => decide (0 < stall)
    | .error _ => false) = true) <| by
    unfold Misses
    cases cacheAccess policy c rand address with
    | error e => simp
    | ok r =>
      obtain ⟨stall,c',rand'⟩ := r
      simp

def Hits (policy : Policy) (c : Cache) (rand : ℕ → ℕ) (address : Word) : Prop :=
  ∃ c' rand', cacheAccess policy c rand address = .ok (0,c',rand')

/-- The cycle that starts in s ends with a branch recovery. -/
def Recovers (policy : Policy) (s : State) : Prop :=
  ∃ s₁, FetchStart policy s s₁ ∧ s₁.pipe.branchRecover = true

/-- What a miss of the memory stage in the cycle that starts in s leads to: the op stays where
it is for this cycle and the next 49, without another access; in the one after it hits. -/
structure MemPenalty (policy : Policy) (s : State) (op : PipeOp) : Prop where
  waits : ∀ k s' m, k < dramAccessCycles → (machine policy).Reaches s k s' →
    pipeStageMem policy (afterWb s') = .ok m →
    (0 < k → ∀ op', ¬MemAccess (afterWb s') op') ∧ m.pipe.memOp = some op ∧ m.pipe.wbOp = none
  retries : ∀ s', (machine policy).Reaches s dramAccessCycles s' → MemAccess (afterWb s') op ∧
    Hits policy s'.dcache s'.rand (wordOf op.memAddr) ∧
    ∃ m, pipeStageMem policy (afterWb s') = .ok m ∧ m.pipe.memOp = none ∧
      m.pipe.wbOp = some (memoryStep op (afterWb s').pipe.mem).1

/-- What a miss of the fetch stage in the state s₁ of that cycle leads to. -/
structure FetchPenalty (policy : Policy) (s s₁ : State) : Prop where
  waits : ∀ k s' s₁', 0 < k → k < dramAccessCycles → (machine policy).Reaches s k s' →
    FetchStart policy s' s₁' → ¬FetchAccess s₁'
  retries : ∀ s' s₁', (machine policy).Reaches s dramAccessCycles s' →
    FetchStart policy s' s₁' → FetchAccess s₁'
  fetches : (∀ k < dramAccessCycles, ∀ s', (machine policy).Reaches s k s' →
      ¬Recovers policy s') →
    ∀ s' s₁', (machine policy).Reaches s dramAccessCycles s' → s'.pipe.runBit = true →
      FetchStart policy s' s₁' → s₁'.pipe.pc = s₁.pipe.pc ∧
      Hits policy s₁'.icache s₁'.rand s₁'.pipe.pc ∧
      ∃ s₂, pipeStageFetch policy s₁' = .ok s₂ ∧ s₂.pipe.decodeOp =
        some { pc := s₁.pipe.pc, instruction := memRead32 s₁'.pipe.mem s₁.pipe.pc }

section Again
variable {policy : Policy} {c c' : Cache} {rand rand' : ℕ → ℕ} {address : Word} {stall : ℕ}

lemma hits_of_holds (ha : WordAligned address)
    (h : Holds (c.sets (c.setOf address)) (c.tagOf address)) (rand : ℕ → ℕ) :
    Hits policy c rand address := by
  obtain ⟨w,hw⟩ := Option.ne_none_iff_exists'.mp ((holds_iff_hitWay _ _).mp h)
  refine ⟨c.setBlocks (c.setOf address) (touch policy (c.sets (c.setOf address)) w),rand,?_⟩
  simp only [cacheAccess, if_pos ha, hw]

/-- The block that a miss has brought in is there for the next access. -/
lemma hits_after_miss (hw : WellFormed c)
    (h : cacheAccess policy c rand address = .ok (stall,c',rand')) (hm : 0 < stall)
    (rand'' : ℕ → ℕ) : Hits policy c' rand'' address := by
  obtain ⟨ha,hanswer⟩ := cacheAccess_cases h
  cases hanswer with
  | hit => exact absurd hm (lt_irrefl 0)
  | @miss v blocks _ hmiss hv =>
    have hl := hw.shaped.length_setOf address
    have hv' : chooseVictim policy (c.sets (c.setOf address)).length
        (c.sets (c.setOf address)) rand = .ok (v,blocks,rand') := by rw [hl]; exact hv
    obtain ⟨hlt,hsame,-⟩ := chooseVictim_ok (hl ▸ hw.shaped.ways_pos) hv'
    have hfilled := filled_replaceBlock policy (c.tagOf address) (hsame.length ▸ hlt)
    have hholds : Holds (replaceBlock policy (c.tagOf address) blocks v) (c.tagOf address) :=
      ⟨v,by rw [hfilled.valids, if_pos rfl],by rw [hfilled.tags, if_pos rfl]⟩
    have hset : (c.setBlocks (c.setOf address)
        (replaceBlock policy (c.tagOf address) blocks v)).sets (c.setOf address) =
        replaceBlock policy (c.tagOf address) blocks v := by
      simp only [Cache.setBlocks, Function.update_self]
    refine hits_of_holds ha ?_ rand''
    change Holds ((c.setBlocks (c.setOf address)
      (replaceBlock policy (c.tagOf address) blocks v)).sets (c.setOf address)) (c.tagOf address)
    rw [hset]
    exact hholds

end Again

/-! One cycle, seen from the two stages. -/

section Cycle
variable {policy : Policy} {s s' s₁ m : State} {op : PipeOp} {c : Cache} {n : ℕ}

lemma pipeStageWb_pc (waiting : Bool) {p : PipeState}
    (h : ∀ op, p.wbOp = some op → ¬isHalt op = true) : (pipeStageWb waiting p).pc = p.pc := by
  unfold pipeStageWb
  cases hop : p.wbOp with
  | none => rfl
  | some op =>
    dsimp only
    rw [if_neg (h op hop)]

/-- Only the halting syscall clears RUN_BIT. -/
lemma not_isHalt_of_runBit (waiting : Bool) {p : PipeState}
    (h : (pipeStageWb waiting p).runBit = true) : ∀ op, p.wbOp = some op → ¬isHalt op = true := by
  intro op hop hh
  simp [pipeStageWb, hop, hh] at h

lemma pipeStageExecute_decodeOp (p : PipeState) : (pipeStageExecute p).decodeOp = p.decodeOp := by
  rcases pipeStageExecute_cases p with ⟨-,h⟩ | ⟨op,-,-,-,h⟩ | ⟨op,-,-,h⟩
  · rw [h]
    rfl
  · rw [h]
    rfl
  · rw [h]
    exact (finishExecute_slots _ _).2.2

lemma pipeStageDecode_decodeOp {p : PipeState} (h : p.decodeOp = none) :
    (pipeStageDecode p).decodeOp = none := by
  unfold pipeStageDecode
  rw [h]
  split_ifs <;> exact h

lemma recoverBranch_decodeOp {p : PipeState} (h : p.decodeOp = none) :
    (recoverBranch p).decodeOp = none := by
  by_cases hr : p.branchRecover = true
  · simp only [recoverBranch, hr, if_true, h, ite_self]
  · rw [recoverBranch, if_neg hr, h]

lemma recoverBranch_wbOp {p : PipeState} {op : PipeOp} (h : (recoverBranch p).wbOp = some op) :
    p.wbOp = some op := by
  by_cases hr : p.branchRecover = true
  · simp only [recoverBranch, hr, if_true] at h
    split_ifs at h
    exact h
  · rwa [recoverBranch, if_neg hr] at h

/-- The state in which the fetch stage starts, as far as the cycle has not changed it. -/
lemma fetchStart_frame (h : FetchStart policy s s₁) :
    s₁.pipe.pc = (afterWb s).pipe.pc ∧ s₁.pipe.runBit = (afterWb s).pipe.runBit ∧
    s₁.fetchStall = s.fetchStall ∧ s₁.icache = s.icache ∧
    (s.pipe.decodeOp = none → s₁.pipe.decodeOp = none) := by
  obtain ⟨m,hm,rfl⟩ := h
  obtain ⟨-,mdec,-,mpc,mrun,mstall,micache⟩ := (pipeStageMem_cases hm).frame
  refine ⟨?_,?_,mstall,micache,fun hd => ?_⟩
  · rw [← mpc]
    exact (pipeStageDecode_pc _).trans (pipeStageExecute_pc _)
  · rw [← mrun]
    exact (pipeStageDecode_framed _).runBit.trans (pipeStageExecute_framed _).runBit
  · obtain ⟨-,-,wdec,-⟩ := pipeStageWb_frame (0 < s.fetchStall) s.pipe
    have hdec : (pipeStageExecute m.pipe).decodeOp = none := by
      rw [pipeStageExecute_decodeOp, mdec]
      exact wdec.trans hd
    exact pipeStageDecode_decodeOp hdec

/-- A cycle by its fetch stage. -/
lemma fetchStart_ok (h : pipeCycle policy s = .ok s') : ∃ s₁ s₂, FetchStart policy s s₁ ∧
    pipeStageFetch policy s₁ = .ok s₂ ∧ s' = afterFetch s₂ := by
  obtain ⟨m,s₂,hm,hf,he⟩ := pipeCycle_ok h
  exact ⟨_,s₂,⟨m,hm,rfl⟩,hf,he⟩

lemma fetchStart_unique {s₂ : State} (h₁ : FetchStart policy s s₁) (h₂ : FetchStart policy s s₂) :
    s₁ = s₂ := by
  obtain ⟨m₁,hm₁,rfl⟩ := h₁
  obtain ⟨m₂,hm₂,rfl⟩ := h₂
  rw [hm₁] at hm₂
  rw [Except.ok.inj hm₂]

/-- An op that the memory stage has not let through is there in the next cycle. -/
lemma memOp_stays (hs : Settled s) (h : pipeCycle policy s = .ok s')
    (hm : pipeStageMem policy (afterWb s) = .ok m) (hop : m.pipe.memOp = some op) :
    s'.pipe.memOp = some op ∧ s'.memStall = m.memStall ∧ s'.dcache = m.dcache := by
  obtain ⟨m',s₂,hm',hf,rfl⟩ := pipeCycle_ok h
  obtain rfl : m = m' := Except.ok.inj (hm.symm.trans hm')
  have hexec : pipeStageExecute m.pipe = tickMultiplier m.pipe := by
    rcases pipeStageExecute_cases m.pipe with ⟨-,he⟩ | ⟨_,hn,-⟩ | ⟨_,hn,-⟩
    · exact he
    · rw [hop] at hn
      cases hn
    · rw [hop] at hn
      cases hn
  obtain ⟨-,-,-,wrec,-⟩ := pipeStageWb_frame (0 < s.fetchStall) s.pipe
  obtain ⟨-,-,mrec,-⟩ := (pipeStageMem_cases hm).frame
  obtain ⟨dmem,-,-,drec,-⟩ := pipeStageDecode_later (s := pipeStageExecute m.pipe)
  obtain ⟨-,fmem,-,frec,-,-,fstall,fdcache⟩ := (pipeStageFetch_cases hf).frame
  have hrec : ¬s₂.pipe.branchRecover = true := by
    rw [frec, show (afterDecode m).pipe.branchRecover = _ from drec, hexec]
    change ¬m.pipe.branchRecover = true
    rw [mrec, show (afterWb s).pipe.branchRecover = _ from wrec, hs.recovered]
    exact Bool.false_ne_true
  refine ⟨?_,fstall,fdcache⟩
  change (recoverBranch s₂.pipe).memOp = _
  rw [recoverBranch, if_neg hrec, fmem, show (afterDecode m).pipe.memOp = _ from dmem, hexec]
  exact hop

/-- The fetch stage has an empty slot and n cycles to wait, and c is its cache. -/
structure FetchPending (s : State) (c : Cache) (n : ℕ) : Prop where
  empty : s.pipe.decodeOp = none
  stall : s.fetchStall = n
  cache : s.icache = c

structure MemPending (s : State) (op : PipeOp) (c : Cache) (n : ℕ) : Prop where
  slot : s.pipe.memOp = some op
  stall : s.memStall = n
  cache : s.dcache = c

/-- Waiting for the data cache. -/
lemma MemPending.cycle (h : MemPending s op c (n+1)) (hs : Settled s)
    (hm : pipeStageMem policy (afterWb s) = .ok m) :
    m.pipe.memOp = some op ∧ m.pipe.wbOp = none ∧
      ∀ s', pipeCycle policy s = .ok s' → MemPending s' op c n := by
  obtain ⟨wmem,-,-,-,wwb⟩ := pipeStageWb_frame (0 < s.fetchStall) s.pipe
  have hslot : (afterWb s).pipe.memOp = some op := wmem.trans h.slot
  have hstall : (afterWb s).memStall = n+1 := h.stall
  obtain rfl := Except.ok.inj ((pipeStageMem_stalled hslot hstall).symm.trans hm)
  refine ⟨hslot,wwb,fun s' hc => ?_⟩
  obtain ⟨hop',hst,hca⟩ := memOp_stays hs hc hm hslot
  exact ⟨hop',hst,hca.trans h.cache⟩

/-- Waiting for the instruction cache. The counter goes on whatever the other stages do: with
its slot empty the fetch stage is not blocked. -/
lemma FetchPending.cycle (h : FetchPending s c (n+1)) (hc : pipeCycle policy s = .ok s') :
    FetchPending s' c n := by
  obtain ⟨s₁,s₂,hstart,hf,rfl⟩ := fetchStart_ok hc
  obtain ⟨-,-,hst,hca,hdec⟩ := fetchStart_frame hstart
  have hempty := hdec h.empty
  have hstalled := @pipeStageFetch_stalled policy _ _ hempty (hst.trans h.stall)
  obtain rfl := Except.ok.inj (hstalled.symm.trans hf)
  exact ⟨recoverBranch_decodeOp hempty,rfl,hca.trans h.cache⟩

/-- A fetch stage that waits or misses leaves the program counter to a recovery. -/
lemma pc_stays (hstart : FetchStart policy s s₁) (hc : pipeCycle policy s = .ok s')
    (hrec : ¬Recovers policy s) (hkeep : ∀ s₂, pipeStageFetch policy s₁ = .ok s₂ →
      s₂.pipe = s₁.pipe) : s'.pipe.pc = s₁.pipe.pc ∧ s'.pipe.runBit = s₁.pipe.runBit := by
  obtain ⟨s₁',s₂,hstart',hf,rfl⟩ := fetchStart_ok hc
  obtain rfl := fetchStart_unique hstart hstart'
  have hno : ¬s₁.pipe.branchRecover = true := fun h => hrec ⟨s₁,hstart,h⟩
  have hpipe : recoverBranch s₂.pipe = s₁.pipe := by
    rw [hkeep s₂ hf, recoverBranch, if_neg hno]
  simp only [afterFetch, hpipe, and_self]

lemma FetchPending.pc (h : FetchPending s c (n+1)) (hc : pipeCycle policy s = .ok s')
    (hrun : s'.pipe.runBit = true) (hrec : ¬Recovers policy s) : s'.pipe.pc = s.pipe.pc := by
  obtain ⟨s₁,-,hstart,-,-⟩ := fetchStart_ok hc
  obtain ⟨hpc,hr,hst,-,hdec⟩ := fetchStart_frame hstart
  obtain ⟨hpc',hr'⟩ := pc_stays hstart hc hrec fun s₂ hf => by
    have hstalled := @pipeStageFetch_stalled policy _ _ (hdec h.empty) (hst.trans h.stall)
    obtain rfl := Except.ok.inj (hstalled.symm.trans hf)
    rfl
  have hrun' : (pipeStageWb (0 < s.fetchStall) s.pipe).runBit = true :=
    hr.symm.trans (hr'.symm.trans hrun)
  rw [hpc', hpc]
  exact pipeStageWb_pc _ (not_isHalt_of_runBit _ hrun')

/-- The cycle of a miss in the fetch stage. -/
lemma fetchPending_of_miss (hs : Settled s) (hstart : FetchStart policy s s₁)
    (ha : FetchAccess s₁) (hmiss : Misses policy s₁.icache s₁.rand s₁.pipe.pc) :
    ∃ c, (∀ rand, Hits policy c rand s₁.pipe.pc) ∧ ∀ s', pipeCycle policy s = .ok s' →
      FetchPending s' c 49 ∧ (¬Recovers policy s → s'.pipe.pc = s₁.pipe.pc) := by
  obtain ⟨stall,icache,rand,hacc,hpos⟩ := hmiss
  have hw : WellFormed s₁.icache := by
    rw [(fetchStart_frame hstart).2.2.2.1]
    exact hs.icache
  refine ⟨icache,hits_after_miss hw hacc hpos,fun s' hc => ?_⟩
  have hmissed : ∀ s₂, pipeStageFetch policy s₁ = .ok s₂ →
      s₂.pipe = s₁.pipe ∧ s₂.icache = icache ∧ s₂.fetchStall = 49 := fun s₂ hf => by
    have hstage := pipeStageFetch_missed ha.empty ha.ready hacc hpos
    obtain rfl := Except.ok.inj (hstage.symm.trans hf)
    exact ⟨rfl,rfl,rfl⟩
  refine ⟨?_,fun hrec => (pc_stays hstart hc hrec fun s₂ hf => (hmissed s₂ hf).1).1⟩
  obtain ⟨s₁',s₂,hstart',hf,rfl⟩ := fetchStart_ok hc
  obtain rfl := fetchStart_unique hstart hstart'
  obtain ⟨hpipe,hca,hst⟩ := hmissed s₂ hf
  refine ⟨recoverBranch_decodeOp ?_,hst,hca⟩
  rw [hpipe]
  exact ha.empty

/-- The cycle of a miss in the memory stage. -/
lemma memPending_of_miss (hs : Settled s) (ha : MemAccess (afterWb s) op)
    (hmiss : Misses policy s.dcache s.rand (wordOf op.memAddr)) :
    ∃ c, (∀ rand, Hits policy c rand (wordOf op.memAddr)) ∧
      (∀ m, pipeStageMem policy (afterWb s) = .ok m →
        m.pipe.memOp = some op ∧ m.pipe.wbOp = none) ∧
      ∀ s', pipeCycle policy s = .ok s' → MemPending s' op c 49 := by
  obtain ⟨stall,dcache,rand,hacc,hpos⟩ := hmiss
  obtain ⟨-,-,-,-,wwb⟩ := pipeStageWb_frame (0 < s.fetchStall) s.pipe
  have hmissed : ∀ m, pipeStageMem policy (afterWb s) = .ok m →
      m.pipe.memOp = some op ∧ m.pipe.wbOp = none ∧ m.dcache = dcache ∧ m.memStall = 49 :=
    fun m hm => by
    have hstage := pipeStageMem_missed ha.slot ha.ready ha.isMem hacc hpos
    obtain rfl := Except.ok.inj (hstage.symm.trans hm)
    exact ⟨ha.slot,wwb,rfl,rfl⟩
  refine ⟨dcache,hits_after_miss hs.dcache hacc hpos,
    fun m hm => ⟨(hmissed m hm).1,(hmissed m hm).2.1⟩,fun s' hc => ?_⟩
  obtain ⟨m,-,hm,-,-⟩ := pipeCycle_ok hc
  obtain ⟨hop,-,hca,hst⟩ := hmissed m hm
  obtain ⟨hop',hst',hca'⟩ := memOp_stays hs hc hm hop
  exact ⟨hop',hst'.trans hst,hca'.trans hca⟩

/-- The halting syscall is in the memory stage the cycle before it is to retire. -/
lemma plain_of_isHalt (hs : Settled s) (hc : pipeCycle policy s = .ok s')
    (hop : s'.pipe.wbOp = some op) (hh : isHalt op = true) : (occupancy s).mem = some .plain := by
  obtain ⟨m,s₂,hm,hf,rfl⟩ := pipeCycle_ok hc
  obtain ⟨wmem,-,-,-,wwb⟩ := pipeStageWb_frame (0 < s.fetchStall) s.pipe
  obtain ⟨-,-,fwb,-⟩ := (pipeStageFetch_cases hf).frame
  have hwb : m.pipe.wbOp = some op := by
    rw [← (pipeStageExecute_framed m.pipe).wbOp, ← (pipeStageDecode_framed _).wbOp]
    exact fwb.symm.trans (recoverBranch_wbOp hop)
  have hplain : ∀ o, s.pipe.memOp = some o → (memoryStep o (afterWb s).pipe.mem).1 = op →
      (occupancy s).mem = some .plain := by
    rintro o ho rfl
    rw [occupancy, ho, Option.map_some, kindOf_isHalt (hs.slots.mem o ho)]
    simpa only [isHalt, memoryStep, apply_ite Prod.fst, apply_ite PipeOp.opcode,
      apply_ite PipeOp.subop, apply_ite PipeOp.regSrc1Value, ite_self] using hh
  have hwaits : (afterWb s).pipe.wbOp ≠ some op := by
    rw [show (afterWb s).pipe.wbOp = none from wwb]
    exact (Option.some_ne_none op).symm
  cases pipeStageMem_cases hm with
  | empty => exact absurd hwb hwaits
  | stalled => exact absurd hwb hwaits
  | missed => exact absurd hwb hwaits
  | hit hslot => exact hplain _ (wmem.symm.trans hslot) (Option.some.inj hwb)
  | done hslot => exact hplain _ (wmem.symm.trans hslot) (Option.some.inj hwb)

end Cycle

/-! The cycles after the miss. -/

section Runs
variable {policy : Policy} {s s₁ s' : State} {op : PipeOp} {c : Cache} {k : ℕ}

lemma memPending_run (hs : Settled s) (hinv : (occupancy s).Inv)
    (hmiss : ∀ s', pipeCycle policy s = .ok s' → MemPending s' op c 49) (hk : k < 50)
    (h : (machine policy).Reaches s (k+1) s') : MemPending s' op c (49-k) := by
  refine Lib.Machine.Reaches.countdown (machine policy) (P := fun n x => MemPending x op c n)
    hmiss (fun i j a b hreach hpend hstep => ?_) (Nat.le_of_lt_succ hk) h
  obtain ⟨m,-,hm,-⟩ := pipeCycle_ok hstep
  exact (hpend.cycle (settled_run hs hinv hreach).1 hm).2.2 b hstep

lemma fetchPending_run
    (hmiss : ∀ s', pipeCycle policy s = .ok s' → FetchPending s' c 49) (hk : k < 50)
    (h : (machine policy).Reaches s (k+1) s') : FetchPending s' c (49-k) :=
  Lib.Machine.Reaches.countdown (machine policy) (P := fun n x => FetchPending x c n) hmiss
    (fun _ _ _ _ _ hpend hstep => hpend.cycle hstep) (Nat.le_of_lt_succ hk) h

lemma memPenalty_of_miss (hs : Settled s) (hinv : (occupancy s).Inv) (ha : MemAccess (afterWb s) op)
    (hmiss : Misses policy s.dcache s.rand (wordOf op.memAddr)) : MemPenalty policy s op := by
  obtain ⟨c,hhits,hstage,hpend⟩ := memPending_of_miss hs ha hmiss
  constructor
  · intro k s' m hk hreach hm
    cases k with
    | zero =>
      obtain rfl : s' = s := hreach
      exact ⟨fun h => absurd h (lt_irrefl 0),hstage m hm⟩
    | succ k =>
      have hp := memPending_run hs hinv hpend (Nat.lt_of_succ_lt hk) hreach
      rw [show 49-k = (48-k)+1 by simp only [dramAccessCycles] at hk; omega] at hp
      obtain ⟨hop,hwb,-⟩ := hp.cycle (settled_run hs hinv hreach).1 hm
      refine ⟨fun _ op' hacc => ?_,hop,hwb⟩
      have hready : s'.memStall = 0 := hacc.ready
      rw [hp.stall] at hready
      cases hready
  · intro s' hreach
    have hp : MemPending s' op c 0 := memPending_run (k := 49) hs hinv hpend (by decide) hreach
    obtain ⟨wmem,-⟩ := pipeStageWb_frame (0 < s'.fetchStall) s'.pipe
    have hacc : MemAccess (afterWb s') op := ⟨wmem.trans hp.slot,hp.stall,ha.isMem⟩
    have hhit : Hits policy s'.dcache s'.rand (wordOf op.memAddr) := hp.cache ▸ hhits _
    refine ⟨hacc,hhit,?_⟩
    obtain ⟨c',rand',hc'⟩ := hhit
    exact ⟨_,pipeStageMem_hit hacc.slot hacc.ready hacc.isMem hc',rfl,rfl⟩

/-- Without a recovery the program counter stays at the instruction that is missing. -/
lemma pc_run (hmiss : ∀ s', pipeCycle policy s = .ok s' →
      FetchPending s' c 49 ∧ (¬Recovers policy s → s'.pipe.pc = s₁.pipe.pc)) (hk : k < 50)
    (hrec : ∀ j < 50, ∀ s', (machine policy).Reaches s j s' → ¬Recovers policy s')
    (h : (machine policy).Reaches s (k+1) s') (hrun : s'.pipe.runBit = true) :
    s'.pipe.pc = s₁.pipe.pc := by
  induction k generalizing s' with
  | zero =>
    obtain ⟨m,hm,-,hstep⟩ := h
    obtain rfl : m = s := hm
    exact (hmiss s' hstep).2 (hrec 0 (by decide) m rfl)
  | succ k ih =>
    obtain ⟨m,hm,hrunm,hstep⟩ := h
    have hpend := fetchPending_run (fun s' hs' => (hmiss s' hs').1) (by omega) hm
    rw [show 49-k = (49-(k+1))+1 by omega] at hpend
    rw [hpend.pc hstep hrun (hrec (k+1) hk m hm)]
    exact ih (by omega) hm hrunm

/-- In the last cycle before the retry no halting syscall leaves the memory stage, which would
have the fetch stage start elsewhere. -/
lemma not_isHalt_at_retry (hs : Settled s) (hinv : (occupancy s).Inv) (hstall : s.fetchStall = 1)
    (hc : pipeCycle policy s = .ok s') : ∀ op, s'.pipe.wbOp = some op → ¬isHalt op = true :=
  fun _ hop hh => hinv.plain (plain_of_isHalt hs hc hop hh) hstall

lemma fetchPenalty_of_miss (hs : Settled s) (hinv : (occupancy s).Inv)
    (hstart : FetchStart policy s s₁) (ha : FetchAccess s₁)
    (hmiss : Misses policy s₁.icache s₁.rand s₁.pipe.pc) : FetchPenalty policy s s₁ := by
  obtain ⟨c,hhits,hpend⟩ := fetchPending_of_miss hs hstart ha hmiss
  have hpend' : ∀ s', pipeCycle policy s = .ok s' → FetchPending s' c 49 :=
    fun s' hs' => (hpend s' hs').1
  have hretry : ∀ s' s₁', (machine policy).Reaches s dramAccessCycles s' →
      FetchStart policy s' s₁' → FetchAccess s₁' ∧ s₁'.icache = c := by
    intro s' s₁' hreach hstart'
    have hp : FetchPending s' c 0 := fetchPending_run (k := 49) hpend' (by decide) hreach
    obtain ⟨-,-,hst,hca,hdec⟩ := fetchStart_frame hstart'
    exact ⟨⟨hdec hp.empty,hst.trans hp.stall⟩,hca.trans hp.cache⟩
  constructor
  · intro k s' s₁' hpos hk hreach hstart' hacc
    obtain ⟨k,rfl⟩ := Nat.exists_eq_succ_of_ne_zero (Nat.pos_iff_ne_zero.mp hpos)
    have hp := fetchPending_run hpend' (Nat.lt_of_succ_lt hk) hreach
    have hready : s'.fetchStall = 0 := (fetchStart_frame hstart').2.2.1.symm.trans hacc.ready
    rw [hp.stall] at hready
    simp only [dramAccessCycles] at hk
    omega
  · exact fun s' s₁' hreach hstart' => (hretry s' s₁' hreach hstart').1
  · intro hrec s' s₁' hreach hrun hstart'
    obtain ⟨hacc,hca⟩ := hretry s' s₁' hreach hstart'
    have hpc' : s'.pipe.pc = s₁.pipe.pc := pc_run (k := 49) hpend (by decide) hrec hreach hrun
    have hpc : s₁'.pipe.pc = s₁.pipe.pc := by
      rw [(fetchStart_frame hstart').1, ← hpc']
      refine pipeStageWb_pc _ ?_
      obtain ⟨x,hx,-,hstep⟩ := hreach
      have hpx : FetchPending x c 1 := fetchPending_run (k := 48) hpend' (by decide) hx
      obtain ⟨hsx,hinvx⟩ := settled_run hs hinv hx
      exact not_isHalt_at_retry hsx hinvx hpx.stall hstep
    have hhit : Hits policy s₁'.icache s₁'.rand s₁'.pipe.pc := by
      rw [hca, hpc]
      exact hhits _
    refine ⟨hpc,hhit,?_⟩
    obtain ⟨c',rand',hc'⟩ := hhit
    refine ⟨_,pipeStageFetch_hit hacc.empty hacc.ready hc',?_⟩
    simp only [finishFetch, hpc]

/-- A running cycle can only be cut short by the assertion on a fetch address. -/
lemma pipeCycle_goes_on (hs : Settled s) : (∃ s', pipeCycle policy s = .ok s') ∨
    ∃ s₁, FetchStart policy s s₁ ∧ FetchAccess s₁ ∧ ¬WordAligned s₁.pipe.pc := by
  obtain ⟨m,hm,hi,-⟩ := pipeStageMem_total policy (s := afterWb s) hs.dcache
  by_cases ha : FetchAccess (afterDecode m) ∧ ¬WordAligned (afterDecode m).pipe.pc
  · exact .inr ⟨_,⟨m,hm,rfl⟩,ha⟩
  · refine .inl ?_
    have hw : WellFormed (afterDecode m).icache := by
      rw [show (afterDecode m).icache = _ from hi]
      exact hs.icache
    have hok : ∃ s₂, pipeStageFetch policy (afterDecode m) = .ok s₂ := by
      by_cases hpc : WordAligned (afterDecode m).pipe.pc
      · obtain ⟨s₂,hf,-⟩ := pipeStageFetch_total policy hw hpc
        exact ⟨s₂,hf⟩
      · have hno : ¬FetchAccess (afterDecode m) := fun h => ha ⟨h,hpc⟩
        unfold pipeStageFetch
        split_ifs with hop hstall
        · exact ⟨_,rfl⟩
        · exact ⟨_,rfl⟩
        · exact absurd ⟨by simpa using hop,by omega⟩ hno
    obtain ⟨s₂,hf⟩ := hok
    refine ⟨afterFetch s₂,?_⟩
    change (pipeStageMem policy (afterWb s) >>= fun s₁ =>
      pipeStageFetch policy (afterDecode s₁) >>= fun s₂ => .ok (afterFetch s₂)) = _
    simp only [hm, hf, bind, Except.bind]

end Runs

/-- In every reached state of every run: a data miss is retried by the same op fifty cycles
later, hits and lets the op go, and not earlier; after an instruction miss the next access is
fifty cycles later and, unless a branch recovery has moved the program counter, hits and
fetches the instruction. A run on the way there ends only by the halting syscall or by the
assertion on an unaligned program counter. -/
theorem missPenalty_exact (policy : Policy) (rand : ℕ → ℕ) {icapacity dcapacity : Word}
    {iways isize dways dsize : BitVec 8} {icache dcache : Cache}
    (hicache : allocCache policy icapacity iways isize = some icache)
    (hdcache : allocCache policy dcapacity dways dsize = some dcache)
    (hisets : 0 < icache.numSets) (hdsets : 0 < dcache.numSets)
    {mem : Memory} {regs : Reg → Word} {hi lo : Word} {t : ℕ} {s : State}
    (h : (machine policy).Reaches (initialState icache dcache rand mem regs hi lo) t s) :
    (∀ op, MemAccess (afterWb s) op → Misses policy s.dcache s.rand (wordOf op.memAddr) →
      MemPenalty policy s op) ∧
    (∀ s₁, FetchStart policy s s₁ → FetchAccess s₁ →
      Misses policy s₁.icache s₁.rand s₁.pipe.pc → FetchPenalty policy s s₁) ∧
    ((∃ s', pipeCycle policy s = .ok s') ∨
      ∃ s₁, FetchStart policy s s₁ ∧ FetchAccess s₁ ∧ ¬WordAligned s₁.pipe.pc) := by
  obtain ⟨hs,hinv⟩ := reaches_settled hicache hdcache hisets hdsets h
  exact ⟨fun op ha hmiss => memPenalty_of_miss hs hinv ha hmiss,
    fun s₁ hstart ha hmiss => fetchPenalty_of_miss hs hinv hstart ha hmiss,
    pipeCycle_goes_on hs⟩

/-- The first fetch of a program and the load that it fetches, both of which miss. -/
theorem jumpProgram_missPenalty_exact : ∃ s₀ s₁ s op s',
    FetchStart .rand s₀ s₁ ∧ FetchAccess s₁ ∧ Misses .rand s₁.icache s₁.rand s₁.pipe.pc ∧
    FetchPenalty .rand s₀ s₁ ∧ (machine .rand).Reaches s₀ 53 s ∧ MemAccess (afterWb s) op ∧
    Misses .rand s.dcache s.rand (wordOf op.memAddr) ∧ MemPenalty .rand s op ∧
    (machine .rand).Reaches s dramAccessCycles s' ∧ s'.pipe.runBit = true := by
  have hi : allocCache .rand icacheSize icacheWays blockSize =
      some (initialCache .rand icacheSize icacheWays) := rfl
  have hd : allocCache .rand dcacheSize dcacheWays blockSize =
      some (initialCache .rand dcacheSize dcacheWays) := rfl
  set s₀ := initialState (initialCache .rand icacheSize icacheWays)
    (initialCache .rand dcacheSize dcacheWays) id jumpProgram jumpRegs 0 0
  have hstart : FetchStart .rand s₀ (afterDecode (afterWb s₀)) := ⟨afterWb s₀,rfl,rfl⟩
  have hmiss : Misses .rand (afterDecode (afterWb s₀)).icache (afterDecode (afterWb s₀)).rand
      (afterDecode (afterWb s₀)).pipe.pc := by
    decide +kernel
  have hfetch := (missPenalty_exact .rand id hi hd (by decide) (by decide) (t := 0) rfl).2.1 _
    hstart ⟨rfl,rfl⟩ hmiss
  have hlead : (machine .rand).leadsTo (fun s => (afterWb s).pipe.memOp.any fun op =>
      (afterWb s).memStall == 0 && op.isMem &&
        decide (Misses .rand s.dcache s.rand (wordOf op.memAddr)) &&
        (machine .rand).leadsTo (fun s' => s'.pipe.runBit) dramAccessCycles s) 53 s₀ = true := by
    decide +kernel
  obtain ⟨s,hs,htest⟩ := (machine .rand).leadsTo_reaches hlead
  obtain ⟨op,hop,htest⟩ := Option.any_eq_true _ _ |>.mp htest
  simp only [Bool.and_eq_true, beq_iff_eq, decide_eq_true_eq] at htest
  obtain ⟨⟨⟨hready,hmem⟩,hdmiss⟩,hgoes⟩ := htest
  obtain ⟨s',hs',hrun⟩ := (machine .rand).leadsTo_reaches hgoes
  have haccess : MemAccess (afterWb s) op := ⟨hop,hready,hmem⟩
  have hdata := (missPenalty_exact .rand id hi hd (by decide) (by decide) hs).1 op haccess hdmiss
  exact ⟨s₀,_,s,op,s',hstart,⟨rfl,rfl⟩,hmiss,hfetch,hs,haccess,hdmiss,hdata,hs',hrun⟩

end CaLabs.Lab1
