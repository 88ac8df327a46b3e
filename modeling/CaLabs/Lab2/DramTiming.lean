import CaLabs.Lab2.Scheduling

/-! The shared resources of the DRAM over the whole history of a run: although only the last
request of each bank is remembered, no two requests ever meet. -/
namespace CaLabs.Lab2
open Mips

/-- A request issued to the DRAM. -/
structure Issue where
  cycle : ℕ
  bank : Fin numBanks
  commands : ℕ
  deriving DecidableEq, Repr

namespace Issue

/-- The first cycle after the commands: the bank is free and the data transfer starts. -/
def ready (r : Issue) : ℕ := r.cycle + 100 * r.commands

/-- The first cycle after the data transfer. -/
def finish (r : Issue) : ℕ := r.ready + 50

/-- Two requests, the second issued later, that share no resource: command k occupies cycles
t+100k to t+100k+3 of the command bus, the transfer t+100n to t+100n+49 of the data bus, and
the bank of the first is in use up to t+100n. -/
structure Apart (r r' : Issue) : Prop where
  commandBus : ∀ k < r.commands, ∀ k' < r'.commands,
    r.cycle + 100 * k + 3 < r'.cycle + 100 * k' ∨ r'.cycle + 100 * k' + 3 < r.cycle + 100 * k
  dataBus : r.ready + 49 < r'.ready ∨ r'.ready + 49 < r.ready
  bank : r.bank = r'.bank → r.ready ≤ r'.cycle

/-- A request whose commands are over can be forgotten: it meets no later request. -/
theorem apart_of_ready {r r' : Issue} (h : r.ready < r'.cycle) (hc : 0 < r'.commands) :
    Apart r r' := by
  unfold ready at h
  refine ⟨fun k hk k' _ => ?_,?_,fun _ => ?_⟩
  · omega
  · unfold ready
    omega
  · exact h.le

end Issue

/-! The arithmetic of the checks as long as no cycle number wraps around. -/

section Arithmetic
variable {t : Word} {k : ℕ}

lemma overlaps_eq_false {a b c d : Word} :
    overlaps a b c d = false ↔ b.toNat < c.toNat ∨ d.toNat < a.toNat := by
  simp only [overlaps, Bool.not_eq_false', Bool.or_eq_true, decide_eq_true_eq, BitVec.lt_def,
    gt_iff_lt]

lemma toNat_cmdStart (h : t.toNat + 100 * k < 2 ^ 32) :
    (cmdStart t k).toNat = t.toNat + 100 * k := by
  have hk : k % 2 ^ 32 = k := Nat.mod_eq_of_lt (by omega)
  have h100 : bankBusyCycles.toNat = 100 := rfl
  rw [cmdStart, BitVec.toNat_add, BitVec.toNat_mul, BitVec.toNat_ofNat, h100, hk]
  omega

/-- The last cycle of an interval of `len` cycles that starts with command k. -/
lemma toNat_cmdEnd {len : Word} (hlen : 0 < len.toNat)
    (h : t.toNat + 100 * k + len.toNat ≤ 2 ^ 32) :
    (cmdStart t k + len - 1).toNat = t.toNat + 100 * k + (len.toNat - 1) := by
  have h1 : (1 : Word).toNat = 1 := rfl
  rw [BitVec.toNat_sub, BitVec.toNat_add, toNat_cmdStart (by omega), h1]
  omega

lemma toNat_cmdStart_pred (hpos : 0 < t.toNat + 100 * k) (h : t.toNat + 100 * k < 2 ^ 32) :
    (cmdStart t k - 1).toNat = t.toNat + 100 * k - 1 := by
  have h1 : (1 : Word).toNat = 1 := rfl
  rw [BitVec.toNat_sub, toNat_cmdStart h, h1]
  omega

end Arithmetic

lemma numCommands_pos (mc : MemController) (address : Word) : 0 < numCommands mc address := by
  unfold numCommands
  cases getRowBufferStatus (mc.banks (getBankIndex address)) (getRowIndex address) <;> decide

lemma numCommands_le (mc : MemController) (address : Word) : numCommands mc address ≤ 3 := by
  unfold numCommands
  cases getRowBufferStatus (mc.banks (getBankIndex address)) (getRowIndex address) <;> decide

/-- The bank still remembers the request. -/
structure Recorded (mc : MemController) (r : Issue) : Prop where
  start : (mc.banks r.bank).reqStart = BitVec.ofNat 32 r.cycle
  commands : (mc.banks r.bank).numCommands = r.commands
  used : (mc.banks r.bank).hasOpenRow = true
  row : (mc.banks r.bank).openRow ≠ 0

/-- The three checks keep a request apart from every remembered one. -/
theorem apart_of_schedulable {mc : MemController} {r : Issue} {address : Word} {n : ℕ}
    (hr : Recorded mc r) (hpast : r.cycle < n) (hfin : r.finish ≤ 2 ^ 32)
    (hnew : Issue.finish ⟨n,getBankIndex address,numCommands mc address⟩ ≤ 2 ^ 32)
    (h : isRequestSchedulable mc address (BitVec.ofNat 32 n) = true) :
    r.Apart ⟨n,getBankIndex address,numCommands mc address⟩ := by
  have hpos := numCommands_pos mc address
  simp only [Issue.finish, Issue.ready] at hfin hnew
  have hn : (BitVec.ofNat 32 n).toNat = n := by
    rw [BitVec.toNat_ofNat]
    exact Nat.mod_eq_of_lt (by omega)
  have hc : (BitVec.ofNat 32 r.cycle).toNat = r.cycle := by
    rw [BitVec.toNat_ofNat]
    exact Nat.mod_eq_of_lt (by omega)
  have hcmd : cmdCycles.toNat = 4 := rfl
  have hdata : dataTfCycles.toNat = 50 := rfl
  simp only [isRequestSchedulable, Bool.and_eq_true] at h
  obtain ⟨⟨hcmdBus,hdataBus⟩,hbank⟩ := h
  refine ⟨fun k hk k' (hk' : k' < numCommands mc address) => ?_,?_,fun hb => ?_⟩
  · have hall := List.all_eq_true.mp (List.all_eq_true.mp hcmdBus k' (List.mem_range.mpr hk'))
      r.bank (List.mem_finRange _)
    rw [hr.used, Bool.not_true, Bool.false_or, hr.commands] at hall
    have hov := List.all_eq_true.mp hall k (List.mem_range.mpr hk)
    simp only [Bool.not_eq_true', hr.start] at hov
    rw [overlaps_eq_false, toNat_cmdEnd (by decide) (by omega), toNat_cmdStart (by omega),
      toNat_cmdEnd (by decide) (by omega), toNat_cmdStart (by omega), hn, hc, hcmd] at hov
    dsimp only
    omega
  · have hall := List.all_eq_true.mp hdataBus r.bank (List.mem_finRange _)
    rw [hr.used, Bool.not_true, Bool.false_or, hr.commands, hr.start] at hall
    simp only [Bool.not_eq_true'] at hall
    rw [overlaps_eq_false, toNat_cmdEnd (by decide) (by omega), toNat_cmdStart (by omega),
      toNat_cmdEnd (by decide) (by omega), toNat_cmdStart (by omega), hn, hc, hdata] at hall
    simp only [Issue.ready]
    omega
  · dsimp only at hb
    have hrow := hr.row
    have hstart := hr.start
    have hcommands := hr.commands
    rw [hb] at hrow hstart hcommands
    simp only [bankFree, hstart, hcommands, ne_eq, hrow, not_false_eq_true, decide_true,
      Bool.true_and, Bool.not_eq_true'] at hbank
    rw [overlaps_eq_false, toNat_cmdStart_pred (by omega) (by omega), hn, hc] at hbank
    simp only [Issue.ready]
    rcases hbank with hlt | hlt
    · omega
    · by_cases h0 : r.cycle + 100 * r.commands = 0
      · omega
      · rw [toNat_cmdStart_pred (by omega) (by omega), hc] at hlt
        omega

/-! The run of the controller on misses from outside. -/

structure DramState where
  cycle : ℕ
  controller : MemController
  l2cache : Cache

/-- One cycle, with the MSHRs that the rest of the simulator hands over. -/
def dramStep (misses : ℕ → MshrFile) (s : DramState) : Except Abort DramState := do
  let (_,controller,l2cache) ← memoryControllerCycle (misses s.cycle) s.controller s.l2cache
    (BitVec.ofNat 32 s.cycle)
  .ok ⟨s.cycle + 1,controller,l2cache⟩

/-- The request that the cycle issues. -/
def issueOf (misses : ℕ → MshrFile) (s : DramState) : Option Issue :=
  let t := BitVec.ofNat 32 s.cycle
  match queueMisses (markFills (misses s.cycle) t) s.controller t with
  | .error _ => none
  | .ok (_,mc) => (selectRequestToSchedule mc t).map fun (req,_) =>
      ⟨s.cycle,getBankIndex req.address,numCommands mc req.address⟩

def dramMachine (misses : ℕ → MshrFile) : Lib.Machine DramState Abort Issue where
  step := dramStep misses
  running := fun _ => true
  observe := issueOf misses

/-- The requests of a queue address mapped memory. -/
def QueueMapped (mc : MemController) : Prop :=
  ∀ q ∈ mc.queue, q.valid = true → (findRegion q.address).isSome = true

/-- Row 0 is not mapped, so an open row of a used bank is never the zero of an unused one. -/
lemma getRowIndex_ne_zero {address : Word} (h : (findRegion address).isSome = true) :
    getRowIndex address ≠ 0 := by
  obtain ⟨r,hr⟩ := Option.isSome_iff_exists.mp h
  have hc := List.find?_some hr
  have hle : 0x00400000 ≤ address.toNat := by
    simp only [MemRegion.contains, Bool.and_eq_true, decide_eq_true_eq, BitVec.le_def] at hc
    have hstart : 0x00400000 ≤ r.start.toNat := by cases r <;> decide
    exact hstart.trans hc.1
  intro h0
  have hz : (getRowIndex address).toNat = 0 := by rw [h0]; rfl
  rw [getRowIndex, BitVec.toNat_ushiftRight, Nat.shiftRight_eq_div_pow] at hz
  omega

/-- Queueing mapped misses keeps the queue mapped. -/
lemma QueueMapped.queueMisses {mshrs mshrs' : MshrFile} {mc mc' : MemController} {t : Word}
    (h : QueueMapped mc) (hm : ∀ i, isUnqueuedMiss (mshrs i) = true →
      (findRegion (mshrs i).address).isSome = true)
    (hq : Lab2.queueMisses mshrs mc t = .ok (mshrs',mc')) : QueueMapped mc' := by
  refine (Lib.foldlM_invariant (P := fun s : MshrFile × MemController =>
    QueueMapped s.2 ∧ ∀ i, isUnqueuedMiss (s.1 i) = true →
      (findRegion (s.1 i).address).isSome = true) ⟨h,hm⟩ ?_ hq).1
  rintro ⟨ms,m⟩ b i - ⟨hmap,hmiss⟩ hb
  rcases queueMiss_cases hb with ⟨-,rfl⟩ | ⟨hu,j,hj,-,rfl⟩
  · exact ⟨hmap,hmiss⟩
  · refine ⟨fun q hq hv => ?_,fun i' hi' => ?_⟩
    · rcases List.mem_or_eq_of_mem_set hq with hold | rfl
      · exact hmap q hold hv
      · exact hmiss i hu
    · by_cases he : i' = i
      · subst he
        simp [isUnqueuedMiss] at hi'
      · simp only [Function.update_of_ne he] at hi' ⊢
        exact hmiss i' hi'

/-- The requests issued so far are apart, and each of them that may still be in progress is
the last one of its bank. -/
structure Tracks (s : DramState) (issues : List Issue) : Prop where
  apart : issues.Pairwise Issue.Apart
  past : ∀ r ∈ issues, r.cycle < s.cycle
  known : ∀ r ∈ issues, r.ready < s.cycle ∨ Recorded s.controller r
  mapped : QueueMapped s.controller

lemma Recorded.of_banks {mc mc' : MemController} {r : Issue} (h : Recorded mc r)
    (hb : mc'.banks r.bank = mc.banks r.bank) : Recorded mc' r :=
  ⟨by rw [hb, h.start],by rw [hb, h.commands],by rw [hb, h.used],by rw [hb]; exact h.row⟩

/-- The remembered state after a request has been issued. -/
lemma scheduleRequest_some {mshrs mshrs' : MshrFile} {mc mc' : MemController} {t : Word}
    {req : MemRequest} {j : ℕ} (hsel : selectRequestToSchedule mc t = some (req,j))
    (h : scheduleRequest mshrs mc t = (mshrs',mc')) :
    mc'.banks = Function.update mc.banks (getBankIndex req.address)
        { reqStart := t, openRow := getRowIndex req.address, hasOpenRow := true,
          numCommands := numCommands mc req.address } ∧
      mc'.queue = mc.queue.modify j fun r => { r with valid := false } := by
  simp only [scheduleRequest, hsel, issueDramRequest, Prod.mk.injEq] at h
  obtain ⟨-,rfl⟩ := h
  exact ⟨rfl,rfl⟩

lemma scheduleRequest_none {mshrs mshrs' : MshrFile} {mc mc' : MemController} {t : Word}
    (hsel : selectRequestToSchedule mc t = none)
    (h : scheduleRequest mshrs mc t = (mshrs',mc')) : mshrs' = mshrs ∧ mc' = mc := by
  simp only [scheduleRequest, hsel, Prod.mk.injEq] at h
  exact ⟨h.1.symm,h.2.symm⟩

lemma QueueMapped.modify {mc mc' : MemController} {j : ℕ} (h : QueueMapped mc)
    (hq : mc'.queue = mc.queue.modify j fun r => { r with valid := false }) :
    QueueMapped mc' := by
  intro q hmem hv
  rw [hq] at hmem
  obtain ⟨i,hi,rfl⟩ := List.getElem_of_mem hmem
  have hi' : i < mc.queue.length := by simpa using hi
  rw [List.getElem_modify] at hv ⊢
  split_ifs at hv ⊢ with he
  exact h _ (List.getElem_mem hi') hv

/-- Issuing a request that passes the checks. -/
lemma Tracks.issue {s s' : DramState} {issues : List Issue} {mc : MemController} {req : MemRequest}
    (h : Tracks s issues) (hbanks : mc.banks = s.controller.banks)
    (hsched : isRequestSchedulable mc req.address (BitVec.ofNat 32 s.cycle) = true)
    (hrow : getRowIndex req.address ≠ 0) (hcycle : s'.cycle = s.cycle + 1)
    (hbanks' : s'.controller.banks = Function.update mc.banks (getBankIndex req.address)
      { reqStart := BitVec.ofNat 32 s.cycle, openRow := getRowIndex req.address,
        hasOpenRow := true, numCommands := numCommands mc req.address })
    (hmapped : QueueMapped s'.controller) (hfin : ∀ r ∈ issues, r.finish ≤ 2 ^ 32)
    (hnew : Issue.finish ⟨s.cycle,getBankIndex req.address,numCommands mc req.address⟩ ≤ 2 ^ 32) :
    Tracks s'
      (issues ++ [⟨s.cycle,getBankIndex req.address,numCommands mc req.address⟩]) := by
  have hapart : ∀ r ∈ issues,
      r.Apart ⟨s.cycle,getBankIndex req.address,numCommands mc req.address⟩ := by
    intro r hr
    rcases h.known r hr with hready | hrec
    · exact Issue.apart_of_ready hready (numCommands_pos mc req.address)
    · exact apart_of_schedulable (hrec.of_banks (by rw [hbanks])) (h.past r hr) (hfin r hr) hnew
        hsched
  refine ⟨?_,fun r hr => ?_,fun r hr => ?_,hmapped⟩
  · refine List.pairwise_append.mpr ⟨h.apart,List.pairwise_singleton _ _,fun r hr r' hr' => ?_⟩
    rw [List.mem_singleton.mp hr']
    exact hapart r hr
  · rcases List.mem_append.mp hr with hr | hr
    · have hlt := h.past r hr
      omega
    · rw [List.mem_singleton.mp hr]
      dsimp only
      omega
  · rcases List.mem_append.mp hr with hr | hr
    · by_cases hb : r.bank = getBankIndex req.address
      · have hle := (hapart r hr).bank hb
        dsimp only at hle
        exact .inl (by omega)
      · refine (h.known r hr).imp (fun hlt => by omega) fun hrec => ?_
        refine hrec.of_banks ?_
        rw [hbanks', Function.update_of_ne hb, hbanks]
    · rw [List.mem_singleton.mp hr]
      refine .inr ⟨?_,?_,?_,?_⟩
      all_goals rw [hbanks', Function.update_self]
      exact hrow

/-- One cycle. -/
theorem Tracks.step {misses : ℕ → MshrFile} {s s' : DramState} {issues : List Issue}
    (h : Tracks s issues) (hm : ∀ n i, isUnqueuedMiss (misses n i) = true →
      (findRegion (misses n i).address).isSome = true)
    (hstep : dramStep misses s = .ok s')
    (hfin : ∀ r ∈ issues ++ (issueOf misses s).toList, r.finish ≤ 2 ^ 32) :
    Tracks s' (issues ++ (issueOf misses s).toList) := by
  unfold dramStep at hstep
  cases hc : memoryControllerCycle (misses s.cycle) s.controller s.l2cache
      (BitVec.ofNat 32 s.cycle) with
  | error e => simp [hc, bind, Except.bind] at hstep
  | ok p =>
    obtain ⟨mshrs',mc',l2cache'⟩ := p
    simp only [hc, bind, Except.bind, Except.ok.injEq] at hstep
    subst hstep
    obtain ⟨m₁,c₁,hq,hsched,-⟩ := memoryControllerCycle_ok hc
    have hmapped : QueueMapped c₁ := by
      refine h.mapped.queueMisses (fun i hi => ?_) hq
      obtain ⟨he,hu⟩ := isUnqueuedMiss_markFills hi
      rw [he]
      exact hm s.cycle i hu
    have hbanks := queueMisses_banks hq
    cases hsel : selectRequestToSchedule c₁ (BitVec.ofNat 32 s.cycle) with
    | none =>
      have hnone : issueOf misses s = none := by simp [issueOf, hq, hsel]
      obtain ⟨-,rfl⟩ := scheduleRequest_none hsel hsched
      rw [hnone, Option.toList_none, List.append_nil]
      refine ⟨h.apart,fun r hr => (h.past r hr).trans (Nat.lt_succ_self _),fun r hr => ?_,hmapped⟩
      exact (h.known r hr).imp (fun hlt => hlt.trans (Nat.lt_succ_self _))
        fun hrec => hrec.of_banks (by rw [hbanks])
    | some entry =>
      obtain ⟨req,j⟩ := entry
      have hsome : issueOf misses s =
          some ⟨s.cycle,getBankIndex req.address,numCommands c₁ req.address⟩ := by
        simp [issueOf, hq, hsel]
      obtain ⟨hj,helig⟩ := selectRequestToSchedule_spec hsel
      obtain ⟨hbanks',hqueue⟩ := scheduleRequest_some hsel hsched
      rw [hsome, Option.toList_some] at hfin ⊢
      refine h.issue hbanks helig.schedulable ?_ rfl hbanks' (hmapped.modify hqueue)
        (fun r hr => hfin r (List.mem_append_left _ hr)) (hfin _ (by simp))
      exact getRowIndex_ne_zero (hmapped req (List.mem_of_getElem? hj) helig.valid)

/-- A whole run: the requests issued on mapped misses never meet on the command bus, on the
data bus or in a bank, as long as the cycles they occupy stay below the wrap of the counter. -/
theorem dram_requests_apart (misses : ℕ → MshrFile) (queueCapacity : ℕ) (l2cache : Cache)
    (hm : ∀ n i, isUnqueuedMiss (misses n i) = true →
      (findRegion (misses n i).address).isSome = true)
    {n : ℕ} {issues : List Issue} {s : DramState}
    (h : (dramMachine misses).run n ⟨0,initMemoryController queueCapacity,l2cache⟩ =
      .ok (issues,s))
    (hfin : ∀ r ∈ issues, r.finish ≤ 2 ^ 32) : issues.Pairwise Issue.Apart := by
  suffices hs : Tracks s issues from hs.apart
  induction n generalizing issues s with
  | zero =>
    obtain ⟨rfl,rfl⟩ := Prod.mk.inj (Except.ok.inj h)
    refine ⟨List.Pairwise.nil,fun r hr => (by cases hr),fun r hr => (by cases hr),?_⟩
    intro q hq hv
    rw [(List.mem_replicate.mp hq).2] at hv
    cases hv
  | succ n ih =>
    obtain ⟨t,m,hrun,⟨-,hstep,rfl⟩ | ⟨hstop,-,-⟩⟩ := (dramMachine misses).run_succ_cases h
    · exact (ih hrun fun r hr => hfin r (List.mem_append_left _ hr)).step hm hstep hfin
    · cases hstop

/-- Two misses on different banks, ten cycles apart. -/
def twoMisses (start : ℕ) : ℕ → MshrFile := fun n i =>
  if n = start ∧ i = 0 then { address := 0x00400000, valid := true }
  else if n = start + 10 ∧ i = 1 then { address := 0x00400020, valid := true }
  else {}

lemma twoMisses_mapped (start n : ℕ) (i : Fin numMshr)
    (h : isUnqueuedMiss (twoMisses start n i) = true) :
    (findRegion (twoMisses start n i).address).isSome = true := by
  unfold twoMisses at h ⊢
  split_ifs at h ⊢
  · decide
  · decide
  · cases h

/-- At the start of the counter the second miss has to wait for the data bus. -/
theorem twoMisses_requests_apart : ∃ issues s,
    (dramMachine (twoMisses 0)).run 80
        ⟨0,initMemoryController 256,initialCache l2cacheSize l2cacheWays⟩ = .ok (issues,s) ∧
      issues.Pairwise Issue.Apart := by
  have hfin : ((dramMachine (twoMisses 0)).run 80
      ⟨0,initMemoryController 256,initialCache l2cacheSize l2cacheWays⟩).toOption.any
        (fun r => r.1.all fun i => decide (i.finish ≤ 2 ^ 32)) = true := by decide +kernel
  cases h : (dramMachine (twoMisses 0)).run 80
      ⟨0,initMemoryController 256,initialCache l2cacheSize l2cacheWays⟩ with
  | error e =>
    rw [h] at hfin
    cases hfin
  | ok r =>
    refine ⟨r.1,r.2,rfl,dram_requests_apart (twoMisses 0) 256 _ (twoMisses_mapped 0) h ?_⟩
    rw [h] at hfin
    simpa [Except.toOption] using hfin

/-- Without misses nothing happens in a cycle. -/
lemma dramMachine_idle {misses : ℕ → MshrFile} {n : ℕ}
    (h : ∀ k < n, ∀ i, isUnqueuedMiss (misses k i) = false) {mc : MemController}
    (hq : ∀ q ∈ mc.queue, q.valid = false) (l2cache : Cache) :
    (dramMachine misses).run n ⟨0,mc,l2cache⟩ = .ok ([],⟨n,mc,l2cache⟩) := by
  induction n with
  | zero => rfl
  | succ n ih =>
    have hu : ∀ i, isUnqueuedMiss (markFills (misses n) (BitVec.ofNat 32 n) i) = false := by
      intro i
      by_contra hne
      obtain ⟨-,hm⟩ := isUnqueuedMiss_markFills (by simpa using hne)
      rw [h n (Nat.lt_succ_self n) i] at hm
      cases hm
    have hobs : issueOf misses ⟨n,mc,l2cache⟩ = none := by
      simp only [issueOf, queueMisses_idle hu, selectRequestToSchedule_idle hq, Option.map_none]
    have hstep : dramStep misses ⟨n,mc,l2cache⟩ = .ok ⟨n + 1,mc,l2cache⟩ := by
      simp only [dramStep, memoryControllerCycle, queueMisses_idle hu, scheduleRequest,
        selectRequestToSchedule_idle hq, processCompletedFills_idle _ hq, bind, Except.bind]
    rw [Lib.Machine.run_succ _ (ih fun k hk => h k (hk.trans (Nat.lt_succ_self n)))]
    simp only [dramMachine, if_true, hstep, hobs, Option.toList_none, List.append_nil]

/-- Close below the wrap of the counter the end of a transfer wraps around and the check no
longer sees it: the second transfer starts while the first one is in progress. -/
theorem twoMisses_transfers_meet : ∃ issues s,
    (∀ n i, isUnqueuedMiss (twoMisses (2 ^ 32 - 220) n i) = true →
      (findRegion (twoMisses (2 ^ 32 - 220) n i).address).isSome = true) ∧
    (dramMachine (twoMisses (2 ^ 32 - 220))).run (2 ^ 32 - 220 + 11)
        ⟨0,initMemoryController 256,initialCache l2cacheSize l2cacheWays⟩ = .ok (issues,s) ∧
      ¬ issues.Pairwise Issue.Apart := by
  have hidle : (dramMachine (twoMisses (2 ^ 32 - 220))).run (2 ^ 32 - 220)
      ⟨0,initMemoryController 256,initialCache l2cacheSize l2cacheWays⟩ =
      .ok ([],⟨2 ^ 32 - 220,initMemoryController 256,initialCache l2cacheSize l2cacheWays⟩) := by
    refine dramMachine_idle (fun k hk i => ?_) (fun q hq => ?_) _
    · unfold twoMisses
      rw [if_neg (by omega), if_neg (by omega)]
      rfl
    · rw [(List.mem_replicate.mp hq).2]
  have hlate : ((dramMachine (twoMisses (2 ^ 32 - 220))).run 11
      ⟨2 ^ 32 - 220,initMemoryController 256,
        initialCache l2cacheSize l2cacheWays⟩).toOption.map Prod.fst =
      some [⟨2 ^ 32 - 220,0,2⟩,⟨2 ^ 32 - 210,1,2⟩] := by decide +kernel
  cases h : (dramMachine (twoMisses (2 ^ 32 - 220))).run 11
      ⟨2 ^ 32 - 220,initMemoryController 256,initialCache l2cacheSize l2cacheWays⟩ with
  | error e =>
    rw [h] at hlate
    cases hlate
  | ok r =>
    rw [h] at hlate
    have hissues : r.1 = [⟨2 ^ 32 - 220,0,2⟩,⟨2 ^ 32 - 210,1,2⟩] := Option.some.inj hlate
    refine ⟨_,_,twoMisses_mapped _,Lib.Machine.run_add _ hidle h,fun hp => ?_⟩
    rw [List.nil_append, hissues] at hp
    have hdata := (List.pairwise_pair.mp hp).dataBus
    simp only [Issue.ready] at hdata
    omega

end CaLabs.Lab2
