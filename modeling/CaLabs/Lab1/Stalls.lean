import CaLabs.Lab1.Content
import CaLabs.Lab1.Pipe

/-! The two stall counters of lab 1 and the ops that wait for them: which values of the one
go with which values of the other. -/
namespace CaLabs.Lab1
open Mips Pipeline

/-- What the stages distinguish of an op: loads and stores, ops that wait for the multiplier,
all others. -/
inductive Kind where
  | mem | waiting | plain
  deriving DecidableEq, Repr

/-- The slots before write-back and the two counters. -/
structure Occupancy where
  mem : Option Kind
  execute : Option Kind
  decode : Bool
  memStall : ℕ
  fetchStall : ℕ

/-! What each stage does to its slots and its counter. -/

inductive MemMove : Option Kind → ℕ → Option Kind → ℕ → Prop
  | idle {n} : MemMove none n none n
  | stall {k n} : MemMove (some k) (n+1) (some k) n
  | miss : MemMove (some .mem) 0 (some .mem) 49
  | done {k} : MemMove (some k) 0 none 0

/-- The flag tells whether the op is a taken branch. -/
inductive ExecuteMove : Option Kind → Option Kind → Bool → Option Kind → Option Kind → Prop
  | blocked {k e} : ExecuteMove (some k) e false (some k) e
  | idle : ExecuteMove none none false none none
  | wait : ExecuteMove none (some .waiting) false none (some .waiting)
  | go {k taken} : ExecuteMove none (some k) taken (some k) none

inductive DecodeMove : Option Kind → Bool → Option Kind → Bool → Prop
  | blocked {k d} : DecodeMove (some k) d (some k) d
  | idle : DecodeMove none false none false
  | go {k} : DecodeMove none true (some k) false

inductive FetchMove : Bool → ℕ → Bool → ℕ → Prop
  | blocked {n} : FetchMove true n true n
  | stall {n} : FetchMove false (n+1) false n
  | miss : FetchMove false 0 false 49
  | hit : FetchMove false 0 true 0

namespace Occupancy

/-- One cycle: the stages from the back to the front, and the flush after a taken branch. -/
inductive Step : Occupancy → Occupancy → Prop
  | cycle {m m₁ m₂ e e₁ e₂ d d₁ d₂ n n' f f' taken} : MemMove m n m₁ n' →
      ExecuteMove m₁ e taken m₂ e₁ → DecodeMove e₁ d e₂ d₁ → FetchMove d₁ f d₂ f' →
      Step ⟨m,e,d,n,f⟩ ⟨m₂,if taken then none else e₂,!taken && d₂,n',f'⟩

/-- The counters at the end of a cycle. Both count down from 49 without a pause, so that their
difference was fixed by two misses; the clauses rule out, one cycle earlier each, what would let
an op wait behind a load or store and leave the memory stage just before a fetch is retried. -/
structure Inv (x : Occupancy) : Prop where
  fetch_le : x.fetchStall ≤ 49
  mem_le : x.memStall ≤ 49
  decode_empty : 0 < x.fetchStall → x.decode = false
  mem_stalls : 0 < x.memStall → x.mem = some .mem
  plain : x.mem = some .plain → x.fetchStall ≠ 1
  behind : x.mem ≠ none → x.execute ≠ none → 0 < x.fetchStall → x.fetchStall ≠ x.memStall + 2
  fresh : ∀ k, x.mem = none → x.execute = some k → k ≠ .waiting →
    x.fetchStall = 0 ∨ x.fetchStall = 49
  first : x.mem ≠ none → x.memStall = 48 → x.fetchStall = 0 →
    (x.execute ≠ none ↔ x.decode = true)
  last : x.mem ≠ none → x.execute ≠ none → x.memStall = 49 → x.fetchStall ≠ 1
  empty : x.mem ≠ none → x.memStall = 49 → x.fetchStall = 0 →
    x.execute ≠ none ∨ x.decode = true
  alone : x.mem = some .mem → x.execute = none → x.decode = false → 0 < x.fetchStall →
    x.fetchStall ≠ x.memStall + 1

section Step
variable {m e e₁ : Option Kind} {d d₁ taken : Bool} {n n' f f' : ℕ} {k : Kind}

/-- What decode and fetch do together: count down, fetch (or be blocked), or miss. -/
inductive FrontMove (e : Option Kind) (d : Bool) (f : ℕ) (e₁ : Option Kind) (d₁ : Bool)
    (f' : ℕ) : Prop
  | stall (hf : f = f' + 1) (hd : d = false) (he : e₁ = e) (hd₁ : d₁ = false)
  | full (hf : f = 0) (hf' : f' = 0) (hd₁ : d₁ = true) (he : e₁ = none ↔ e = none ∧ d = false)
      (hkeep : e ≠ none → e₁ = e)
  | miss (hf : f = 0) (hf' : f' = 49) (hd₁ : d₁ = false) (he : e₁ = none ↔ e = none ∧ d = false)
      (hkeep : e ≠ none → d = false ∧ e₁ = e)

lemma frontMove {d₂ : Bool} (hd : 0 < f → d = false) (hdec : DecodeMove e d e₁ d₁)
    (hfetch : FetchMove d₁ f d₂ f') : FrontMove e d f e₁ d₂ f' := by
  cases hfetch with
  | blocked =>
    have hf : f = 0 := by
      by_contra hne
      have hempty := hd (by omega)
      cases hdec
      cases hempty
    cases hdec with
    | blocked => exact .full hf hf rfl (by simp) fun _ => rfl
  | stall =>
    have hempty := hd (by omega)
    cases hdec with
    | blocked => exact .stall rfl hempty rfl rfl
    | idle => exact .stall rfl rfl rfl rfl
    | go => cases hempty
  | miss =>
    cases hdec with
    | blocked => exact .miss rfl rfl rfl (by simp) fun _ => ⟨rfl,rfl⟩
    | idle => exact .miss rfl rfl rfl (by simp) fun h => absurd rfl h
    | go => exact .miss rfl rfl rfl (by simp) fun h => absurd rfl h
  | hit =>
    cases hdec with
    | blocked => exact .full rfl rfl rfl (by simp) fun _ => rfl
    | idle => exact .full rfl rfl rfl (by simp) fun _ => rfl
    | go => exact .full rfl rfl rfl (by simp) fun h => absurd rfl h

/-- An op that stays in the memory stage, because it counts down or has just missed. -/
lemma Inv.stays (h : Inv ⟨some k,e,d,n,f⟩) (hn : n = n' + 1 ∨ (n = 0 ∧ n' = 49 ∧ k = .mem))
    (hfront : FrontMove e d f e₁ d₁ f') : Inv ⟨some k,e₁,d₁,n',f'⟩ := by
  obtain ⟨hfle,hmle,-,hstall,hplain,hbehind,-,hfirst,hlast,hempty,halone⟩ := h
  have hk : k = .mem :=
    hn.elim (fun hn => Option.some.inj (hstall (by simp only [hn]; omega))) (·.2.2)
  subst hk
  simp only [ne_eq, reduceCtorEq, not_false_eq_true, true_implies] at *
  cases hfront with
  | stall hf hd he hd₁ =>
    subst he hd hd₁
    constructor <;> grind
  | full hf hf' hd₁ he hkeep =>
    constructor <;> grind
  | miss hf hf' hd₁ he hkeep =>
    constructor <;> grind

/-- An op that comes from the execute stage into the memory stage, maybe a taken branch. -/
lemma Inv.goes (h : Inv ⟨m,some k,d,n,f⟩) (hn : n = 0) (hfront : FrontMove none d f e₁ d₁ f') :
    Inv ⟨some k,if taken then none else e₁,!taken && d₁,0,f'⟩ := by
  obtain ⟨hfle,-,-,-,hplain,hbehind,hfresh,-,-,-,-⟩ := h
  subst hn
  cases hfront with
  | stall hf hd he hd₁ => cases taken <;> constructor <;> grind
  | full hf hf' hd₁ he hkeep => cases taken <;> constructor <;> grind
  | miss hf hf' hd₁ he hkeep => cases taken <;> constructor <;> grind

/-- An empty memory stage: the execute stage is empty too, or its op waits. -/
lemma Inv.leaves (h : Inv ⟨m,e,d,n,f⟩) (he : e = none ∨ e = some .waiting)
    (hfront : FrontMove e d f e₁ d₁ f') : Inv ⟨none,e₁,d₁,0,f'⟩ := by
  obtain ⟨hfle,-,-,-,-,-,-,-,-,-,-⟩ := h
  cases hfront with
  | stall hf hd he hd₁ => constructor <;> grind
  | full hf hf' hd₁ he hkeep => constructor <;> grind
  | miss hf hf' hd₁ he hkeep => constructor <;> grind

end Step

lemma Inv.step {x x' : Occupancy} (h : x.Inv) (hs : Step x x') : x'.Inv := by
  cases hs with
  | @cycle m _ _ _ _ _ _ _ _ n _ _ _ _ hmem hexec hdec hfetch =>
    cases hmem with
    | idle =>
      have hn : n = 0 := by
        by_contra hne
        cases h.mem_stalls (Nat.pos_of_ne_zero hne)
      subst hn
      cases hexec with
      | idle => exact h.leaves (.inl rfl) (frontMove h.decode_empty hdec hfetch)
      | wait => exact h.leaves (.inr rfl) (frontMove h.decode_empty hdec hfetch)
      | go => exact h.goes rfl (frontMove h.decode_empty hdec hfetch)
    | stall =>
      cases hexec with
      | blocked => exact h.stays (.inl rfl) (frontMove h.decode_empty hdec hfetch)
    | miss =>
      cases hexec with
      | blocked => exact h.stays (.inr ⟨rfl,rfl,rfl⟩) (frontMove h.decode_empty hdec hfetch)
    | done =>
      cases hexec with
      | idle => exact h.leaves (.inl rfl) (frontMove h.decode_empty hdec hfetch)
      | wait => exact h.leaves (.inr rfl) (frontMove h.decode_empty hdec hfetch)
      | go => exact h.goes rfl (frontMove h.decode_empty hdec hfetch)

end Occupancy

def kindOf (op : PipeOp) : Kind :=
  if op.isMem then .mem else if waitsForMultiplier op then .waiting else .plain

def occupancy (s : State) : Occupancy where
  mem := s.pipe.memOp.map kindOf
  execute := s.pipe.executeOp.map kindOf
  decode := s.pipe.decodeOp.isSome
  memStall := s.memStall
  fetchStall := s.fetchStall

/-- Only loads and stores have is_mem, and the ops that wait for the multiplier are neither. -/
def Typed (op : PipeOp) : Prop := op.isMem = true → op.opcode ≠ opSpecial

/-- The slots of the pipeline between two stages of a cycle. -/
structure Slots (p : PipeState) : Prop where
  decode : ∀ op, p.decodeOp = some op → op.isMem = false
  execute : ∀ op, p.executeOp = some op → Typed op
  mem : ∀ op, p.memOp = some op → Typed op

section Ops

lemma decode_typed {op : PipeOp} (h : op.isMem = false) : Typed (decode op) := by
  intro hmem hop
  have hopcode : (decode op).opcode = ((op.instruction >>> 26) &&& 0x3F#32).toNat := by
    simp only [decode, apply_ite PipeOp.opcode, ite_self]
  rw [hopcode] at hop
  simp only [decode, apply_ite PipeOp.isMem, ite_self, if_pos hop, h] at hmem
  cases hmem

/-! The execute stage leaves alone what an op is. -/

lemma execute_isMem (op : PipeOp) (hi lo : Word) : (execute op hi lo).op.isMem = op.isMem := by
  simp only [execute, executeSpecial, apply_ite ExecuteResult.op, apply_ite PipeOp.isMem, ite_self]

lemma execute_opcode (op : PipeOp) (hi lo : Word) :
    (execute op hi lo).op.opcode = op.opcode := by
  simp only [execute, executeSpecial, apply_ite ExecuteResult.op, apply_ite PipeOp.opcode,
    ite_self]

lemma execute_subop (op : PipeOp) (hi lo : Word) : (execute op hi lo).op.subop = op.subop := by
  simp only [execute, executeSpecial, apply_ite ExecuteResult.op, apply_ite PipeOp.subop, ite_self]

lemma kindOf_congr {op op' : PipeOp} (hm : op'.isMem = op.isMem) (ho : op'.opcode = op.opcode)
    (hs : op'.subop = op.subop) : kindOf op' = kindOf op := by
  have hwait : waitsForMultiplier op' = waitsForMultiplier op := by
    rw [waitsForMultiplier, waitsForMultiplier, ho, hs]
  rw [kindOf, kindOf, hm, hwait]

lemma Typed.congr {op op' : PipeOp} (h : Typed op) (hm : op'.isMem = op.isMem)
    (ho : op'.opcode = op.opcode) : Typed op' := by
  simpa only [Typed, hm, ho] using h

lemma kindOf_mem {op : PipeOp} (h : op.isMem = true) : kindOf op = .mem := by
  simp only [kindOf, h, if_true]

lemma kindOf_waiting {op : PipeOp} (h : Typed op) (hw : waitsForMultiplier op = true) :
    kindOf op = .waiting := by
  have hspecial : op.opcode = opSpecial := by
    simp only [waitsForMultiplier, decide_eq_true_eq] at hw
    exact hw.1
  have hmem : ¬op.isMem = true := fun hm => h hm hspecial
  simp only [kindOf, if_neg hmem, hw, if_true]

/-- The halting syscall is an op that nothing holds back. -/
lemma kindOf_isHalt {op : PipeOp} (h : Typed op) (hh : isHalt op = true) : kindOf op = .plain := by
  simp only [isHalt, decide_eq_true_eq] at hh
  have hmem : ¬op.isMem = true := fun hm => h hm hh.1
  have hwait : ¬waitsForMultiplier op = true := by
    simp [waitsForMultiplier, hh.2.1]
  simp only [kindOf, if_neg hmem, if_neg hwait]

end Ops

/-! What the two stages with a counter can do. -/

section Stages
variable {policy : Policy} {s s' : State}

/-- A miss costs dram_access_cycles. -/
lemma cacheAccess_stall {c c' : Cache} {rand rand' : ℕ → ℕ} {address : Word} {stall : ℕ}
    (h : cacheAccess policy c rand address = .ok (stall,c',rand')) :
    stall = 0 ∨ stall = dramAccessCycles := by
  obtain ⟨-,hanswer⟩ := cacheAccess_cases h
  cases hanswer with
  | hit => exact .inl rfl
  | miss => exact .inr rfl

lemma cacheAccess_wellFormed {c c' : Cache} {rand rand' : ℕ → ℕ} {address : Word} {stall : ℕ}
    (hw : WellFormed c) (h : cacheAccess policy c rand address = .ok (stall,c',rand')) :
    WellFormed c' := by
  obtain ⟨_,_,_,hok,hw'⟩ := cacheAccess_total policy hw rand (cacheAccess_cases h).1
  rw [h] at hok
  obtain ⟨-,hok⟩ := Prod.mk.inj (Except.ok.inj hok)
  exact (Prod.mk.inj hok).1 ▸ hw'

inductive MemStage (policy : Policy) (s : State) : State → Prop
  | empty (hop : s.pipe.memOp = none) : MemStage policy s s
  | stalled {op n} (hop : s.pipe.memOp = some op) (hn : s.memStall = n+1) :
      MemStage policy s { s with memStall := n }
  | missed {op dcache rand} (hop : s.pipe.memOp = some op) (hn : s.memStall = 0)
      (hmem : op.isMem = true) (hc : cacheAccess policy s.dcache s.rand (wordOf op.memAddr) =
        .ok (dramAccessCycles,dcache,rand)) :
      MemStage policy s { s with dcache := dcache, rand := rand, memStall := 49 }
  | hit {op dcache rand} (hop : s.pipe.memOp = some op) (hn : s.memStall = 0)
      (hmem : op.isMem = true) (hc : cacheAccess policy s.dcache s.rand (wordOf op.memAddr) =
        .ok (0,dcache,rand)) :
      MemStage policy s { s with dcache := dcache, rand := rand, pipe := finishMem op s.pipe }
  | done {op} (hop : s.pipe.memOp = some op) (hn : s.memStall = 0) (hmem : op.isMem = false) :
      MemStage policy s { s with pipe := finishMem op s.pipe }

inductive FetchStage (policy : Policy) (s : State) : State → Prop
  | blocked (hop : s.pipe.decodeOp ≠ none) : FetchStage policy s s
  | stalled {n} (hop : s.pipe.decodeOp = none) (hn : s.fetchStall = n+1) :
      FetchStage policy s { s with fetchStall := n }
  | missed {icache rand} (hop : s.pipe.decodeOp = none) (hn : s.fetchStall = 0)
      (hc : cacheAccess policy s.icache s.rand s.pipe.pc = .ok (dramAccessCycles,icache,rand)) :
      FetchStage policy s { s with icache := icache, rand := rand, fetchStall := 49 }
  | hit {icache rand} (hop : s.pipe.decodeOp = none) (hn : s.fetchStall = 0)
      (hc : cacheAccess policy s.icache s.rand s.pipe.pc = .ok (0,icache,rand)) :
      FetchStage policy s { s with icache := icache, rand := rand, pipe := finishFetch s.pipe }

lemma pipeStageMem_cases (h : pipeStageMem policy s = .ok s') : MemStage policy s s' := by
  unfold pipeStageMem at h
  cases hop : s.pipe.memOp with
  | none =>
    simp only [hop, Except.ok.injEq] at h
    exact h ▸ .empty hop
  | some op =>
    simp only [hop] at h
    split_ifs at h with hstall hmem
    · obtain rfl := Except.ok.inj h
      exact .stalled hop (by omega)
    · have hn : s.memStall = 0 := by omega
      cases hc : cacheAccess policy s.dcache s.rand (wordOf op.memAddr) with
      | error e => simp [hc, bind, Except.bind] at h
      | ok r =>
        obtain ⟨stallCycles,dcache,rand⟩ := r
        simp only [hc, bind, Except.bind] at h
        rcases cacheAccess_stall hc with rfl | rfl
        · obtain rfl := Except.ok.inj h
          exact .hit hop hn hmem hc
        · obtain rfl := Except.ok.inj h
          exact .missed hop hn hmem hc
    · obtain rfl := Except.ok.inj h
      exact .done hop (by omega) (by simpa using hmem)

lemma pipeStageFetch_cases (h : pipeStageFetch policy s = .ok s') : FetchStage policy s s' := by
  unfold pipeStageFetch at h
  split_ifs at h with hop hstall
  · obtain rfl := Except.ok.inj h
    exact .blocked (Option.isSome_iff_ne_none.mp hop)
  · obtain rfl := Except.ok.inj h
    exact .stalled (by simpa using hop) (by omega)
  · have hnone : s.pipe.decodeOp = none := by simpa using hop
    have hn : s.fetchStall = 0 := by omega
    cases hc : cacheAccess policy s.icache s.rand s.pipe.pc with
    | error e => simp [hc, bind, Except.bind] at h
    | ok r =>
      obtain ⟨stallCycles,icache,rand⟩ := r
      simp only [hc, bind, Except.bind] at h
      rcases cacheAccess_stall hc with rfl | rfl
      · obtain rfl := Except.ok.inj h
        exact .hit hnone hn hc
      · obtain rfl := Except.ok.inj h
        exact .missed hnone hn hc

/-! What the stages do, as equations. -/

lemma pipeStageMem_stalled {op : PipeOp} {n : ℕ} (hop : s.pipe.memOp = some op)
    (hn : s.memStall = n+1) : pipeStageMem policy s = .ok { s with memStall := n } := by
  simp only [pipeStageMem, hop, hn, Nat.succ_pos, if_true, Nat.add_sub_cancel]

lemma pipeStageMem_missed {op : PipeOp} {stall : ℕ} {dcache : Cache} {rand : ℕ → ℕ}
    (hop : s.pipe.memOp = some op) (hn : s.memStall = 0) (hmem : op.isMem = true)
    (hc : cacheAccess policy s.dcache s.rand (wordOf op.memAddr) = .ok (stall,dcache,rand))
    (hpos : 0 < stall) : pipeStageMem policy s =
      .ok { s with dcache := dcache, rand := rand, memStall := 49 } := by
  obtain rfl := (cacheAccess_stall hc).resolve_left hpos.ne'
  simp only [pipeStageMem, hop, hn, hmem, hc, lt_irrefl, if_false, if_true, bind, Except.bind,
    hpos, dramAccessCycles]

lemma pipeStageMem_hit {op : PipeOp} {dcache : Cache} {rand : ℕ → ℕ}
    (hop : s.pipe.memOp = some op) (hn : s.memStall = 0) (hmem : op.isMem = true)
    (hc : cacheAccess policy s.dcache s.rand (wordOf op.memAddr) = .ok (0,dcache,rand)) :
    pipeStageMem policy s =
      .ok { s with dcache := dcache, rand := rand, pipe := finishMem op s.pipe } := by
  simp only [pipeStageMem, hop, hn, hmem, hc, lt_irrefl, if_false, if_true, bind, Except.bind]

lemma pipeStageFetch_stalled {n : ℕ} (hop : s.pipe.decodeOp = none) (hn : s.fetchStall = n+1) :
    pipeStageFetch policy s = .ok { s with fetchStall := n } := by
  simp only [pipeStageFetch, hop, hn, Option.isSome_none, Bool.false_eq_true, if_false,
    Nat.succ_pos, if_true, Nat.add_sub_cancel]

lemma pipeStageFetch_missed {stall : ℕ} {icache : Cache} {rand : ℕ → ℕ}
    (hop : s.pipe.decodeOp = none) (hn : s.fetchStall = 0)
    (hc : cacheAccess policy s.icache s.rand s.pipe.pc = .ok (stall,icache,rand))
    (hpos : 0 < stall) : pipeStageFetch policy s =
      .ok { s with icache := icache, rand := rand, fetchStall := 49 } := by
  obtain rfl := (cacheAccess_stall hc).resolve_left hpos.ne'
  simp only [pipeStageFetch, hop, hn, hc, Option.isSome_none, Bool.false_eq_true, lt_irrefl,
    if_false, if_true, bind, Except.bind, hpos, dramAccessCycles]

lemma pipeStageFetch_hit {icache : Cache} {rand : ℕ → ℕ} (hop : s.pipe.decodeOp = none)
    (hn : s.fetchStall = 0)
    (hc : cacheAccess policy s.icache s.rand s.pipe.pc = .ok (0,icache,rand)) :
    pipeStageFetch policy s =
      .ok { s with icache := icache, rand := rand, pipe := finishFetch s.pipe } := by
  simp only [pipeStageFetch, hop, hn, hc, Option.isSome_none, Bool.false_eq_true, lt_irrefl,
    if_false, bind, Except.bind]

/-! The moves of the stages. -/

lemma MemStage.move (h : MemStage policy s s') :
    MemMove (s.pipe.memOp.map kindOf) s.memStall (s'.pipe.memOp.map kindOf) s'.memStall := by
  cases h with
  | empty hop =>
    rw [hop]
    exact .idle
  | stalled hop hn =>
    rw [hop, hn]
    exact .stall
  | missed hop hn hmem hc =>
    rw [hop, hn, Option.map_some, kindOf_mem hmem]
    exact .miss
  | hit hop hn hmem hc =>
    simp only [hop, hn, finishMem, Option.map_some, Option.map_none]
    exact .done
  | done hop hn hmem =>
    simp only [hop, hn, finishMem, Option.map_some, Option.map_none]
    exact .done

/-- What the memory stage leaves to the stages before it. -/
lemma MemStage.frame (h : MemStage policy s s') : s'.pipe.executeOp = s.pipe.executeOp ∧
    s'.pipe.decodeOp = s.pipe.decodeOp ∧ s'.pipe.branchRecover = s.pipe.branchRecover ∧
    s'.pipe.pc = s.pipe.pc ∧ s'.pipe.runBit = s.pipe.runBit ∧ s'.fetchStall = s.fetchStall ∧
    s'.icache = s.icache := by
  cases h <;> exact ⟨rfl,rfl,rfl,rfl,rfl,rfl,rfl⟩

lemma MemStage.slots (h : MemStage policy s s') (hs : Slots s.pipe) : Slots s'.pipe := by
  cases h with
  | empty hop => exact hs
  | stalled hop hn => exact hs
  | missed hop hn hmem hc => exact hs
  | hit hop hn hmem hc => exact ⟨hs.decode,hs.execute,fun _ h => by cases h⟩
  | done hop hn hmem => exact ⟨hs.decode,hs.execute,fun _ h => by cases h⟩

lemma MemStage.dcache_wellFormed (h : MemStage policy s s') (hw : WellFormed s.dcache) :
    WellFormed s'.dcache := by
  cases h with
  | empty hop => exact hw
  | stalled hop hn => exact hw
  | missed hop hn hmem hc => exact cacheAccess_wellFormed hw hc
  | hit hop hn hmem hc => exact cacheAccess_wellFormed hw hc
  | done hop hn hmem => exact hw

lemma FetchStage.move (h : FetchStage policy s s') :
    FetchMove s.pipe.decodeOp.isSome s.fetchStall s'.pipe.decodeOp.isSome s'.fetchStall := by
  cases h with
  | blocked hop =>
    rw [Option.isSome_iff_ne_none.mpr hop]
    exact .blocked
  | stalled hop hn =>
    simp only [hop, hn]
    exact .stall
  | missed hop hn hc =>
    simp only [hop, hn]
    exact .miss
  | hit hop hn hc =>
    simp only [hop, hn, finishFetch]
    exact .hit

lemma FetchStage.frame (h : FetchStage policy s s') : s'.pipe.executeOp = s.pipe.executeOp ∧
    s'.pipe.memOp = s.pipe.memOp ∧ s'.pipe.wbOp = s.pipe.wbOp ∧
    s'.pipe.branchRecover = s.pipe.branchRecover ∧ s'.pipe.branchFlush = s.pipe.branchFlush ∧
    s'.pipe.runBit = s.pipe.runBit ∧ s'.memStall = s.memStall ∧ s'.dcache = s.dcache := by
  cases h <;> exact ⟨rfl,rfl,rfl,rfl,rfl,rfl,rfl,rfl⟩

lemma FetchStage.slots (h : FetchStage policy s s') (hs : Slots s.pipe) : Slots s'.pipe := by
  cases h with
  | blocked hop => exact hs
  | stalled hop hn => exact hs
  | missed hop hn hc => exact hs
  | hit hop hn hc =>
    refine ⟨fun op h => ?_,hs.execute,hs.mem⟩
    obtain rfl := Option.some.inj h
    rfl

lemma FetchStage.icache_wellFormed (h : FetchStage policy s s') (hw : WellFormed s.icache) :
    WellFormed s'.icache := by
  cases h with
  | blocked hop => exact hw
  | stalled hop hn => exact hw
  | missed hop hn hc => exact cacheAccess_wellFormed hw hc
  | hit hop hn hc => exact cacheAccess_wellFormed hw hc

end Stages

section Pipe
variable {p : PipeState}

lemma pipeStageWb_frame (waiting : Bool) (p : PipeState) :
    (pipeStageWb waiting p).memOp = p.memOp ∧ (pipeStageWb waiting p).executeOp = p.executeOp ∧
    (pipeStageWb waiting p).decodeOp = p.decodeOp ∧
    (pipeStageWb waiting p).branchRecover = p.branchRecover ∧
    (pipeStageWb waiting p).wbOp = none := by
  unfold pipeStageWb
  cases hop : p.wbOp with
  | none => exact ⟨rfl,rfl,rfl,rfl,hop⟩
  | some op =>
    dsimp only
    split_ifs <;> exact ⟨rfl,rfl,rfl,rfl,rfl⟩

lemma finishExecute_slots (r : ExecuteResult) (p : PipeState) :
    (finishExecute r p).memOp = some r.op ∧ (finishExecute r p).executeOp = none ∧
      (finishExecute r p).decodeOp = p.decodeOp := by
  unfold finishExecute pipeRecover
  dsimp only
  split_ifs <;> exact ⟨rfl,rfl,rfl⟩

/-- An op of the execute stage leaves it once it has no more reason to wait. -/
lemma pipeStageExecute_move (hs : Slots p) (hr : p.branchRecover = false) :
    ExecuteMove (p.memOp.map kindOf) (p.executeOp.map kindOf) (pipeStageExecute p).branchRecover
      ((pipeStageExecute p).memOp.map kindOf) ((pipeStageExecute p).executeOp.map kindOf) ∧
    (pipeStageExecute p).decodeOp = p.decodeOp ∧ Slots (pipeStageExecute p) := by
  have hslots : Slots (tickMultiplier p) := ⟨hs.decode,hs.execute,hs.mem⟩
  cases hm : p.memOp with
  | some m =>
    have hblocked : pipeStageExecute p = tickMultiplier p := by
      have hm' : (tickMultiplier p).memOp = some m := hm
      simp only [pipeStageExecute, hm', Option.isSome_some, if_true]
    rw [hblocked]
    refine ⟨?_,rfl,hslots⟩
    simp only [tickMultiplier, hm, hr, Option.map_some]
    exact .blocked
  | none =>
    cases he : p.executeOp with
    | none =>
      have hidle : pipeStageExecute p = tickMultiplier p := by
        have hm' : (tickMultiplier p).memOp = none := hm
        have he' : (tickMultiplier p).executeOp = none := he
        simp only [pipeStageExecute, hm', he', Option.isSome_none, Bool.false_eq_true, if_false]
      rw [hidle]
      refine ⟨?_,rfl,hslots⟩
      simp only [tickMultiplier, hm, he, hr, Option.map_none]
      exact .idle
    | some op =>
      have htyped := hs.execute op he
      set op' := withOperands p.bypassed op with hop'
      rw [pipeStageExecute_ready hm he, ← hop', executeReady]
      split_ifs with hwait
      · have hw : kindOf op = .waiting := kindOf_waiting htyped hwait.1
        refine ⟨?_,rfl,hs.decode,?_,hs.mem⟩
        · simp only [awaitMultiplier, tickMultiplier, hm, hr, Option.map_some, Option.map_none, hw]
          rw [show kindOf { op' with regDstValueReady := true } = .waiting from hw]
          exact .wait
        · intro o ho
          obtain rfl := Option.some.inj ho
          exact htyped
      · have hop : Typed op' := htyped
        set r := execute op' (tickMultiplier p).hi (tickMultiplier p).lo
        have hgo : kindOf r.op = kindOf op :=
          kindOf_congr (execute_isMem op' _ _) (execute_opcode op' _ _) (execute_subop op' _ _)
        have htyped' : Typed r.op := hop.congr (execute_isMem op' _ _) (execute_opcode op' _ _)
        obtain ⟨hmem,hexec,hdecode⟩ := finishExecute_slots r (tickMultiplier p)
        rw [hmem, hexec, Option.map_some, Option.map_some, hgo]
        refine ⟨.go,hdecode,?_,?_,?_⟩
        · intro o ho
          exact hs.decode o (hdecode.symm.trans ho)
        · intro o ho
          rw [hexec] at ho
          cases ho
        · intro o ho
          rw [hmem] at ho
          obtain rfl := Option.some.inj ho
          exact htyped'

lemma pipeStageDecode_move (hs : Slots p) :
    DecodeMove (p.executeOp.map kindOf) p.decodeOp.isSome
      ((pipeStageDecode p).executeOp.map kindOf) (pipeStageDecode p).decodeOp.isSome ∧
    Slots (pipeStageDecode p) := by
  unfold pipeStageDecode
  cases he : p.executeOp with
  | some op =>
    simp only [Option.isSome_some, if_true, he, Option.map_some]
    exact ⟨.blocked,hs⟩
  | none =>
    cases hd : p.decodeOp with
    | none =>
      simp only [Option.isSome_none, Bool.false_eq_true, if_false, he, hd, Option.map_none]
      exact ⟨.idle,hs⟩
    | some op =>
      simp only [Option.isSome_none, Option.isSome_some, Bool.false_eq_true, if_false,
        Option.map_none, Option.map_some]
      refine ⟨.go,⟨(fun o ho => by cases ho),(fun o ho => ?_),hs.mem⟩⟩
      obtain rfl := Option.some.inj ho
      exact decode_typed (hs.decode op hd)

/-- A recovery flushes what comes before the memory stage. -/
lemma recoverBranch_slots (hflush : p.branchRecover = true → p.branchFlush = 3) :
    (recoverBranch p).memOp = p.memOp ∧
    (recoverBranch p).executeOp = (if p.branchRecover then none else p.executeOp) ∧
    (recoverBranch p).decodeOp = (if p.branchRecover then none else p.decodeOp) := by
  by_cases hr : p.branchRecover = true
  · simp [recoverBranch, hr, hflush hr]
  · rw [recoverBranch, if_neg hr, if_neg hr, if_neg hr]
    exact ⟨rfl,rfl,rfl⟩

end Pipe

/-! The cycle, with the state that each of the two stages starts in. -/

section Cycle
variable {policy : Policy} {s s₁ s₂ s' : State}

def afterWb (s : State) : State := { s with pipe := pipeStageWb (0 < s.fetchStall) s.pipe }

def afterDecode (s : State) : State := { s with pipe := pipeStageDecode (pipeStageExecute s.pipe) }

def afterFetch (s : State) : State := { s with pipe := recoverBranch s.pipe }

/-- In a cycle that goes through both stages are answered. -/
lemma pipeCycle_ok (h : pipeCycle policy s = .ok s') :
    ∃ s₁ s₂, pipeStageMem policy (afterWb s) = .ok s₁ ∧
      pipeStageFetch policy (afterDecode s₁) = .ok s₂ ∧ s' = afterFetch s₂ := by
  unfold pipeCycle at h
  change (pipeStageMem policy (afterWb s) >>= fun s₁ => pipeStageFetch policy (afterDecode s₁) >>=
    fun s₂ => .ok (afterFetch s₂)) = _ at h
  cases hm : pipeStageMem policy (afterWb s) with
  | error e => simp [hm, bind, Except.bind] at h
  | ok s₁ =>
    cases hf : pipeStageFetch policy (afterDecode s₁) with
    | error e => simp [hm, hf, bind, Except.bind] at h
    | ok s₂ =>
      simp only [hm, hf, bind, Except.bind, Except.ok.injEq] at h
      exact ⟨s₁,s₂,rfl,hf,h.symm⟩

/-- The state between two cycles. -/
structure Settled (s : State) : Prop where
  slots : Slots s.pipe
  recovered : s.pipe.branchRecover = false
  icache : WellFormed s.icache
  dcache : WellFormed s.dcache

lemma afterDecode_flush (hr : s₁.pipe.branchRecover = false)
    (h : (afterDecode s₁).pipe.branchRecover = true) : (afterDecode s₁).pipe.branchFlush = 3 := by
  obtain ⟨-,-,-,hr',hf,-⟩ := pipeStageDecode_later (s := pipeStageExecute s₁.pipe)
  have hfl : (afterDecode s₁).pipe.branchFlush = (pipeStageExecute s₁.pipe).branchFlush := hf
  have hre : (afterDecode s₁).pipe.branchRecover = (pipeStageExecute s₁.pipe).branchRecover := hr'
  rw [hfl]
  exact pipeStageExecute_flush hr (hre ▸ h)

/-- Every cycle moves the slots and the counters as one step of the occupancy. -/
theorem pipeCycle_step (hs : Settled s) (h : pipeCycle policy s = .ok s') :
    Occupancy.Step (occupancy s) (occupancy s') ∧ Settled s' := by
  obtain ⟨s₁,s₂,hm,hf,rfl⟩ := pipeCycle_ok h
  have hmem := pipeStageMem_cases hm
  have hfetch := pipeStageFetch_cases hf
  obtain ⟨wmem,wexec,wdec,wrec,-⟩ := pipeStageWb_frame (0 < s.fetchStall) s.pipe
  have hslots : Slots (afterWb s).pipe := by
    refine ⟨fun op ho => hs.slots.decode op ?_,fun op ho => hs.slots.execute op ?_,
      fun op ho => hs.slots.mem op ?_⟩
    · rw [← wdec]; exact ho
    · rw [← wexec]; exact ho
    · rw [← wmem]; exact ho
  obtain ⟨mexec,mdec,mrec,-,-,mfetch,micache⟩ := hmem.frame
  have hrec₁ : s₁.pipe.branchRecover = false := (mrec.trans wrec).trans hs.recovered
  obtain ⟨hexecute,edec,hslots₁⟩ := pipeStageExecute_move (hmem.slots hslots) hrec₁
  obtain ⟨hdecode,hslots₂⟩ := pipeStageDecode_move hslots₁
  obtain ⟨fexec,fmem,-,frec,fflush,-,fstall,fdcache⟩ := hfetch.frame
  obtain ⟨dmem,-,-,drec,-⟩ := pipeStageDecode_later (s := pipeStageExecute s₁.pipe)
  have hrec₂ : s₂.pipe.branchRecover = (pipeStageExecute s₁.pipe).branchRecover :=
    frec.trans drec
  have hflush : s₂.pipe.branchRecover = true → s₂.pipe.branchFlush = 3 := by
    rw [frec, fflush]
    exact afterDecode_flush hrec₁
  obtain ⟨rmem,rexec,rdec⟩ := recoverBranch_slots hflush
  have hslots₃ := hfetch.slots hslots₂
  constructor
  · have hstep := Occupancy.Step.cycle hmem.move hexecute hdecode hfetch.move
    have hbefore : occupancy s = ⟨(afterWb s).pipe.memOp.map kindOf,s₁.pipe.executeOp.map kindOf,
        (pipeStageExecute s₁.pipe).decodeOp.isSome,(afterWb s).memStall,
        (afterDecode s₁).fetchStall⟩ := by
      rw [mexec, edec, mdec]
      simp only [occupancy, afterWb, afterDecode, wmem, wexec, wdec, mfetch]
    have hafter : occupancy (afterFetch s₂) = ⟨(pipeStageExecute s₁.pipe).memOp.map kindOf,
        if (pipeStageExecute s₁.pipe).branchRecover then none
          else (pipeStageDecode (pipeStageExecute s₁.pipe)).executeOp.map kindOf,
        !(pipeStageExecute s₁.pipe).branchRecover && s₂.pipe.decodeOp.isSome,
        s₁.memStall,s₂.fetchStall⟩ := by
      simp only [occupancy, afterFetch, rmem, rexec, rdec, hrec₂, fmem, fexec, fstall]
      simp only [afterDecode, dmem]
      cases (pipeStageExecute s₁.pipe).branchRecover <;> rfl
    rw [hbefore, hafter]
    exact hstep
  · refine ⟨⟨fun op ho => ?_,fun op ho => ?_,fun op ho => ?_⟩,recoverBranch_branchRecover _,
      hfetch.icache_wellFormed (micache ▸ hs.icache),fdcache ▸ hmem.dcache_wellFormed hs.dcache⟩
    · have ho' : (recoverBranch s₂.pipe).decodeOp = some op := ho
      rw [rdec] at ho'
      split_ifs at ho'
      exact hslots₃.decode op ho'
    · have ho' : (recoverBranch s₂.pipe).executeOp = some op := ho
      rw [rexec] at ho'
      split_ifs at ho'
      exact hslots₃.execute op ho'
    · have ho' : (recoverBranch s₂.pipe).memOp = some op := ho
      rw [rmem] at ho'
      exact hslots₃.mem op ho'

/-- Both hold between the cycles of a run. -/
lemma settled_run {t : ℕ} (hs : Settled s) (hinv : (occupancy s).Inv)
    (h : (machine policy).Reaches s t s') : Settled s' ∧ (occupancy s').Inv := by
  refine Lib.Machine.Reaches.invariant (machine policy)
    (P := fun s => Settled s ∧ (occupancy s).Inv) ⟨hs,hinv⟩ ?_ h
  rintro a b ⟨ha,hinva⟩ - hstep
  obtain ⟨hmove,hb⟩ := pipeCycle_step ha hstep
  exact ⟨hb,hinva.step hmove⟩

theorem reaches_settled {icapacity dcapacity : Word} {iways isize dways dsize : BitVec 8}
    {icache dcache : Cache} {rand : ℕ → ℕ} {mem : Memory} {regs : Reg → Word} {hi lo : Word}
    (hicache : allocCache policy icapacity iways isize = some icache)
    (hdcache : allocCache policy dcapacity dways dsize = some dcache)
    (hisets : 0 < icache.numSets) (hdsets : 0 < dcache.numSets) {t : ℕ}
    (h : (machine policy).Reaches (initialState icache dcache rand mem regs hi lo) t s) :
    Settled s ∧ (occupancy s).Inv := by
  refine settled_run ⟨⟨?_,?_,?_⟩,rfl,allocCache_wellFormed hicache hisets,
    allocCache_wellFormed hdcache hdsets⟩ ?_ h
  · intro op hop
    cases hop
  · intro op hop
    cases hop
  · intro op hop
    cases hop
  · constructor <;> simp [occupancy, initialState, initialPipe]

end Cycle
end CaLabs.Lab1
