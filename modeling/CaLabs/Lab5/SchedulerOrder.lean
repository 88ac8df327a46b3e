import CaLabs.Lab5.WorkConservation

/-! What get_best_request returns: the least request of a lexicographic order. Of the requests
that tie on the criteria of the thread it is the oldest ready one, whether it hits an open row or
not. -/
namespace CaLabs.Lab5
open Lib Controller

/-- The loop of get_best_request that writes the command each request needs. -/
def withCommands (preq : Command → AddrVec → Command) (buffer : List Request) : List Request :=
  buffer.map fun r => { r with command := preq r.finalCommand r.addrVec }

lemma withCommands_ne_nil {preq : Command → AddrVec → Command} {buffer : List Request}
    (h : buffer ≠ []) : withCommands preq buffer ≠ [] := by
  rw [withCommands, ne_eq, List.map_eq_nil_iff]
  exact h

lemma command_of_mem {preq : Command → AddrVec → Command} {buffer : List Request} {r : Request}
    (h : r ∈ withCommands preq buffer) : r.command = preq r.finalCommand r.addrVec := by
  obtain ⟨q,-,rfl⟩ := List.mem_map.mp h
  rfl

namespace Scheduler
variable {e : Cycle}

/-- The first request of the buffer that no other one precedes. -/
structure FirstMinimal (e : Cycle) (s : Scheduler) (l : List Request) (i : ℕ) (r : Request) :
    Prop where
  stands : l[i]? = some r
  minimal : ∀ q ∈ l, s.requestKey e r ≤ s.requestKey e q
  first : ∀ k < i, ∀ q, l[k]? = some q → s.requestKey e r < s.requestKey e q

lemma firstMinimal_of_selected {s : Scheduler} {l : List Request} {i : ℕ} {r : Request}
    (h : Selected (s.requestKey e) (fun _ => true) l r i) : FirstMinimal e s l i r := by
  refine ⟨h.stands,fun q hq => h.le hq rfl,fun k hk q hq => ?_⟩
  exact (h.best k q hq rfl).resolve_right fun hne => absurd hne.2 (Nat.not_le_of_lt hk)

end Scheduler
open Scheduler

/-- For every clock, ranking and blacklist and every answer of the device, the request returned
is the first minimal one; in another order of the buffer it has the same key. -/
theorem getBestRequest_firstMinimal (s : Scheduler) (e : Cycle)
    (preq : Command → AddrVec → Command) {buffer : List Request} (hne : buffer ≠ []) :
    ∃ i r, s.getBestRequest e (withCommands preq buffer) = some (i,r) ∧
      FirstMinimal e s (withCommands preq buffer) i r ∧
      ∀ buffer', buffer.Perm buffer' → ∃ i' r',
        s.getBestRequest e (withCommands preq buffer') = some (i',r') ∧
          r' ∈ withCommands preq buffer ∧ s.requestKey e r' = s.requestKey e r := by
  obtain ⟨i,r,hbest,hsel⟩ := getBestRequest_selected (e := e) s (withCommands_ne_nil hne)
  refine ⟨i,r,hbest,firstMinimal_of_selected hsel,fun buffer' hperm => ?_⟩
  have hperm' : (withCommands preq buffer).Perm (withCommands preq buffer') := hperm.map _
  have hne' : buffer' ≠ [] := fun h => hne (by rw [h] at hperm; exact hperm.eq_nil)
  obtain ⟨i',r',hbest',hsel'⟩ := getBestRequest_selected (e := e) s (withCommands_ne_nil hne')
  exact ⟨i',r',hbest',hperm'.mem_iff.mpr (List.mem_of_getElem? hsel'.stands),
    (hsel.perm hperm' hsel').symm⟩

/-- BLISS on the two reads of a busy device. -/
theorem maskedReads_firstMinimal : ∃ i r,
    Scheduler.BLISS.getBestRequest maskedCycle
        (withCommands (getPreqCommand ⟨1,2⟩ fun _ => none) maskedReads) = some (i,r) ∧
      FirstMinimal maskedCycle .BLISS
        (withCommands (getPreqCommand ⟨1,2⟩ fun _ => none) maskedReads) i r := by
  obtain ⟨i,r,hbest,hfirst,-⟩ := getBestRequest_firstMinimal .BLISS maskedCycle
    (getPreqCommand ⟨1,2⟩ fun _ => none) (show maskedReads ≠ [] by decide)
  exact ⟨i,r,hbest,hfirst⟩

/-! The row-hit rule. -/

namespace Scheduler
variable {e : Cycle}

/-- The bank of the read or write is open with its row. -/
structure RowHit (rows : BankRows) (r : Request) : Prop where
  access : r.finalCommand = .RD ∨ r.finalCommand = .WR
  row : rows r.addrVec.rowgroup = some r.addrVec.row

/-- A row hit whose RD or WR passes check_ready. -/
structure ReadyHit (rows : BankRows) (e : Cycle) (r : Request) : Prop extends RowHit rows r where
  ready : e.checkReady r.finalCommand r.addrVec = true

/-- If the group that comes first by thread has a ready row hit, a row hit is returned. -/
def RowHitFirst (s : Scheduler) (e : Cycle) (rows : BankRows) (l : List Request) : Prop :=
  (∃ r, Preferred e s l r ∧ ReadyHit rows e r) →
    ∀ i r, s.getBestRequest e l = some (i,r) → RowHit rows r

/-- A request of that group that misses the row, whose command is ready all the same, and that
is older than every ready row hit of the group. -/
structure ReadyMiss (s : Scheduler) (e : Cycle) (rows : BankRows) (l : List Request) (i : ℕ)
    (q : Request) : Prop where
  stands : l[i]? = some q
  preferred : Preferred e s l q
  ready : isReady e q = true
  miss : ¬RowHit rows q
  older : ∀ j r, l[j]? = some r → Preferred e s l r → ReadyHit rows e r →
    q.arrive < r.arrive ∨ (q.arrive = r.arrive ∧ i < j)

lemma Preferred.threadKey_eq {s : Scheduler} {l : List Request} {r q : Request}
    (hr : Preferred e s l r) (hq : Preferred e s l q) : s.threadKey e r = s.threadKey e q :=
  le_antisymm (hr.2 q hq.1) (hq.2 r hr.1)

/-- Two ready requests of the group compare as their arrivals. -/
lemma requestKey_lt_iff {s : Scheduler} {l : List Request} {r q : Request}
    (hr : Preferred e s l r) (hq : Preferred e s l q) (hready : isReady e r = true)
    (hready' : isReady e q = true) :
    (s.requestKey e r < s.requestKey e q ↔ r.arrive < q.arrive) ∧
      (s.requestKey e r = s.requestKey e q ↔ r.arrive = q.arrive) := by
  have ht := hr.threadKey_eq hq
  simp only [requestKey, ht, hready, hready', or_true, if_true, Prod.Lex.toLex_lt_toLex,
    lt_self_iff_false, true_and, false_or, EmbeddingLike.apply_eq_iff_eq, Prod.mk.injEq]

/-- If the group has a ready request, the oldest one of these is returned. -/
lemma getBestRequest_oldest {s : Scheduler} (hs : s ≠ .FCFS) {l : List Request}
    (hready : ∃ r, Preferred e s l r ∧ isReady e r = true) :
    ∃ i r, s.getBestRequest e l = some (i,r) ∧ Preferred e s l r ∧ isReady e r = true ∧
      ∀ j q, l[j]? = some q → Preferred e s l q → isReady e q = true →
        r.arrive < q.arrive ∨ (r.arrive = q.arrive ∧ i ≤ j) := by
  obtain ⟨r₀,hr₀,-⟩ := id hready
  have hne : l ≠ [] := List.ne_nil_of_mem hr₀.1
  obtain ⟨i,r,hbest,hsel⟩ := getBestRequest_selected (e := e) s hne
  obtain ⟨i',r',hbest',hpref,hiff⟩ := getBestRequest_ready_iff (e := e) hs hne
  obtain ⟨rfl,rfl⟩ := Prod.mk.inj (Option.some.inj (hbest.symm.trans hbest'))
  refine ⟨i,r,hbest,hpref,hiff.mpr hready,fun j q hj hq hqready => ?_⟩
  obtain ⟨hlt,heq⟩ := requestKey_lt_iff hpref hq (hiff.mpr hready) hqready
  have hfirst := hsel.best j q hj rfl
  rwa [hlt, heq] at hfirst

/-- A row hit needs no other command first, so it is ready if its RD or WR is. -/
lemma RowHit.isReady_iff {org : Organization} {rows : BankRows} {buffer : List Request}
    {r : Request} (h : RowHit rows r)
    (hr : r ∈ withCommands (getPreqCommand org rows) buffer) :
    isReady e r = true ↔ ReadyHit rows e r := by
  have hcommand : r.command = r.finalCommand := by
    rw [command_of_mem hr]
    rcases getPreqCommand_access org rows r.addrVec h.access with
      ⟨-,hnone⟩ | ⟨hc,-⟩ | ⟨-,row,hne,hrow⟩
    · rw [h.row] at hnone
      cases hnone
    · exact hc
    · rw [h.row] at hrow
      exact absurd (Option.some.inj hrow).symm hne
  rw [isReady, hcommand]
  exact ⟨fun hready => ⟨h,hready⟩,fun hhit => hhit.ready⟩

end Scheduler
open Scheduler

/-- The rule holds unless a ready request that misses its row is older than every ready hit. -/
theorem rowHitFirst_iff {s : Scheduler} (hs : s = .ATLAS ∨ s = .BLISS) (e : Cycle)
    (org : Organization) (rows : BankRows) (buffer : List Request) :
    RowHitFirst s e rows (withCommands (getPreqCommand org rows) buffer) ↔
      ¬((∃ r, Preferred e s (withCommands (getPreqCommand org rows) buffer) r ∧
          ReadyHit rows e r) ∧
        ∃ i q, ReadyMiss s e rows (withCommands (getPreqCommand org rows) buffer) i q) := by
  have hnf : s ≠ .FCFS := by
    rcases hs with rfl | rfl <;> decide
  generalize hl : withCommands (getPreqCommand org rows) buffer = l
  have hhit : ∀ {r}, Preferred e s l r → ReadyHit rows e r → isReady e r = true :=
    fun hr h => (h.toRowHit.isReady_iff (hl ▸ hr.1)).mpr h
  constructor
  · rintro h ⟨⟨r₀,hr₀,hhit₀⟩,k,q,hq⟩
    obtain ⟨i,r,hbest,hpref,hready,hfirst⟩ :=
      getBestRequest_oldest hnf ⟨r₀,hr₀,hhit hr₀ hhit₀⟩
    have hrow := h ⟨r₀,hr₀,hhit₀⟩ i r hbest
    have hcheck : ReadyHit rows e r := (hrow.isReady_iff (hl ▸ hpref.1)).mp hready
    have hbefore := hfirst k q hq.stands hq.preferred hq.ready
    have hlater := hq.older i r (getBestRequest_mem hbest) hpref hcheck
    omega
  · rintro h ⟨r₀,hr₀,hhit₀⟩ i r hbest
    obtain ⟨i',r',hbest',hpref,hready,hfirst⟩ :=
      getBestRequest_oldest hnf ⟨r₀,hr₀,hhit hr₀ hhit₀⟩
    obtain ⟨rfl,rfl⟩ := Prod.mk.inj (Option.some.inj (hbest.symm.trans hbest'))
    have hstands := getBestRequest_mem hbest
    by_contra hmiss
    refine h ⟨⟨r₀,hr₀,hhit₀⟩,i,r,hstands,hpref,hready,hmiss,fun j q hj hq hhitq => ?_⟩
    have hbefore := hfirst j q hj hq (hhit hq hhitq)
    have hij : i ≠ j := by
      rintro rfl
      rw [hstands] at hj
      exact hmiss (Option.some.inj hj ▸ hhitq.toRowHit)
    omega

/-- Row 0 of the first bank is open. -/
def firstBankOpen : BankRows := issueCommand (fun _ => none) .ACT ⟨0,0,0,0,0,0⟩

/-- A read of a closed bank and a younger read of the open row. -/
def missThenHit : List Request :=
  [{ addrVec := ⟨0,0,0,1,5,0⟩, type := .read, sourceId := 0, command := .RD, finalCommand := .RD,
     arrive := 0 },
    { addrVec := ⟨0,0,0,0,0,0⟩, type := .read, sourceId := 0, command := .RD,
      finalCommand := .RD, arrive := 1 }]

/-- No bank is busy. -/
def idleCycle : Cycle where
  checkReady := fun _ _ => true

/-- Neither scheduler serves the open row: the older read, which only needs an ACT, is returned
instead. -/
theorem missThenHit_not_rowHitFirst :
    ¬RowHitFirst .ATLAS idleCycle firstBankOpen
        (withCommands (getPreqCommand ⟨1,2⟩ firstBankOpen) missThenHit) ∧
      ¬RowHitFirst .BLISS idleCycle firstBankOpen
        (withCommands (getPreqCommand ⟨1,2⟩ firstBankOpen) missThenHit) := by
  constructor <;>
  · intro h
    have hrow := (h ⟨_,⟨List.mem_of_getElem? (i := 1) rfl,by decide⟩,⟨.inl rfl,by decide⟩,rfl⟩
      0 _ rfl).row
    revert hrow
    decide

/-- When only a RD is ready, the older read does not stand in the way of the younger one. -/
theorem readyRead_returned :
    ∃ i r, Scheduler.ATLAS.getBestRequest { idleCycle with checkReady := fun c _ => c = .RD }
        (withCommands (getPreqCommand ⟨1,2⟩ firstBankOpen) missThenHit) = some (i,r) ∧
      RowHit firstBankOpen r := by
  set e : Cycle := { idleCycle with checkReady := fun c _ => c = .RD }
  have hfirst := (rowHitFirst_iff (.inl rfl) e ⟨1,2⟩ firstBankOpen missThenHit).mpr ?_
  · have hne : withCommands (getPreqCommand ⟨1,2⟩ firstBankOpen) missThenHit ≠ [] := by decide
    obtain ⟨i,r,hbest,-⟩ := getBestRequest_selected (e := e) .ATLAS hne
    refine ⟨i,r,hbest,hfirst ⟨_,⟨List.mem_of_getElem? (i := 1) rfl,by decide⟩,
      ⟨.inl rfl,by decide⟩,rfl⟩ i r hbest⟩
  · rintro ⟨-,i,q,hq⟩
    match i, hq.stands with
    | 0, hstands =>
      obtain rfl := Option.some.inj hstands
      exact absurd hq.ready (by decide)
    | 1, hstands =>
      obtain rfl := Option.some.inj hstands
      exact hq.miss ⟨.inl rfl,by decide⟩

end CaLabs.Lab5
