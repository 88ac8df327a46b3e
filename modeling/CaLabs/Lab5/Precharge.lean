import CaLabs.Lab5.Controller
import Mathlib.Data.List.Induction

/-! When a request of the active buffer can find its bank open with another row. -/
namespace CaLabs.Lab5.Controller
section
variable {c : Controller} {e : Cycle}

/-- No request of the active buffer needs a precharge. -/
def Unobstructed (c : Controller) : Prop :=
  ∀ r ∈ c.activeBuffer, getPreqCommand c.org c.rows r.finalCommand r.addrVec ≠ .PRE

/-- While the preferred active request is not ready and no refresh waits, the read or write buffer
is about to open another row in the bank of an active request. -/
structure Disturbed (c : Controller) (e : Cycle) : Prop where
  noRefresh : (c.arrived e).priorityBuffer = []
  notReady : ∀ i r, (c.arrived e).best e .active = some (i,r) → isReady e r = false
  activates : ∃ i r, (c.arrived e).best e (c.arrived e).served = some (i,r) ∧
    isReady e r = true ∧ r.command = .ACT ∧ ∃ a ∈ c.activeBuffer,
      a.addrVec.rowgroup = r.addrVec.rowgroup ∧ a.addrVec.row ≠ r.addrVec.row

/-- The bank of an active request is closed or open with its row, and active requests to one bank
are for one row. -/
structure Kept (c : Controller) : Prop where
  wellFormed : c.WellFormed
  ownRow : ∀ a ∈ c.activeBuffer, c.rows a.addrVec.rowgroup = none ∨
    c.rows a.addrVec.rowgroup = some a.addrVec.row
  agree : ∀ a ∈ c.activeBuffer, ∀ b ∈ c.activeBuffer, a.addrVec.rowgroup = b.addrVec.rowgroup →
    a.addrVec.row = b.addrVec.row

lemma WellFormed.ownRow_iff (h : c.WellFormed) : c.Unobstructed ↔
    ∀ a ∈ c.activeBuffer, c.rows a.addrVec.rowgroup = none ∨
      c.rows a.addrVec.rowgroup = some a.addrVec.row := by
  refine forall₂_congr fun a ha => ?_
  have hf := h.active a ha
  have hne : a.finalCommand ≠ .PRE := hf.final_ne (by decide)
  obtain ⟨hc,hr⟩ | ⟨hc,hr⟩ | ⟨hc,row,hrow,hr⟩ := getPreqCommand_access c.org c.rows a.addrVec hf
  · rw [hc, hr]
    simp
  · rw [hc, hr]
    simp [hne]
  · rw [hc, hr]
    simp [hrow]

lemma Kept.unobstructed (h : c.Kept) : c.Unobstructed := h.wellFormed.ownRow_iff.mpr h.ownRow

lemma remove_framed (c : Controller) (i : ℕ) (b : BufferName) :
    (c.remove i b).rows = c.rows ∧ ∀ a ∈ (c.remove i b).activeBuffer, a ∈ c.activeBuffer := by
  cases b with
  | active => exact ⟨rfl,fun a ha => List.mem_of_mem_eraseIdx ha⟩
  | priority | read | write => exact ⟨rfl,fun a ha => ha⟩

lemma remove_activeBuffer (c : Controller) (i : ℕ) {b : BufferName} (hb : b ≠ .active) :
    (c.remove i b).activeBuffer = c.activeBuffer := by
  cases b with
  | active => exact absurd rfl hb
  | priority | read | write => rfl

lemma WellFormed.remove (h : c.WellFormed) (i : ℕ) (b : BufferName) :
    (c.remove i b).WellFormed := by
  cases b with
  | active => exact ⟨fun a ha => h.active a (List.mem_of_mem_eraseIdx ha),h.read,h.write,h.priority⟩
  | priority =>
    exact ⟨h.active,h.read,h.write,fun a ha => h.priority a (List.mem_of_mem_eraseIdx ha)⟩
  | read => exact ⟨h.active,fun a ha => h.read a (List.mem_of_mem_eraseIdx ha),h.write,h.priority⟩
  | write => exact ⟨h.active,h.read,fun a ha => h.write a (List.mem_of_mem_eraseIdx ha),h.priority⟩

lemma Kept.remove (h : c.Kept) (i : ℕ) (b : BufferName) : (c.remove i b).Kept := by
  obtain ⟨hr,ha⟩ := c.remove_framed i b
  refine ⟨h.wellFormed.remove i b,fun a hmem => ?_,fun a hmem a' hmem' => ?_⟩
  · rw [hr]
    exact h.ownRow a (ha a hmem)
  · exact h.agree a (ha a hmem) a' (ha a' hmem')

/-- A command that leaves the rows of the active requests or closes them. -/
lemma Kept.rows (h : c.Kept) {rows : BankRows} (hr : ∀ a ∈ c.activeBuffer,
    rows a.addrVec.rowgroup = none ∨ rows a.addrVec.rowgroup = c.rows a.addrVec.rowgroup) :
    { c with rows := rows }.Kept := by
  refine ⟨⟨h.wellFormed.active,h.wellFormed.read,h.wellFormed.write,h.wellFormed.priority⟩,
    fun a ha => ?_,h.agree⟩
  obtain hnone | hsame := hr a ha
  · exact .inl hnone
  · change rows a.addrVec.rowgroup = none ∨ rows a.addrVec.rowgroup = some a.addrVec.row
    rw [hsame]
    exact h.ownRow a ha

/-- An activation for a row that the active requests to the bank agree with. -/
lemma Kept.activate (h : c.Kept) {r : Request} (hf : Access r)
    (hagree : ∀ a ∈ c.activeBuffer, a.addrVec.rowgroup = r.addrVec.rowgroup →
      a.addrVec.row = r.addrVec.row) :
    { c with rows := issueCommand c.rows .ACT r.addrVec,
             activeBuffer := enqueue 32 c.activeBuffer r }.Kept := by
  refine ⟨⟨fun a ha => ?_,h.wellFormed.read,h.wellFormed.write,h.wellFormed.priority⟩,
    fun a ha => ?_,fun a ha a' ha' hbank => ?_⟩
  · obtain ha | rfl := mem_enqueue ha
    · exact h.wellFormed.active a ha
    · exact hf
  · simp only [issueCommand]
    by_cases hbank : a.addrVec.rowgroup = r.addrVec.rowgroup
    · rw [if_pos hbank]
      obtain ha | rfl := mem_enqueue ha
      · exact .inr (by rw [hagree a ha hbank])
      · exact .inr rfl
    · rw [if_neg hbank]
      obtain ha | rfl := mem_enqueue ha
      · exact h.ownRow a ha
      · exact absurd rfl hbank
  · obtain hold | rfl := mem_enqueue ha
    · obtain hold' | rfl := mem_enqueue ha'
      · exact h.agree a hold a' hold' hbank
      · exact hagree a hold hbank
    · obtain hold' | rfl := mem_enqueue ha'
      · exact (hagree a' hold' hbank.symm).symm
      · rfl

/-- An access is not completed by its ACT or PRE. -/
lemma Access.not_completes {r : Request} (h : Access r) (hc : r.command ≠ .RD ∧ r.command ≠ .WR) :
    r.completes = false := decide_eq_false (h.final_ne hc).symm

/-- The command that is issued keeps the active requests and their rows together. -/
lemma Kept.issue (h : c.Kept) {b : BufferName} {i : ℕ} {r : Request}
    (hcmd : r.command = getPreqCommand c.org c.rows r.finalCommand r.addrVec)
    (hf : Access r ∨ r.finalCommand = .REFab) (hclose : c.closesActive r = false)
    (hagree : r.command = .ACT → ∀ a ∈ c.activeBuffer,
      a.addrVec.rowgroup = r.addrVec.rowgroup → a.addrVec.row = r.addrVec.row) :
    (c.issue b i r).Kept := by
  have hdone : issueCommand c.rows r.command r.addrVec = c.rows → r.command = r.finalCommand →
      (c.issue b i r).Kept := fun hrows hc => by
    have hcompletes : r.completes = true := decide_eq_true hc
    rw [Controller.issue, hrows]
    simp only [hcompletes, if_true]
    exact h.remove i b
  obtain hf | hf := hf
  · obtain ⟨hc,-⟩ | ⟨hc,-⟩ | ⟨hc,-⟩ := getPreqCommand_access c.org c.rows r.addrVec hf
    · rw [← hcmd] at hc
      have hne := hf.not_completes (by rw [hc]; decide)
      rw [Controller.issue]
      simp only [hne, hc, Command.isOpening, Bool.false_eq_true, if_false, if_true]
      exact (h.activate hf (hagree hc)).remove i b
    · rw [← hcmd] at hc
      refine hdone ?_ hc
      rw [hc]
      obtain hrd | hwr := hf
      · rw [hrd]
        rfl
      · rw [hwr]
        rfl
    · rw [← hcmd] at hc
      have hne := hf.not_completes (by rw [hc]; decide)
      rw [Controller.issue]
      simp only [hne, hc, Command.isOpening, Bool.false_eq_true, if_false]
      refine h.rows fun a ha => .inr ?_
      have hother : a.addrVec.rowgroup ≠ r.addrVec.rowgroup := by
        simp only [closesActive, hc, Command.isClosing, Bool.true_and, List.any_eq_false,
          decide_eq_true_eq] at hclose
        exact hclose a ha
      exact if_neg hother
  · rw [hf] at hcmd
    by_cases hopen : openInRank c.org c.rows r.addrVec.channel r.addrVec.rank = true
    · have hc : r.command = .PREA := hcmd.trans (if_pos hopen)
      have hne : r.completes = false := decide_eq_false (by rw [hc, hf]; decide)
      rw [Controller.issue]
      simp only [hne, hc, Command.isOpening, Bool.false_eq_true, if_false]
      refine h.rows fun a _ => ?_
      simp only [issueCommand]
      split_ifs
      · exact .inl rfl
      · exact .inr rfl
    · have hc : r.command = .REFab := hcmd.trans (if_neg hopen)
      exact hdone (by rw [hc]; rfl) (hc.trans hf.symm)

lemma Kept.arrived (h : c.Kept) (e : Cycle) : (c.arrived e).Kept := by
  obtain ⟨ha,hr⟩ := c.arrived_framed e
  refine ⟨h.wellFormed.arrived e,?_,?_⟩
  · rw [ha, hr]
    exact h.ownRow
  · rw [ha]
    exact h.agree

/-- The write mode is not part of the invariant. -/
lemma Kept.writeMode (h : c.Kept) (mode : Bool) : { c with isWriteMode := mode }.Kept :=
  ⟨⟨h.wellFormed.active,h.wellFormed.read,h.wellFormed.write,h.wellFormed.priority⟩,h.ownRow,h.agree⟩

lemma WellFormed.buffer (h : c.WellFormed) {b : BufferName} {r : Request} (hr : r ∈ c.buffer b) :
    Access r ∨ r.finalCommand = .REFab := by
  cases b with
  | active => exact .inl (h.active r hr)
  | priority => exact .inr (h.priority r hr)
  | read => exact .inl (h.read r hr)
  | write => exact .inl (h.write r hr)

/-- A cycle that is not disturbed. -/
theorem Kept.cycle (h : c.Kept) (hd : ¬ c.Disturbed e) : (c.cycle e).Kept := by
  have h' := h.arrived e
  unfold Controller.cycle
  dsimp only
  cases hs : (c.arrived e).scheduleRequest e with
  | none => exact h'.writeMode _
  | some p =>
    obtain ⟨b,i,r⟩ := p
    obtain ⟨hfound,hclose⟩ := Option.filter_eq_some_iff.mp hs
    have hclose' : (c.arrived e).closesActive r = false := by simpa using hclose
    dsimp only
    obtain ⟨rfl,hbest⟩ | ⟨rfl,r',hr',rfl⟩ | ⟨rfl,hbest,hready,hprio,hwait⟩ :=
      findRequest_cases hfound
    · obtain ⟨r',hr',rfl⟩ := best_mem hbest
      have hf := h'.wellFormed.buffer hr'
      exact (h'.writeMode _).issue rfl hf hclose'
        fun _ a ha hbank => h'.agree a ha r' hr' hbank
    · refine (h'.writeMode _).issue rfl (.inr (h'.wellFormed.priority r' hr')) hclose'
        fun hact => ?_
      have hf := h'.wellFormed.priority r' hr'
      change getPreqCommand _ _ r'.finalCommand _ = _ at hact
      rw [hf, getPreqCommand] at hact
      split_ifs at hact
    · obtain ⟨r',hr',rfl⟩ := best_mem hbest
      have hf := h'.wellFormed.buffer hr'
      refine (h'.writeMode _).issue rfl hf hclose'
        fun hact a ha hbank => ?_
      by_contra hrow
      refine hd ⟨hprio,hwait,i,_,hbest,hready,hact,a,?_,hbank,hrow⟩
      rw [← (c.arrived_framed e).1]
      exact ha

/-- A disturbed cycle leaves an active request that needs a precharge. -/
theorem Disturbed.obstructs (h : c.Kept) (hd : c.Disturbed e) : ¬ (c.cycle e).Unobstructed := by
  have h' := h.arrived e
  obtain ⟨hprio,hwait,i,r,hbest,hready,hact,a,ha,hbank,hrow⟩ := hd
  rw [← (c.arrived_framed e).1] at ha
  obtain ⟨r',hr',rfl⟩ := best_mem hbest
  have hactive : ((c.arrived e).best e .active).filter (fun p => isReady e p.2) = none := by
    rw [Option.filter_eq_none_iff]
    rintro ⟨j,q⟩ hq
    simp [hwait j q hq]
  have hfind : (c.arrived e).findRequest e =
      (some ((c.arrived e).served,i,(c.arrived e).withCommand r'),(c.arrived e).setWriteMode) := by
    simp only [findRequest, hactive, hprio, hbest]
    rw [Option.filter_some, if_pos hready]
    rfl
  have hsched : (c.arrived e).scheduleRequest e =
      some ((c.arrived e).served,i,(c.arrived e).withCommand r') := by
    have hclose : (c.arrived e).closesActive ((c.arrived e).withCommand r') = false := by
      rw [closesActive, hact]
      rfl
    rw [scheduleRequest, hfind]
    dsimp only
    rw [Option.filter_some, if_pos (by rw [hclose]; rfl)]
  intro hun
  have hserved : (c.arrived e).served ≠ .active := by
    unfold served
    split_ifs <;> decide
  have hf : Access r' := by
    unfold served at hr'
    split_ifs at hr'
    · exact h'.wellFormed.write r' hr'
    · exact h'.wellFormed.read r' hr'
  have hne : ((c.arrived e).withCommand r').completes = false :=
    Access.not_completes (r := (c.arrived e).withCommand r') hf (by rw [hact]; decide)
  have hcycle : (c.cycle e).rows = issueCommand (c.arrived e).rows .ACT r'.addrVec ∧
      a ∈ (c.cycle e).activeBuffer := by
    unfold Controller.cycle
    dsimp only
    rw [hsched, hfind]
    dsimp only
    rw [issue]
    simp only [hne, hact, Command.isOpening, Bool.false_eq_true, if_false, if_true]
    rw [(remove_framed _ i _).1, remove_activeBuffer _ i hserved]
    exact ⟨rfl,mem_enqueue_of_mem ha⟩
  obtain ⟨hrows,hmem⟩ := hcycle
  have hopen : (c.cycle e).rows a.addrVec.rowgroup = some r'.addrVec.row := by
    rw [hrows]
    exact if_pos hbank
  obtain ⟨-,hr⟩ | ⟨-,hr⟩ | ⟨hc,-⟩ := getPreqCommand_access (c.cycle e).org (c.cycle e).rows a.addrVec
    (h'.wellFormed.active a ha)
  · rw [hopen] at hr
    cases hr
  · rw [hopen] at hr
    exact hrow (Option.some.inj hr).symm
  · exact hun a hmem hc

/-- The controller after its setup. -/
def setup (org : Organization) (scheduler : Scheduler) (channelId : ℤ) (ranks : ℕ)
    (wrLowWatermark wrHighWatermark : ℕ) : Controller where
  org := org
  scheduler := scheduler
  channelId := channelId
  ranks := ranks
  wrLowWatermark := wrLowWatermark
  wrHighWatermark := wrHighWatermark

lemma setup_kept (org : Organization) (scheduler : Scheduler) (channelId : ℤ) (ranks : ℕ)
    (wrLowWatermark wrHighWatermark : ℕ) :
    (setup org scheduler channelId ranks wrLowWatermark wrHighWatermark).Kept :=
  have hnil : ∀ {p : Request → Prop}, ∀ r ∈ ([] : List Request), p r := fun _ hr =>
    absurd hr List.not_mem_nil
  ⟨⟨hnil,hnil,hnil,hnil⟩,hnil,hnil⟩

/-- No cycle of the run is disturbed. -/
def NeverDisturbed (c : Controller) (cycles : List Cycle) : Prop :=
  ∀ before e after, cycles = before ++ e :: after → ¬ (c.run before).Disturbed e

/-- In all states of the run no active request needs a precharge. -/
def AlwaysUnobstructed (c : Controller) (cycles : List Cycle) : Prop :=
  ∀ before after, cycles = before ++ after → (c.run before).Unobstructed

lemma run_append (c : Controller) (before : List Cycle) (e : Cycle) :
    c.run (before ++ [e]) = (c.run before).cycle e := by
  rw [run, run, List.foldl_append, List.foldl_cons, List.foldl_nil]

lemma Kept.run (h : c.Kept) {cycles : List Cycle} (hd : c.NeverDisturbed cycles) :
    (c.run cycles).Kept := by
  induction cycles using List.reverseRecOn with
  | nil => exact h
  | append_singleton cycles e ih =>
    rw [run_append]
    refine (ih fun before e' after hc => ?_).cycle (hd cycles e [] rfl)
    exact hd before e' (after ++ [e]) (by rw [hc, List.append_assoc, List.cons_append])

/-- In every run with any of the schedulers, no active request ever needs a precharge exactly
when no cycle lets the read or write buffer open another row in the bank of an active request. -/
theorem run_always_unobstructed_iff (org : Organization) (scheduler : Scheduler) (channelId : ℤ)
    (ranks wrLowWatermark wrHighWatermark : ℕ) (cycles : List Cycle) :
    (setup org scheduler channelId ranks wrLowWatermark wrHighWatermark).AlwaysUnobstructed cycles ↔
      (setup org scheduler channelId ranks wrLowWatermark wrHighWatermark).NeverDisturbed
        cycles := by
  have h0 := setup_kept org scheduler channelId ranks wrLowWatermark wrHighWatermark
  generalize setup org scheduler channelId ranks wrLowWatermark wrHighWatermark = c at h0
  constructor
  · intro h
    induction cycles using List.reverseRecOn with
    | nil => exact fun before e after hc => absurd hc (by simp)
    | append_singleton cycles last ih =>
      have hearlier : c.NeverDisturbed cycles := ih fun before after hc =>
        h before (after ++ [last]) (by rw [hc, List.append_assoc])
      intro before e after hc
      obtain rfl | ⟨after',b,rfl⟩ := List.eq_nil_or_concat after
      · obtain ⟨rfl,he⟩ := List.append_inj' hc rfl
        obtain rfl := (List.cons.inj he).1
        intro hd
        refine hd.obstructs (h0.run hearlier) ?_
        rw [← run_append]
        exact h (cycles ++ [last]) [] (by rw [List.append_nil])
      · rw [List.concat_eq_append, ← List.cons_append, ← List.append_assoc] at hc
        exact hearlier before e after' (List.append_inj' hc rfl).1
  · intro h before after hc
    refine (h0.run fun b e a hb => ?_).unobstructed
    exact h b e (a ++ after) (by rw [hc, hb, List.append_assoc, List.cons_append])

/-- A timing in which ACT and PRE are ready by bank. -/
def BankTimed (e : Cycle) : Prop := ∀ command, command = .ACT ∨ command = .PRE →
  ∀ a a' : AddrVec, a.rowgroup = a'.rowgroup → e.checkReady command a = e.checkReady command a'

/-- Everything but RD is ready, an ACT of bank 1 only when it may be. -/
def timing (bankOne : Bool) (command : Command) (a : AddrVec) : Bool :=
  match command with
  | .RD => false
  | .ACT => a.bank ≠ 1 || bankOne
  | _ => true

def readOf (bank row : ℤ) : Request where
  addrVec := ⟨0,0,0,bank,row,0⟩
  type := .read
  command := .RD
  finalCommand := .RD

/-- Reads of bank 1 and bank 0 are activated, a refresh closes both banks, and while the older read
waits for bank 1 a third one opens another row of bank 0. -/
def refreshedReads : List Cycle :=
  [{ sends := [readOf 1 5], checkReady := timing true },
   { sends := [readOf 0 1], checkReady := timing false },
   { refresh := true, checkReady := timing false },
   { checkReady := timing false },
   { sends := [readOf 0 2], checkReady := timing false }]

theorem refreshed_read_needs_precharge : ¬ ∀ scheduler cycles, (∀ e ∈ cycles, BankTimed e) →
    (setup ⟨4,4⟩ scheduler 0 1 7 25).AlwaysUnobstructed cycles := by
  intro h
  have htimed : ∀ e ∈ refreshedReads, BankTimed e := by
    have hb : ∀ bankOne, ∀ command, command = .ACT ∨ command = .PRE → ∀ a a' : AddrVec,
        a.rowgroup = a'.rowgroup → timing bankOne command a = timing bankOne command a' := by
      intro bankOne command hc a a' hbank
      have hbank' : a.bank = a'.bank := congrArg BankAddr.bank hbank
      obtain rfl | rfl := hc
      · simp only [timing, hbank']
      · rfl
    intro e he
    simp only [refreshedReads, List.mem_cons, List.not_mem_nil, or_false] at he
    obtain rfl | rfl | rfl | rfl | rfl := he
    all_goals exact hb _
  have hun := h .FCFS refreshedReads htimed refreshedReads [] (List.append_nil _).symm
  revert hun
  unfold Unobstructed
  decide +kernel

end
end CaLabs.Lab5.Controller
