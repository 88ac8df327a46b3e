import CaLabs.Lab5.Ddr4
import Mathlib.Tactic.ByContra
import Mathlib.Tactic.SplitIfs

/-! A cycle of GenericDRAMController: its buffers, the schedulers and the DDR4 device. -/
namespace CaLabs.Lab5

/-- What reaches the controller in a cycle: the requests that are enqueued (a read that is
forwarded from the write buffer enters none), whether the refresh is due, check_ready of the
device, and the shared states that the schedulers read. -/
structure Cycle where
  sends : List Request := []
  refresh : Bool := false
  checkReady : Command → AddrVec → Bool
  currentClk : ℤ := 0
  threshold : ℤ := 100000
  rank : ℤ → ℕ := fun _ => 999999
  blacklist : List ℤ := []

/-- The implementations of IScheduler that ignore which requests are ready until late. -/
inductive Scheduler where
  | ATLAS | BLISS | FCFS
  deriving DecidableEq, Repr

namespace Scheduler
variable (e : Cycle) (req1 req2 : Request)

/-- Whether compare returns its first request, by the commands that the requests need. -/
def compare : Scheduler → Bool
  | ATLAS =>
    let over1 := decide (e.threshold < e.currentClk - req1.arrive)
    let over2 := decide (e.threshold < e.currentClk - req2.arrive)
    if over1 ≠ over2 then over1
    else if e.rank req1.sourceId ≠ e.rank req2.sourceId then
      e.rank req1.sourceId < e.rank req2.sourceId
    else
      let ready1 := e.checkReady req1.command req1.addrVec
      let ready2 := e.checkReady req2.command req2.addrVec
      if ready1 ≠ ready2 then ready1
      else if req1.arrive ≠ req2.arrive then req1.arrive < req2.arrive
      else true
  | BLISS =>
    let blacklisted1 := decide (req1.sourceId ∈ e.blacklist)
    let blacklisted2 := decide (req2.sourceId ∈ e.blacklist)
    if blacklisted1 ≠ blacklisted2 then !blacklisted1
    else
      let ready1 := e.checkReady req1.command req1.addrVec
      let ready2 := e.checkReady req2.command req2.addrVec
      if ready1 ≠ ready2 then ready1
      else if req1.arrive ≠ req2.arrive then req1.arrive < req2.arrive
      else true
  | FCFS => req1.arrive ≤ req2.arrive

/-- The loop of get_best_request over the rest of a buffer, with the index of the candidate. -/
def bestLoop (s : Scheduler) (candidate : ℕ × Request) (next : ℕ) : List Request → ℕ × Request
  | [] => candidate
  | r :: rest =>
    bestLoop s (if s.compare e candidate.2 r then candidate else (next,r)) (next + 1) rest

/-- get_best_request on a buffer whose commands are up to date. -/
def getBestRequest (s : Scheduler) : List Request → Option (ℕ × Request)
  | [] => none
  | r :: rest => some (s.bestLoop e (0,r) 1 rest)

variable {e}

lemma bestLoop_mem {s : Scheduler} {candidate : ℕ × Request} {rest l : List Request} {next : ℕ}
    (hc : l[candidate.1]? = some candidate.2) (hrest : l.drop next = rest) :
    l[(s.bestLoop e candidate next rest).1]? = some (s.bestLoop e candidate next rest).2 := by
  induction rest generalizing candidate next with
  | nil => exact hc
  | cons r rest ih =>
    have hr : l[next]? = some r := by
      rw [← List.head?_drop, hrest]
      rfl
    refine ih ?_ ?_
    · split_ifs
      · exact hc
      · exact hr
    · rw [← List.drop_drop, hrest]
      rfl

/-- The best request is in the buffer. -/
lemma getBestRequest_mem {s : Scheduler} {l : List Request} {i : ℕ} {r : Request}
    (h : s.getBestRequest e l = some (i,r)) : l[i]? = some r := by
  cases l with
  | nil => cases h
  | cons r' rest =>
    have hmem := @bestLoop_mem e s (0,r') rest (r' :: rest) 1 rfl rfl
    rw [Option.some.inj h] at hmem
    exact hmem

end Scheduler

inductive BufferName where
  | active | priority | read | write
  deriving DecidableEq, Repr

/-- The buffers of the controller and the rows of the device. The watermarks are given as numbers
of requests. -/
structure Controller where
  org : Organization
  scheduler : Scheduler
  channelId : ℤ := 0
  ranks : ℕ := 1
  wrLowWatermark : ℕ := 7
  wrHighWatermark : ℕ := 25
  clk : ℤ := 0
  activeBuffer : List Request := []
  priorityBuffer : List Request := []
  readBuffer : List Request := []
  writeBuffer : List Request := []
  isWriteMode : Bool := false
  rows : BankRows := fun _ => none

/-- ReqBuffer::enqueue: one more than max_size fits. -/
def enqueue (maxSize : ℕ) (buffer : List Request) (r : Request) : List Request :=
  if buffer.length ≤ maxSize then buffer ++ [r] else buffer

namespace Controller
variable (c : Controller) (e : Cycle)

def buffer : BufferName → List Request
  | .active => c.activeBuffer
  | .priority => c.priorityBuffer
  | .read => c.readBuffer
  | .write => c.writeBuffer

/-- ReqBuffer::remove. -/
def remove (i : ℕ) : BufferName → Controller
  | .active => { c with activeBuffer := c.activeBuffer.eraseIdx i }
  | .priority => { c with priorityBuffer := c.priorityBuffer.eraseIdx i }
  | .read => { c with readBuffer := c.readBuffer.eraseIdx i }
  | .write => { c with writeBuffer := c.writeBuffer.eraseIdx i }

/-- send of a request that is not forwarded. -/
def send (r : Request) : Controller :=
  let r := { r with finalCommand := r.type.finalCommand, arrive := c.clk }
  match r.type with
  | .read => { c with readBuffer := enqueue 32 c.readBuffer r }
  | .write => { c with writeBuffer := enqueue 32 c.writeBuffer r }
  | .allBankRefresh => c

/-- The refresh requests of AllBankRefresh::tick, one for every rank of the channel. -/
def sendRefresh : Controller :=
  { c with
    priorityBuffer := (List.range c.ranks).foldl (fun buffer (r : ℕ) =>
      enqueue (512 * 3 + 32) buffer (refreshRequest c.channelId r)) c.priorityBuffer }

/-- A request with the command that it needs next. -/
def withCommand (r : Request) : Request :=
  { r with command := getPreqCommand c.org c.rows r.finalCommand r.addrVec }

/-- get_best_request with the commands that it writes. -/
def best (b : BufferName) : Option (ℕ × Request) :=
  c.scheduler.getBestRequest e ((c.buffer b).map c.withCommand)

/-- check_ready of the command that a request needs. -/
def isReady (r : Request) : Bool := e.checkReady r.command r.addrVec

/-- set_write_mode. -/
def setWriteMode : Bool :=
  if c.isWriteMode then
    !(decide (c.writeBuffer.length < c.wrLowWatermark) && !c.readBuffer.isEmpty)
  else decide (c.wrHighWatermark < c.writeBuffer.length) || c.readBuffer.isEmpty

/-- The buffer that the write policy serves. -/
def served : BufferName := if c.setWriteMode then .write else .read

/-- Steps 2.1 and 2.2 of schedule_request, with the write mode that it sets. -/
def findRequest : Option (BufferName × ℕ × Request) × Bool :=
  match (c.best e .active).filter fun p => isReady e p.2 with
  | some (i,r) => (some (.active,i,r),c.isWriteMode)
  | none =>
    match c.priorityBuffer with
    | r :: _ =>
      (if isReady e (c.withCommand r) then some (.priority,0,c.withCommand r) else none,
        c.isWriteMode)
    | [] =>
      (((c.best e c.served).filter fun p => isReady e p.2).map fun p => (c.served,p.1,p.2),
        c.setWriteMode)

/-- Step 2.3: the request would close the row of a request in the active buffer. -/
def closesActive (r : Request) : Bool :=
  r.command.isClosing && c.activeBuffer.any fun a => a.addrVec.rowgroup = r.addrVec.rowgroup

/-- schedule_request. -/
def scheduleRequest : Option (BufferName × ℕ × Request) :=
  (c.findRequest e).1.filter fun p => !c.closesActive p.2.2

/-- Step 4 of tick. -/
def issue (b : BufferName) (i : ℕ) (r : Request) : Controller :=
  let c := { c with rows := issueCommand c.rows r.command r.addrVec }
  if r.completes then c.remove i b
  else if r.command.isOpening then
    { c with activeBuffer := enqueue 32 c.activeBuffer r }.remove i b
  else c

/-- The state in which tick looks for a request. -/
def arrived : Controller :=
  let c := { e.sends.foldl send c with clk := c.clk + 1 }
  if e.refresh then c.sendRefresh else c

/-- The sends of a cycle and its tick. -/
def cycle : Controller :=
  let c := c.arrived e
  let found := c.scheduleRequest e
  let c := { c with isWriteMode := (c.findRequest e).2 }
  match found with
  | some (b,i,r) => c.issue b i r
  | none => c

def run (cycles : List Cycle) : Controller := cycles.foldl cycle c

variable {c e}

/-- The requests that reads and writes are. -/
def Access (r : Request) : Prop := r.finalCommand = .RD ∨ r.finalCommand = .WR

lemma Access.final_ne {r : Request} (h : Access r) {command : Command}
    (hc : command ≠ .RD ∧ command ≠ .WR) : r.finalCommand ≠ command := by
  obtain hrd | hwr := h
  · rw [hrd]
    exact hc.1.symm
  · rw [hwr]
    exact hc.2.symm

/-- What the buffers hold: accesses, and in the priority buffer refreshes. -/
structure WellFormed (c : Controller) : Prop where
  active : ∀ r ∈ c.activeBuffer, Access r
  read : ∀ r ∈ c.readBuffer, Access r
  write : ∀ r ∈ c.writeBuffer, Access r
  priority : ∀ r ∈ c.priorityBuffer, r.finalCommand = .REFab

lemma mem_enqueue {maxSize : ℕ} {buffer : List Request} {r a : Request}
    (h : a ∈ enqueue maxSize buffer r) : a ∈ buffer ∨ a = r := by
  unfold enqueue at h
  split_ifs at h
  · rw [List.mem_append, List.mem_singleton] at h
    exact h
  · exact .inl h

lemma mem_enqueue_of_mem {maxSize : ℕ} {buffer : List Request} {r a : Request} (h : a ∈ buffer) :
    a ∈ enqueue maxSize buffer r := by
  unfold enqueue
  split_ifs
  · exact List.mem_append_left _ h
  · exact h

/-- Sending leaves the active buffer and the device alone. -/
lemma send_framed (c : Controller) (r : Request) :
    (c.send r).activeBuffer = c.activeBuffer ∧ (c.send r).rows = c.rows := by
  unfold send
  cases r.type <;> exact ⟨rfl,rfl⟩

lemma WellFormed.send (h : c.WellFormed) (r : Request) : (c.send r).WellFormed := by
  unfold Controller.send
  cases ht : r.type with
  | read =>
    refine ⟨h.active,fun a ha => ?_,h.write,h.priority⟩
    obtain ha | rfl := mem_enqueue ha
    · exact h.read a ha
    · exact .inl rfl
  | write =>
    refine ⟨h.active,h.read,fun a ha => ?_,h.priority⟩
    obtain ha | rfl := mem_enqueue ha
    · exact h.write a ha
    · exact .inr rfl
  | allBankRefresh => exact h

lemma sends_framed (sends : List Request) (c : Controller) :
    (sends.foldl Controller.send c).activeBuffer = c.activeBuffer ∧
      (sends.foldl Controller.send c).rows = c.rows := by
  induction sends generalizing c with
  | nil => exact ⟨rfl,rfl⟩
  | cons r sends ih =>
    obtain ⟨ha,hr⟩ := c.send_framed r
    rw [← ha, ← hr]
    exact ih (c.send r)

lemma WellFormed.sends (h : c.WellFormed) (sends : List Request) :
    (sends.foldl Controller.send c).WellFormed := by
  induction sends generalizing c with
  | nil => exact h
  | cons r sends ih => exact ih (h.send r)

lemma arrived_framed (c : Controller) (e : Cycle) :
    (c.arrived e).activeBuffer = c.activeBuffer ∧ (c.arrived e).rows = c.rows := by
  unfold arrived
  split_ifs <;> exact sends_framed e.sends c

lemma refreshes_final {ranks : List ℕ} {channel : ℤ} {buffer : List Request}
    (h : ∀ r ∈ buffer, r.finalCommand = .REFab) :
    ∀ r ∈ ranks.foldl (fun buffer (r : ℕ) =>
      enqueue (512 * 3 + 32) buffer (refreshRequest channel r)) buffer,
      r.finalCommand = .REFab := by
  induction ranks generalizing buffer with
  | nil => exact h
  | cons rank ranks ih =>
    refine ih fun r hr => ?_
    obtain hr | rfl := mem_enqueue hr
    · exact h r hr
    · rfl

lemma WellFormed.arrived (h : c.WellFormed) (e : Cycle) : (c.arrived e).WellFormed := by
  have hs := h.sends e.sends
  unfold Controller.arrived
  split_ifs
  · exact ⟨hs.active,hs.read,hs.write,refreshes_final hs.priority⟩
  · exact ⟨hs.active,hs.read,hs.write,hs.priority⟩

/-- A request that a buffer yields, with the command that it needs. -/
lemma best_mem {b : BufferName} {i : ℕ} {r : Request} (h : c.best e b = some (i,r)) :
    ∃ r' ∈ c.buffer b, r = c.withCommand r' := by
  have hmem := List.mem_of_getElem? (Scheduler.getBestRequest_mem h)
  rw [List.mem_map] at hmem
  obtain ⟨r',hr',he⟩ := hmem
  exact ⟨r',hr',he.symm⟩

/-- Which request a cycle finds, and why the buffers before it were passed over. -/
lemma findRequest_cases {b : BufferName} {i : ℕ} {r : Request}
    (h : (c.findRequest e).1 = some (b,i,r)) :
    (b = .active ∧ c.best e .active = some (i,r)) ∨
    (b = .priority ∧ ∃ r' ∈ c.priorityBuffer, r = c.withCommand r') ∨
    (b = c.served ∧ c.best e c.served = some (i,r) ∧ isReady e r = true ∧
      c.priorityBuffer = [] ∧
      ∀ i' r', c.best e .active = some (i',r') → isReady e r' = false) := by
  unfold findRequest at h
  cases ha : (c.best e .active).filter fun p => isReady e p.2 with
  | some p =>
    simp only [ha, Option.some.injEq] at h
    obtain ⟨rfl,rfl,rfl⟩ := h
    exact .inl ⟨rfl,(Option.filter_eq_some_iff.mp ha).1⟩
  | none =>
    simp only [ha] at h
    cases hp : c.priorityBuffer with
    | cons r' rest =>
      simp only [hp] at h
      split_ifs at h
      obtain ⟨rfl,rfl,rfl⟩ := h
      exact .inr (.inl ⟨rfl,r',List.mem_cons_self,rfl⟩)
    | nil =>
      simp only [hp, Option.map_eq_some_iff] at h
      obtain ⟨p,hfilter,hp'⟩ := h
      obtain ⟨rfl,rfl,rfl⟩ := hp'
      obtain ⟨hbest,hready⟩ := Option.filter_eq_some_iff.mp hfilter
      refine .inr (.inr ⟨rfl,hbest,hready,rfl,fun i' r' hr' => ?_⟩)
      rw [hr', Option.filter_some] at ha
      by_contra hne
      rw [if_pos (by simpa using hne)] at ha
      cases ha

end Controller
end CaLabs.Lab5
