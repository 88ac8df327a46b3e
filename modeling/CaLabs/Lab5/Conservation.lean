import CaLabs.Lab5.Controller
import Mathlib.Algebra.Order.Group.Multiset
import Mathlib.Data.List.Induction
import Mathlib.Data.Multiset.Basic
import Mathlib.Tactic.Abel

/-! No request of the controller is lost or served twice, but for one defect: a request whose
opening command is issued while the active buffer is full leaves its buffer for none. -/
namespace CaLabs.Lab5

/-- What a request keeps while it is scheduled; its command changes. -/
def Request.key (r : Request) : AddrVec × RequestType × ℤ × Command × ℤ :=
  (r.addrVec,r.type,r.sourceId,r.finalCommand,r.arrive)

abbrev Keys := Multiset (AddrVec × RequestType × ℤ × Command × ℤ)

def keys (l : List Request) : Keys := (l.map Request.key : List _)

/-- The requests that the controller answers for. -/
structure Ledger where
  controller : Controller
  accepted : List Request := []
  completed : List Request := []
  lost : List Request := []

namespace Ledger

/-- The result of ReqBuffer::enqueue. -/
def fits (maxSize : ℕ) (buffer : List Request) : Bool := decide (buffer.length ≤ maxSize)

def send (l : Ledger) (r : Request) : Ledger :=
  let r' := { r with finalCommand := r.type.finalCommand, arrive := l.controller.clk }
  let isSuccess :=
    match r.type with
    | .read => fits 32 l.controller.readBuffer
    | .write => fits 32 l.controller.writeBuffer
    | .allBankRefresh => false
  { l with
    controller := l.controller.send r
    accepted := if isSuccess then r' :: l.accepted else l.accepted }

/-- The refreshes that priority_send accepts, for the ranks in turn. -/
def acceptedRefreshes (channelId : ℤ) : List ℕ → List Request → List Request
  | [], _ => []
  | rank :: ranks, buffer =>
    let r := refreshRequest channelId rank
    (if fits (512 * 3 + 32) buffer then [r] else []) ++
      acceptedRefreshes channelId ranks (enqueue (512 * 3 + 32) buffer r)

def arrived (l : Ledger) (e : Cycle) : Ledger :=
  let clk := l.controller.clk + 1
  let l := e.sends.foldl send l
  let c := { l.controller with clk := clk }
  if e.refresh then
    { l with
      controller := c.sendRefresh
      accepted := acceptedRefreshes c.channelId (List.range c.ranks) c.priorityBuffer ++ l.accepted }
  else { l with controller := c }

def issue (l : Ledger) (b : BufferName) (i : ℕ) (r : Request) : Ledger :=
  { l with
    controller := l.controller.issue b i r
    completed := if r.completes then r :: l.completed else l.completed
    lost :=
      if !r.completes && r.command.isOpening && !fits 32 l.controller.activeBuffer then r :: l.lost
      else l.lost }

def cycle (l : Ledger) (e : Cycle) : Ledger :=
  let l := l.arrived e
  let found := l.controller.scheduleRequest e
  let l := { l with controller :=
    { l.controller with isWriteMode := (l.controller.findRequest e).2 } }
  match found with
  | none => l
  | some (b,i,r) => l.issue b i r

def run (l : Ledger) (cycles : List Cycle) : Ledger := cycles.foldl cycle l

/-- The requests in all buffers. -/
def buffered (c : Controller) : Keys :=
  keys c.activeBuffer + keys c.priorityBuffer + keys c.readBuffer + keys c.writeBuffer

/-- Every accepted request is in one place. -/
def Balanced (l : Ledger) : Prop :=
  keys l.accepted = keys l.completed + keys l.lost + buffered l.controller

section Keys
variable {l : List Request} {r : Request}

lemma keys_nil : keys [] = 0 := rfl

lemma keys_cons : keys (r :: l) = r.key ::ₘ keys l := rfl

lemma keys_append (l l' : List Request) : keys (l ++ l') = keys l + keys l' := by
  rw [keys, List.map_append, ← Multiset.coe_add]
  rfl

lemma keys_enqueue (maxSize : ℕ) (l : List Request) (r : Request) :
    keys (enqueue maxSize l r) = if fits maxSize l then r.key ::ₘ keys l else keys l := by
  unfold enqueue fits
  by_cases h : l.length ≤ maxSize
  · rw [if_pos h, if_pos (decide_eq_true h), keys_append, keys_cons, keys_nil,
      Multiset.add_cons, add_zero]
  · rw [if_neg h, if_neg (by simpa using h)]

/-- Erasing takes the key at the index. -/
lemma keys_eraseIdx {i : ℕ} (h : l[i]? = some r) : keys l = r.key ::ₘ keys (l.eraseIdx i) := by
  induction l generalizing i with
  | nil => cases h
  | cons a l ih =>
    cases i with
    | zero =>
      rw [List.getElem?_cons_zero] at h
      rw [← Option.some.inj h]
      rfl
    | succ i =>
      rw [List.getElem?_cons_succ] at h
      rw [List.eraseIdx_cons_succ, keys_cons, keys_cons, ih h, Multiset.cons_swap]

end Keys

section Controller
variable {c : Controller} {e : Cycle} {b : BufferName} {i : ℕ} {r : Request}

lemma key_withCommand (c : Controller) (r : Request) : (c.withCommand r).key = r.key := rfl

/-- A request that is found stands in its buffer. -/
lemma findRequest_get (h : (c.findRequest e).1 = some (b,i,r)) :
    ∃ r', (c.buffer b)[i]? = some r' ∧ r = c.withCommand r' := by
  have hbest : ∀ {b i r}, c.best e b = some (i,r) →
      ∃ r', (c.buffer b)[i]? = some r' ∧ r = c.withCommand r' := by
    intro b i r hb
    have hget := Scheduler.getBestRequest_mem hb
    rw [List.getElem?_map, Option.map_eq_some_iff] at hget
    obtain ⟨r',hr',he⟩ := hget
    exact ⟨r',hr',he.symm⟩
  unfold Controller.findRequest at h
  cases ha : (c.best e .active).filter fun p => Controller.isReady e p.2 with
  | some p =>
    simp only [ha, Option.some.injEq] at h
    obtain ⟨rfl,rfl,rfl⟩ := h
    exact hbest (Option.filter_eq_some_iff.mp ha).1
  | none =>
    simp only [ha] at h
    cases hp : c.priorityBuffer with
    | cons r' rest =>
      simp only [hp] at h
      split_ifs at h
      obtain ⟨rfl,rfl,rfl⟩ := h
      exact ⟨r',by rw [Controller.buffer, hp, List.getElem?_cons_zero],rfl⟩
    | nil =>
      simp only [hp, Option.map_eq_some_iff] at h
      obtain ⟨p,hfilter,hp'⟩ := h
      obtain ⟨rfl,rfl,rfl⟩ := hp'
      exact hbest (Option.filter_eq_some_iff.mp hfilter).1

lemma buffered_remove (h : (c.buffer b)[i]? = some r) :
    buffered c = r.key ::ₘ buffered (c.remove i b) := by
  cases b with
  | active =>
    have h : c.activeBuffer[i]? = some r := h
    rw [buffered, keys_eraseIdx h, Multiset.cons_add, Multiset.cons_add, Multiset.cons_add]
    rfl
  | priority =>
    have h : c.priorityBuffer[i]? = some r := h
    rw [buffered, keys_eraseIdx h, Multiset.add_cons, Multiset.cons_add, Multiset.cons_add]
    rfl
  | read =>
    have h : c.readBuffer[i]? = some r := h
    rw [buffered, keys_eraseIdx h, Multiset.add_cons, Multiset.cons_add]
    rfl
  | write =>
    have h : c.writeBuffer[i]? = some r := h
    rw [buffered, keys_eraseIdx h, Multiset.add_cons]
    rfl

/-- Issuing a command moves one request: to the completed ones, to the active buffer, or nowhere. -/
lemma buffered_issue {r' : Request} (h : (c.buffer b)[i]? = some r') (hr : r.key = r'.key) :
    buffered c = (if r.completes then {r.key} else 0) +
      (if !r.completes && r.command.isOpening && !fits 32 c.activeBuffer then {r.key} else 0) +
        buffered (c.issue b i r) := by
  unfold Controller.issue
  have hremove : ∀ {d : Controller}, (d.buffer b)[i]? = some r' →
      buffered d = {r.key} + buffered (d.remove i b) := by
    intro d hd
    rw [buffered_remove hd, hr, Multiset.singleton_add]
  cases hc : r.completes with
  | true =>
    have hget : (({ c with rows := issueCommand c.rows r.command r.addrVec }).buffer b)[i]? =
        some r' := by cases b <;> exact h
    rw [if_pos rfl, if_pos rfl, if_neg (by simp), add_zero]
    exact hremove hget
  | false =>
    cases ho : r.command.isOpening with
    | false => simp [buffered]
    | true =>
      have hget : ((({ c with
          rows := issueCommand c.rows r.command r.addrVec,
          activeBuffer := enqueue 32 c.activeBuffer r }).buffer b)[i]? = some r') := by
        cases b with
        | active =>
          have h : c.activeBuffer[i]? = some r' := h
          change (enqueue 32 c.activeBuffer r)[i]? = some r'
          unfold enqueue
          split_ifs
          · rw [List.getElem?_append_left (List.getElem?_eq_some_iff.mp h).1, h]
          · exact h
        | priority => exact h
        | read => exact h
        | write => exact h
      have hmoved := hremove hget
      have hactive : buffered { c with
          rows := issueCommand c.rows r.command r.addrVec,
          activeBuffer := enqueue 32 c.activeBuffer r } =
          (if fits 32 c.activeBuffer then {r.key} else 0) + buffered c := by
        change keys (enqueue 32 c.activeBuffer r) + _ + _ + _ = _
        rw [keys_enqueue]
        cases fits 32 c.activeBuffer with
        | true =>
          rw [if_pos rfl, if_pos rfl, Multiset.cons_add, Multiset.cons_add, Multiset.cons_add,
            Multiset.singleton_add]
          rfl
        | false =>
          rw [if_neg Bool.false_ne_true, if_neg Bool.false_ne_true, zero_add]
          rfl
      rw [hactive] at hmoved
      simp only [Bool.false_eq_true, if_false, zero_add, Bool.not_false, Bool.true_and, if_true]
      cases hfits : fits 32 c.activeBuffer with
      | true =>
        rw [hfits, if_pos rfl] at hmoved
        simpa using add_left_cancel hmoved
      | false =>
        rw [hfits, if_neg Bool.false_ne_true, zero_add] at hmoved
        simpa using hmoved

end Controller

section Runs
variable {l : Ledger} {e : Cycle}

lemma Balanced.send (h : l.Balanced) (r : Request) : (l.send r).Balanced := by
  unfold Balanced Ledger.send Controller.send
  cases ht : r.type with
  | read =>
    have hk := keys_enqueue 32 l.controller.readBuffer
      { r with finalCommand := RequestType.read.finalCommand, arrive := l.controller.clk }
    rw [ht] at hk
    dsimp only
    cases hf : fits 32 l.controller.readBuffer with
    | true =>
      rw [hf, if_pos rfl] at hk
      rw [if_pos rfl, keys_cons, h, buffered, buffered]
      dsimp only
      rw [hk]
      simp only [Multiset.add_cons, Multiset.cons_add]
    | false =>
      rw [hf, if_neg Bool.false_ne_true] at hk
      rw [if_neg Bool.false_ne_true, h, buffered, buffered]
      dsimp only
      rw [hk]
  | write =>
    have hk := keys_enqueue 32 l.controller.writeBuffer
      { r with finalCommand := RequestType.write.finalCommand, arrive := l.controller.clk }
    rw [ht] at hk
    dsimp only
    cases hf : fits 32 l.controller.writeBuffer with
    | true =>
      rw [hf, if_pos rfl] at hk
      rw [if_pos rfl, keys_cons, h, buffered, buffered]
      dsimp only
      rw [hk]
      simp only [Multiset.add_cons]
    | false =>
      rw [hf, if_neg Bool.false_ne_true] at hk
      rw [if_neg Bool.false_ne_true, h, buffered, buffered]
      dsimp only
      rw [hk]
  | allBankRefresh => exact h

lemma Balanced.sends (h : l.Balanced) (sends : List Request) :
    (sends.foldl Ledger.send l).Balanced := by
  induction sends generalizing l with
  | nil => exact h
  | cons r sends ih => exact ih (h.send r)

lemma keys_acceptedRefreshes (channelId : ℤ) (ranks : List ℕ) (buffer : List Request) :
    keys (ranks.foldl (fun buffer (r : ℕ) =>
      enqueue (512 * 3 + 32) buffer (refreshRequest channelId r)) buffer) =
        keys (acceptedRefreshes channelId ranks buffer) + keys buffer := by
  induction ranks generalizing buffer with
  | nil => rw [List.foldl_nil, acceptedRefreshes, keys_nil, zero_add]
  | cons rank ranks ih =>
    rw [List.foldl_cons, ih, acceptedRefreshes, keys_append, keys_enqueue]
    cases fits (512 * 3 + 32) buffer with
    | true =>
      rw [if_pos rfl, if_pos rfl, keys_cons, keys_nil]
      simp only [Multiset.add_cons, Multiset.cons_add, zero_add]
    | false => rw [if_neg Bool.false_ne_true, if_neg Bool.false_ne_true, keys_nil, zero_add]

lemma Balanced.arrived (h : l.Balanced) (e : Cycle) : (l.arrived e).Balanced := by
  have hs := h.sends e.sends
  unfold Ledger.arrived
  dsimp only
  generalize e.sends.foldl Ledger.send l = l' at hs
  split_ifs
  · unfold Balanced at hs ⊢
    dsimp only
    rw [keys_append, hs, buffered, buffered, Controller.sendRefresh]
    dsimp only
    rw [keys_acceptedRefreshes]
    abel
  · unfold Balanced at hs ⊢
    exact hs

lemma Balanced.issue (h : l.Balanced) {b : BufferName} {i : ℕ} {r r' : Request}
    (hget : (l.controller.buffer b)[i]? = some r') (hr : r.key = r'.key) :
    (l.issue b i r).Balanced := by
  have hmoved := buffered_issue hget hr
  unfold Balanced at h ⊢
  unfold Ledger.issue
  dsimp only
  rw [h, hmoved]
  cases r.completes with
  | true =>
    simp only [if_true, Bool.not_true, Bool.false_and, Bool.false_eq_true, if_false, keys_cons,
      ← Multiset.singleton_add]
    abel
  | false =>
    simp only [if_false, Bool.not_false, Bool.true_and, Bool.false_eq_true]
    cases r.command.isOpening && !fits 32 l.controller.activeBuffer with
    | true =>
      simp only [if_true, keys_cons, ← Multiset.singleton_add]
      abel
    | false => simp only [if_false, Bool.false_eq_true, zero_add]

lemma Balanced.cycle (h : l.Balanced) (e : Cycle) : (l.cycle e).Balanced := by
  have ha := h.arrived e
  unfold Ledger.cycle
  generalize l.arrived e = l' at ha
  have hmode : { l' with controller := { l'.controller with
      isWriteMode := (l'.controller.findRequest e).2 } }.Balanced := ha
  dsimp only
  cases hs : l'.controller.scheduleRequest e with
  | none => exact hmode
  | some found =>
    obtain ⟨b,i,r⟩ := found
    have hfound : (l'.controller.findRequest e).1 = some (b,i,r) :=
      (Option.filter_eq_some_iff.mp hs).1
    obtain ⟨r',hget,hr⟩ := findRequest_get hfound
    have hkey : r.key = r'.key := by rw [hr, key_withCommand]
    exact hmode.issue (by cases b <;> exact hget) hkey

lemma arrived_controller (l : Ledger) (e : Cycle) :
    (l.arrived e).controller = l.controller.arrived e := by
  have hsends : ∀ (sends : List Request) (l : Ledger),
      (sends.foldl Ledger.send l).controller = sends.foldl Controller.send l.controller := by
    intro sends
    induction sends with
    | nil => exact fun _ => rfl
    | cons r sends ih => exact fun l => ih (l.send r)
  unfold Ledger.arrived Controller.arrived
  rw [← hsends e.sends l]
  dsimp only
  split_ifs <;> rfl

/-- The ledger follows the controller. -/
lemma cycle_controller (l : Ledger) (e : Cycle) :
    (l.cycle e).controller = l.controller.cycle e := by
  unfold Ledger.cycle Controller.cycle
  dsimp only
  rw [← arrived_controller]
  cases (l.arrived e).controller.scheduleRequest e <;> rfl

lemma arrived_lost (l : Ledger) (e : Cycle) : (l.arrived e).lost = l.lost := by
  have hsends : ∀ (sends : List Request) (l : Ledger),
      (sends.foldl Ledger.send l).lost = l.lost := by
    intro sends
    induction sends with
    | nil => exact fun _ => rfl
    | cons r sends ih => exact fun l => ih (l.send r)
  unfold Ledger.arrived
  dsimp only
  split_ifs <;> exact hsends e.sends l

/-- Only an active buffer above its size loses a request. -/
lemma lost_cycle (e : Cycle) (h : l.controller.activeBuffer.length ≤ 32) :
    (l.cycle e).lost = l.lost := by
  have hactive : (l.arrived e).controller.activeBuffer = l.controller.activeBuffer := by
    rw [arrived_controller]
    exact (Controller.arrived_framed l.controller e).1
  unfold Ledger.cycle
  dsimp only
  cases (l.arrived e).controller.scheduleRequest e with
  | none => exact arrived_lost l e
  | some found =>
    have hfits : fits 32 (l.arrived e).controller.activeBuffer = true := by
      rw [hactive]
      exact decide_eq_true h
    unfold Ledger.issue
    dsimp only
    rw [hfits, Bool.not_true, Bool.and_false, if_neg Bool.false_ne_true]
    exact arrived_lost l e

/-- In every run each request that the controller accepted, and each refresh, is completed once, or
it is in one buffer once, or it was lost; and it is lost only when its opening command is issued
while the active buffer holds more requests than its size. -/
theorem requests_conserved {c : Controller} (hempty : buffered c = 0) (cycles : List Cycle) :
    ((Ledger.mk c [] [] []).run cycles).controller = c.run cycles ∧
      ((Ledger.mk c [] [] []).run cycles).Balanced ∧
      ((∀ k, (c.run (cycles.take k)).activeBuffer.length ≤ 32) →
        ((Ledger.mk c [] [] []).run cycles).lost = []) := by
  induction cycles using List.reverseRecOn with
  | nil =>
    refine ⟨rfl,?_,fun _ => rfl⟩
    change keys [] = keys [] + keys [] + buffered c
    rw [hempty]
    rfl
  | append_singleton cycles e ih =>
    obtain ⟨hcontroller,hbalanced,hlost⟩ := ih
    rw [Ledger.run, List.foldl_append, Controller.run, List.foldl_append]
    refine ⟨?_,hbalanced.cycle e,fun hfits => ?_⟩
    · exact (cycle_controller _ e).trans (congrArg (·.cycle e) hcontroller)
    · have hlast := hfits cycles.length
      rw [List.take_left] at hlast
      refine (lost_cycle e ?_).trans (hlost fun k => ?_)
      · change ((Ledger.mk c [] [] []).run cycles).controller.activeBuffer.length ≤ 32
        rw [hcontroller]
        exact hlast
      · rcases Nat.le_total k cycles.length with hk | hk
        · have := hfits k
          rwa [List.take_append_of_le_length hk] at this
        · rwa [List.take_of_length_le hk]

/-- A read of a row of the i-th bank. -/
def readOfBank (i : ℕ) : Request where
  addrVec := ⟨0,0,0,i,3,0⟩
  type := .read
  sourceId := 1
  command := .RD
  finalCommand := .RD

/-- One read a cycle, each of another bank; no RD is ready. -/
def openings (n : ℕ) : List Cycle :=
  (List.range n).map fun i =>
    { sends := [readOfBank i], checkReady := fun c _ => decide (c = .ACT) }

/-- The first 33 reads fill the active buffer, and the ACT of the next one loses it. -/
theorem openings_requests_conserved :
    let c : Controller := { org := ⟨1,40⟩, scheduler := .FCFS }
    ((Ledger.mk c [] [] []).run (openings 34)).Balanced ∧
      ((Ledger.mk c [] [] []).run (openings 34)).lost.length = 1 ∧
      ∃ k, 32 < (c.run ((openings 34).take k)).activeBuffer.length := by
  intro c
  obtain ⟨-,hbalanced,hfits⟩ := requests_conserved (c := c) rfl (openings 34)
  have hlost : ((Ledger.mk c [] [] []).run (openings 34)).lost.length = 1 := by decide +kernel
  refine ⟨hbalanced,hlost,?_⟩
  by_contra hall
  have hnone := hfits fun k => not_lt.mp fun hlt => hall ⟨k,hlt⟩
  rw [hnone] at hlost
  cases hlost

end Runs
end Ledger
end CaLabs.Lab5
