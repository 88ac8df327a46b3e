import CaLabs.Lab5.Request
import Mathlib.Algebra.Order.Group.Int
import Mathlib.Data.List.Basic
import Mathlib.Data.List.Induction
import Mathlib.Order.MinMax
import Mathlib.Tactic.SplitIfs

/-! The timing of a DRAM device: each node keeps when its commands may be issued again. -/
namespace CaLabs.Lab5

structure TimingConsEntry (Cmd : Type) where
  cmd : Cmd
  val : ℤ
  window : ℕ := 1
  sibling : Bool := false

/-- What a device says of its levels; the levels below the banks have no nodes. -/
structure TimingSpec (Cmd : Type) where
  timingCons : ℕ → Cmd → List (TimingConsEntry Cmd)
  commandScopes : Cmd → ℕ

/-- The earliest cycle of every command at a node, and the cycles of the last ones; -1 stands
for none. -/
structure NodeTiming (Cmd : Type) where
  cmdReadyClk : Cmd → ℤ
  cmdHistory : Cmd → List ℤ

inductive DRAMNode (Cmd : Type) where
  | mk (nodeId : ℕ) (timing : NodeTiming Cmd) (children : List (DRAMNode Cmd))

section Timing
variable {Cmd : Type} [DecidableEq Cmd] (spec : TimingSpec Cmd)

namespace NodeTiming

def start (level : ℕ) : NodeTiming Cmd where
  cmdReadyClk _ := -1
  cmdHistory cmd :=
    List.replicate (((spec.timingCons level cmd).map TimingConsEntry.window).foldl max 0) (-1)

/-- m_cmd_ready_clk[t.cmd] = std::max(m_cmd_ready_clk[t.cmd], future) -/
def postpone (s : NodeTiming Cmd) (cmd : Cmd) (future : ℤ) : NodeTiming Cmd :=
  { s with cmdReadyClk := Function.update s.cmdReadyClk cmd (max (s.cmdReadyClk cmd) future) }

def updateSibling (level : ℕ) (s : NodeTiming Cmd) (command : Cmd) (clk : ℤ) : NodeTiming Cmd :=
  (spec.timingCons level command).foldl
    (fun s t => if !t.sibling then s else s.postpone t.cmd (clk + t.val)) s

/-- pop_back and push_front on m_cmd_history[command] -/
def pushHistory (s : NodeTiming Cmd) (command : Cmd) (clk : ℤ) : NodeTiming Cmd :=
  if (s.cmdHistory command).length ≠ 0 then
    { s with cmdHistory :=
        Function.update s.cmdHistory command (clk :: (s.cmdHistory command).dropLast) }
  else s

def updateTarget (level : ℕ) (s : NodeTiming Cmd) (command : Cmd) (clk : ℤ) : NodeTiming Cmd :=
  let s := s.pushHistory command clk
  (spec.timingCons level command).foldl (fun s t =>
    if t.sibling then s
    else
      let past := (s.cmdHistory command).getD (t.window - 1) (-1)
      if past < 0 then s else s.postpone t.cmd (past + t.val)) s

end NodeTiming

namespace DRAMNode

def nodeId : DRAMNode Cmd → ℕ
  | mk nodeId _ _ => nodeId

def timing : DRAMNode Cmd → NodeTiming Cmd
  | mk _ timing _ => timing

def children : DRAMNode Cmd → List (DRAMNode Cmd)
  | mk _ _ children => children

/-- The nodes from a level on, that have so many children at each of the levels below. -/
def construct (level nodeId : ℕ) : List ℕ → DRAMNode Cmd
  | [] => .mk nodeId (.start spec level) []
  | count :: counts =>
    .mk nodeId (.start spec level) ((List.range count).map fun i => construct (level + 1) i counts)

/-- The address vector is given from the level of the node on. -/
def updateTiming (command : Cmd) (clk : ℤ) : ℕ → List ℤ → DRAMNode Cmd → DRAMNode Cmd
  | _, [], node => node
  | level, addr :: addrVec, .mk nodeId timing children =>
    if (nodeId : ℤ) ≠ addr then .mk nodeId (timing.updateSibling spec level command clk) children
    else .mk nodeId (timing.updateTarget spec level command clk)
      (children.map (updateTiming command clk (level + 1) addrVec))

def checkReady (command : Cmd) (clk : ℤ) : ℕ → List ℤ → DRAMNode Cmd → Bool
  | level, _ :: childId :: addrVec, .mk _ timing children =>
    if timing.cmdReadyClk command ≠ -1 ∧ clk < timing.cmdReadyClk command then false
    else if childId < 0 ∨ level = spec.commandScopes command ∨ children = [] then true
    else
      match children[childId.toNat]? with
      | some child => checkReady command clk (level + 1) (childId :: addrVec) child
      | none => true
  | _, _, .mk _ timing _ =>
    ! (timing.cmdReadyClk command ≠ -1 ∧ clk < timing.cmdReadyClk command)

end DRAMNode

structure CommandIssue (Cmd : Type) where
  command : Cmd
  addrVec : List ℤ
  clk : ℤ
  deriving DecidableEq, Repr

/-- A command is issued to a channel only when the check of its nodes passes. -/
def issue (channel : DRAMNode Cmd) (i : CommandIssue Cmd) : Option (DRAMNode Cmd) :=
  if channel.checkReady spec i.command i.clk 0 i.addrVec then
    some (channel.updateTiming spec i.command i.clk 0 i.addrVec)
  else none

def issueAll (counts : List ℕ) (channelId : ℕ) (issues : List (CommandIssue Cmd)) :
    Option (DRAMNode Cmd) :=
  issues.foldlM (issue spec) (.construct spec 0 channelId counts)

/-! The device as the timing of every path of ids below the channel. -/

namespace DRAMNode

/-- The nodes with these timings. -/
def build (nodeId : ℕ) (f : List ℕ → NodeTiming Cmd) : List ℕ → DRAMNode Cmd
  | [] => .mk nodeId (f []) []
  | count :: counts =>
    .mk nodeId (f []) ((List.range count).map fun i => build i (fun p => f (i :: p)) counts)

/-- How a command visits the node with this path: as a sibling of its target, as its target, or
not at all. -/
def visit : List ℕ → List ℤ → Option Bool
  | nodeId :: p, addr :: addrVec =>
    if (nodeId : ℤ) ≠ addr then if p = [] then some false else none
    else if p = [] then some true else visit p addrVec
  | _, _ => none

def visited (command : Cmd) (clk : ℤ) (level : ℕ) (s : NodeTiming Cmd) :
    Option Bool → NodeTiming Cmd
  | none => s
  | some false => s.updateSibling spec level command clk
  | some true => s.updateTarget spec level command clk

variable {spec}

omit [DecidableEq Cmd] in
lemma construct_eq (level nodeId : ℕ) (counts : List ℕ) : construct spec level nodeId counts =
    build nodeId (fun p => .start spec (level + p.length)) counts := by
  induction counts generalizing level nodeId with
  | nil => rfl
  | cons count counts ih =>
    rw [construct, build]
    refine congrArg (DRAMNode.mk nodeId _) (List.map_congr_left fun i _ => ?_)
    rw [ih]
    refine congrArg (build i · counts) (funext fun p => ?_)
    rw [List.length_cons, Nat.add_right_comm, Nat.add_assoc]

/-- A command visits every node by its path. -/
lemma updateTiming_build (command : Cmd) (clk : ℤ) (level nodeId : ℕ) (addrVec : List ℤ)
    (f : List ℕ → NodeTiming Cmd) (counts : List ℕ) :
    updateTiming spec command clk level addrVec (build nodeId f counts) =
      build nodeId (fun p =>
        visited spec command clk (level + p.length) (f p) (visit (nodeId :: p) addrVec)) counts := by
  induction counts generalizing level nodeId addrVec f with
  | nil =>
    cases addrVec with
    | nil => rfl
    | cons addr addrVec =>
      rw [build, build, updateTiming, visit, if_pos rfl, if_pos rfl]
      split_ifs <;> rfl
  | cons count counts ih =>
    cases addrVec with
    | nil => rfl
    | cons addr addrVec =>
      rw [build, build, updateTiming, visit, if_pos rfl, if_pos rfl]
      split_ifs with hne
      · refine congrArg (DRAMNode.mk nodeId _) (List.map_congr_left fun i _ => ?_)
        refine congrArg (build i · counts) (funext fun p => ?_)
        rw [visit, if_pos hne, if_neg (List.cons_ne_nil i p)]
        rfl
      · refine congrArg (DRAMNode.mk nodeId _) ?_
        rw [List.map_map]
        refine List.map_congr_left fun i _ => ?_
        rw [Function.comp_apply, ih]
        refine congrArg (build i · counts) (funext fun p => ?_)
        rw [visit.eq_def (nodeId :: i :: p)]
        dsimp only
        rw [if_neg hne, if_neg (List.cons_ne_nil i p), List.length_cons, Nat.add_right_comm,
          Nat.add_assoc]

/-- The ids of a path are children that exist. -/
def Within : List ℕ → List ℕ → Prop
  | _, [] => True
  | count :: counts, i :: p => i < count ∧ Within counts p
  | [], _ :: _ => False

omit [DecidableEq Cmd] in
lemma not_late_of_checkReady {command : Cmd} {clk : ℤ} {level nodeId : ℕ} {addrVec : List ℤ}
    {timing : NodeTiming Cmd} {children : List (DRAMNode Cmd)}
    (h : checkReady spec command clk level addrVec (.mk nodeId timing children) = true) :
    timing.cmdReadyClk command = -1 ∨ timing.cmdReadyClk command ≤ clk := by
  by_contra hlate
  rw [not_or, not_le] at hlate
  rcases addrVec with _ | ⟨addr,_ | ⟨child,rest⟩⟩ <;> simp [checkReady, hlate] at h

omit [DecidableEq Cmd] in
/-- A check that passes says so of every node of the address down to the scope of the command. -/
lemma ready_of_checkReady {command : Cmd} {clk : ℤ} {level nodeId : ℕ} {addrVec : List ℤ}
    {f : List ℕ → NodeTiming Cmd} {counts p : List ℕ}
    (h : checkReady spec command clk level addrVec (build nodeId f counts) = true)
    (haddr : addrVec.take (p.length + 1) = (nodeId :: p).map Int.ofNat) (hp : Within counts p)
    (hscope : level + p.length ≤ spec.commandScopes command) :
    (f p).cmdReadyClk command = -1 ∨ (f p).cmdReadyClk command ≤ clk := by
  induction p generalizing level nodeId addrVec f counts with
  | nil =>
    cases counts with
    | nil => exact not_late_of_checkReady h
    | cons count counts => exact not_late_of_checkReady h
  | cons i p ih =>
    obtain ⟨addr,rest,rfl⟩ : ∃ a l, addrVec = a :: l := by
      cases addrVec with
      | nil => cases haddr
      | cons a l => exact ⟨a,l,rfl⟩
    rw [List.length_cons, List.take_succ_cons, List.map_cons] at haddr
    obtain ⟨-,hrest⟩ := List.cons.inj haddr
    obtain ⟨child,tail,rfl⟩ : ∃ a l, rest = a :: l := by
      cases rest with
      | nil => cases hrest
      | cons a l => exact ⟨a,l,rfl⟩
    cases counts with
    | nil => exact hp.elim
    | cons count counts =>
      obtain ⟨hi,hp⟩ := hp
      have hchild : child = (i : ℤ) := by
        rw [List.take_succ_cons, List.map_cons] at hrest
        exact (List.cons.inj hrest).1
      rw [List.length_cons] at hscope
      rw [build, checkReady] at h
      have hgo : ¬(child < 0 ∨ level = spec.commandScopes command ∨
          (List.range count).map (fun i => build i (fun p => f (i :: p)) counts) = []) := by
        rw [List.map_eq_nil_iff, List.range_eq_nil]
        omega
      have hget : ((List.range count).map fun i => build i (fun p => f (i :: p)) counts)[
          child.toNat]? = some (build i (fun p => f (i :: p)) counts) := by
        rw [hchild, Int.toNat_natCast, List.getElem?_map, List.getElem?_range hi]
        rfl
      split at h
      · cases h
      · rw [hget] at h
        exact ih h hrest hp (by omega)

end DRAMNode

/-- A visit of a node: whether the node is the target, the command and its cycle. -/
abbrev Visit (Cmd : Type) := Bool × Cmd × ℤ

/-- The cycles of a command at the node, from the visits with the last one first. -/
def cycles (visits : List (Visit Cmd)) (cmd : Cmd) : List ℤ :=
  (visits.filter fun v => v.1 && decide (v.2.1 = cmd)).map (·.2.2)

/-- The node keeps the last cycles of every command and what they ask for. -/
structure Enforces (level : ℕ) (visits : List (Visit Cmd)) (s : NodeTiming Cmd) : Prop where
  history : ∀ cmd, ∃ size, (∀ t ∈ spec.timingCons level cmd, t.window ≤ size) ∧
    s.cmdHistory cmd = (cycles visits cmd ++ List.replicate size (-1)).take size
  sibling : ∀ cmd clk, (false,cmd,clk) ∈ visits → ∀ t ∈ spec.timingCons level cmd,
    t.sibling = true → clk + t.val ≤ s.cmdReadyClk t.cmd
  target : ∀ cmd, ∀ t ∈ spec.timingCons level cmd, t.sibling = false →
    ∀ k clk, t.window ≤ k + 1 → (cycles visits cmd)[k]? = some clk →
      clk + t.val ≤ s.cmdReadyClk t.cmd

section Node
variable {spec} {level : ℕ} {visits : List (Visit Cmd)} {s : NodeTiming Cmd}

lemma le_foldl_max (l : List ℕ) (m : ℕ) : m ≤ l.foldl max m ∧ ∀ x ∈ l, x ≤ l.foldl max m := by
  induction l generalizing m with
  | nil => exact ⟨Nat.le_refl m,fun x hx => absurd hx List.not_mem_nil⟩
  | cons y l ih =>
    obtain ⟨hm,hl⟩ := ih (max m y)
    refine ⟨Nat.le_trans (Nat.le_max_left m y) hm,fun x hx => ?_⟩
    rcases List.mem_cons.mp hx with rfl | hx
    · exact Nat.le_trans (Nat.le_max_right m x) hm
    · exact hl x hx

omit [DecidableEq Cmd] in
lemma getD_of_getElem? {l : List ℤ} {k : ℕ} {x : ℤ} (h : l[k]? = some x) (d : ℤ) :
    l.getD k d = x := by rw [List.getD_eq_getElem?_getD, h, Option.getD_some]

lemma Enforces.start (level : ℕ) : Enforces spec level [] (.start spec level) where
  history cmd := by
    refine ⟨_,fun t ht => (le_foldl_max _ 0).2 t.window (List.mem_map_of_mem ht),?_⟩
    exact (List.take_of_length_le (Nat.le_of_eq List.length_replicate)).symm
  sibling cmd clk h := absurd h List.not_mem_nil
  target cmd t _ _ k clk _ h := by cases h

/-- A loop over the constraints that only postpones commands. -/
lemma foldl_postpone {future : TimingConsEntry Cmd → Option ℤ} {h : Cmd → List ℤ}
    {body : NodeTiming Cmd → TimingConsEntry Cmd → NodeTiming Cmd}
    (hbody : ∀ s t, s.cmdHistory = h → body s t = match future t with
      | none => s
      | some x => s.postpone t.cmd x)
    (l : List (TimingConsEntry Cmd)) (s : NodeTiming Cmd) (hs : s.cmdHistory = h) :
    (l.foldl body s).cmdHistory = h ∧
      (∀ cmd, s.cmdReadyClk cmd ≤ (l.foldl body s).cmdReadyClk cmd) ∧
      ∀ t ∈ l, ∀ x, future t = some x → x ≤ (l.foldl body s).cmdReadyClk t.cmd := by
  induction l generalizing s with
  | nil => exact ⟨hs,fun _ => le_refl _,fun t ht => absurd ht List.not_mem_nil⟩
  | cons t l ih =>
    have hone : (body s t).cmdHistory = h ∧
        (∀ cmd, s.cmdReadyClk cmd ≤ (body s t).cmdReadyClk cmd) ∧
        ∀ x, future t = some x → x ≤ (body s t).cmdReadyClk t.cmd := by
      rw [hbody s t hs]
      cases hf : future t with
      | none => exact ⟨hs,fun _ => le_refl _,fun x hx => by cases hx⟩
      | some y =>
        refine ⟨hs,fun cmd => ?_,fun x hx => ?_⟩
        · change _ ≤ Function.update s.cmdReadyClk t.cmd _ cmd
          by_cases he : cmd = t.cmd
          · rw [he, Function.update_self]
            exact le_max_left _ _
          · rw [Function.update_of_ne he]
        · rw [← Option.some.inj hx]
          change _ ≤ Function.update s.cmdReadyClk t.cmd _ t.cmd
          rw [Function.update_self]
          exact le_max_right _ _
    obtain ⟨hh,hmono,hlast⟩ := hone
    obtain ⟨hh',hmono',hall⟩ := ih (body s t) hh
    refine ⟨hh',fun cmd => (hmono cmd).trans (hmono' cmd),fun u hu x hx => ?_⟩
    rcases List.mem_cons.mp hu with rfl | hu
    · exact (hlast x hx).trans (hmono' _)
    · exact hall u hu x hx

lemma Enforces.updateSibling (h : Enforces spec level visits s) (command : Cmd) (clk : ℤ) :
    Enforces spec level ((false,command,clk) :: visits)
      (s.updateSibling spec level command clk) := by
  obtain ⟨hh,hmono,hall⟩ := @foldl_postpone Cmd _
    (fun t => if t.sibling then some (clk + t.val) else none) s.cmdHistory
    (fun s t => if !t.sibling then s else s.postpone t.cmd (clk + t.val))
    (fun s t _ => by cases t.sibling <;> rfl) (spec.timingCons level command) s rfl
  have hcycles : ∀ cmd, cycles ((false,command,clk) :: visits) cmd = cycles visits cmd :=
    fun cmd => rfl
  refine ⟨fun cmd => ?_,fun cmd clk' hmem t ht hs => ?_,fun cmd t ht hs k clk' hk hget => ?_⟩
  · obtain ⟨size,hsize,hhist⟩ := h.history cmd
    exact ⟨size,hsize,(congrFun hh cmd).trans hhist⟩
  · rcases List.mem_cons.mp hmem with he | hmem
    · cases he
      exact hall t ht _ (if_pos hs)
    · exact (h.sibling cmd clk' hmem t ht hs).trans (hmono _)
  · exact (h.target cmd t ht hs k clk' hk hget).trans (hmono _)

lemma cycles_cons (command cmd : Cmd) (clk : ℤ) (visits : List (Visit Cmd)) :
    cycles ((true,command,clk) :: visits) cmd =
      if command = cmd then clk :: cycles visits cmd else cycles visits cmd := by
  by_cases h : command = cmd
  · rw [if_pos h]
    simp [cycles, h]
  · rw [if_neg h]
    simp [cycles, h]

lemma cycles_nonneg (hvisits : ∀ v ∈ visits, 0 ≤ v.2.2) {cmd : Cmd} {clk : ℤ} {k : ℕ}
    (h : (cycles visits cmd)[k]? = some clk) : 0 ≤ clk := by
  obtain ⟨v,hv,rfl⟩ := List.mem_map.mp (List.mem_of_getElem? h)
  exact hvisits v (List.mem_filter.mp hv).1

lemma Enforces.pushHistory (h : Enforces spec level visits s) (command : Cmd) (clk : ℤ)
    (cmd : Cmd) :
    ∃ size, (∀ t ∈ spec.timingCons level cmd, t.window ≤ size) ∧
      (s.pushHistory command clk).cmdHistory cmd =
        (cycles ((true,command,clk) :: visits) cmd ++ List.replicate size (-1)).take size := by
  obtain ⟨size,hsize,hhist⟩ := h.history cmd
  refine ⟨size,hsize,?_⟩
  rw [cycles_cons, NodeTiming.pushHistory]
  by_cases hc : command = cmd
  · subst hc
    rw [if_pos rfl]
    cases size with
    | zero =>
      rw [List.take_zero] at hhist
      rw [hhist, if_neg (not_not.mpr List.length_nil), hhist, List.take_zero]
    | succ n =>
      have hlen : (s.cmdHistory command).length = n + 1 := by
        rw [hhist, List.length_take, List.length_append, List.length_replicate]
        exact Nat.min_eq_left (Nat.le_add_left _ _)
      rw [if_pos (by omega)]
      change Function.update s.cmdHistory command _ command = _
      rw [Function.update_self, List.cons_append, List.take_succ_cons, List.dropLast_eq_take,
        hlen, hhist, List.take_take]
      congr 2
      omega
  · rw [if_neg hc]
    split_ifs
    · change Function.update s.cmdHistory command _ cmd = _
      rw [Function.update_of_ne (Ne.symm hc), hhist]
    · exact hhist

lemma Enforces.updateTarget (h : Enforces spec level visits s) {command : Cmd} {clk : ℤ}
    (hclk : 0 ≤ clk) (hvisits : ∀ v ∈ visits, 0 ≤ v.2.2)
    (hwindow : ∀ t ∈ spec.timingCons level command, t.sibling = false → 0 < t.window) :
    Enforces spec level ((true,command,clk) :: visits)
      (s.updateTarget spec level command clk) := by
  have hpushed := h.pushHistory command clk
  have hready : ∀ cmd, (s.pushHistory command clk).cmdReadyClk cmd = s.cmdReadyClk cmd := by
    intro cmd
    unfold NodeTiming.pushHistory
    split_ifs <;> rfl
  obtain ⟨hh,hmono,hall⟩ := @foldl_postpone Cmd _
    (fun t => if t.sibling then none
      else if ((s.pushHistory command clk).cmdHistory command).getD (t.window - 1) (-1) < 0
      then none
      else some (((s.pushHistory command clk).cmdHistory command).getD (t.window - 1) (-1)
        + t.val))
    (s.pushHistory command clk).cmdHistory
    (fun s t =>
      if t.sibling then s
      else
        let past := (s.cmdHistory command).getD (t.window - 1) (-1)
        if past < 0 then s else s.postpone t.cmd (past + t.val))
    (fun s t hs => by dsimp only; rw [hs]; split_ifs <;> rfl)
    (spec.timingCons level command) (s.pushHistory command clk) rfl
  have hall_visits : ∀ v ∈ (true,command,clk) :: visits, 0 ≤ v.2.2 := by
    intro v hv
    rcases List.mem_cons.mp hv with rfl | hv
    · exact hclk
    · exact hvisits v hv
  refine ⟨fun cmd => ?_,fun cmd clk' hmem t ht hs => ?_,fun cmd t ht hs k clk' hk hget => ?_⟩
  · obtain ⟨size,hsize,hhist⟩ := hpushed cmd
    exact ⟨size,hsize,(congrFun hh cmd).trans hhist⟩
  · rcases List.mem_cons.mp hmem with he | hmem
    · cases he
    · exact (h.sibling cmd clk' hmem t ht hs).trans ((hready _).symm.le.trans (hmono _))
  · have hold : (∃ j, t.window ≤ j + 1 ∧ (cycles visits cmd)[j]? = some clk') →
        clk' + t.val ≤ (s.updateTarget spec level command clk).cmdReadyClk t.cmd := by
      rintro ⟨j,hj,hget⟩
      exact (h.target cmd t ht hs j clk' hj hget).trans ((hready _).symm.le.trans (hmono _))
    have hnonneg := cycles_nonneg hall_visits hget
    by_cases hc : command = cmd
    · subst hc
      rcases Nat.lt_or_ge k t.window with hlast | hlate
      · -- the command is now the oldest one of the window
        obtain ⟨size,hsize,hhist⟩ := hpushed command
        have hpos := hwindow t ht hs
        have hpast : ((s.pushHistory command clk).cmdHistory command).getD (t.window - 1) (-1)
            = clk' := by
          have hk' : t.window - 1 = k := by omega
          have hlt : k < (cycles ((true,command,clk) :: visits) command).length :=
            (List.getElem?_eq_some_iff.mp hget).1
          refine getD_of_getElem? ?_ _
          rw [hhist, hk', List.getElem?_take_of_lt (by have := hsize t ht; omega),
            List.getElem?_append_left hlt, hget]
        refine hall t ht _ ?_
        rw [hs, hpast, if_neg Bool.false_ne_true, if_neg (not_lt.mpr hnonneg)]
      · rw [cycles_cons, if_pos rfl] at hget
        obtain ⟨j,rfl⟩ : ∃ j, k = j + 1 := ⟨k - 1,by have := hwindow t ht hs; omega⟩
        exact hold ⟨j,hlate,by simpa using hget⟩
    · rw [cycles_cons, if_neg hc] at hget
      exact hold ⟨k,hk,hget⟩

end Node

section Run
variable {spec} {counts : List ℕ} {channelId : ℕ} {issues : List (CommandIssue Cmd)} {p : List ℕ}

namespace DRAMNode

omit [DecidableEq Cmd] in
lemma visit_eq_true {nodeId : ℕ} {addrVec : List ℤ} : visit (nodeId :: p) addrVec = some true ↔
    addrVec.take (p.length + 1) = (nodeId :: p).map Int.ofNat := by
  induction p generalizing nodeId addrVec with
  | nil =>
    cases addrVec with
    | nil => simp [visit]
    | cons addr addrVec =>
      simp only [visit, ite_true, List.length_nil, Nat.zero_add, List.take_succ_cons,
        List.take_zero, List.map_cons, List.map_nil, List.cons.injEq, and_true]
      split_ifs with h
      · simp [Ne.symm h]
      · simpa using (not_not.mp h).symm
  | cons i p ih =>
    cases addrVec with
    | nil => simp [visit]
    | cons addr addrVec =>
      rw [visit.eq_def]
      dsimp only
      rw [if_neg (List.cons_ne_nil i p), if_neg (List.cons_ne_nil i p), List.length_cons,
        List.take_succ_cons, List.map_cons, List.cons.injEq]
      split_ifs with h
      · simp [Ne.symm h]
      · rw [ih]
        simp [(not_not.mp h).symm]

omit [DecidableEq Cmd] in
lemma visit_eq_false {nodeId : ℕ} {addrVec : List ℤ}
    (hsame : addrVec.take p.length = ((nodeId :: p).take p.length).map Int.ofNat)
    (hlength : p.length < addrVec.length)
    (hother : addrVec.take (p.length + 1) ≠ (nodeId :: p).map Int.ofNat) :
    visit (nodeId :: p) addrVec = some false := by
  induction p generalizing nodeId addrVec with
  | nil =>
    cases addrVec with
    | nil => cases hlength
    | cons addr addrVec =>
      have hne : (nodeId : ℤ) ≠ addr := by
        rintro rfl
        exact hother rfl
      rw [visit, if_pos hne, if_pos rfl]
  | cons i p ih =>
    cases addrVec with
    | nil => cases hlength
    | cons addr addrVec =>
      rw [List.length_cons, List.take_succ_cons, List.take_succ_cons, List.map_cons,
        List.cons.injEq] at hsame
      obtain ⟨haddr,hsame⟩ := hsame
      have heq : ¬ (nodeId : ℤ) ≠ addr := not_not.mpr haddr.symm
      rw [visit.eq_def]
      dsimp only
      rw [if_neg heq, if_neg (List.cons_ne_nil i p)]
      refine ih hsame (Nat.lt_of_succ_lt_succ hlength) fun he => hother ?_
      rw [List.length_cons, List.take_succ_cons, List.map_cons, he, haddr]

end DRAMNode

/-- The visits of a node, the last one first. -/
def visitsAt (channelId : ℕ) (p : List ℕ) (issues : List (CommandIssue Cmd)) : List (Visit Cmd) :=
  issues.reverse.filterMap fun i =>
    (DRAMNode.visit (channelId :: p) i.addrVec).map fun target => (target,i.command,i.clk)

/-- Every node enforces the constraints of the commands that visited it. -/
lemma issueAll_enforces (hclk : ∀ i ∈ issues, 0 ≤ i.clk)
    (hwindow : ∀ level cmd, ∀ t ∈ spec.timingCons level cmd, t.sibling = false → 0 < t.window)
    {channel : DRAMNode Cmd} (hrun : issueAll spec counts channelId issues = some channel) :
    ∃ f, channel = DRAMNode.build channelId f counts ∧
      ∀ p, Enforces spec p.length (visitsAt channelId p issues) (f p) := by
  induction issues using List.reverseRecOn generalizing channel with
  | nil =>
    cases hrun
    refine ⟨_,DRAMNode.construct_eq 0 channelId counts,fun p => ?_⟩
    rw [Nat.zero_add]
    exact Enforces.start p.length
  | append_singleton issues i ih =>
    rw [issueAll, List.foldlM_append] at hrun
    obtain ⟨channel',hrun',hi⟩ := Option.bind_eq_some_iff.mp hrun
    obtain ⟨f,rfl,hf⟩ := ih (fun x hx => hclk x (List.mem_append_left _ hx)) hrun'
    have hi' : issue spec (DRAMNode.build channelId f counts) i = some channel := by
      simpa using hi
    have hupdate : channel = (DRAMNode.build channelId f counts).updateTiming spec i.command i.clk 0
        i.addrVec := by
      unfold issue at hi'
      split_ifs at hi'
      exact (Option.some.inj hi').symm
    rw [hupdate, DRAMNode.updateTiming_build]
    refine ⟨_,rfl,fun p => ?_⟩
    have hvisits : ∀ v ∈ visitsAt channelId p issues, 0 ≤ v.2.2 := by
      intro v hv
      obtain ⟨x,hx,hv⟩ := List.mem_filterMap.mp hv
      obtain ⟨target,-,rfl⟩ := Option.map_eq_some_iff.mp hv
      exact hclk x (List.mem_append_left _ (List.mem_reverse.mp hx))
    have hone : visitsAt channelId p (issues ++ [i]) =
        ((DRAMNode.visit (channelId :: p) i.addrVec).map fun target =>
          (target,i.command,i.clk)).toList ++ visitsAt channelId p issues := by
      rw [visitsAt, List.reverse_append, List.reverse_singleton, List.singleton_append,
        List.filterMap_cons]
      cases DRAMNode.visit (channelId :: p) i.addrVec <;> rfl
    rw [hone, Nat.zero_add]
    cases DRAMNode.visit (channelId :: p) i.addrVec with
    | none => exact hf p
    | some target =>
      cases target with
      | false => exact (hf p).updateSibling i.command i.clk
      | true =>
        exact (hf p).updateTarget (hclk i (by simp)) hvisits (hwindow p.length i.command)

/-- The node at the end of the path is one that the check of the command looks at. -/
structure Checked (spec : TimingSpec Cmd) (counts : List ℕ) (channelId : ℕ) (j : CommandIssue Cmd)
    (p : List ℕ) : Prop where
  address : j.addrVec.take (p.length + 1) = (channelId :: p).map Int.ofNat
  within : DRAMNode.Within counts p
  scope : p.length ≤ spec.commandScopes j.command

/-- The commands between two of them that visit the same node with the first command again. -/
def repeats (mid : List (CommandIssue Cmd)) (i j : CommandIssue Cmd) (level : ℕ) : ℕ :=
  mid.countP fun x =>
    decide (x.command = i.command) && decide (x.addrVec.take (level + 1) = j.addrVec.take (level + 1))

lemma length_cycles {mid : List (CommandIssue Cmd)} {i j : CommandIssue Cmd}
    (haddress : j.addrVec.take (p.length + 1) = (channelId :: p).map Int.ofNat) :
    (cycles (visitsAt channelId p mid) i.command).length = repeats mid i j p.length := by
  induction mid with
  | nil => rfl
  | cons x mid ih =>
    have hone : visitsAt channelId p (x :: mid) = visitsAt channelId p mid ++
        ((DRAMNode.visit (channelId :: p) x.addrVec).map fun target =>
          (target,x.command,x.clk)).toList := by
      rw [visitsAt, visitsAt, List.reverse_cons, List.filterMap_append]
      cases hv : DRAMNode.visit (channelId :: p) x.addrVec <;> simp [hv]
    have htarget : decide (x.addrVec.take (p.length + 1) = j.addrVec.take (p.length + 1)) =
        (DRAMNode.visit (channelId :: p) x.addrVec == some true) := by
      rw [haddress, Bool.eq_iff_iff, decide_eq_true_iff, beq_iff_eq, DRAMNode.visit_eq_true]
    rw [hone, cycles, List.filter_append, List.map_append, List.length_append, repeats,
      List.countP_cons, htarget]
    refine congrArg₂ (· + ·) ih ?_
    rcases hv : DRAMNode.visit (channelId :: p) x.addrVec with _ | _ | _
    · simp
    · simp
    · by_cases hc : x.command = i.command <;> simp [hc]

/-- Commands that were issued respect every constraint between them: a constraint on siblings, when
the first command went to a sibling of a node that the check of the second one looks at; another
constraint, when it went to that node and is the last one of its window. -/
theorem timing_respected
    (hwindow : ∀ level cmd, ∀ t ∈ spec.timingCons level cmd, t.sibling = false → 0 < t.window)
    (hclk : ∀ i ∈ issues, 0 ≤ i.clk)
    (hrun : (issueAll spec counts channelId issues).isSome = true)
    {before mid after : List (CommandIssue Cmd)} {i j : CommandIssue Cmd}
    (hsplit : issues = before ++ i :: mid ++ j :: after)
    (hchecked : Checked spec counts channelId j p) (hlength : p.length < i.addrVec.length)
    {t : TimingConsEntry Cmd} (ht : t ∈ spec.timingCons p.length i.command)
    (hcmd : t.cmd = j.command)
    (hnode : if t.sibling then
        i.addrVec.take p.length = j.addrVec.take p.length ∧
          i.addrVec.take (p.length + 1) ≠ j.addrVec.take (p.length + 1)
      else
        i.addrVec.take (p.length + 1) = j.addrVec.take (p.length + 1) ∧
          t.window ≤ repeats mid i j p.length + 1) :
    i.clk + t.val ≤ j.clk := by
  subst hsplit
  obtain ⟨channel,hrun⟩ := Option.isSome_iff_exists.mp hrun
  rw [issueAll, List.foldlM_append] at hrun
  obtain ⟨channel',hrun',hrest⟩ := Option.bind_eq_some_iff.mp hrun
  obtain ⟨f,rfl,hf⟩ := issueAll_enforces
    (fun x hx => hclk x (List.mem_append_left _ hx)) hwindow hrun'
  have hready : (f p).cmdReadyClk j.command = -1 ∨ (f p).cmdReadyClk j.command ≤ j.clk := by
    rw [List.foldlM_cons] at hrest
    obtain ⟨channel'',hj,-⟩ := Option.bind_eq_some_iff.mp hrest
    unfold issue at hj
    split_ifs at hj with hcheck
    exact DRAMNode.ready_of_checkReady hcheck hchecked.address hchecked.within
      (by rw [Nat.zero_add]; exact hchecked.scope)
  have hj : 0 ≤ j.clk := hclk j (by simp)
  suffices hle : i.clk + t.val ≤ (f p).cmdReadyClk t.cmd by
    rw [hcmd] at hle
    omega
  have haddress := hchecked.address
  cases hs : t.sibling with
  | true =>
    rw [hs, if_pos rfl, haddress] at hnode
    have hprefix : i.addrVec.take p.length = ((channelId :: p).take p.length).map Int.ofNat := by
      rw [hnode.1, List.map_take, ← haddress, List.take_take, Nat.min_eq_left (Nat.le_succ _)]
    refine (hf p).sibling i.command i.clk ?_ t ht hs
    refine List.mem_filterMap.mpr ⟨i,by simp,?_⟩
    rw [DRAMNode.visit_eq_false hprefix hlength hnode.2]
    rfl
  | false =>
    rw [hs, if_neg Bool.false_ne_true] at hnode
    have htarget : DRAMNode.visit (channelId :: p) i.addrVec = some true :=
      DRAMNode.visit_eq_true.mpr (hnode.1.trans haddress)
    refine (hf p).target i.command t ht hs (repeats mid i j p.length) i.clk hnode.2 ?_
    have hsplit : visitsAt channelId p (before ++ i :: mid) =
        visitsAt channelId p mid ++ (true,i.command,i.clk) :: visitsAt channelId p before := by
      rw [visitsAt, visitsAt, visitsAt, List.reverse_append, List.reverse_cons,
        List.append_assoc, List.filterMap_append, List.singleton_append, List.filterMap_cons,
        htarget]
      rfl
    have hcycles : cycles (visitsAt channelId p (before ++ i :: mid)) i.command =
        cycles (visitsAt channelId p mid) i.command ++
          i.clk :: cycles (visitsAt channelId p before) i.command := by
      rw [hsplit, cycles, List.filter_append, List.map_append, List.filter_cons]
      simp [cycles]
    rw [hcycles, ← length_cycles haddress, List.getElem?_append_right (Nat.le_refl _),
      Nat.sub_self, List.getElem?_cons_zero]

end Run
end Timing

/-- The four-activation window of a rank, as DDR4 sets it with nRRD and nFAW. -/
def activationSpec : TimingSpec Command where
  timingCons level cmd :=
    if level = 1 ∧ cmd = .ACT then [⟨.ACT,4,1,false⟩,⟨.ACT,20,4,false⟩] else []
  commandScopes _ := 4

/-- Activations of a rank, one bank after the other. -/
def activations : List (CommandIssue Command) :=
  [⟨.ACT,[0,1,0,0,7,-1],0⟩,⟨.ACT,[0,1,1,0,7,-1],4⟩,⟨.ACT,[0,1,2,0,7,-1],8⟩,
    ⟨.ACT,[0,1,3,0,7,-1],12⟩,⟨.ACT,[0,1,0,1,7,-1],20⟩]

/-- The fifth activation waits for the window that the first one opens. -/
theorem activations_timing : (⟨.ACT,[0,1,0,0,7,-1],0⟩ : CommandIssue Command).clk + 20 ≤
    (⟨.ACT,[0,1,0,1,7,-1],20⟩ : CommandIssue Command).clk := by
  have hwindow : ∀ level cmd, ∀ t ∈ activationSpec.timingCons level cmd,
      t.sibling = false → 0 < t.window := by
    intro level cmd t ht _
    simp only [activationSpec] at ht
    split_ifs at ht
    · rcases List.mem_cons.mp ht with rfl | ht
      · decide
      · rw [List.mem_singleton.mp ht]
        decide
    · cases ht
  exact @timing_respected Command _ activationSpec [2,4,4] 0 activations [1] hwindow (by decide)
    (by decide) [] [⟨.ACT,[0,1,1,0,7,-1],4⟩,⟨.ACT,[0,1,2,0,7,-1],8⟩,⟨.ACT,[0,1,3,0,7,-1],12⟩] []
    ⟨.ACT,[0,1,0,0,7,-1],0⟩ ⟨.ACT,[0,1,0,1,7,-1],20⟩ rfl ⟨by decide,⟨by decide,trivial⟩,by decide⟩
    (by decide) ⟨.ACT,20,4,false⟩ (List.mem_cons_of_mem _ (List.mem_singleton_self _)) rfl
    (by decide)

end CaLabs.Lab5
