import CaLabs.Lab5.AtlasBanks
import CaLabs.Lab5.Ddr4

/-! The ATLAS plugin's record of the banks that work for a thread, against the device. -/
namespace CaLabs.Lab5

/-- What the plugin reads of a request to DDR4. -/
def Request.issue (r : Request) : Issue BankAddr where
  bank := r.addrVec.rowgroup
  isOpening := r.command.isOpening
  isClosing := r.command.isClosing
  sourceId := r.sourceId

/-- The device and the plugin, with the source of the last ACT of every bank. -/
structure OwnedDevice where
  rows : BankRows := fun _ => none
  lastOpener : BankAddr → ℤ := fun _ => 0
  plugin : ATLASPlugin BankAddr := {}

namespace OwnedDevice

/-- The end of a controller cycle: the plugin's update and the command. -/
def cycle (quantumLength : ℕ) (d : OwnedDevice) (request : Option Request) : OwnedDevice where
  rows := match request with
    | some r => issueCommand d.rows r.command r.addrVec
    | none => d.rows
  lastOpener := match request with
    | some r => if r.command = .ACT then
        Function.update d.lastOpener r.addrVec.rowgroup r.sourceId else d.lastOpener
    | none => d.lastOpener
  plugin := (d.plugin.update quantumLength (request.map Request.issue)).1

def run (quantumLength : ℕ) (d : OwnedDevice) (cycles : List (Option Request)) : OwnedDevice :=
  cycles.foldl (cycle quantumLength) d

/-- Every request of the run is issued with the command that the device asks for. -/
def Issues (org : Organization) (quantumLength : ℕ) : OwnedDevice → List (Option Request) → Prop
  | _,[] => True
  | d,request :: rest =>
    (∀ r, request = some r → IssuedOn org d.rows r) ∧
      Issues org quantumLength (d.cycle quantumLength request) rest

/-- The banks that are open for the thread. -/
def openFor (d : OwnedDevice) (t : ℤ) : Set BankAddr :=
  {b | (d.rows b).isSome = true ∧ d.lastOpener b = t}

/-- The plugin knows the open banks and who opened them, and each thread's service grows by the
number of its banks. -/
structure Mirrors (d : OwnedDevice) : Prop where
  owner : ∀ b, d.plugin.bankOwnership b = (d.rows b).map fun _ => d.lastOpener b
  gain : ∀ t, d.plugin.serviceGain t = (d.openFor t).ncard

/-- The mirror as the induction needs it. -/
structure Exact (d : OwnedDevice) : Prop where
  owner : ∀ b, d.plugin.bankOwnership b = (d.rows b).map fun _ => d.lastOpener b
  counts : d.plugin.Counts

lemma Exact.owned {d : OwnedDevice} (h : d.Exact) (t : ℤ) : d.plugin.owned t = d.openFor t := by
  ext b
  change d.plugin.bankOwnership b = some t ↔ (d.rows b).isSome = true ∧ d.lastOpener b = t
  rw [h.owner]
  cases d.rows b with
  | none => exact iff_of_false (fun hb => (by cases hb)) fun hb => (by cases hb.1)
  | some row => exact ⟨fun hb => ⟨rfl,Option.some.inj hb⟩,fun hb => congrArg some hb.2⟩

lemma Exact.mirrors {d : OwnedDevice} (h : d.Exact) : d.Mirrors where
  owner := h.owner
  gain t := by rw [h.counts.gain, h.owned]

/-- A closed device and the new plugin. -/
lemma Exact.initial : ({} : OwnedDevice).Exact := ⟨fun _ => rfl,ATLASPlugin.Counts.empty⟩

/-- The owners after a cycle with a command. -/
lemma cycle_owners (quantumLength : ℕ) (d : OwnedDevice) (r : Request) :
    (d.cycle quantumLength (some r)).plugin.bankOwnership =
      ATLASPlugin.owners d.plugin.bankOwnership r.issue :=
  ATLASPlugin.update_owner d.plugin quantumLength (some r.issue)

/-- The owners follow the device in a cycle that does not precharge a whole rank. -/
lemma Exact.cycle_owner {org : Organization} {d : OwnedDevice} (h : d.Exact) (quantumLength : ℕ)
    {r : Request} (hissued : IssuedOn org d.rows r) (hprea : r.command ≠ .PREA) (b : BankAddr) :
    (d.cycle quantumLength (some r)).plugin.bankOwnership b =
      ((d.cycle quantumLength (some r)).rows b).map
        fun _ => (d.cycle quantumLength (some r)).lastOpener b := by
  rw [cycle_owners, ATLASPlugin.owners]
  have howner := h.owner b
  obtain ⟨hcmd,-⟩ | ⟨hcmd,-⟩ | ⟨hcmd,-⟩ | hcmd := hissued.cases
  · by_cases hb : b = r.addrVec.rowgroup <;>
      simp [Request.issue, Command.isOpening, Command.isClosing, OwnedDevice.cycle, issueCommand,
        hcmd, hb, howner]
  · by_cases hb : b = r.addrVec.rowgroup <;>
      simp [Request.issue, Command.isOpening, Command.isClosing, OwnedDevice.cycle, issueCommand,
        hcmd, hb, howner]
  · exact absurd hcmd hprea
  · obtain hcmd | hcmd | hcmd := hcmd <;>
      simp [Request.issue, Command.isOpening, Command.isClosing, OwnedDevice.cycle, issueCommand,
        hcmd, howner]

/-- A cycle that does not precharge a whole rank keeps the mirror. -/
theorem Exact.cycle {org : Organization} {d : OwnedDevice} (h : d.Exact) (quantumLength : ℕ)
    {request : Option Request} (hissued : ∀ r, request = some r → IssuedOn org d.rows r)
    (hprea : ∀ r, request = some r → r.command ≠ .PREA) :
    (d.cycle quantumLength request).Exact := by
  refine ⟨fun b => ?_,h.counts.update quantumLength (request.map Request.issue)⟩
  cases request with
  | none =>
    rw [show (d.cycle quantumLength none).plugin.bankOwnership = d.plugin.bankOwnership from
      ATLASPlugin.update_owner d.plugin quantumLength none]
    exact h.owner b
  | some r => exact h.cycle_owner quantumLength (hissued r rfl) (hprea r rfl) b

/-- A precharge of all banks closes an open bank, but the address of the refresh has no
bankgroup and bank, so that the plugin keeps the owner. -/
theorem Mirrors.broken {org : Organization} {d : OwnedDevice} (h : d.Mirrors) (quantumLength : ℕ)
    {r : Request} (hissued : IssuedOn org d.rows r) (hprea : r.command = .PREA) :
    ¬ (d.cycle quantumLength (some r)).Mirrors := by
  intro h'
  have hwild : r.addrVec.bankgroup = -1 ∧
      openInRank org d.rows r.addrVec.channel r.addrVec.rank = true := by
    obtain ⟨hcmd,-⟩ | ⟨hcmd,-⟩ | ⟨-,hw⟩ | hcmd := hissued.cases
    · rw [hprea] at hcmd
      cases hcmd
    · rw [hprea] at hcmd
      cases hcmd
    · exact hw
    · rw [hprea] at hcmd
      obtain hcmd | hcmd | hcmd := hcmd <;> cases hcmd
  obtain ⟨g,-,b,-,hopen⟩ := openInRank_iff.mp hwild.2
  set bank : BankAddr := ⟨r.addrVec.channel,r.addrVec.rank,g,b⟩ with hbank
  have hne : bank ≠ r.issue.bank := by
    intro he
    have hg := congrArg BankAddr.bankgroup he
    rw [hbank, Request.issue, AddrVec.rowgroup, hwild.1] at hg
    dsimp only at hg
    omega
  have hkept : ATLASPlugin.owners d.plugin.bankOwnership r.issue bank =
      d.plugin.bankOwnership bank := by
    simp only [ATLASPlugin.owners, Request.issue, Command.isOpening, Command.isClosing, hprea,
      Bool.false_eq_true, if_false, if_true]
    exact Function.update_of_ne hne _ _
  have hrow : (d.cycle quantumLength (some r)).rows bank = none := by
    simp only [OwnedDevice.cycle, hprea, issueCommand, hbank, and_self, if_true]
  have hclosed := h'.owner bank
  rw [hrow, cycle_owners, hkept, h.owner, Option.map_none, Option.map_eq_none_iff] at hclosed
  rw [hclosed] at hopen
  cases hopen

/-- From any mirrored state. -/
lemma run_mirrors_iff {org : Organization} {quantumLength : ℕ} {d : OwnedDevice} (h : d.Exact)
    {cycles : List (Option Request)} (hissued : d.Issues org quantumLength cycles) :
    (∀ pre, pre <+: cycles → (d.run quantumLength pre).Mirrors) ↔
      ∀ r, some r ∈ cycles → r.command ≠ .PREA := by
  induction cycles generalizing d with
  | nil =>
    refine iff_of_true (fun pre hpre => ?_) fun r hr => (by cases hr)
    rw [List.prefix_nil.mp hpre]
    exact h.mirrors
  | cons request rest ih =>
    obtain ⟨hhead,hrest⟩ := hissued
    by_cases hprea : ∀ r, request = some r → r.command ≠ .PREA
    · have hnext := h.cycle quantumLength hhead hprea
      have hsplit :
          (∀ pre, pre <+: request :: rest → (d.run quantumLength pre).Mirrors) ↔
          ∀ pre, pre <+: rest → ((d.cycle quantumLength request).run quantumLength pre).Mirrors := by
        constructor
        · intro hall pre hpre
          exact hall (request :: pre) (List.prefix_cons_inj request |>.mpr hpre)
        · intro hall pre hpre
          cases pre with
          | nil => exact h.mirrors
          | cons c pre =>
            obtain ⟨rfl,hrest'⟩ := List.cons_prefix_cons.mp hpre
            exact hall pre hrest'
      rw [hsplit, ih hnext hrest]
      constructor
      · intro hall r hr
        obtain he | hr := List.mem_cons.mp hr
        · exact hprea r he.symm
        · exact hall r hr
      · intro hall r hr
        exact hall r (List.mem_cons_of_mem _ hr)
    · simp only [not_forall, not_not] at hprea
      obtain ⟨r,rfl,hcmd⟩ := hprea
      refine iff_of_false (fun hall => ?_) fun hall => hall r List.mem_cons_self hcmd
      exact h.mirrors.broken quantumLength (hhead r rfl) hcmd
        (hall [some r] ⟨rest,rfl⟩)

/-- From the closed device the plugin mirrors the banks in every state of a run exactly if no
refresh of the run had to precharge a rank. -/
theorem atlas_mirrors_iff (org : Organization) (quantumLength : ℕ)
    (cycles : List (Option Request))
    (hissued : ({} : OwnedDevice).Issues org quantumLength cycles) :
    (∀ pre, pre <+: cycles → (({} : OwnedDevice).run quantumLength pre).Mirrors) ↔
      ∀ r, some r ∈ cycles → r.command ≠ .PREA :=
  run_mirrors_iff Exact.initial hissued

end OwnedDevice

/-- A read of row 7 in the first bank with the given command. -/
def firstBankRead (command : Command) : Request where
  addrVec := ⟨0,0,0,0,7,0⟩
  type := .read
  sourceId := 3
  command := command
  finalCommand := .RD

/-- A refresh while the first bank is open. -/
def refreshOpenRank : List (Option Request) :=
  [some (firstBankRead .ACT),some { refreshRequest 0 0 with command := .PREA }]

namespace OwnedDevice

/-- Reading a row and closing nothing. -/
theorem readRow_mirrors : (({} : OwnedDevice).run 10000
    [some (firstBankRead .ACT),none,some (firstBankRead .RD)]).Mirrors := by
  refine (atlas_mirrors_iff ⟨4,4⟩ 10000 [some (firstBankRead .ACT),none,some (firstBankRead .RD)]
    ⟨?_,?_,?_,trivial⟩).mpr ?_ _ (List.prefix_refl _)
  · rintro r ⟨⟩
    exact ⟨rfl,rfl,fun h => (by cases h)⟩
  · rintro r ⟨⟩
  · rintro r ⟨⟩
    exact ⟨rfl,rfl,fun h => (by cases h)⟩
  · intro r hr
    simp only [List.mem_cons, Option.some.injEq, List.not_mem_nil, or_false] at hr
    obtain rfl | hr | rfl := hr
    · decide
    · cases hr
    · decide

/-- The refresh closes the bank, and the plugin still counts it for its thread. -/
theorem refreshOpenRank_not_mirrored :
    ({} : OwnedDevice).Issues ⟨4,4⟩ 10000 refreshOpenRank ∧
    ¬ (({} : OwnedDevice).run 10000 refreshOpenRank).Mirrors := by
  refine ⟨⟨?_,?_,trivial⟩,fun h => ?_⟩
  · rintro r ⟨⟩
    exact ⟨rfl,rfl,fun h => (by cases h)⟩
  · rintro r ⟨⟩
    exact ⟨by decide,rfl,fun _ => rfl⟩
  · exact absurd (h.owner ⟨0,0,0,0⟩) (by decide)

end OwnedDevice
end CaLabs.Lab5
