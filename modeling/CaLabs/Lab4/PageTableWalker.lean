import CaLabs.Lab4.LruTable
import CaLabs.Lab4.VirtualMemory

/-! The page table walker: its walks through the levels, over the caches of the page structure and
the virtual memory. -/
namespace CaLabs.Lab4

structure PsclEntry where
  vaddr : ℕ
  ptwAddr : ℕ
  level : ℕ
  deriving DecidableEq, Inhabited, Repr

/-- A request for a translation, with the channel of the upper level. -/
structure WalkRequest where
  address : ℕ
  vAddress : ℕ
  cpu : ℕ := 0
  responseRequested : Bool := true
  channel : ℕ := 0
  instrDependOnMe : List ℕ := []
  deriving DecidableEq, Repr

/-- The entry of a walk; the data is what the virtual memory has returned. -/
structure WalkEntry where
  address : ℕ
  vAddress : ℕ
  data : ℕ := 0
  instrDependOnMe : List ℕ
  toReturn : List ℕ
  cpu : ℕ
  translationLevel : ℕ
  deriving DecidableEq, Repr

/-- std::partition, which need not keep the order of either part. -/
structure StdPartition where
  split : (WalkEntry → Bool) → List WalkEntry → List WalkEntry × List WalkEntry
  front : ∀ p entries, (split p entries).1.Perm (entries.filter p)
  back : ∀ p entries, (split p entries).2.Perm (entries.filter fun e => !p e)

def StdPartition.stable : StdPartition where
  split p entries := (entries.filter p,entries.filter fun e => !p e)
  front _ _ := .refl _
  back _ _ := .refl _

/-- The caches of the page structure with their geometry, from the highest level on. `retired` are
the entries whose responses were given, and `accepted` the requests whose walks were started. -/
structure PageTableWalker (c : VmemConfig) where
  cr3 : ℕ
  blockBits : ℕ := 6
  pscl : List (LruConfig PsclEntry ℕ × LruTable PsclEntry)
  vmem : VirtualMemory c := {}
  mshr : List WalkEntry := []
  finished : List WalkEntry := []
  completed : List WalkEntry := []
  retired : List WalkEntry := []
  accepted : List WalkRequest := []

namespace PageTableWalker
variable {c : VmemConfig} (w : PageTableWalker c)

/-- pscl_indexer for a level. -/
def psclConfig (c : VmemConfig) (level sets ways : ℕ) : LruConfig PsclEntry ℕ where
  setProjection e := e.vaddr / 2 ^ c.shamt level
  tagProjection e := e.vaddr / 2 ^ c.shamt level
  numSet := sets
  numWay := ways

/-- Every cache is looked up; the hit of the lowest level is used. -/
def checkPscl (walkInit : PsclEntry) (best : PsclEntry) :
    List (LruConfig PsclEntry ℕ × LruTable PsclEntry) →
      List (LruConfig PsclEntry ℕ × LruTable PsclEntry) × PsclEntry
  | [] => ([],best)
  | (config,table) :: rest =>
    let (table,hit) := table.checkHit config walkInit
    let (rest,best) := checkPscl walkInit (hit.getD best) rest
    ((config,table) :: rest,best)

/-- handle_read, with whether the lower level accepts the request of step_translation. -/
def handleRead (request : WalkRequest) (accepts : Bool) : PageTableWalker c :=
  let start : PsclEntry := ⟨request.vAddress,w.cr3,w.pscl.length⟩
  let (pscl,walkInit) := checkPscl start start w.pscl
  let offset := c.getOffset (request.address / 2 ^ c.log2PageSize) walkInit.level
  let entry : WalkEntry := {
    address := walkInit.ptwAddr / 2 ^ c.log2PageSize * 2 ^ c.log2PageSize + offset * 2 ^ 3
    vAddress := request.address
    instrDependOnMe := request.instrDependOnMe
    toReturn := if request.responseRequested then [request.channel] else []
    cpu := request.cpu
    translationLevel := walkInit.level }
  if accepts then
    { w with pscl := pscl, mshr := w.mshr ++ [entry], accepted := w.accepted ++ [request] }
  else { w with pscl := pscl }

/-- handle_fill for the first of the finished entries. pscl.at throws for an index out of range,
such as the difference of a level beyond the caches, which wraps. -/
def handleFill (accepts : Bool) : Option (PageTableWalker c) :=
  match w.finished with
  | [] => some w
  | entry :: rest =>
    if w.pscl.length < entry.translationLevel then none
    else
      let psclIdx := w.pscl.length - entry.translationLevel
      match w.pscl[psclIdx]? with
      | none => none
      | some (config,table) =>
        let pscl := w.pscl.set psclIdx
          (config,table.fill config ⟨entry.vAddress,entry.data,entry.translationLevel⟩)
        if accepts then
          some { w with
            pscl := pscl
            finished := rest
            mshr := w.mshr ++ [{ entry with
              address := entry.data, translationLevel := entry.translationLevel - 1 }] }
        else some { w with pscl := pscl }

/-- finish_step and finish_last_step, for one entry after the other. -/
def finishSteps (m : VirtualMemory c) : List WalkEntry → VirtualMemory c × List WalkEntry
  | [] => (m,[])
  | entry :: rest =>
    let page := entry.vAddress / 2 ^ c.log2PageSize
    let (m,t) := m.translate (if entry.translationLevel = 0 then .page entry.cpu page
      else .entry entry.cpu page entry.translationLevel)
    let (m,rest) := finishSteps m rest
    (m,{ entry with data := t.address } :: rest)

/-- The entries that wait for the block go on. -/
def finishPacket (address : ℕ) (partition : StdPartition) : PageTableWalker c :=
  let sameBlock (e : WalkEntry) : Bool := e.address / 2 ^ w.blockBits = address / 2 ^ w.blockBits
  let parts := partition.split sameBlock w.mshr
  let (m,done) := finishSteps w.vmem parts.1
  { w with
    vmem := m
    mshr := parts.2
    completed := w.completed ++ done.filter fun e => e.translationLevel = 0
    finished := w.finished ++ done.filter fun e => e.translationLevel ≠ 0 }

/-- The responses of the first completed entries are given. -/
def respond (n : ℕ) : PageTableWalker c :=
  { w with completed := w.completed.drop n, retired := w.retired ++ w.completed.take n }

end PageTableWalker

/-- The parts of operate, in any order, and the requests of the other walkers to the memory. -/
inductive WalkEvent
  | finishPacket (address : ℕ) (partition : StdPartition)
  | respond (n : ℕ)
  | handleFill (accepts : Bool)
  | handleRead (request : WalkRequest) (accepts : Bool)
  | otherWalker (request : VirtualMemory.Translation)

namespace PageTableWalker
variable {c : VmemConfig} (w : PageTableWalker c)

def step : WalkEvent → Option (PageTableWalker c)
  | .finishPacket address partition => some (w.finishPacket address partition)
  | .respond n => some (w.respond n)
  | .handleFill accepts => w.handleFill accepts
  | .handleRead request accepts => some (w.handleRead request accepts)
  | .otherWalker request => some { w with vmem := (w.vmem.translate request).1 }

def run (events : List WalkEvent) : Option (PageTableWalker c) := events.foldlM step w

end PageTableWalker

/-- All elements that a table holds, in valid blocks or not. -/
def LruTable.All {α : Type*} (P : α → Prop) (t : LruTable α) : Prop :=
  ∀ set, ∀ b ∈ t.block set, P b.data

namespace LruTable.All
variable {α κ : Type*} {P : α → Prop} {t : LruTable α}

lemma init [Inhabited α] (config : LruConfig α κ) (h : P default) :
    (LruTable.init config).All P := by
  intro set b hb
  rw [(List.eq_of_mem_replicate hb)]
  exact h

lemma assign (h : t.All P) {n set i : ℕ} {b : LruBlock α} (hb : P b.data) :
    LruTable.All P ⟨n,t.assign set i b⟩ := by
  intro other x hx
  by_cases heq : other = set
  · subst heq
    simp only [LruTable.assign, Function.update_self] at hx
    rcases List.mem_or_eq_of_mem_set hx with hx | rfl
    · exact h other x hx
    · exact hb
  · simp only [LruTable.assign, Function.update_of_ne heq] at hx
    exact h other x hx

variable [DecidableEq κ]

lemma fill (h : t.All P) (config : LruConfig α κ) {elem : α} (he : P elem) :
    (t.fill config elem).All P := by
  unfold LruTable.fill
  dsimp only
  split
  · exact h
  · exact h.assign he

lemma checkHit (h : t.All P) (config : LruConfig α κ) (elem : α) :
    (t.checkHit config elem).1.All P ∧ ∀ x, (t.checkHit config elem).2 = some x → P x := by
  unfold LruTable.checkHit
  dsimp only
  cases hf : (t.block (config.setIdx elem)).find? (config.matchFunc elem) with
  | none => exact ⟨h,fun x hx => absurd hx (by simp)⟩
  | some hit =>
    have hhit := h _ hit (List.mem_of_find?_eq_some hf)
    refine ⟨h.assign hhit,fun x hx => ?_⟩
    obtain rfl := Option.some.inj hx
    exact hhit

end LruTable.All

namespace VirtualMemory
variable {c : VmemConfig} (m : VirtualMemory c)

lemma ppagePop_maps : m.ppagePop.1.vpageToPpageMap = m.vpageToPpageMap ∧
    m.ppagePop.1.pageTable = m.pageTable := by
  unfold ppagePop
  split_ifs <;> exact ⟨rfl,rfl⟩

/-- A request of a walk keeps the mappings, and its result is one of them. -/
lemma translate_kept (r : Translation) :
    m.Extends (m.translate r).1 ∧ (m.translate r).1.Explained (r,(m.translate r).2) := by
  cases r with
  | page cpuNum vaddr =>
    simp only [translate, vaToPa]
    cases hmap : m.vpageToPpageMap (cpuNum,vaddr) with
    | some page => exact ⟨⟨fun _ _ => id,fun _ _ => id⟩,page,hmap,rfl⟩
    | none =>
      refine ⟨⟨extends_update hmap _,fun key table hkey => ?_⟩,m.ppageFront,?_,rfl⟩
      · dsimp only
        rwa [m.ppagePop_maps.2]
      · exact Function.update_self _ _ _
  | entry cpuNum vaddr level =>
    simp only [translate, getPtePa]
    cases htable : m.pageTable (cpuNum,level,c.upperBits vaddr (level + 1)) with
    | some table => exact ⟨⟨fun _ _ => id,fun _ _ => id⟩,table,htable,rfl⟩
    | none =>
      dsimp only
      split_ifs
      · refine ⟨⟨fun key page hkey => ?_,fun key table hkey => ?_⟩,_,?_,rfl⟩
        · dsimp only
          rwa [(ppagePop_maps _).1]
        · dsimp only
          rw [(ppagePop_maps _).2]
          exact extends_update htable _ _ _ hkey
        · dsimp only
          rw [(ppagePop_maps _).2]
          exact Function.update_self _ _ _
      · exact ⟨⟨fun _ _ => id,extends_update htable _⟩,_,Function.update_self _ _ _,rfl⟩

lemma Extends.trans {m m' m'' : VirtualMemory c} (h : m.Extends m') (h' : m'.Extends m'') :
    m.Extends m'' :=
  ⟨fun k x hx => h'.1 k x (h.1 k x hx),fun k x hx => h'.2 k x (h.2 k x hx)⟩

end VirtualMemory

/-- What a walk is for. -/
def WalkEntry.key (e : WalkEntry) : ℕ × ℕ × List ℕ × List ℕ :=
  (e.vAddress,e.cpu,e.instrDependOnMe,e.toReturn)

def WalkRequest.key (r : WalkRequest) : ℕ × ℕ × List ℕ × List ℕ :=
  (r.address,r.cpu,r.instrDependOnMe,if r.responseRequested then [r.channel] else [])

/-- The data of an entry is the physical page of its address. -/
def WalkEntry.Answered {c : VmemConfig} (m : VirtualMemory c) (e : WalkEntry) : Prop :=
  ∃ page, m.vpageToPpageMap (e.cpu,e.vAddress / 2 ^ c.log2PageSize) = some page ∧
    e.data = page * 2 ^ c.log2PageSize

namespace PageTableWalker
variable {c : VmemConfig} {w : PageTableWalker c}

lemma answered_mono {m m' : VirtualMemory c} {e : WalkEntry} (h : e.Answered m)
    (hm : m.Extends m') : e.Answered m' := by
  obtain ⟨page,hpage,hdata⟩ := h
  exact ⟨page,hm.1 _ _ hpage,hdata⟩

/-- The entries that go on keep their walks and levels, and those at level 0 are answered. -/
lemma finishSteps_spec (m : VirtualMemory c) (entries : List WalkEntry) :
    m.Extends (finishSteps m entries).1 ∧
      (finishSteps m entries).2.map (fun e => (e.key,e.translationLevel)) =
        entries.map (fun e => (e.key,e.translationLevel)) ∧
      ∀ e ∈ (finishSteps m entries).2, e.translationLevel = 0 →
        e.Answered (finishSteps m entries).1 := by
  induction entries generalizing m with
  | nil => exact ⟨⟨fun _ _ => id,fun _ _ => id⟩,rfl,fun e he => absurd he List.not_mem_nil⟩
  | cons entry rest ih =>
    simp only [finishSteps]
    set r : VirtualMemory.Translation := if entry.translationLevel = 0
      then .page entry.cpu (entry.vAddress / 2 ^ c.log2PageSize)
      else .entry entry.cpu (entry.vAddress / 2 ^ c.log2PageSize) entry.translationLevel with hr
    obtain ⟨hext,hexp⟩ := m.translate_kept r
    obtain ⟨hext',hkeys,hans⟩ := ih (m.translate r).1
    refine ⟨hext.trans hext',?_,fun e he hlevel => ?_⟩
    · rw [List.map_cons, List.map_cons, hkeys]
      rfl
    · rcases List.mem_cons.mp he with rfl | he
      · have hlast : ∀ (m' : VirtualMemory c) (t : VirtualMemory.Translated),
            m'.Explained (r,t) → { entry with data := t.address }.Answered m' := by
          rw [hr, if_pos hlevel]
          exact fun _ _ h => h
        exact hlast _ _ (hexp.extend hext')
      · exact hans e he hlevel

/-- The walks that were started are the entries, from where they are; the levels are those of the
caches; and a completed walk has the page of its address. -/
structure Sound (levels : ℕ) (w : PageTableWalker c) : Prop where
  length_eq : w.pscl.length = levels
  entries : (w.accepted.map WalkRequest.key).Perm
    ((w.mshr ++ w.finished ++ w.completed ++ w.retired).map WalkEntry.key)
  pscl : ∀ ct ∈ w.pscl, ct.2.All fun e => e.level ≤ levels
  mshr : ∀ e ∈ w.mshr, e.translationLevel ≤ levels
  finished : ∀ e ∈ w.finished, 0 < e.translationLevel ∧ e.translationLevel ≤ levels
  answered : ∀ e ∈ w.completed ++ w.retired, e.Answered w.vmem

lemma checkPscl_spec {levels : ℕ} (start best : PsclEntry)
    (pscl : List (LruConfig PsclEntry ℕ × LruTable PsclEntry)) (hbest : best.level ≤ levels)
    (h : ∀ ct ∈ pscl, ct.2.All fun e => e.level ≤ levels) :
    (checkPscl start best pscl).1.length = pscl.length ∧
      (∀ ct ∈ (checkPscl start best pscl).1, ct.2.All fun e => e.level ≤ levels) ∧
      (checkPscl start best pscl).2.level ≤ levels := by
  induction pscl generalizing best with
  | nil => exact ⟨rfl,h,hbest⟩
  | cons ct rest ih =>
    obtain ⟨config,table⟩ := ct
    obtain ⟨htable,hrest⟩ := List.forall_mem_cons.mp h
    obtain ⟨hall,hhit⟩ := htable.checkHit config start
    simp only [checkPscl]
    have hnext : ((table.checkHit config start).2.getD best).level ≤ levels := by
      cases hh : (table.checkHit config start).2 with
      | none => exact hbest
      | some x => exact hhit x hh
    obtain ⟨hlen,hrest',hlevel⟩ := ih _ hnext hrest
    exact ⟨congrArg Nat.succ hlen,List.forall_mem_cons.mpr ⟨hall,hrest'⟩,hlevel⟩

lemma Sound.handleRead {levels : ℕ} (h : w.Sound levels) (request : WalkRequest)
    (accepts : Bool) : (w.handleRead request accepts).Sound levels := by
  obtain ⟨hlen,hall,hlevel⟩ := checkPscl_spec ⟨request.vAddress,w.cr3,w.pscl.length⟩
    ⟨request.vAddress,w.cr3,w.pscl.length⟩ w.pscl (le_of_eq h.length_eq) h.pscl
  unfold PageTableWalker.handleRead
  dsimp only
  generalize checkPscl ⟨request.vAddress,w.cr3,w.pscl.length⟩
    ⟨request.vAddress,w.cr3,w.pscl.length⟩ w.pscl = checked at *
  obtain ⟨pscl,walkInit⟩ := checked
  dsimp only at *
  cases accepts with
  | false => exact ⟨hlen.trans h.length_eq,h.entries,hall,h.mshr,h.finished,h.answered⟩
  | true =>
    rw [if_pos rfl]
    refine ⟨hlen.trans h.length_eq,?_,hall,fun e he => ?_,h.finished,h.answered⟩
    · rw [List.map_append]
      refine (h.entries.append_right _).trans ?_
      simp only [List.map_append, List.map_cons, List.map_nil, List.append_assoc]
      refine List.Perm.append_left _ ?_
      have hlast := List.perm_append_singleton request.key (w.finished.map WalkEntry.key ++
        (w.completed.map WalkEntry.key ++ w.retired.map WalkEntry.key))
      simp only [List.append_assoc] at hlast
      exact hlast
    · rcases List.mem_append.mp he with he | he
      · exact h.mshr e he
      · obtain rfl := List.mem_singleton.mp he
        exact hlevel

/-- No finished entry has an index out of the range of the caches. -/
lemma Sound.handleFill {levels : ℕ} (h : w.Sound levels) (accepts : Bool) :
    ∃ w', w.handleFill accepts = some w' ∧ w'.Sound levels := by
  unfold PageTableWalker.handleFill
  cases hf : w.finished with
  | nil => exact ⟨w,rfl,h⟩
  | cons entry rest =>
    obtain ⟨hpos,hle⟩ := h.finished entry (hf ▸ List.mem_cons_self)
    have hidx : w.pscl.length - entry.translationLevel < w.pscl.length := by
      rw [h.length_eq]
      omega
    obtain ⟨⟨config,table⟩,hget⟩ : ∃ ct, w.pscl[w.pscl.length - entry.translationLevel]? =
        some ct := ⟨_,List.getElem?_eq_getElem hidx⟩
    have htable := h.pscl _ (List.mem_of_getElem? hget)
    have hall : ∀ ct ∈ w.pscl.set (w.pscl.length - entry.translationLevel)
        (config,table.fill config ⟨entry.vAddress,entry.data,entry.translationLevel⟩),
        ct.2.All fun e => e.level ≤ levels := by
      intro ct hct
      rcases List.mem_or_eq_of_mem_set hct with hct | rfl
      · exact h.pscl ct hct
      · exact htable.fill config hle
    have hlength : (w.pscl.set (w.pscl.length - entry.translationLevel)
        (config,table.fill config ⟨entry.vAddress,entry.data,entry.translationLevel⟩)).length =
          w.pscl.length := List.length_set ..
    have hentries := h.entries
    rw [hf] at hentries
    dsimp only
    rw [if_neg (by rw [h.length_eq]; omega)]
    simp only [hget]
    cases accepts with
    | false => exact ⟨_,rfl,hlength.trans h.length_eq,hentries,hall,h.mshr,hf ▸ h.finished,
        h.answered⟩
    | true =>
      refine ⟨_,rfl,hlength.trans h.length_eq,?_,hall,fun e he => ?_,fun e he => ?_,h.answered⟩
      · refine hentries.trans (List.Perm.of_eq ?_)
        simp [WalkEntry.key]
      · rcases List.mem_append.mp he with he | he
        · exact h.mshr e he
        · obtain rfl := List.mem_singleton.mp he
          exact (Nat.sub_le _ _).trans hle
      · exact h.finished e (hf ▸ List.mem_cons_of_mem _ he)

lemma Sound.finishPacket {levels : ℕ} (h : w.Sound levels) (address : ℕ)
    (partition : StdPartition) : (w.finishPacket address partition).Sound levels := by
  unfold PageTableWalker.finishPacket
  dsimp only
  set sameBlock : WalkEntry → Bool := fun e =>
    decide (e.address / 2 ^ w.blockBits = address / 2 ^ w.blockBits)
  have hfront := partition.front sameBlock w.mshr
  have hback := partition.back sameBlock w.mshr
  generalize partition.split sameBlock w.mshr = parts at *
  obtain ⟨matching,others⟩ := parts
  dsimp only at hfront hback ⊢
  obtain ⟨hext,hkeys,hans⟩ := finishSteps_spec w.vmem matching
  generalize finishSteps w.vmem matching = next at *
  obtain ⟨m,done⟩ := next
  dsimp only at *
  have hlevels : ∀ e ∈ done, e.translationLevel ≤ levels := by
    intro e he
    have hmem : (e.key,e.translationLevel) ∈
        matching.map (fun e => (e.key,e.translationLevel)) :=
      hkeys ▸ List.mem_map_of_mem he
    obtain ⟨e₀,he₀,heq⟩ := List.mem_map.mp hmem
    rw [← (Prod.mk.inj heq).2]
    exact h.mshr e₀ (List.mem_of_mem_filter (hfront.mem_iff.mp he₀))
  refine ⟨h.length_eq,?_,h.pscl,fun e he => h.mshr e (List.mem_of_mem_filter (hback.mem_iff.mp he)),
    fun e he => ?_,fun e he => ?_⟩
  · have hmshr := ((hfront.append hback).trans
      (List.filter_append_perm sameBlock w.mshr)).map WalkEntry.key
    have hdone := (List.filter_append_perm (fun e : WalkEntry => decide (e.translationLevel = 0))
      done).map WalkEntry.key
    have hsame : done.map WalkEntry.key = matching.map WalkEntry.key := by
      have := congrArg (List.map Prod.fst) hkeys
      simpa [List.map_map, Function.comp_def] using this
    rw [hsame] at hdone
    refine h.entries.trans ?_
    rw [List.perm_iff_count] at hmshr hdone ⊢
    intro key
    have h1 := hmshr key
    have h2 := hdone key
    simp only [List.map_append, List.count_append, ne_eq, decide_not] at h1 h2 ⊢
    omega
  · rcases List.mem_append.mp he with he | he
    · exact h.finished e he
    · obtain ⟨hdone,hne⟩ := List.mem_filter.mp he
      exact ⟨Nat.pos_of_ne_zero (of_decide_eq_true hne),hlevels e hdone⟩
  · simp only [List.mem_append] at he
    rcases he with (he | he) | he
    · exact answered_mono (h.answered e (List.mem_append_left _ he)) hext
    · obtain ⟨hdone,hzero⟩ := List.mem_filter.mp he
      exact hans e hdone (of_decide_eq_true hzero)
    · exact answered_mono (h.answered e (List.mem_append_right _ he)) hext

lemma Sound.respond {levels : ℕ} (h : w.Sound levels) (n : ℕ) : (w.respond n).Sound levels := by
  have hsplit := congrArg (List.map WalkEntry.key) (List.take_append_drop n w.completed)
  refine ⟨h.length_eq,?_,h.pscl,h.mshr,h.finished,fun e he => h.answered e ?_⟩
  · refine h.entries.trans ?_
    rw [List.perm_iff_count]
    intro key
    have hcount := congrArg (List.count key) hsplit
    simp only [PageTableWalker.respond, List.map_append, List.count_append] at hcount ⊢
    omega
  · rw [← List.take_append_drop n w.completed]
    simp only [PageTableWalker.respond, List.mem_append] at he ⊢
    tauto

theorem Sound.step {levels : ℕ} (h : w.Sound levels) (e : WalkEvent) :
    ∃ w', w.step e = some w' ∧ w'.Sound levels := by
  cases e with
  | finishPacket address partition => exact ⟨_,rfl,h.finishPacket address partition⟩
  | respond n => exact ⟨_,rfl,h.respond n⟩
  | handleFill accepts => exact h.handleFill accepts
  | handleRead request accepts => exact ⟨_,rfl,h.handleRead request accepts⟩
  | otherWalker request =>
    exact ⟨_,rfl,h.length_eq,h.entries,h.pscl,h.mshr,h.finished,fun e he =>
      answered_mono (h.answered e he) (w.vmem.translate_kept request).1⟩

theorem Sound.run {levels : ℕ} (h : w.Sound levels) (events : List WalkEvent) :
    ∃ w', w.run events = some w' ∧ w'.Sound levels := by
  induction events generalizing w with
  | nil => exact ⟨w,rfl,h⟩
  | cons e rest ih =>
    obtain ⟨w₁,hstep,h₁⟩ := h.step e
    obtain ⟨w',hrun,h'⟩ := ih h₁
    refine ⟨w',?_,h'⟩
    rw [PageTableWalker.run, List.foldlM_cons, hstep]
    exact hrun

/-- The constructor, with new caches of the sets and ways of the levels. -/
def start (m : VirtualMemory c) (cpu ptLevels : ℕ) (levels : List (ℕ × ℕ × ℕ)) :
    PageTableWalker c where
  cr3 := (m.getPtePa cpu 0 ptLevels).2.address
  vmem := (m.getPtePa cpu 0 ptLevels).1
  pscl := levels.map fun l =>
    let config := psclConfig c l.1 l.2.1 l.2.2
    (config,LruTable.init config)

lemma start_sound (m : VirtualMemory c) (cpu ptLevels : ℕ) (levels : List (ℕ × ℕ × ℕ)) :
    (start m cpu ptLevels levels).Sound levels.length where
  length_eq := List.length_map _
  entries := List.Perm.refl _
  pscl ct hct := by
    obtain ⟨l,-,rfl⟩ := List.mem_map.mp hct
    exact .init _ (Nat.zero_le _)
  mshr _ he := absurd he List.not_mem_nil
  finished _ he := absurd he List.not_mem_nil
  answered _ he := absurd he List.not_mem_nil

/-- No run of the walker ends in an index out of range. The walks that were started are, each one
once, in the entries that wait, that go on or that are completed and answered, and an answer is
the physical page that the virtual memory maps the address to, whatever the caches held. -/
theorem walks_answered (m : VirtualMemory c) (cpu ptLevels : ℕ) (levels : List (ℕ × ℕ × ℕ))
    (events : List WalkEvent) :
    ∃ w : PageTableWalker c, (start m cpu ptLevels levels).run events = some w ∧
      (w.accepted.map WalkRequest.key).Perm
        ((w.mshr ++ w.finished ++ w.completed ++ w.retired).map WalkEntry.key) ∧
      ∀ e ∈ w.completed ++ w.retired, ∃ page,
        w.vmem.vpageToPpageMap (e.cpu,e.vAddress / 2 ^ c.log2PageSize) = some page ∧
          e.data = page * 2 ^ c.log2PageSize := by
  obtain ⟨w,hrun,hw⟩ := (start_sound m cpu ptLevels levels).run events
  exact ⟨w,hrun,hw.entries,hw.answered⟩

/-- A walk through one level, whose page table page is the second one of the memory. -/
example :
    let c : VmemConfig := ⟨12,8,2^20 + 2^14,100,id,fun _ => .refl _,by decide,by decide⟩
    let walk := [.handleRead { address := 5 * 2^12, vAddress := 5 * 2^12 } true,
      .finishPacket 40 .stable,.handleFill true,.finishPacket 2088 .stable]
    ((start ({} : VirtualMemory c) 0 2 [(1,1,1)]).run walk).map
      (fun w => w.completed.map (·.data)) = some [2^20 + 2^12] := by decide

end PageTableWalker
end CaLabs.Lab4
