import CaLabs.Lab4.RegisterAllocator
import Mathlib.Data.List.Forall2
import Mathlib.Data.List.Induction

/-! The reorder buffer of the out-of-order core: an operand is the register of the youngest older
write. -/
namespace CaLabs.Lab4

structure Instruction where
  instrId : ℕ
  sourceRegisters : List ℕ
  destinationRegisters : List ℕ
  deriving DecidableEq, Repr

/-- The registers of an entry are the ones that its instruction names until it is scheduled, and
physical ones from then on. -/
structure RobEntry where
  instr : Instruction
  sourceRegisters : List ℕ
  destinationRegisters : List ℕ
  readyTime : ℕ
  scheduled : Bool := false
  executed : Bool := false
  completed : Bool := false
  deriving DecidableEq, Repr

structure CoreConfig where
  registers : ℕ
  robSize : ℕ
  schedulerSize : ℕ
  dispatchWidth : ℕ
  execWidth : ℕ
  retireWidth : ℕ
  schedulingLatency : ℕ
  execLatency : ℕ

structure Core where
  rob : List RobEntry := []
  regAllocator : RegisterAllocator
  currentTime : ℕ := 0
  warmup : Bool := true

namespace RegisterAllocator

def renameSources : RegisterAllocator → List ℕ → Option (List ℕ × RegisterAllocator)
  | a, [] => some ([],a)
  | a, reg :: regs =>
    (a.renameSrcRegister reg).bind fun (p,a') =>
      (renameSources a' regs).map fun (ps,a'') => (p :: ps,a'')

def renameDestinations (producerId : ℕ) :
    RegisterAllocator → List ℕ → Option (List ℕ × RegisterAllocator)
  | a, [] => some ([],a)
  | a, reg :: regs =>
    (a.renameDestRegister reg producerId).bind fun (p,a') =>
      (renameDestinations producerId a' regs).map fun (ps,a'') => (p :: ps,a'')

end RegisterAllocator

def RobEntry.dispatched (instr : Instruction) (readyTime : ℕ) : RobEntry where
  instr := instr
  sourceRegisters := instr.sourceRegisters
  destinationRegisters := instr.destinationRegisters
  readyTime := readyTime

def doScheduling (a : RegisterAllocator) (e : RobEntry) : Option (RegisterAllocator × RobEntry) :=
  (a.renameSources e.sourceRegisters).bind fun (sources,a') =>
    (a'.renameDestinations e.instr.instrId e.destinationRegisters).map fun (destinations,a'') =>
      (a'',{ e with
        sourceRegisters := sources
        destinationRegisters := destinations
        scheduled := true })

/-- The buffer is walked from its oldest entry; the registers of a scheduled entry that the guard
looks up are physical ones. -/
def scheduleInstruction (now : ℕ) :
    ℕ → RegisterAllocator → List RobEntry → Option (RegisterAllocator × List RobEntry)
  | _, a, [] => some (a,[])
  | searchBw, a, e :: rest =>
    if searchBw = 0 then some (a,e :: rest)
    else if a.freeRegisters.length <
        e.sourceRegisters.countP (!a.isAllocated ·) + e.destinationRegisters.length then
      some (a,e :: rest)
    else
      (if !e.scheduled && decide (e.readyTime ≤ now) then doScheduling a e else some (a,e)).bind
        fun (a',e') =>
          (scheduleInstruction now (if e'.executed then searchBw else searchBw - 1) a' rest).map
            fun (a'',rest') => (a'',e' :: rest')

def executeInstruction (a : RegisterAllocator) (now execLatency : ℕ) :
    ℕ → List RobEntry → List RobEntry
  | _, [] => []
  | execBw, e :: rest =>
    if execBw = 0 then e :: rest
    else if e.scheduled && !e.executed && decide (e.readyTime ≤ now) &&
        e.sourceRegisters.all a.isValid then
      { e with executed := true, readyTime := now + execLatency } ::
        executeInstruction a now execLatency (execBw - 1) rest
    else e :: executeInstruction a now execLatency execBw rest

def doCompleteExecution (a : RegisterAllocator) (e : RobEntry) : RegisterAllocator :=
  e.destinationRegisters.foldl .completeDestRegister a

/-- The memory operations of an instruction are complete when the load and store queues say so. -/
def completeInflightInstruction (memOpsDone : ℕ → Bool) (now : ℕ) :
    ℕ → RegisterAllocator → List RobEntry → RegisterAllocator × List RobEntry
  | _, a, [] => (a,[])
  | completeBw, a, e :: rest =>
    if completeBw = 0 then (a,e :: rest)
    else if e.executed && !e.completed && decide (e.readyTime ≤ now) &&
        memOpsDone e.instr.instrId then
      let (a',rest') := completeInflightInstruction memOpsDone now (completeBw - 1)
        (doCompleteExecution a e) rest
      (a',{ e with completed := true } :: rest')
    else
      let (a',rest') := completeInflightInstruction memOpsDone now completeBw a rest
      (a',e :: rest')

def retireRob : ℕ → RegisterAllocator → List RobEntry → RegisterAllocator × List RobEntry
  | _, a, [] => (a,[])
  | retireBw, a, e :: rest =>
    if retireBw ≠ 0 && e.completed then
      retireRob (retireBw - 1) (e.destinationRegisters.foldl .retireDestRegister a) rest
    else (a,e :: rest)

/-- What the rest of the core does in a cycle. -/
structure CoreInput where
  memOpsDone : ℕ → Bool
  dispatchBuffer : List Instruction
  endWarmup : Bool

namespace Core

def start (c : CoreConfig) : Core where
  regAllocator := .init c.registers

def schedulingDelay (c : CoreConfig) (s : Core) : ℕ := if s.warmup then 0 else c.schedulingLatency

def dispatchInstruction (c : CoreConfig) (s : Core) (buffer : List Instruction) : Core :=
  let dispatched := buffer.take (min c.dispatchWidth (c.robSize - s.rob.length))
  { s with rob := s.rob ++ dispatched.map (.dispatched · (s.currentTime + schedulingDelay c s)) }

/-- One cycle, the stages from the last to the first; no result stands for the front of an empty
free list. -/
def operate (c : CoreConfig) (s : Core) (i : CoreInput) : Option Core :=
  let execLatency := if s.warmup then 0 else c.execLatency
  let (a,rob) := retireRob c.retireWidth s.regAllocator s.rob
  let (a,rob) := completeInflightInstruction i.memOpsDone s.currentTime c.execWidth a rob
  let rob := executeInstruction a s.currentTime execLatency c.execWidth rob
  (scheduleInstruction s.currentTime c.schedulerSize a rob).map fun (a,rob) =>
    let s' := dispatchInstruction c { s with regAllocator := a, rob := rob } i.dispatchBuffer
    { s' with currentTime := s.currentTime + 1, warmup := s.warmup && !i.endWarmup }

def run (c : CoreConfig) (inputs : List CoreInput) : Option Core :=
  inputs.foldlM (operate c) (start c)

end Core

/-- The writes of a scheduled entry, in the order of their registers. -/
def RobEntry.writes (e : RobEntry) : List (ℕ × ℕ) :=
  if e.scheduled then e.instr.destinationRegisters.zip e.destinationRegisters else []

def inFlight (rob : List RobEntry) : List (ℕ × ℕ) := rob.flatMap RobEntry.writes

/-- An entry that has its physical registers, after these older writes. -/
structure Renamed (a : RegisterAllocator) (older : List (ℕ × ℕ)) (e : RobEntry) : Prop where
  sources : List.Forall₂ (fun reg p => mappingAfter a.backendRat older reg = some p)
    e.instr.sourceRegisters e.sourceRegisters
  destinations : e.instr.destinationRegisters.length = e.destinationRegisters.length
  ready : e.executed = true → ∀ p ∈ e.sourceRegisters, a.isValid p = true
  valid : ∀ p ∈ e.destinationRegisters, a.isValid p = e.completed
  order : e.completed = true → e.executed = true

structure Waiting (e : RobEntry) : Prop where
  sources : e.sourceRegisters = e.instr.sourceRegisters
  destinations : e.destinationRegisters = e.instr.destinationRegisters
  executed : e.executed = false
  completed : e.completed = false

def AllRenamed (a : RegisterAllocator) : List (ℕ × ℕ) → List RobEntry → Prop
  | _, [] => True
  | older, e :: rest =>
    (if e.scheduled then Renamed a older e else Waiting e) ∧ AllRenamed a (older ++ e.writes) rest

/-- The scheduled entries come first, and the others become ready in their order. -/
def InOrder (rob : List RobEntry) : Prop :=
  rob.Pairwise fun e e' => e.scheduled = false → e'.scheduled = false ∧ e.readyTime ≤ e'.readyTime

section Entries
variable {n : ℕ} {a a' : RegisterAllocator} {older older' flight : List (ℕ × ℕ)} {e : RobEntry}
  {l l' : List RobEntry}

lemma RobEntry.writes_scheduled (h : e.scheduled = true) :
    e.writes = e.instr.destinationRegisters.zip e.destinationRegisters := if_pos h

lemma RobEntry.writes_waiting (h : e.scheduled = false) : e.writes = [] :=
  if_neg (by rw [h]; exact Bool.false_ne_true)

lemma inFlight_cons (e : RobEntry) (l : List RobEntry) :
    inFlight (e :: l) = e.writes ++ inFlight l := List.flatMap_cons

lemma inFlight_append (l l' : List RobEntry) : inFlight (l ++ l') = inFlight l ++ inFlight l' :=
  List.flatMap_append

lemma inFlight_waiting (h : ∀ e ∈ l, e.scheduled = false) : inFlight l = [] := by
  rw [inFlight, List.flatMap_eq_nil_iff]
  exact fun e he => RobEntry.writes_waiting (h e he)

namespace Renamed

lemma map_writes (h : Renamed a older e) (hs : e.scheduled = true) :
    e.writes.map Prod.snd = e.destinationRegisters := by
  rw [RobEntry.writes_scheduled hs]
  exact List.map_snd_zip (Nat.le_of_eq h.destinations.symm)

lemma mono (h : Renamed a older e) (hs : e.scheduled = true)
    (hmap : ∀ r q, mappingAfter a.backendRat older r = some q →
      mappingAfter a'.backendRat older' r = some q)
    (hready : ∀ r q, mappingAfter a.backendRat older r = some q → a.isValid q = true →
      a'.isValid q = true)
    (hvalid : ∀ w ∈ e.writes, a'.isValid w.2 = a.isValid w.2) : Renamed a' older' e where
  sources := h.sources.imp fun r q hr => hmap r q hr
  destinations := h.destinations
  ready he p hp := by
    obtain ⟨r,-,hr⟩ : ∃ r ∈ e.instr.sourceRegisters,
        mappingAfter a.backendRat older r = some p := by
      obtain ⟨i,hi,rfl⟩ := List.mem_iff_getElem.mp hp
      have hlen := h.sources.length_eq
      exact ⟨e.instr.sourceRegisters[i],List.getElem_mem _,
        (List.forall₂_iff_get.mp h.sources).2 i (hlen ▸ hi) hi⟩
    exact hready r p hr (h.ready he p hp)
  valid p hp := by
    rw [← h.map_writes hs] at hp
    obtain ⟨w,hw,rfl⟩ := List.mem_map.mp hp
    rw [hvalid w hw]
    exact h.valid _ (h.map_writes hs ▸ List.mem_map_of_mem hw)
  order := h.order

end Renamed

namespace AllRenamed

lemma waiting (h : ∀ e ∈ l, e.scheduled = false) (hl : AllRenamed a older l) :
    AllRenamed a' older' l := by
  induction l generalizing older older' with
  | nil => trivial
  | cons e l ih =>
    obtain ⟨he,hl⟩ := hl
    have hs := h e List.mem_cons_self
    rw [hs] at he
    refine ⟨?_,ih (fun x hx => h x (List.mem_cons_of_mem _ hx)) hl⟩
    rw [hs]
    exact he

/-- The entries stay renamed when the allocator keeps what they refer to. -/
lemma mono (h : AllRenamed a older l)
    (hmap : ∀ r q, mappingAfter a.backendRat older r = some q →
      mappingAfter a'.backendRat older' r = some q)
    (hready : ∀ r q, mappingAfter a.backendRat older r = some q → a.isValid q = true →
      a'.isValid q = true)
    (hvalid : ∀ w ∈ inFlight l, a'.isValid w.2 = a.isValid w.2) : AllRenamed a' older' l := by
  induction l generalizing older older' with
  | nil => trivial
  | cons e l ih =>
    obtain ⟨he,hl⟩ := h
    rw [inFlight_cons] at hvalid
    have hwrites : ∀ w ∈ e.writes, a'.isValid w.2 = a.isValid w.2 :=
      fun w hw => hvalid w (List.mem_append_left _ hw)
    refine ⟨?_,ih hl (fun r q hr => ?_) (fun r q hr hq => ?_)
      fun w hw => hvalid w (List.mem_append_right _ hw)⟩
    · cases hs : e.scheduled with
      | true =>
        rw [hs, if_pos rfl] at he
        exact he.mono hs hmap hready hwrites
      | false =>
        rw [hs] at he
        exact he
    · rw [mappingAfter_append] at hr ⊢
      exact mappingAfter_mono hmap hr
    · rw [mappingAfter_append] at hr
      rcases mappingAfter_cases hr with hr | hmem
      · exact hready r q hr hq
      · exact (hwrites _ hmem).trans hq

lemma append (h : AllRenamed a older l) (hw : ∀ e ∈ l', e.scheduled = false ∧ Waiting e) :
    AllRenamed a older (l ++ l') := by
  induction l generalizing older with
  | nil =>
    clear h
    induction l' generalizing older with
    | nil => trivial
    | cons e l' ih =>
      obtain ⟨hs,he⟩ := hw e List.mem_cons_self
      refine ⟨?_,ih fun x hx => hw x (List.mem_cons_of_mem _ hx)⟩
      rw [hs]
      exact he
  | cons e l ih => exact ⟨h.1,ih h.2⟩

lemma drop (h : AllRenamed a older (l ++ l')) : AllRenamed a (older ++ inFlight l) l' := by
  induction l generalizing older with
  | nil => rwa [inFlight, List.flatMap_nil, List.append_nil]
  | cons e l ih =>
    rw [inFlight_cons, ← List.append_assoc]
    exact ih h.2

end AllRenamed

/-- Scheduled entries stay scheduled, and the others are as they were. -/
def Tracks (l l' : List RobEntry) : Prop :=
  ∀ e' ∈ l', ∃ e ∈ l, e'.scheduled = e.scheduled ∧ (e.scheduled = false → e' = e)

lemma Tracks.refl (l : List RobEntry) : Tracks l l := fun e he => ⟨e,he,rfl,fun _ => rfl⟩

lemma Tracks.cons {e e' : RobEntry} (h : Tracks l l') (hs : e'.scheduled = e.scheduled)
    (he : e.scheduled = false → e' = e) : Tracks (e :: l) (e' :: l') := by
  intro x hx
  rcases List.mem_cons.mp hx with rfl | hx
  · exact ⟨e,List.mem_cons_self,hs,he⟩
  · obtain ⟨y,hy,hyx⟩ := h x hx
    exact ⟨y,List.mem_cons_of_mem _ hy,hyx⟩

lemma InOrder.cons {e e' : RobEntry} (h : InOrder (e :: l)) (hl : InOrder l') (ht : Tracks l l')
    (hs : e'.scheduled = e.scheduled) (he : e.scheduled = false → e' = e) :
    InOrder (e' :: l') := by
  refine List.pairwise_cons.mpr ⟨fun x hx hx' => ?_,hl⟩
  rw [hs] at hx'
  obtain ⟨y,hy,hyx,heq⟩ := ht x hx
  obtain ⟨hys,hle⟩ := (List.pairwise_cons.mp h).1 y hy hx'
  rw [heq hys, he hx']
  exact ⟨hys,hle⟩

lemma executeInstruction_spec (now latency bw : ℕ) (h : AllRenamed a older l)
    (ho : InOrder l) :
    AllRenamed a older (executeInstruction a now latency bw l) ∧
      inFlight (executeInstruction a now latency bw l) = inFlight l ∧
      InOrder (executeInstruction a now latency bw l) ∧
      Tracks l (executeInstruction a now latency bw l) := by
  induction l generalizing older bw with
  | nil => exact ⟨trivial,rfl,ho,Tracks.refl _⟩
  | cons e l ih =>
    obtain ⟨he,hl⟩ := h
    rw [executeInstruction]
    split_ifs with hbw hready
    · exact ⟨⟨he,hl⟩,rfl,ho,Tracks.refl _⟩
    · simp only [Bool.and_eq_true, Bool.not_eq_true', List.all_eq_true] at hready
      obtain ⟨⟨⟨hs,-⟩,-⟩,hvalid⟩ := hready
      obtain ⟨hl',hf,ho',ht⟩ := ih (bw - 1) hl (List.pairwise_cons.mp ho).2
      rw [hs, if_pos rfl] at he
      have hfalse : e.scheduled = false → False := fun h' => by rw [hs] at h'; cases h'
      refine ⟨⟨?_,hl'⟩,?_,ho.cons ho' ht rfl fun h' => (hfalse h').elim,
        ht.cons rfl fun h' => (hfalse h').elim⟩
      · rw [if_pos hs]
        exact ⟨he.sources,he.destinations,fun _ => hvalid,he.valid,fun _ => rfl⟩
      · rw [inFlight_cons, inFlight_cons, hf]
        rfl
    · obtain ⟨hl',hf,ho',ht⟩ := ih bw hl (List.pairwise_cons.mp ho).2
      exact ⟨⟨he,hl'⟩,by rw [inFlight_cons, inFlight_cons, hf],
        ho.cons ho' ht rfl fun _ => rfl,ht.cons rfl fun _ => rfl⟩

lemma completeDestRegisters (h : Allocated n a flight) (ps : List ℕ) :
    Allocated n (ps.foldl .completeDestRegister a) flight ∧
      (ps.foldl RegisterAllocator.completeDestRegister a).backendRat = a.backendRat ∧
      (∀ q ∈ ps, (ps.foldl RegisterAllocator.completeDestRegister a).isValid q = true) ∧
      (∀ q ∉ ps, (ps.foldl RegisterAllocator.completeDestRegister a).isValid q = a.isValid q) ∧
      ∀ q, a.isValid q = true →
        (ps.foldl RegisterAllocator.completeDestRegister a).isValid q = true := by
  induction ps generalizing a with
  | nil => exact ⟨h,rfl,fun q hq => absurd hq List.not_mem_nil,fun _ _ => rfl,fun _ hq => hq⟩
  | cons p ps ih =>
    obtain ⟨ha,hb,hin,hout,hmono⟩ := ih (h.completeDest p)
    have hone : ∀ q, (a.completeDestRegister p).isValid q = if q = p then true else a.isValid q :=
      fun q => RegisterAllocator.isValid_setRegister a p q _
    refine ⟨ha,hb,fun q hq => ?_,fun q hq => ?_,fun q hq => hmono q ?_⟩
    · rcases List.mem_cons.mp hq with rfl | hq
      · exact hmono q (by rw [hone, if_pos rfl])
      · exact hin q hq
    · rw [List.mem_cons, not_or] at hq
      obtain ⟨hne,hq⟩ := hq
      exact (hout q hq).trans (by rw [hone, if_neg hne])
    · rw [hone]
      split_ifs
      · rfl
      · exact hq

lemma completeInflightInstruction_spec (done : ℕ → Bool) (now bw : ℕ)
    (ha : Allocated n a flight) (h : AllRenamed a older l) (ho : InOrder l)
    (hnodup : ((inFlight l).map Prod.snd).Nodup) :
    ∃ a' l', completeInflightInstruction done now bw a l = (a',l') ∧
      Allocated n a' flight ∧ AllRenamed a' older l' ∧ inFlight l' = inFlight l ∧
      InOrder l' ∧ Tracks l l' ∧ a'.backendRat = a.backendRat ∧
      (∀ q, a.isValid q = true → a'.isValid q = true) ∧
      ∀ q ∉ (inFlight l).map Prod.snd, a'.isValid q = a.isValid q := by
  induction l generalizing a older bw with
  | nil => exact ⟨a,[],rfl,ha,trivial,rfl,ho,Tracks.refl _,rfl,fun _ hq => hq,fun _ _ => rfl⟩
  | cons e l ih =>
    obtain ⟨he,hl⟩ := h
    have ho' := (List.pairwise_cons.mp ho).2
    rw [inFlight_cons, List.map_append] at hnodup
    obtain ⟨-,hn,hdisjoint⟩ := List.nodup_append.mp hnodup
    have hapart : ∀ q ∈ e.writes.map Prod.snd, q ∉ (inFlight l).map Prod.snd :=
      fun q hq hq' => hdisjoint q hq q hq' rfl
    rw [completeInflightInstruction]
    split_ifs with hbw hdone
    · exact ⟨a,_,rfl,ha,⟨he,hl⟩,rfl,ho,Tracks.refl _,rfl,fun _ hq => hq,fun _ _ => rfl⟩
    · simp only [Bool.and_eq_true, Bool.not_eq_true'] at hdone
      have hs : e.scheduled = true := by
        by_contra hs
        rw [if_neg hs] at he
        rw [he.executed] at hdone
        exact Bool.false_ne_true hdone.1.1.1
      have hfalse : e.scheduled = false → False := fun h' => by rw [hs] at h'; cases h'
      rw [if_pos hs] at he
      obtain ⟨ha₁,hb₁,hin,hout,hmono₁⟩ := completeDestRegisters ha e.destinationRegisters
      obtain ⟨a',l',hr,ha',hl',hf,hord,ht,hb,hmono,hkept⟩ := ih (bw - 1) ha₁
        (hl.mono (fun r q hr => by rwa [hb₁]) (fun r q _ hq => hmono₁ q hq) fun w hw =>
          hout _ fun hmem => hapart w.2 (by rwa [he.map_writes hs]) (List.mem_map_of_mem hw)) ho' hn
      refine ⟨a',{ e with completed := true } :: l',?_,ha',⟨?_,hl'⟩,?_,?_,?_,?_,?_,?_⟩
      · rw [doCompleteExecution, hr]
      · rw [if_pos hs]
        refine ⟨he.sources.imp fun r q hr => by rwa [hb, hb₁],he.destinations,
          fun hx p hp => hmono p (hmono₁ p (he.ready hx p hp)),fun p hp => hmono p (hin p hp),
          fun _ => hdone.1.1.1⟩
      · rw [inFlight_cons, inFlight_cons, hf]
        rfl
      · exact ho.cons hord ht rfl fun h' => (hfalse h').elim
      · exact ht.cons rfl fun h' => (hfalse h').elim
      · rw [hb, hb₁]
      · exact fun q hq => hmono q (hmono₁ q hq)
      · intro q hq
        rw [inFlight_cons, List.map_append, List.mem_append, not_or, he.map_writes hs] at hq
        exact (hkept q hq.2).trans (hout q hq.1)
    · obtain ⟨a',l',hr,ha',hl',hf,hord,ht,hb,hmono,hkept⟩ := ih bw ha hl ho' hn
      refine ⟨a',e :: l',by rw [hr],ha',⟨?_,hl'⟩,?_,ho.cons hord ht rfl fun _ => rfl,
        ht.cons rfl fun _ => rfl,hb,hmono,?_⟩
      · cases hs : e.scheduled with
        | true =>
          rw [if_pos hs] at he
          exact he.mono hs (fun r q hr => by rwa [hb]) (fun r q _ hq => hmono q hq) fun w hw =>
            hkept w.2 (hapart w.2 (List.mem_map_of_mem hw))
        | false =>
          rw [hs] at he
          exact he
      · rw [inFlight_cons, inFlight_cons, hf]
      · intro q hq
        rw [inFlight_cons, List.map_append, List.mem_append, not_or] at hq
        exact hkept q hq.2

/-- The writes of an instruction are committed in their order. -/
lemma retireDestRegisters {ws : List (ℕ × ℕ)} (ha : Allocated n a (ws ++ inFlight l))
    (h : AllRenamed a ws l) (hv : ∀ w ∈ ws, a.isValid w.2 = true) :
    Allocated n ((ws.map Prod.snd).foldl .retireDestRegister a) (inFlight l) ∧
      AllRenamed ((ws.map Prod.snd).foldl .retireDestRegister a) [] l := by
  induction ws generalizing a with
  | nil => exact ⟨ha,h⟩
  | cons w ws ih =>
    obtain ⟨ha',hb,hkept⟩ := ha.retireDest (hv w List.mem_cons_self)
    have hlive : ∀ w' ∈ ws ++ inFlight l,
        (a.retireDestRegister w.2).isValid w'.2 = a.isValid w'.2 :=
      fun w' hw' => hkept _ (ha'.flight_not_free hw')
    have hmapped : ∀ r, mappingAfter (a.retireDestRegister w.2).backendRat ws r =
        mappingAfter a.backendRat (w :: ws) r := fun r => by rw [hb]; rfl
    refine ih ha' (h.mono (fun r q hr => by rwa [hmapped]) (fun r q hr hq => ?_) fun w' hw' =>
      hlive w' (List.mem_append_right _ hw')) fun w' hw' => ?_
    · rw [← hmapped] at hr
      rw [hkept q (ha'.not_free (List.subset_append_left _ _) hr)]
      exact hq
    · rw [hlive w' (List.mem_append_left _ hw')]
      exact hv w' (List.mem_cons_of_mem _ hw')

lemma retireRob_spec (bw : ℕ) (ha : Allocated n a (inFlight l)) (h : AllRenamed a [] l) :
    ∃ a' l', retireRob bw a l = (a',l') ∧ Allocated n a' (inFlight l') ∧ AllRenamed a' [] l' ∧
      l' <:+ l := by
  induction l generalizing a bw with
  | nil => exact ⟨a,[],rfl,ha,trivial,List.suffix_refl _⟩
  | cons e l ih =>
    rw [retireRob]
    split_ifs with hretire
    · simp only [Bool.and_eq_true, decide_eq_true_eq] at hretire
      obtain ⟨he,hl⟩ := h
      have hs : e.scheduled = true := by
        by_contra hs
        rw [if_neg hs] at he
        rw [he.completed] at hretire
        exact Bool.false_ne_true hretire.2
      rw [if_pos hs] at he
      rw [inFlight_cons] at ha
      have hvalid : ∀ w ∈ e.writes, a.isValid w.2 = true := by
        intro w hw
        rw [he.valid w.2 (he.map_writes hs ▸ List.mem_map_of_mem hw)]
        exact hretire.2
      obtain ⟨ha',hl'⟩ := retireDestRegisters ha hl hvalid
      rw [he.map_writes hs] at ha' hl'
      obtain ⟨a',l',hr,ha',hl',hsuffix⟩ := ih (bw - 1) ha' hl'
      exact ⟨a',l',hr,ha',hl',hsuffix.trans (List.suffix_cons e l)⟩
    · exact ⟨a,_,rfl,ha,h,List.suffix_refl _⟩

/-- What the entries refer to is kept: the mappings, and the state of registers in use. -/
structure Kept (a a' : RegisterAllocator) : Prop where
  backend : ∀ r q, a.backendRat r = some q → a'.backendRat r = some q
  valid : ∀ q ∉ a.freeRegisters, a'.isValid q = a.isValid q
  free : a'.freeRegisters ⊆ a.freeRegisters

namespace Kept

lemma refl (a : RegisterAllocator) : Kept a a :=
  ⟨fun _ _ hr => hr,fun _ _ => rfl,List.Subset.refl _⟩

lemma trans {a'' : RegisterAllocator} (h : Kept a a') (h' : Kept a' a'') : Kept a a'' where
  backend r q hr := h'.backend r q (h.backend r q hr)
  valid q hq := (h'.valid q fun hmem => hq (h.free hmem)).trans (h.valid q hq)
  free := List.Subset.trans h'.free h.free

end Kept

lemma renameSources_spec {regs : List ℕ} (ha : Allocated n a flight)
    (hfree : regs.countP (!a.isAllocated ·) ≤ a.freeRegisters.length) :
    ∃ ps a', a.renameSources regs = some (ps,a') ∧ Allocated n a' flight ∧ Kept a a' ∧
      (∀ r q, a.frontendRat r = some q → a'.frontendRat r = some q) ∧
      List.Forall₂ (fun reg p => a'.frontendRat reg = some p) regs ps ∧
      a.freeRegisters.length ≤ a'.freeRegisters.length + regs.countP (!a.isAllocated ·) := by
  induction regs generalizing a with
  | nil => exact ⟨[],a,rfl,ha,Kept.refl a,fun _ _ hr => hr,.nil,Nat.le_refl _⟩
  | cons reg regs ih =>
    rw [List.countP_cons] at hfree ⊢
    have hone : a.frontendRat reg = none → a.freeRegisters ≠ [] := by
      intro hnone hnil
      rw [RegisterAllocator.isAllocated, hnone, hnil] at hfree
      simp at hfree
    obtain ⟨p,a₁,hp,ha₁,hreg,hfront,hback,hvalid,hsub,hlen⟩ := ha.renameSrc hone
    have hcount : regs.countP (!a₁.isAllocated ·) ≤ regs.countP (!a.isAllocated ·) := by
      refine List.countP_mono_left fun r _ hr => ?_
      simp only [RegisterAllocator.isAllocated, Bool.not_eq_true', Option.isSome_eq_false_iff,
        Option.isNone_iff_eq_none] at hr ⊢
      by_contra hsome
      obtain ⟨q,hq⟩ := Option.ne_none_iff_exists'.mp hsome
      rw [hfront r q hq] at hr
      cases hr
    have hcost : (if (!a.isAllocated reg) = true then 1 else 0) =
        if a.isAllocated reg = true then 0 else 1 := by
      cases a.isAllocated reg <;> rfl
    obtain ⟨ps,a₂,hps,ha₂,hkept,hfront₂,hregs,hlen₂⟩ := ih ha₁ (by omega)
    refine ⟨p :: ps,a₂,?_,ha₂,Kept.trans ⟨hback,hvalid,hsub⟩ hkept,
      fun r q hr => hfront₂ r q (hfront r q hr),.cons (hfront₂ reg p hreg) hregs,by omega⟩
    simp only [RegisterAllocator.renameSources, hp, hps, Option.bind_some, Option.map_some]

lemma renameDestinations_spec {regs : List ℕ} (producerId : ℕ) (ha : Allocated n a flight)
    (hfree : regs.length ≤ a.freeRegisters.length) :
    ∃ ps a', a.renameDestinations producerId regs = some (ps,a') ∧
      Allocated n a' (flight ++ regs.zip ps) ∧ Kept a a' ∧ a'.backendRat = a.backendRat ∧
      regs.length = ps.length ∧ ∀ p ∈ ps, a'.isValid p = false := by
  induction regs generalizing a flight with
  | nil =>
    refine ⟨[],a,rfl,?_,Kept.refl a,rfl,rfl,fun p hp => absurd hp List.not_mem_nil⟩
    rwa [List.zip_nil_left, List.append_nil]
  | cons reg regs ih =>
    rw [List.length_cons] at hfree
    obtain ⟨p,a₁,hp,ha₁,hback,hnew,hvalid,hsub,hlen⟩ := ha.renameDest reg producerId
      (List.ne_nil_of_length_pos (by omega))
    obtain ⟨ps,a₂,hps,ha₂,hkept,hback₂,hlen₂,hnew₂⟩ := ih ha₁ (by omega)
    refine ⟨p :: ps,a₂,?_,?_,Kept.trans ⟨fun r q hr => by rwa [hback],hvalid,hsub⟩ hkept,
      hback₂.trans hback,?_,fun q hq => ?_⟩
    · simp only [RegisterAllocator.renameDestinations, hp, hps, Option.bind_some, Option.map_some]
    · rw [List.zip_cons_cons, List.append_cons]
      exact ha₂
    · rw [List.length_cons, List.length_cons, hlen₂]
    · rcases List.mem_cons.mp hq with rfl | hq
      · have hlive := ha₁.flight_not_free (List.mem_append_right flight (List.mem_singleton_self _))
        exact (hkept.valid _ hlive).trans hnew
      · exact hnew₂ q hq

lemma doScheduling_spec (ha : Allocated n a flight) (hw : Waiting e)
    (hfree : e.sourceRegisters.countP (!a.isAllocated ·) + e.destinationRegisters.length ≤
      a.freeRegisters.length) :
    ∃ a' e', doScheduling a e = some (a',e') ∧ e'.scheduled = true ∧
      Allocated n a' (flight ++ e'.writes) ∧ Renamed a' flight e' ∧ Kept a a' := by
  have hsources : e.sourceRegisters.countP (!a.isAllocated ·) ≤ a.freeRegisters.length := by omega
  obtain ⟨sources,a₁,hs,ha₁,hkept₁,-,hregs,hlen⟩ := renameSources_spec ha hsources
  have hdestinations : e.destinationRegisters.length ≤ a₁.freeRegisters.length := by omega
  obtain ⟨destinations,a₂,hd,ha₂,hkept₂,hback,hlen₂,hnew⟩ :=
    renameDestinations_spec e.instr.instrId ha₁ hdestinations
  refine ⟨a₂,{ e with
    sourceRegisters := sources
    destinationRegisters := destinations
    scheduled := true },?_,rfl,?_,⟨?_,?_,fun he => ?_,fun p hp => ?_,fun he => ?_⟩,
    hkept₁.trans hkept₂⟩
  · simp only [doScheduling, hs, hd, Option.bind_some, Option.map_some]
  · rw [RobEntry.writes_scheduled rfl]
    rwa [hw.destinations] at ha₂
  · rw [hw.sources, ha₁.frontend] at hregs
    rwa [hback]
  · rwa [hw.destinations] at hlen₂
  · exact absurd (hw.executed.symm.trans he) Bool.false_ne_true
  · rw [hnew p hp]
    exact hw.completed.symm
  · exact absurd (hw.completed.symm.trans he) Bool.false_ne_true

lemma scheduleInstruction_not_ready {now : ℕ} (bw : ℕ)
    (h : ∀ e ∈ l, e.scheduled = false ∧ now < e.readyTime) :
    scheduleInstruction now bw a l = some (a,l) := by
  induction l generalizing bw with
  | nil => rfl
  | cons e l ih =>
    have hnot : ¬ (!e.scheduled && decide (e.readyTime ≤ now)) = true := by
      have hlt := (h e List.mem_cons_self).2
      simp only [Bool.and_eq_true, decide_eq_true_eq]
      omega
    rw [scheduleInstruction]
    split_ifs with hbw hfull
    · rfl
    · rfl
    all_goals
      rw [Option.bind_some]
      dsimp only
      rw [ih _ fun x hx => h x (List.mem_cons_of_mem _ hx)]
      rfl

/-- No entry is scheduled out of order, and none finds the free list empty. -/
lemma scheduleInstruction_spec (now bw : ℕ) (ha : Allocated n a (older ++ inFlight l))
    (h : AllRenamed a older l) (ho : InOrder l) :
    ∃ a' l', scheduleInstruction now bw a l = some (a',l') ∧
      Allocated n a' (older ++ inFlight l') ∧ AllRenamed a' older l' ∧ InOrder l' ∧
      (∀ e ∈ l', e.scheduled = false → e ∈ l) ∧ l'.length = l.length ∧ Kept a a' := by
  induction l generalizing a older bw with
  | nil => exact ⟨a,[],rfl,ha,trivial,ho,fun _ he _ => he,rfl,Kept.refl a⟩
  | cons e l ih =>
    obtain ⟨he,hl⟩ := h
    obtain ⟨hfirst,hrest⟩ := List.pairwise_cons.mp ho
    rw [scheduleInstruction]
    split_ifs with hbw hfull hready
    · exact ⟨a,_,rfl,ha,⟨he,hl⟩,ho,fun _ he _ => he,rfl,Kept.refl a⟩
    · exact ⟨a,_,rfl,ha,⟨he,hl⟩,ho,fun _ he _ => he,rfl,Kept.refl a⟩
    · simp only [Bool.and_eq_true, Bool.not_eq_true', decide_eq_true_eq] at hready
      rw [hready.1] at he
      have hwaiting : ∀ x ∈ l, x.scheduled = false := fun x hx => (hfirst x hx hready.1).1
      rw [inFlight_cons, RobEntry.writes_waiting hready.1, inFlight_waiting hwaiting,
        List.append_nil, List.append_nil] at ha
      obtain ⟨a₁,e',hsched,hs,ha₁,hren,hkept⟩ := doScheduling_spec ha he (Nat.not_lt.mp hfull)
      have ha₁' : Allocated n a₁ ((older ++ e'.writes) ++ inFlight l) := by
        rwa [inFlight_waiting hwaiting, List.append_nil]
      obtain ⟨a',l',hr,ha',hl',ho',hmem,hlen,hkept'⟩ :=
        ih (if e'.executed then bw else bw - 1) ha₁' (hl.waiting hwaiting) hrest
      refine ⟨a',e' :: l',?_,?_,⟨?_,hl'⟩,?_,fun x hx hxs => ?_,?_,hkept.trans hkept'⟩
      · rw [hsched, Option.bind_some]
        dsimp only
        rw [hr]
        rfl
      · rwa [inFlight_cons, ← List.append_assoc]
      · rw [if_pos hs]
        refine hren.mono hs (fun r q hr => mappingAfter_mono hkept'.backend hr)
          (fun r q hr hq => ?_) fun w hw => ?_
        · exact (hkept'.valid q (ha₁.not_free (List.subset_append_left _ _) hr)).trans hq
        · exact hkept'.valid _ (ha₁.flight_not_free (List.mem_append_right _ hw))
      · exact List.pairwise_cons.mpr ⟨fun x _ hx => (by rw [hs] at hx; cases hx),ho'⟩
      · rcases List.mem_cons.mp hx with rfl | hx
        · rw [hs] at hxs
          cases hxs
        · exact List.mem_cons_of_mem _ (hmem x hx hxs)
      · rw [List.length_cons, hlen, List.length_cons]
    · rw [Option.bind_some]
      dsimp only
      have hkeep : Allocated n a ((older ++ e.writes) ++ inFlight l) := by
        rwa [inFlight_cons, ← List.append_assoc] at ha
      obtain ⟨a',l',hr,ha',hl',ho',hmem,hlen,hkept⟩ :=
        ih (if e.executed then bw else bw - 1) hkeep hl hrest
      refine ⟨a',e :: l',by rw [hr]; rfl,?_,⟨?_,hl'⟩,?_,fun x hx hxs => ?_,?_,hkept⟩
      · rwa [inFlight_cons, ← List.append_assoc]
      · cases hs : e.scheduled with
        | true =>
          rw [if_pos hs] at he
          refine he.mono hs (fun r q hr => mappingAfter_mono hkept.backend hr)
            (fun r q hr hq => ?_) fun w hw => ?_
          · exact (hkept.valid q (ha.not_free (List.subset_append_left _ _) hr)).trans hq
          · rw [inFlight_cons] at ha
            exact hkept.valid _
              (ha.flight_not_free (List.mem_append_right _ (List.mem_append_left _ hw)))
        | false =>
          rw [hs] at he
          exact he
      · refine List.pairwise_cons.mpr ⟨fun x hx hs => ?_,ho'⟩
        -- an entry that is not ready stops the younger ones
        have hlate : ∀ y ∈ l, y.scheduled = false ∧ now < y.readyTime := by
          intro y hy
          obtain ⟨hys,hle⟩ := hfirst y hy hs
          simp only [hs, Bool.not_false, Bool.true_and, decide_eq_true_eq] at hready
          exact ⟨hys,by omega⟩
        rw [scheduleInstruction_not_ready _ hlate] at hr
        cases hr
        exact hfirst x hx hs
      · rcases List.mem_cons.mp hx with rfl | hx
        · exact List.mem_cons_self
        · exact List.mem_cons_of_mem _ (hmem x hx hxs)
      · rw [List.length_cons, hlen, List.length_cons]

end Entries

namespace Core

/-- What holds between the cycles. -/
structure Consistent (c : CoreConfig) (s : Core) : Prop where
  allocated : Allocated c.registers s.regAllocator (inFlight s.rob)
  renamed : AllRenamed s.regAllocator [] s.rob
  inOrder : InOrder s.rob
  delay : ∀ e ∈ s.rob, e.scheduled = false → e.readyTime ≤ s.currentTime + schedulingDelay c s

variable {c : CoreConfig} {s : Core}

lemma start_consistent (c : CoreConfig) : (start c).Consistent c where
  allocated := Allocated.start c.registers
  renamed := trivial
  inOrder := List.Pairwise.nil
  delay _ he := absurd he List.not_mem_nil

lemma Consistent.dispatch (h : s.Consistent c) (buffer : List Instruction) :
    (dispatchInstruction c s buffer).Consistent c := by
  have hnew : ∀ l : List Instruction, ∀ e ∈ l.map (RobEntry.dispatched ·
      (s.currentTime + schedulingDelay c s)), (e.scheduled = false ∧ Waiting e) ∧
        e.readyTime = s.currentTime + schedulingDelay c s := by
    intro l e he
    obtain ⟨instr,-,rfl⟩ := List.mem_map.mp he
    exact ⟨⟨rfl,rfl,rfl,rfl,rfl⟩,rfl⟩
  refine ⟨?_,h.renamed.append (hnew _ · · |>.1),?_,fun e he hs => ?_⟩
  · change Allocated _ _ (inFlight (s.rob ++ _))
    rw [inFlight_append, inFlight_waiting fun e he => (hnew _ e he).1.1, List.append_nil]
    exact h.allocated
  · refine List.pairwise_append.mpr ⟨h.inOrder,?_,fun e he e' he' hs => ?_⟩
    · exact List.pairwise_map.mpr (List.pairwise_of_forall fun _ _ _ => ⟨rfl,Nat.le_refl _⟩)
    · exact ⟨(hnew _ _ he').1.1,by rw [(hnew _ _ he').2]; exact h.delay e he hs⟩
  · rcases List.mem_append.mp he with he | he
    · exact h.delay e he hs
    · exact Nat.le_of_eq (hnew _ e he).2

/-- A cycle never takes a register from an empty free list. -/
lemma Consistent.operate (h : s.Consistent c) (i : CoreInput) :
    ∃ s', s.operate c i = some s' ∧ s'.Consistent c := by
  obtain ⟨a₁,l₁,hr,ha₁,hl₁,hsuffix⟩ := retireRob_spec c.retireWidth h.allocated h.renamed
  have ho₁ : InOrder l₁ := h.inOrder.sublist hsuffix.sublist
  have hnodup : ((inFlight l₁).map Prod.snd).Nodup :=
    (List.nodup_append.mp ha₁.partition.nodup).2.1
  obtain ⟨a₂,l₂,hc,ha₂,hl₂,hf₂,ho₂,ht₂,-,-,-⟩ := completeInflightInstruction_spec i.memOpsDone
    s.currentTime c.execWidth ha₁ hl₁ ho₁ hnodup
  obtain ⟨hl₃,hf₃,ho₃,ht₃⟩ := executeInstruction_spec s.currentTime
    (if s.warmup then 0 else c.execLatency) c.execWidth hl₂ ho₂
  generalize he : executeInstruction a₂ s.currentTime (if s.warmup then 0 else c.execLatency)
    c.execWidth l₂ = l₃ at hl₃ hf₃ ho₃ ht₃
  have ha₃ : Allocated c.registers a₂ ([] ++ inFlight l₃) := by
    rwa [List.nil_append, hf₃, hf₂]
  obtain ⟨a₄,l₄,hs,ha₄,hl₄,ho₄,hmem,-,-⟩ :=
    scheduleInstruction_spec s.currentTime c.schedulerSize ha₃ hl₃ ho₃
  have hscheduled : Consistent c { s with regAllocator := a₄, rob := l₄ } := by
    refine ⟨ha₄,hl₄,ho₄,fun e he' hes => ?_⟩
    obtain ⟨x,hx,hxs,hex⟩ := ht₃ e (hmem e he' hes)
    obtain rfl := hex (hxs ▸ hes)
    obtain ⟨y,hy,hys,hey⟩ := ht₂ e hx
    obtain rfl := hey (hys ▸ hes)
    exact h.delay e (hsuffix.subset hy) hes
  refine ⟨{ dispatchInstruction c { s with regAllocator := a₄, rob := l₄ } i.dispatchBuffer with
    currentTime := s.currentTime + 1
    warmup := s.warmup && !i.endWarmup },?_,?_⟩
  · simp only [Core.operate, hr, hc, he, hs, Option.map_some]
  · have hd := hscheduled.dispatch i.dispatchBuffer
    refine ⟨hd.allocated,hd.renamed,hd.inOrder,fun e he' hes => ?_⟩
    refine Nat.le_trans (hd.delay e he' hes) ?_
    -- the delay only grows when the warm-up ends
    change s.currentTime + (if s.warmup = true then 0 else c.schedulingLatency) ≤
      s.currentTime + 1 +
        (if (s.warmup && !i.endWarmup) = true then 0 else c.schedulingLatency)
    cases s.warmup <;> cases i.endWarmup <;> grind

lemma run_consistent (c : CoreConfig) (inputs : List CoreInput) :
    ∃ s, run c inputs = some s ∧ s.Consistent c := by
  induction inputs using List.reverseRecOn with
  | nil => exact ⟨_,rfl,start_consistent c⟩
  | append_singleton inputs i ih =>
    obtain ⟨s,hs,hc⟩ := ih
    obtain ⟨s',hs',hc'⟩ := hc.operate i
    refine ⟨s',?_,hc'⟩
    rw [run, List.foldlM_append]
    change (run c inputs).bind _ = some s'
    rw [hs, Option.bind_some, List.foldlM_cons, hs']
    rfl

/-- No run takes a register from an empty free list. Every physical register is either free, or in
flight, or committed. The operands of a scheduled instruction are the registers of the youngest
older writes to its sources, they are not freed while it is in the buffer, and when it has executed,
the instructions that it takes them from are complete. -/
theorem operands_of_youngest_writes (c : CoreConfig) (inputs : List CoreInput) :
    ∃ s, run c inputs = some s ∧
      Partition c.registers s.regAllocator.freeRegisters ((inFlight s.rob).map Prod.snd)
        s.regAllocator.backendRat ∧
      s.regAllocator.frontendRat = mappingAfter s.regAllocator.backendRat (inFlight s.rob) ∧
      ∀ older e younger, s.rob = older ++ e :: younger → e.scheduled = true →
        (∀ x ∈ older, x.scheduled = true) ∧
        List.Forall₂ (fun reg p =>
          mappingAfter s.regAllocator.backendRat (inFlight older) reg = some p ∧
            p ∉ s.regAllocator.freeRegisters) e.instr.sourceRegisters e.sourceRegisters ∧
        (e.executed = true → ∀ x ∈ older, ∀ w ∈ x.writes, w.2 ∈ e.sourceRegisters →
          x.completed = true) := by
  obtain ⟨s,hs,hc⟩ := run_consistent c inputs
  refine ⟨s,hs,hc.allocated.partition,hc.allocated.frontend,fun older e younger hrob hsched => ?_⟩
  have hinOrder := hc.inOrder
  have hrenamed := hc.renamed
  have hallocated := hc.allocated
  rw [hrob] at hinOrder hrenamed hallocated
  rw [inFlight_append] at hallocated
  have holder : ∀ x ∈ older, x.scheduled = true := by
    intro x hx
    by_contra hxs
    have hlate := (List.pairwise_append.mp hinOrder).2.2 x hx e List.mem_cons_self
      (Bool.not_eq_true _ ▸ hxs)
    rw [hlate.1] at hsched
    cases hsched
  have he := hrenamed.drop.1
  rw [if_pos hsched, List.nil_append] at he
  refine ⟨holder,he.sources.imp fun _ _ hp =>
    ⟨hp,hallocated.not_free (List.subset_append_left _ _) hp⟩,fun hx x hxo w hw hws => ?_⟩
  have hvalid := he.ready hx w.2 hws
  obtain ⟨before,after,hsplit⟩ := List.append_of_mem hxo
  rw [hsplit, List.append_assoc, List.cons_append] at hrenamed
  have hren := hrenamed.drop.1
  rw [if_pos (holder x hxo)] at hren
  rw [← hren.valid w.2 (hren.map_writes (holder x hxo) ▸ List.mem_map_of_mem hw)]
  exact hvalid

end Core
end CaLabs.Lab4
