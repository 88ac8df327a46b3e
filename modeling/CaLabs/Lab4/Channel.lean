import CaLabs.Lab4.MissHandling
import Mathlib.Data.List.Induction

/-! The channel between two levels: its queues merge the packets for one line, and forward from the
writes. No accepted request is lost, and none is made up. -/
namespace CaLabs.Lab4

/-- A request, with the fields that the channel reads. -/
structure ChannelPacket where
  forwardChecked : Bool := false
  isTranslated : Bool := true
  responseRequested : Bool := true
  address : ℕ
  vAddress : ℕ := 0
  data : ℕ := 0
  instrDependOnMe : List ℕ := []
  deriving DecidableEq, Repr

inductive ChannelQueue
  | RQ
  | PQ
  | WQ
  deriving DecidableEq, Repr

/-- The queues with their sizes, and the responses for the upper level. -/
structure Channel where
  size : ChannelQueue → ℕ
  offsetBits : ℕ
  matchOffsetBits : Bool := false
  queue : ChannelQueue → List ChannelPacket := fun _ => []
  returned : List Response := []

/-- do_collision_for: the packet of the range that is tried is the first one whose address has
the same upper bits, here with those before it and those after it. -/
def collisionFor (shamt : ℕ) (packet : ChannelPacket) :
    List ChannelPacket → Option (List ChannelPacket × ChannelPacket × List ChannelPacket)
  | [] => none
  | x :: xs =>
    if x.address / 2 ^ shamt = packet.address / 2 ^ shamt then
      if packet.isTranslated = x.isTranslated then some ([],x,xs) else none
    else
      match collisionFor shamt packet xs with
      | none => none
      | some (before,found,after) => some (x :: before,found,after)

def ChannelPacket.mergedWith (destination source : ChannelPacket) : ChannelPacket :=
  { destination with
    responseRequested := destination.responseRequested || source.responseRequested
    instrDependOnMe := setUnion destination.instrDependOnMe source.instrDependOnMe }

/-- do_collision_for_merge, with the range after the merge. -/
def collisionForMerge (shamt : ℕ) (packet : ChannelPacket) (range : List ChannelPacket) :
    Option (List ChannelPacket) :=
  match collisionFor shamt packet range with
  | none => none
  | some (before,found,after) => some (before ++ found.mergedWith packet :: after)

/-- do_collision_for_return, with the responses that are returned. -/
def collisionForReturn (shamt : ℕ) (packet : ChannelPacket) (range : List ChannelPacket) :
    Option (List Response) :=
  match collisionFor shamt packet range with
  | none => none
  | some (_,found,_) => some (if packet.responseRequested then
      [⟨packet.address,packet.vAddress,found.data,packet.instrDependOnMe⟩] else [])

/-- The loop over the write queue, with the packets before the iterator. -/
def checkWrites (shamt : ℕ) (passed : List ChannelPacket) :
    List ChannelPacket → List ChannelPacket
  | [] => passed
  | packet :: rest =>
    match collisionForMerge shamt packet passed with
    | some merged => checkWrites shamt merged rest
    | none => checkWrites shamt (passed ++ [{ packet with forwardChecked := true }]) rest

/-- The loop over the read queue and the one over the prefetch queue. -/
def checkReads (writeShamt readShamt : ℕ) (writes passed : List ChannelPacket)
    (returned : List Response) : List ChannelPacket → List ChannelPacket × List Response
  | [] => (passed,returned)
  | packet :: rest =>
    match collisionForReturn writeShamt packet writes with
    | some responses =>
      checkReads writeShamt readShamt writes passed (returned ++ responses) rest
    | none =>
      match collisionForMerge readShamt packet passed with
      | some merged => checkReads writeShamt readShamt writes merged returned rest
      | none => checkReads writeShamt readShamt writes
          (passed ++ [{ packet with forwardChecked := true }]) returned rest

namespace Channel
variable (c : Channel)

def writeShamt : ℕ := if c.matchOffsetBits then 0 else c.offsetBits

/-- The loops start at the first packet that has not been checked. -/
def checkCollision : Channel :=
  let checked q := (c.queue q).takeWhile ChannelPacket.forwardChecked
  let rest q := (c.queue q).dropWhile ChannelPacket.forwardChecked
  let writes := checkWrites c.writeShamt (checked .WQ) (rest .WQ)
  let reads := checkReads c.writeShamt c.offsetBits writes (checked .RQ) c.returned (rest .RQ)
  let prefetches :=
    checkReads c.writeShamt c.offsetBits writes (checked .PQ) reads.2 (rest .PQ)
  { c with
    queue := fun
      | .WQ => writes
      | .RQ => reads.1
      | .PQ => prefetches.1
    returned := prefetches.2 }

/-- do_add_queue, for add_rq, add_wq and add_pq. -/
def addQueue (q : ChannelQueue) (packet : ChannelPacket) : Channel × Bool :=
  if c.size q ≤ (c.queue q).length then (c,false)
  else
    ({ c with
      queue := Function.update c.queue q
        (c.queue q ++ [{ packet with forwardChecked := false }]) },true)

def take (q : ChannelQueue) (n : ℕ) : Channel :=
  { c with queue := Function.update c.queue q ((c.queue q).drop n) }

end Channel

/-- What the levels do with a channel: the upper one adds requests and takes responses, the lower
one looks for collisions, takes packets from the front and responds. -/
inductive ChannelEvent
  | add (q : ChannelQueue) (packet : ChannelPacket)
  | checkCollision
  | take (q : ChannelQueue) (n : ℕ)
  | respond (response : Response)
  | takeReturned (n : ℕ)

/-- A channel with the requests that were accepted and taken, the responses of the lower level, and
those that the upper level has taken. -/
structure ChannelRun where
  channel : Channel
  accepted : List ChannelPacket := []
  taken : List ChannelPacket := []
  responded : List Response := []
  delivered : List Response := []

namespace ChannelRun
variable (s : ChannelRun)

def step : ChannelEvent → ChannelRun
  | .add q packet =>
    let r := s.channel.addQueue q packet
    { s with channel := r.1, accepted := if r.2 then s.accepted ++ [packet] else s.accepted }
  | .checkCollision => { s with channel := s.channel.checkCollision }
  | .take q n =>
    { s with channel := s.channel.take q n, taken := s.taken ++ (s.channel.queue q).take n }
  | .respond response =>
    { s with
      channel := { s.channel with returned := s.channel.returned ++ [response] }
      responded := s.responded ++ [response] }
  | .takeReturned n =>
    { s with
      channel := { s.channel with returned := s.channel.returned.drop n }
      delivered := s.delivered ++ s.channel.returned.take n }

def run (events : List ChannelEvent) : ChannelRun := events.foldl step s

end ChannelRun

section Collisions
variable {offsetBits shamt : ℕ} {packet : ChannelPacket}

lemma collisionFor_spec {range before after : List ChannelPacket} {found : ChannelPacket}
    (h : collisionFor shamt packet range = some (before,found,after)) :
    range = before ++ found :: after ∧
      found.address / 2 ^ shamt = packet.address / 2 ^ shamt ∧
      packet.isTranslated = found.isTranslated := by
  induction range generalizing before with
  | nil => exact absurd h (by simp [collisionFor])
  | cons x xs ih =>
    unfold collisionFor at h
    split_ifs at h with haddr htrans
    · obtain ⟨rfl,rfl,rfl⟩ : [] = before ∧ x = found ∧ xs = after := by simpa using h
      exact ⟨rfl,haddr,htrans⟩
    · cases hrest : collisionFor shamt packet xs with
      | none => simp [hrest] at h
      | some r =>
        obtain ⟨before',found',after'⟩ := r
        rw [hrest] at h
        obtain ⟨rfl,rfl,rfl⟩ : x :: before' = before ∧ found' = found ∧ after' = after := by
          simpa using h
        obtain ⟨rfl,hspec⟩ := ih hrest
        exact ⟨rfl,hspec⟩

lemma collisionForMerge_spec {range merged : List ChannelPacket}
    (h : collisionForMerge shamt packet range = some merged) :
    ∃ before found after, range = before ++ found :: after ∧
      found.address / 2 ^ shamt = packet.address / 2 ^ shamt ∧
      packet.isTranslated = found.isTranslated ∧
      merged = before ++ found.mergedWith packet :: after := by
  unfold collisionForMerge at h
  cases hfind : collisionFor shamt packet range with
  | none => simp [hfind] at h
  | some r =>
    obtain ⟨before,found,after⟩ := r
    obtain ⟨hrange,haddr,htrans⟩ := collisionFor_spec hfind
    rw [hfind] at h
    exact ⟨before,found,after,hrange,haddr,htrans,(Option.some.inj h).symm⟩

lemma collisionForReturn_spec {range : List ChannelPacket} {responses : List Response}
    (h : collisionForReturn shamt packet range = some responses) :
    ∃ data, responses = if packet.responseRequested then
      [⟨packet.address,packet.vAddress,data,packet.instrDependOnMe⟩] else [] := by
  unfold collisionForReturn at h
  cases hfind : collisionFor shamt packet range with
  | none => simp [hfind] at h
  | some r =>
    rw [hfind] at h
    exact ⟨_,(Option.some.inj h).symm⟩

/-- The address bits that are compared decide the line. -/
def Compares (offsetBits shamt : ℕ) : Prop := shamt = 0 ∨ shamt = offsetBits

lemma Compares.line_eq (h : Compares offsetBits shamt) {a b : ℕ}
    (heq : a / 2 ^ shamt = b / 2 ^ shamt) : a / 2 ^ offsetBits = b / 2 ^ offsetBits := by
  rcases h with rfl | rfl
  · rw [pow_zero, Nat.div_one, Nat.div_one] at heq
    rw [heq]
  · exact heq

lemma Channel.compares_writeShamt (c : Channel) : Compares c.offsetBits c.writeShamt := by
  unfold Channel.writeShamt
  split_ifs
  · exact .inl rfl
  · exact .inr rfl

end Collisions

/-- A packet that asks for a response for an instruction that waits for the line of another one. -/
structure ChannelPacket.Asks (offsetBits : ℕ) (packet : ChannelPacket) (instr : ℕ)
    (x : ChannelPacket) : Prop where
  requested : x.responseRequested = true
  translated : x.isTranslated = packet.isTranslated
  line : x.address / 2 ^ offsetBits = packet.address / 2 ^ offsetBits
  waits : instr ∈ x.instrDependOnMe

/-- A response for an instruction that waits for the line of a packet. -/
structure ChannelPacket.Answers (offsetBits : ℕ) (packet : ChannelPacket) (instr : ℕ)
    (r : Response) : Prop where
  line : r.address / 2 ^ offsetBits = packet.address / 2 ^ offsetBits
  waits : instr ∈ r.instrDependOnMe

section Keeps
variable {offsetBits shamt readShamt instr : ℕ} {wanted packet : ChannelPacket}
open ChannelPacket

lemma ChannelPacket.Asks.checked {x : ChannelPacket} (h : Asks offsetBits wanted instr x)
    (b : Bool) : Asks offsetBits wanted instr { x with forwardChecked := b } :=
  ⟨h.requested,h.translated,h.line,h.waits⟩

/-- A merge keeps what either packet asks for. -/
lemma merge_asks (hs : Compares offsetBits shamt) {range merged : List ChannelPacket}
    (hm : collisionForMerge shamt packet range = some merged)
    (h : (∃ x ∈ range, Asks offsetBits wanted instr x) ∨ Asks offsetBits wanted instr packet) :
    ∃ x ∈ merged, Asks offsetBits wanted instr x := by
  obtain ⟨before,found,after,rfl,haddr,htrans,rfl⟩ := collisionForMerge_spec hm
  have hline := hs.line_eq haddr
  have hmid : found.mergedWith packet ∈ before ++ found.mergedWith packet :: after := by simp
  rcases h with ⟨x,hx,hasks⟩ | hasks
  · rcases List.mem_append.mp hx with hx | hx
    · exact ⟨x,List.mem_append_left _ hx,hasks⟩
    · rcases List.mem_cons.mp hx with rfl | hx
      · exact ⟨_,hmid,by simp [mergedWith, hasks.requested],hasks.translated,hasks.line,
          (mem_setUnion _ _).mpr (.inl hasks.waits)⟩
      · exact ⟨x,List.mem_append_right _ (List.mem_cons_of_mem _ hx),hasks⟩
  · exact ⟨_,hmid,by simp [mergedWith, hasks.requested],htrans.symm.trans hasks.translated,
      hline.trans hasks.line,(mem_setUnion _ _).mpr (.inr hasks.waits)⟩

lemma checkWrites_asks (hs : Compares offsetBits shamt) (passed rest : List ChannelPacket)
    (h : ∃ x ∈ passed ++ rest, Asks offsetBits wanted instr x) :
    ∃ x ∈ checkWrites shamt passed rest, Asks offsetBits wanted instr x := by
  induction rest generalizing passed with
  | nil => simpa [checkWrites] using h
  | cons packet rest ih =>
    have hcases : ((∃ x ∈ passed, Asks offsetBits wanted instr x) ∨
        Asks offsetBits wanted instr packet) ∨ ∃ x ∈ rest, Asks offsetBits wanted instr x := by
      simpa [or_and_right, exists_or, or_assoc] using h
    unfold checkWrites
    cases hm : collisionForMerge shamt packet passed with
    | some merged =>
      refine ih merged ?_
      rcases hcases with hhere | ⟨x,hx,hasks⟩
      · obtain ⟨x,hx,hasks⟩ := merge_asks hs hm hhere
        exact ⟨x,List.mem_append_left _ hx,hasks⟩
      · exact ⟨x,List.mem_append_right _ hx,hasks⟩
    | none =>
      refine ih _ ?_
      rcases hcases with (⟨x,hx,hasks⟩ | hasks) | ⟨x,hx,hasks⟩
      · exact ⟨x,by simp [hx],hasks⟩
      · exact ⟨{ packet with forwardChecked := true },by simp,hasks.checked true⟩
      · exact ⟨x,by simp [hx],hasks⟩

/-- What a read asks for stays in the queue, or is answered from the writes. -/
lemma checkReads_asks (shamt : ℕ) (hr : Compares offsetBits readShamt)
    (writes passed : List ChannelPacket) (returned : List Response) (rest : List ChannelPacket)
    (h : (∃ x ∈ passed ++ rest, Asks offsetBits wanted instr x) ∨
      ∃ r ∈ returned, Answers offsetBits wanted instr r) :
    (∃ x ∈ (checkReads shamt readShamt writes passed returned rest).1,
        Asks offsetBits wanted instr x) ∨
      ∃ r ∈ (checkReads shamt readShamt writes passed returned rest).2,
        Answers offsetBits wanted instr r := by
  induction rest generalizing passed returned with
  | nil => simpa [checkReads] using h
  | cons packet rest ih =>
    have hcases : (((∃ x ∈ passed, Asks offsetBits wanted instr x) ∨
        Asks offsetBits wanted instr packet) ∨ ∃ x ∈ rest, Asks offsetBits wanted instr x) ∨
          ∃ r ∈ returned, Answers offsetBits wanted instr r := by
      simpa [or_and_right, exists_or, or_assoc] using h
    unfold checkReads
    cases hreturn : collisionForReturn shamt packet writes with
    | some responses =>
      refine ih _ _ ?_
      rcases hcases with ((⟨x,hx,hasks⟩ | hasks) | ⟨x,hx,hasks⟩) | ⟨r,hmem,hans⟩
      · exact .inl ⟨x,List.mem_append_left _ hx,hasks⟩
      · obtain ⟨data,rfl⟩ := collisionForReturn_spec hreturn
        refine .inr ⟨⟨packet.address,packet.vAddress,data,packet.instrDependOnMe⟩,?_,
          hasks.line,hasks.waits⟩
        rw [if_pos hasks.requested]
        simp
      · exact .inl ⟨x,List.mem_append_right _ hx,hasks⟩
      · exact .inr ⟨r,List.mem_append_left _ hmem,hans⟩
    | none =>
      cases hm : collisionForMerge readShamt packet passed with
      | some merged =>
        refine ih _ _ ?_
        rcases hcases with (hhere | ⟨x,hx,hasks⟩) | hans
        · obtain ⟨x,hx,hasks⟩ := merge_asks hr hm hhere
          exact .inl ⟨x,List.mem_append_left _ hx,hasks⟩
        · exact .inl ⟨x,List.mem_append_right _ hx,hasks⟩
        · exact .inr hans
      | none =>
        refine ih _ _ ?_
        rcases hcases with ((⟨x,hx,hasks⟩ | hasks) | ⟨x,hx,hasks⟩) | hans
        · exact .inl ⟨x,by simp [hx],hasks⟩
        · exact .inl ⟨{ packet with forwardChecked := true },by simp,hasks.checked true⟩
        · exact .inl ⟨x,by simp [hx],hasks⟩
        · exact .inr hans

/-- A new request is kept in a queue or answered by a check for collisions. -/
def Channel.Owes (c : Channel) (wanted : ChannelPacket) (instr : ℕ) : Prop :=
  (∃ q, ∃ x ∈ c.queue q, Asks c.offsetBits wanted instr x) ∨
    ∃ r ∈ c.returned, Answers c.offsetBits wanted instr r

lemma Channel.Owes.checkCollision {c : Channel} (h : c.Owes wanted instr) :
    c.checkCollision.Owes wanted instr := by
  have hread : Compares c.offsetBits c.offsetBits := .inr rfl
  have hsplit : ∀ q, (c.queue q).takeWhile ChannelPacket.forwardChecked ++
      (c.queue q).dropWhile ChannelPacket.forwardChecked = c.queue q :=
    fun _ => List.takeWhile_append_dropWhile
  set writes := c.checkCollision.queue .WQ
  set reads := checkReads c.writeShamt c.offsetBits writes
    ((c.queue .RQ).takeWhile ChannelPacket.forwardChecked) c.returned
    ((c.queue .RQ).dropWhile ChannelPacket.forwardChecked)
  have hprefetch : ((∃ x ∈ c.queue .PQ, Asks c.offsetBits wanted instr x) ∨
      ∃ r ∈ reads.2, Answers c.offsetBits wanted instr r) → c.checkCollision.Owes wanted instr := by
    intro hp
    rw [← hsplit .PQ] at hp
    exact (checkReads_asks c.writeShamt hread writes _ reads.2 _ hp).imp_left
      fun hx => ⟨.PQ,hx⟩
  have hload : ((∃ x ∈ c.queue .RQ, Asks c.offsetBits wanted instr x) ∨
      ∃ r ∈ c.returned, Answers c.offsetBits wanted instr r) →
        c.checkCollision.Owes wanted instr := by
    intro hl
    rw [← hsplit .RQ] at hl
    rcases checkReads_asks c.writeShamt hread writes _ c.returned _ hl with hx | hr
    · exact .inl ⟨.RQ,hx⟩
    · exact hprefetch (.inr hr)
  rcases h with ⟨q,hq⟩ | hr
  · cases q with
    | RQ => exact hload (.inl hq)
    | PQ => exact hprefetch (.inl hq)
    | WQ =>
      rw [← hsplit .WQ] at hq
      exact .inl ⟨.WQ,checkWrites_asks c.compares_writeShamt _ _ hq⟩
  · exact hload (.inr hr)

lemma Channel.addQueue_cases (c : Channel) (q : ChannelQueue) (p : ChannelPacket) :
    c.addQueue q p = (c,false) ∨ (c.queue q).length < c.size q ∧ c.addQueue q p = ({ c with
      queue := Function.update c.queue q
        (c.queue q ++ [{ p with forwardChecked := false }]) },true) := by
  unfold Channel.addQueue
  split_ifs with hfull
  · exact .inl rfl
  · exact .inr ⟨Nat.lt_of_not_le hfull,rfl⟩

lemma Channel.mem_addQueue {c : Channel} {q q' : ChannelQueue} {p x : ChannelPacket}
    (hx : x ∈ c.queue q') : x ∈ (c.addQueue q p).1.queue q' := by
  rcases c.addQueue_cases q p with heq | ⟨-,heq⟩ <;> rw [heq]
  · exact hx
  · by_cases hq : q' = q
    · subst hq
      simp [hx]
    · simpa [Function.update_of_ne hq] using hx

/-- Only the queue changes. -/
lemma Channel.addQueue_framed (c : Channel) (q : ChannelQueue) (p : ChannelPacket) :
    (c.addQueue q p).1.offsetBits = c.offsetBits ∧ (c.addQueue q p).1.returned = c.returned := by
  rcases c.addQueue_cases q p with heq | ⟨-,heq⟩ <;> rw [heq] <;> exact ⟨rfl,rfl⟩

end Keeps

namespace ChannelRun
open ChannelPacket
variable {s : ChannelRun} {wanted : ChannelPacket} {instr : ℕ}

/-- A request is in the channel or with the lower level, or it is answered. -/
def Owes (s : ChannelRun) (wanted : ChannelPacket) (instr : ℕ) : Prop :=
  ((∃ q, ∃ x ∈ s.channel.queue q, Asks s.channel.offsetBits wanted instr x) ∨
      ∃ x ∈ s.taken, Asks s.channel.offsetBits wanted instr x) ∨
    ∃ r ∈ s.channel.returned ++ s.delivered, Answers s.channel.offsetBits wanted instr r

lemma step_offsetBits (s : ChannelRun) (e : ChannelEvent) :
    (s.step e).channel.offsetBits = s.channel.offsetBits := by
  cases e with
  | add q p => exact (s.channel.addQueue_framed q p).1
  | _ => rfl

lemma Owes.step (h : s.Owes wanted instr) (e : ChannelEvent) :
    (s.step e).Owes wanted instr := by
  unfold Owes
  rw [s.step_offsetBits e]
  cases e with
  | add q p =>
    simp only [ChannelRun.step, (s.channel.addQueue_framed q p).2]
    refine h.imp_left fun h => h.imp_left ?_
    rintro ⟨q',x,hx,hasks⟩
    exact ⟨q',x,Channel.mem_addQueue hx,hasks⟩
  | checkCollision =>
    rcases h with (hq | htaken) | ⟨r,hr,hans⟩
    · rcases Channel.Owes.checkCollision (.inl hq) with hq | ⟨r,hr,hans⟩
      · exact .inl (.inl hq)
      · exact .inr ⟨r,List.mem_append_left _ hr,hans⟩
    · exact .inl (.inr htaken)
    · rcases List.mem_append.mp hr with hr | hr
      · rcases Channel.Owes.checkCollision (.inr ⟨r,hr,hans⟩) with hq | ⟨r,hr,hans⟩
        · exact .inl (.inl hq)
        · exact .inr ⟨r,List.mem_append_left _ hr,hans⟩
      · exact .inr ⟨r,List.mem_append_right _ hr,hans⟩
  | take q n =>
    refine h.imp_left fun h => ?_
    rcases h with ⟨q',x,hx,hasks⟩ | ⟨x,hx,hasks⟩
    · by_cases hq : q' = q
      · subst hq
        rw [← List.take_append_drop n (s.channel.queue q'), List.mem_append] at hx
        rcases hx with hx | hx
        · exact .inr ⟨x,List.mem_append_right _ hx,hasks⟩
        · exact .inl ⟨q',x,by simpa [ChannelRun.step, Channel.take] using hx,hasks⟩
      · exact .inl ⟨q',x,by
          simpa [ChannelRun.step, Channel.take, Function.update_of_ne hq] using hx,hasks⟩
    · exact .inr ⟨x,List.mem_append_left _ hx,hasks⟩
  | respond response =>
    refine h.imp_right ?_
    rintro ⟨r,hr,hans⟩
    refine ⟨r,?_,hans⟩
    simp only [ChannelRun.step, List.mem_append] at hr ⊢
    tauto
  | takeReturned n =>
    refine h.imp_right ?_
    rintro ⟨r,hr,hans⟩
    refine ⟨r,?_,hans⟩
    rw [← List.take_append_drop n s.channel.returned] at hr
    simp only [ChannelRun.step, List.mem_append] at hr ⊢
    tauto

/-- A packet that is accepted stands in its queue. -/
lemma owes_added {q : ChannelQueue} {p : ChannelPacket} (hr : (s.channel.addQueue q p).2 = true)
    (hreq : p.responseRequested = true) (hinstr : instr ∈ p.instrDependOnMe) :
    (s.step (.add q p)).Owes p instr := by
  rcases s.channel.addQueue_cases q p with heq | ⟨-,heq⟩
  · exact absurd hr (by simp [heq])
  · refine .inl (.inl ⟨q,{ p with forwardChecked := false },?_,hreq,?_,?_,hinstr⟩) <;>
      simp [ChannelRun.step, heq]

lemma run_concat (events : List ChannelEvent) (e : ChannelEvent) :
    s.run (events ++ [e]) = (s.run events).step e := by
  rw [run, List.foldl_concat]
  rfl

/-- In every run every instruction that waits for an accepted request is in a packet for its line
that asks for a response, in the channel or taken by the lower level, or in a response. -/
theorem accepted_requests_kept (c : Channel) (events : List ChannelEvent) {s : ChannelRun}
    (hs : s = ChannelRun.run { channel := c } events) {p : ChannelPacket} (hp : p ∈ s.accepted)
    (hreq : p.responseRequested = true) {instr : ℕ} (hinstr : instr ∈ p.instrDependOnMe) :
    ((∃ q, ∃ x ∈ s.channel.queue q, Asks s.channel.offsetBits p instr x) ∨
      ∃ x ∈ s.taken, Asks s.channel.offsetBits p instr x) ∨
    ∃ r ∈ s.channel.returned ++ s.delivered, Answers s.channel.offsetBits p instr r := by
  subst hs
  rw [← Owes]
  induction events using List.reverseRecOn with
  | nil => exact absurd hp List.not_mem_nil
  | append_singleton events e ih =>
    rw [run_concat] at hp ⊢
    by_cases hold : p ∈ (ChannelRun.run { channel := c } events).accepted
    · exact (ih hold).step e
    · cases e with
      | add q packet =>
        simp only [step] at hp
        split_ifs at hp with hr
        · rcases List.mem_append.mp hp with hp | hp
          · exact absurd hp hold
          · obtain rfl := List.mem_singleton.mp hp
            exact owes_added hr hreq hinstr
        · exact absurd hp hold
      | _ => exact absurd hp hold

/-- Two loads of one line, which are merged before the lower level takes them. -/
def twoLoads : List ChannelEvent :=
  [.add .RQ { address := 64, instrDependOnMe := [1] },
    .add .RQ { address := 72, instrDependOnMe := [2] }, .checkCollision, .take .RQ 1]

theorem twoLoads_accepted_requests_kept :
    let s := ChannelRun.run { channel := { size := fun _ => 4, offsetBits := 6 } } twoLoads
    s.taken = [{ address := 64, instrDependOnMe := [1,2], forwardChecked := true }] ∧
      s.Owes { address := 72, instrDependOnMe := [2] } 2 :=
  ⟨by decide,accepted_requests_kept { size := fun _ => 4, offsetBits := 6 } twoLoads rfl
    (by decide) rfl (by decide)⟩

end ChannelRun

/-- What packets and responses have by the way they are made: it holds of merged packets, and of
the responses to packets. -/
structure Lawful (offsetBits : ℕ) (P : ChannelPacket → Prop) (R : Response → Prop) : Prop where
  checked : ∀ x b, P x → P { x with forwardChecked := b }
  merged : ∀ x y, P x → P y → x.address / 2 ^ offsetBits = y.address / 2 ^ offsetBits →
    y.isTranslated = x.isTranslated → P (x.mergedWith y)
  returned : ∀ x data, P x → R ⟨x.address,x.vAddress,data,x.instrDependOnMe⟩

namespace Lawful
variable {offsetBits shamt readShamt : ℕ} {P : ChannelPacket → Prop} {R : Response → Prop}

lemma merge (h : Lawful offsetBits P R) (hs : Compares offsetBits shamt)
    {range merged : List ChannelPacket} {packet : ChannelPacket}
    (hm : collisionForMerge shamt packet range = some merged) (hrange : ∀ x ∈ range, P x)
    (hp : P packet) : ∀ x ∈ merged, P x := by
  obtain ⟨before,found,after,rfl,haddr,htrans,rfl⟩ := collisionForMerge_spec hm
  intro x hx
  rcases List.mem_append.mp hx with hx | hx
  · exact hrange x (List.mem_append_left _ hx)
  · rcases List.mem_cons.mp hx with rfl | hx
    · exact h.merged found packet (hrange found (by simp)) hp (hs.line_eq haddr) htrans
    · exact hrange x (List.mem_append_right _ (List.mem_cons_of_mem _ hx))

lemma passed_all {passed : List ChannelPacket} {packet : ChannelPacket} (h : Lawful offsetBits P R)
    (hpassed : ∀ x ∈ passed, P x) (hp : P packet) :
    ∀ x ∈ passed ++ [{ packet with forwardChecked := true }], P x := by
  intro x hx
  rcases List.mem_append.mp hx with hx | hx
  · exact hpassed x hx
  · obtain rfl := List.mem_singleton.mp hx
    exact h.checked packet true hp

lemma checkWrites (h : Lawful offsetBits P R) (hs : Compares offsetBits shamt)
    {passed rest : List ChannelPacket} (hpassed : ∀ x ∈ passed, P x) (hrest : ∀ x ∈ rest, P x) :
    ∀ x ∈ checkWrites shamt passed rest, P x := by
  induction rest generalizing passed with
  | nil => exact hpassed
  | cons packet rest ih =>
    obtain ⟨hp,hrest⟩ := List.forall_mem_cons.mp hrest
    unfold CaLabs.Lab4.checkWrites
    cases hm : collisionForMerge shamt packet passed with
    | some merged => exact ih (h.merge hs hm hpassed hp) hrest
    | none => exact ih (h.passed_all hpassed hp) hrest

lemma checkReads (h : Lawful offsetBits P R) (shamt : ℕ) (hs : Compares offsetBits readShamt)
    (writes : List ChannelPacket) {passed rest : List ChannelPacket} {returned : List Response}
    (hpassed : ∀ x ∈ passed, P x) (hreturned : ∀ r ∈ returned, R r) (hrest : ∀ x ∈ rest, P x) :
    (∀ x ∈ (checkReads shamt readShamt writes passed returned rest).1, P x) ∧
      ∀ r ∈ (checkReads shamt readShamt writes passed returned rest).2, R r := by
  induction rest generalizing passed returned with
  | nil => exact ⟨hpassed,hreturned⟩
  | cons packet rest ih =>
    obtain ⟨hp,hrest⟩ := List.forall_mem_cons.mp hrest
    unfold CaLabs.Lab4.checkReads
    cases hreturn : collisionForReturn shamt packet writes with
    | some responses =>
      refine ih hpassed (fun r hr => ?_) hrest
      rcases List.mem_append.mp hr with hr | hr
      · exact hreturned r hr
      · obtain ⟨data,rfl⟩ := collisionForReturn_spec hreturn
        split_ifs at hr with hreq
        · obtain rfl := List.mem_singleton.mp hr
          exact h.returned packet data hp
        · exact absurd hr List.not_mem_nil
    | none =>
      cases hm : collisionForMerge readShamt packet passed with
      | some merged => exact ih (h.merge hs hm hpassed hp) hreturned hrest
      | none => exact ih (h.passed_all hpassed hp) hreturned hrest

/-- All packets and responses of a channel. -/
def All (P : ChannelPacket → Prop) (R : Response → Prop) (c : Channel) : Prop :=
  (∀ q, ∀ x ∈ c.queue q, P x) ∧ ∀ r ∈ c.returned, R r

lemma checkCollision {c : Channel} (h : Lawful c.offsetBits P R) (hc : All P R c) :
    All P R c.checkCollision := by
  have hread : Compares c.offsetBits c.offsetBits := .inr rfl
  have hchecked : ∀ q, ∀ x ∈ (c.queue q).takeWhile ChannelPacket.forwardChecked, P x :=
    fun q x hx => hc.1 q x ((List.takeWhile_prefix _).mem hx)
  have hrest : ∀ q, ∀ x ∈ (c.queue q).dropWhile ChannelPacket.forwardChecked, P x :=
    fun q x hx => hc.1 q x ((List.dropWhile_suffix _).mem hx)
  have hwrites := h.checkWrites c.compares_writeShamt (hchecked .WQ) (hrest .WQ)
  set writes := c.checkCollision.queue .WQ
  have hreads := h.checkReads c.writeShamt hread writes (hchecked .RQ) hc.2 (hrest .RQ)
  have hprefetches := h.checkReads c.writeShamt hread writes (hchecked .PQ) hreads.2 (hrest .PQ)
  refine ⟨fun q => ?_,hprefetches.2⟩
  cases q with
  | RQ => exact hreads.1
  | PQ => exact hprefetches.1
  | WQ => exact hwrites

end Lawful

section Occupancy

lemma length_merge {shamt : ℕ} {packet : ChannelPacket} {range merged : List ChannelPacket}
    (hm : collisionForMerge shamt packet range = some merged) : merged.length = range.length := by
  obtain ⟨before,found,after,rfl,-,-,rfl⟩ := collisionForMerge_spec hm
  simp

lemma length_checkWrites (shamt : ℕ) (passed rest : List ChannelPacket) :
    (checkWrites shamt passed rest).length ≤ passed.length + rest.length := by
  induction rest generalizing passed with
  | nil => exact Nat.le_refl _
  | cons packet rest ih =>
    unfold checkWrites
    cases hm : collisionForMerge shamt packet passed with
    | some merged =>
      refine (ih merged).trans ?_
      rw [length_merge hm, List.length_cons]
      omega
    | none =>
      refine (ih _).trans ?_
      rw [List.length_append, List.length_singleton, List.length_cons]
      omega

lemma length_checkReads (writeShamt readShamt : ℕ) (writes passed : List ChannelPacket)
    (returned : List Response) (rest : List ChannelPacket) :
    (checkReads writeShamt readShamt writes passed returned rest).1.length ≤
      passed.length + rest.length := by
  induction rest generalizing passed returned with
  | nil => exact Nat.le_refl _
  | cons packet rest ih =>
    unfold checkReads
    cases collisionForReturn writeShamt packet writes with
    | some responses =>
      refine (ih _ _).trans ?_
      rw [List.length_cons]
      omega
    | none =>
      cases hm : collisionForMerge readShamt packet passed with
      | some merged =>
        refine (ih merged _).trans ?_
        rw [length_merge hm, List.length_cons]
        omega
      | none =>
        refine (ih _ _).trans ?_
        rw [List.length_append, List.length_singleton, List.length_cons]
        omega

lemma Channel.length_checkCollision (c : Channel) (q : ChannelQueue) :
    (c.checkCollision.queue q).length ≤ (c.queue q).length := by
  have hsplit := congrArg List.length
    (List.takeWhile_append_dropWhile (p := ChannelPacket.forwardChecked) (l := c.queue q))
  rw [List.length_append] at hsplit
  rw [← hsplit]
  cases q with
  | RQ => exact length_checkReads _ _ _ _ _ _
  | PQ => exact length_checkReads _ _ _ _ _ _
  | WQ => exact length_checkWrites _ _ _

end Occupancy

namespace ChannelRun
variable {s : ChannelRun}

/-- The instructions of a packet, and its request for a response, are from accepted ones. -/
structure Justifies (offsetBits : ℕ) (accepted : List ChannelPacket) (x : ChannelPacket) :
    Prop where
  requested : x.responseRequested = true → ∃ p ∈ accepted, p.responseRequested = true ∧
    p.isTranslated = x.isTranslated ∧ p.address / 2 ^ offsetBits = x.address / 2 ^ offsetBits
  waits : ∀ i ∈ x.instrDependOnMe, ∃ p ∈ accepted, p.isTranslated = x.isTranslated ∧
    p.address / 2 ^ offsetBits = x.address / 2 ^ offsetBits ∧ i ∈ p.instrDependOnMe

/-- A response is one of the lower level, or its instructions are from accepted packets. -/
def JustifiesResponse (offsetBits : ℕ) (accepted : List ChannelPacket) (responded : List Response)
    (r : Response) : Prop :=
  r ∈ responded ∨ ∀ i ∈ r.instrDependOnMe, ∃ p ∈ accepted,
    p.address / 2 ^ offsetBits = r.address / 2 ^ offsetBits ∧ i ∈ p.instrDependOnMe

lemma justifies_lawful (offsetBits : ℕ) (accepted : List ChannelPacket)
    (responded : List Response) : Lawful offsetBits (Justifies offsetBits accepted)
      (JustifiesResponse offsetBits accepted responded) where
  checked _ _ h := ⟨h.requested,h.waits⟩
  merged x y hx hy hline htrans := by
    constructor
    · intro hreq
      rcases Bool.or_eq_true_iff.mp hreq with hreq | hreq
      · exact hx.requested hreq
      · obtain ⟨p,hp,hpr,ht,hl⟩ := hy.requested hreq
        exact ⟨p,hp,hpr,ht.trans htrans,hl.trans hline.symm⟩
    · intro i hi
      rcases (mem_setUnion _ _).mp hi with hi | hi
      · exact hx.waits i hi
      · obtain ⟨p,hp,ht,hl,hi⟩ := hy.waits i hi
        exact ⟨p,hp,ht.trans htrans,hl.trans hline.symm,hi⟩
  returned x _ h := .inr fun i hi => by
    obtain ⟨p,hp,-,hl,hi⟩ := h.waits i hi
    exact ⟨p,hp,hl,hi⟩

lemma Justifies.mono {offsetBits : ℕ} {accepted accepted' : List ChannelPacket}
    {x : ChannelPacket} (h : Justifies offsetBits accepted x) (hsub : accepted ⊆ accepted') :
    Justifies offsetBits accepted' x where
  requested hreq := by
    obtain ⟨p,hp,hspec⟩ := h.requested hreq
    exact ⟨p,hsub hp,hspec⟩
  waits i hi := by
    obtain ⟨p,hp,hspec⟩ := h.waits i hi
    exact ⟨p,hsub hp,hspec⟩

lemma JustifiesResponse.mono {offsetBits : ℕ} {accepted accepted' : List ChannelPacket}
    {responded responded' : List Response} {r : Response}
    (h : JustifiesResponse offsetBits accepted responded r) (hsub : accepted ⊆ accepted')
    (hsub' : responded ⊆ responded') : JustifiesResponse offsetBits accepted' responded' r := by
  refine h.imp (fun hr => hsub' hr) fun h i hi => ?_
  obtain ⟨p,hp,hspec⟩ := h i hi
  exact ⟨p,hsub hp,hspec⟩

/-- No packet or response is made up, and no queue is longer than its size. -/
structure Accounted (s : ChannelRun) : Prop where
  packets : ∀ x, ((∃ q, x ∈ s.channel.queue q) ∨ x ∈ s.taken) →
    Justifies s.channel.offsetBits s.accepted x
  responses : ∀ r ∈ s.channel.returned ++ s.delivered,
    JustifiesResponse s.channel.offsetBits s.accepted s.responded r
  occupancy : ∀ q, (s.channel.queue q).length ≤ s.channel.size q

lemma Accounted.add (h : s.Accounted) (q : ChannelQueue) (p : ChannelPacket) :
    (s.step (.add q p)).Accounted := by
  rcases s.channel.addQueue_cases q p with heq | ⟨hroom,heq⟩
  · simp only [ChannelRun.step, heq]
    exact ⟨h.packets,h.responses,h.occupancy⟩
  simp only [ChannelRun.step, heq, if_true]
  have hsub : s.accepted ⊆ s.accepted ++ [p] := List.subset_append_left _ _
  have hnew : Justifies s.channel.offsetBits (s.accepted ++ [p])
      { p with forwardChecked := false } :=
    ⟨fun hreq => ⟨p,by simp,hreq,rfl,rfl⟩,fun i hi => ⟨p,by simp,rfl,rfl,hi⟩⟩
  refine ⟨?_,fun r hr => (h.responses r hr).mono hsub (List.Subset.refl _),fun q' => ?_⟩
  · rintro x (⟨q',hx⟩ | hx)
    · by_cases hq : q' = q
      · subst hq
        simp only [Function.update_self, List.mem_append, List.mem_singleton] at hx
        rcases hx with hx | rfl
        · exact (h.packets x (.inl ⟨q',hx⟩)).mono hsub
        · exact hnew
      · simp only [Function.update_of_ne hq] at hx
        exact (h.packets x (.inl ⟨q',hx⟩)).mono hsub
    · exact (h.packets x (.inr hx)).mono hsub
  · by_cases hq : q' = q
    · subst hq
      simp only [Function.update_self, List.length_append, List.length_singleton]
      exact hroom
    · simpa [Function.update_of_ne hq] using h.occupancy q'

lemma Accounted.take (h : s.Accounted) (q : ChannelQueue) (n : ℕ) :
    (s.step (.take q n)).Accounted := by
  simp only [ChannelRun.step, Channel.take]
  refine ⟨?_,h.responses,fun q' => ?_⟩
  · rintro x (⟨q',hx⟩ | hx)
    · by_cases hq : q' = q
      · subst hq
        simp only [Function.update_self] at hx
        exact h.packets x (.inl ⟨q',List.mem_of_mem_drop hx⟩)
      · simp only [Function.update_of_ne hq] at hx
        exact h.packets x (.inl ⟨q',hx⟩)
    · rcases List.mem_append.mp hx with hx | hx
      · exact h.packets x (.inr hx)
      · exact h.packets x (.inl ⟨q,List.mem_of_mem_take hx⟩)
  · by_cases hq : q' = q
    · subst hq
      have := h.occupancy q'
      simp only [Function.update_self, List.length_drop]
      omega
    · simpa [Function.update_of_ne hq] using h.occupancy q'

theorem Accounted.step (h : s.Accounted) (e : ChannelEvent) : (s.step e).Accounted := by
  cases e with
  | add q p => exact h.add q p
  | checkCollision =>
    obtain ⟨hpackets,hresponses⟩ := (justifies_lawful s.channel.offsetBits s.accepted
      s.responded).checkCollision ⟨fun q x hx => h.packets x (.inl ⟨q,hx⟩),
        fun r hr => h.responses r (List.mem_append_left _ hr)⟩
    refine ⟨?_,?_,fun q => (s.channel.length_checkCollision q).trans (h.occupancy q)⟩
    · rintro x (⟨q,hx⟩ | hx)
      · exact hpackets q x hx
      · exact h.packets x (.inr hx)
    · intro r hr
      rcases List.mem_append.mp hr with hr | hr
      · exact hresponses r hr
      · exact h.responses r (List.mem_append_right _ hr)
  | take q n => exact h.take q n
  | respond response =>
    have hsub : s.responded ⊆ s.responded ++ [response] := List.subset_append_left _ _
    refine ⟨h.packets,fun r hr => ?_,h.occupancy⟩
    simp only [ChannelRun.step, List.mem_append, List.mem_singleton] at hr ⊢
    rcases hr with (hr | rfl) | hr
    · exact (h.responses r (List.mem_append_left _ hr)).mono (List.Subset.refl _) hsub
    · exact .inl (by simp)
    · exact (h.responses r (List.mem_append_right _ hr)).mono (List.Subset.refl _) hsub
  | takeReturned n =>
    refine ⟨h.packets,fun r hr => h.responses r ?_,h.occupancy⟩
    rw [← List.take_append_drop n s.channel.returned]
    simp only [ChannelRun.step, List.mem_append] at hr ⊢
    tauto

/-- In every run from empty queues no packet or response is made up, and no queue is longer than
its size. -/
theorem accepted_requests_only (size : ChannelQueue → ℕ) (offsetBits : ℕ) (matchOffsetBits : Bool)
    (events : List ChannelEvent) :
    (ChannelRun.run { channel := {
      size := size, offsetBits := offsetBits, matchOffsetBits := matchOffsetBits } }
        events).Accounted := by
  have hstart : Accounted { channel := {
      size := size, offsetBits := offsetBits, matchOffsetBits := matchOffsetBits } } :=
    ⟨fun x hx => absurd hx (by simp),fun r hr => absurd hr (by simp),fun _ => Nat.zero_le _⟩
  exact List.foldlRecOn events ChannelRun.step hstart fun _ hs e _ => hs.step e

end ChannelRun
end CaLabs.Lab4
