import CaLabs.Lab4.CacheLevel
import Mathlib.Algebra.BigOperators.Group.List.Basic
import Mathlib.Data.List.Nodup
import Mathlib.Data.List.Perm.Basic

/-! The packets of a cache level in any order of its events: they are answered, once for each
channel, and the answers of the lower level find their entries. -/
namespace CaLabs.Lab4

@[simp] lemma mem_setUnionCons {x z : ℕ} {xs ys : List ℕ} {rest : List ℕ → List ℕ}
    (h : ∀ ys, z ∈ rest ys ↔ z ∈ xs ∨ z ∈ ys) :
    z ∈ setUnionCons x xs rest ys ↔ z ∈ x :: xs ∨ z ∈ ys := by
  induction ys with
  | nil => simp [setUnionCons]
  | cons y ys ih =>
    unfold setUnionCons
    split_ifs with hlt hgt
    · simp only [List.mem_cons, h]
      tauto
    · rw [List.mem_cons, ih]
      simp only [List.mem_cons]
      tauto
    · obtain rfl : x = y := by omega
      simp only [List.mem_cons, h]
      tauto

@[simp] lemma mem_setUnion {z : ℕ} (xs ys : List ℕ) :
    z ∈ setUnion xs ys ↔ z ∈ xs ∨ z ∈ ys := by
  induction xs generalizing ys with
  | nil => simp [setUnion]
  | cons x xs ih => exact mem_setUnionCons ih

lemma count_setUnionCons_le {x z : ℕ} {xs ys : List ℕ} {rest : List ℕ → List ℕ}
    (h : ∀ ys, (rest ys).count z ≤ xs.count z + ys.count z) :
    (setUnionCons x xs rest ys).count z ≤ (x :: xs).count z + ys.count z := by
  induction ys with
  | nil => exact Nat.le_refl _
  | cons y ys ih =>
    unfold setUnionCons
    by_cases hlt : x < y
    · have htake := h (y :: ys)
      rw [if_pos hlt]
      simp only [List.count_cons] at htake ⊢
      omega
    · by_cases hgt : y < x
      · rw [if_neg hlt, if_pos hgt]
        simp only [List.count_cons] at ih ⊢
        omega
      · have hskip := h ys
        rw [if_neg hlt, if_neg hgt]
        simp only [List.count_cons]
        omega

lemma count_setUnion_le (z : ℕ) (xs ys : List ℕ) :
    (setUnion xs ys).count z ≤ xs.count z + ys.count z := by
  induction xs generalizing ys with
  | nil => simp [setUnion]
  | cons x xs ih => exact count_setUnionCons_le ih

section Splits
variable {α : Type*} {p : α → Bool}

lemma findIdx?_split {l : List α} {i : ℕ} (h : l.findIdx? p = some i) :
    ∃ before x after, l = before ++ x :: after ∧ i = before.length ∧ p x = true ∧
      ∀ y ∈ before, p y = false := by
  obtain ⟨hlt,hx,hbefore⟩ := List.findIdx?_eq_some_iff_getElem.mp h
  refine ⟨l.take i,l[i],l.drop (i + 1),?_,?_,hx,?_⟩
  · rw [← List.drop_eq_getElem_cons hlt, List.take_append_drop]
  · rw [List.length_take, Nat.min_eq_left (Nat.le_of_lt hlt)]
  · intro y hy
    obtain ⟨j,hj,rfl⟩ := List.mem_take_iff_getElem.mp hy
    simpa using hbefore j (by omega)

lemma findIdx?_append_cons {before after : List α} {x : α} (hx : p x = true)
    (hbefore : ∀ y ∈ before, p y = false) :
    (before ++ x :: after).findIdx? p = some before.length := by
  induction before with
  | nil => simp [List.findIdx?_cons, hx]
  | cons y before ih =>
    rw [List.cons_append, List.findIdx?_cons, hbefore y (by simp),
      ih fun z hz => hbefore z (by simp [hz])]
    rfl

lemma modify_append_cons (f : α → α) (before after : List α) (x : α) :
    (before ++ x :: after).modify before.length f = before ++ f x :: after := by
  induction before with
  | nil => rfl
  | cons y before ih => simp [ih]

/-- The elements before the first one with the property, and the rest when all of it has it. -/
lemma pairwise_split {l : List α} (h : l.Pairwise fun x y => p x = true → p y = true) :
    ∃ before after, l = before ++ after ∧ (∀ x ∈ before, p x = false) ∧
      ∀ x ∈ after, p x = true := by
  induction l with
  | nil => exact ⟨[],[],rfl,by simp,by simp⟩
  | cons x l ih =>
    obtain ⟨hx,hl⟩ := List.pairwise_cons.mp h
    cases hp : p x with
    | true => exact ⟨[],x :: l,rfl,by simp,by simpa [hp] using fun y hy => hx y hy hp⟩
    | false =>
      obtain ⟨before,after,rfl,hbefore,hafter⟩ := ih hl
      exact ⟨x :: before,after,rfl,by simpa [hp] using hbefore,hafter⟩

lemma pairwise_append_of_split {before after : List α} (hbefore : ∀ x ∈ before, p x = false)
    (hafter : ∀ x ∈ after, p x = true) :
    (before ++ after).Pairwise fun x y => p x = true → p y = true := by
  rw [List.pairwise_append]
  refine ⟨List.pairwise_of_forall_mem_list fun x hx y _ hpx => ?_,
    List.pairwise_of_forall_mem_list fun x _ y hy _ => hafter y hy,fun x _ y hy _ => hafter y hy⟩
  rw [hbefore x hx] at hpx
  cases hpx

end Splits

namespace MshrEntry
variable {e e' : MshrEntry}

@[simp] lemma merge_hasUnknownReadiness :
    (e.merge e').hasUnknownReadiness = e.hasUnknownReadiness := rfl

lemma merge_address (e e' : MshrEntry) :
    (e.merge e').address = e.address ∨ (e.merge e').address = e'.address := by
  unfold merge
  by_cases h : e'.type = .prefetch <;> simp [h]

end MshrEntry

namespace CacheLevel
variable {c : CacheConfig} {s s' : CacheLevel}

/-- One entry for a line, not more than there is room for, the returned entries before the others;
and the others are those whose requests the lower level has not answered. -/
structure MshrSound (c : CacheConfig) (s : CacheLevel) : Prop where
  lines_nodup : (s.mshr.map fun e => line c e.address).Nodup
  length_le : s.mshr.length ≤ c.mshrSize
  returned_first : s.mshr.Pairwise fun e e' =>
    e.hasUnknownReadiness = true → e'.hasUnknownReadiness = true
  outstanding : ((s.mshr.filter MshrEntry.hasUnknownReadiness).map fun e => line c e.address).Perm
    (s.lowerLevel.map (line c))

lemma MshrSound.congr (h : s.MshrSound c) (hm : s'.mshr = s.mshr)
    (hl : s'.lowerLevel = s.lowerLevel) : s'.MshrSound c := by
  constructor
  · exact hm ▸ h.lines_nodup
  · exact hm ▸ h.length_le
  · exact hm ▸ h.returned_first
  · exact hm ▸ hl ▸ h.outstanding

/-- A hit changes the blocks and the responses only. -/
lemma tryHit_frame (s : CacheLevel) (pkt : TagLookup) :
    (s.tryHit c pkt).1.mshr = s.mshr ∧ (s.tryHit c pkt).1.inflightWrites = s.inflightWrites ∧
      (s.tryHit c pkt).1.lowerLevel = s.lowerLevel := by
  unfold tryHit
  dsimp only
  split <;> exact ⟨rfl,rfl,rfl⟩

lemma handleFill_frame {e : MshrEntry} {victim : ℕ} {accepts done : Bool}
    (h : s.handleFill c e victim accepts = some (s',done)) :
    s'.mshr = s.mshr ∧ s'.inflightWrites = s.inflightWrites ∧ s'.lowerLevel = s.lowerLevel ∧
      s'.returned = s.returned ++ if done then e.toReturn.map (·,e.response) else [] := by
  unfold handleFill at h
  dsimp only at h
  split at h
  · split_ifs at h
    obtain ⟨rfl,rfl⟩ := Prod.mk.inj (Option.some.inj h)
    exact ⟨rfl,rfl,rfl,rfl⟩
  · split_ifs at h
    · obtain ⟨rfl,rfl⟩ := Prod.mk.inj (Option.some.inj h)
      exact ⟨rfl,rfl,rfl,by simp⟩
    all_goals
      obtain ⟨rfl,rfl⟩ := Prod.mk.inj (Option.some.inj h)
      exact ⟨rfl,rfl,rfl,rfl⟩

/-- A miss is merged into the entry of its line, or a new entry comes last. -/
lemma MshrSound.handleMiss (h : s.MshrSound c) (pkt : TagLookup) (accepts : Bool) :
    (s.handleMiss c pkt accepts).1.MshrSound c := by
  unfold CacheLevel.handleMiss
  dsimp only
  cases hfind : s.mshr.findIdx? fun e => decide (line c e.address = line c pkt.address) with
  | some i =>
    obtain ⟨before,e,after,hl,rfl,hline,-⟩ := findIdx?_split hfind
    have hline := of_decide_eq_true hline
    have hmerge : line c (e.merge (.ofLookup pkt s.currentTime)).address = line c e.address := by
      obtain he | he := MshrEntry.merge_address e (.ofLookup pkt s.currentTime)
      · rw [he]
      · rw [he, hline]
        rfl
    dsimp only
    constructor
    all_goals simp only [hl, modify_append_cons]
    · have hn := h.lines_nodup
      rw [hl] at hn
      simpa [hmerge] using hn
    · have hlen := h.length_le
      rw [hl] at hlen
      simpa using hlen
    · have hfirst := h.returned_first
      rw [hl] at hfirst
      simpa [List.pairwise_append, List.pairwise_cons] using hfirst
    · have hout := h.outstanding
      rw [hl] at hout
      cases hu : e.hasUnknownReadiness <;>
        simpa [List.filter_append, List.filter_cons, hu, hmerge] using hout
  | none =>
    dsimp only
    split_ifs with hfull hreq
    · exact h
    · have hnew : line c pkt.address ∉ s.mshr.map fun e => line c e.address := by
        intro hmem
        obtain ⟨e,he,hline⟩ := List.mem_map.mp hmem
        have hno := List.findIdx?_eq_none_iff.mp hfind e he
        simp [hline] at hno
      constructor
      all_goals dsimp only
      · rw [List.map_append, List.nodup_append]
        refine ⟨h.lines_nodup,List.nodup_singleton _,?_⟩
        rintro x hx y hy rfl
        obtain rfl := List.mem_singleton.mp hy
        exact hnew hx
      · have hlen := h.length_le
        simp only [Bool.or_eq_true, decide_eq_true_eq, not_or] at hfull
        rw [List.length_append, List.length_singleton]
        omega
      · rw [List.pairwise_append]
        refine ⟨h.returned_first,List.pairwise_singleton ..,fun e _ e' he' _ => ?_⟩
        obtain rfl := List.mem_singleton.mp he'
        rfl
      · rw [List.filter_append, List.map_append, List.map_append]
        exact h.outstanding.append (.refl _)
    · exact h

/-- An unreturned entry becomes the last of the returned ones. -/
lemma MshrSound.returned (h : s.MshrSound c) {request address : ℕ}
    (hr : (s.lowerLevel.map (line c))[request]? = some (line c address))
    {before after : List MshrEntry} {e : MshrEntry}
    (hperm : s.mshr.Perm (e :: (before ++ after))) (hline : line c e.address = line c address)
    (he : e.hasUnknownReadiness = true)
    (hbefore : ∀ x ∈ before, x.hasUnknownReadiness = false)
    (hafter : ∀ x ∈ after, x.hasUnknownReadiness = true) (dataPromise : ℕ × ℕ) :
    MshrSound c { s with
      lowerLevel := s.lowerLevel.eraseIdx request
      mshr := before ++ { e with dataPromise := some dataPromise } :: after } := by
  have hmiddle := @List.perm_middle _ { e with dataPromise := some dataPromise } before after
  have hfilter : ∀ rest, (before ++ rest).filter MshrEntry.hasUnknownReadiness =
      rest.filter MshrEntry.hasUnknownReadiness := by
    intro rest
    rw [List.filter_append, List.filter_eq_nil_iff.mpr, List.nil_append]
    exact fun x hx => by simp [hbefore x hx]
  constructor
  all_goals dsimp only
  · rw [(hmiddle.map _).nodup_iff]
    exact (hperm.map _).nodup_iff.mp h.lines_nodup
  · rw [hmiddle.length_eq]
    exact hperm.length_eq ▸ h.length_le
  · rw [List.append_cons]
    refine pairwise_append_of_split (fun x hx => ?_) hafter
    obtain hx | hx := List.mem_append.mp hx
    · exact hbefore x hx
    · obtain rfl := List.mem_singleton.mp hx
      rfl
  · have hout := ((hperm.filter MshrEntry.hasUnknownReadiness).map
      fun e => line c e.address).symm.trans h.outstanding
    rw [List.filter_cons_of_pos he, hfilter, List.map_cons, hline] at hout
    obtain ⟨hlt,hget⟩ := List.getElem?_eq_some_iff.mp hr
    have herase := List.getElem_cons_eraseIdx_perm hlt
    rw [hget, List.eraseIdx_map] at herase
    rw [hfilter, List.filter_cons_of_neg (by simp [MshrEntry.hasUnknownReadiness])]
    exact (hout.trans herase.symm).cons_inv

/-- The answer to a request finds the entry of its line, among the unreturned ones. -/
lemma MshrSound.finishPacket (h : s.MshrSound c) {request address : ℕ}
    (hr : (s.lowerLevel.map (line c))[request]? = some (line c address)) (data : ℕ) :
    ∃ s', CacheLevel.finishPacket c { s with lowerLevel := s.lowerLevel.eraseIdx request } address
        data = some s' ∧ s'.MshrSound c ∧
      ∃ before e after, s.mshr.Perm (e :: (before ++ after)) ∧
        s' = { s with
          lowerLevel := s.lowerLevel.eraseIdx request
          mshr := before ++ { e with dataPromise := some (data,s.readyTime c) } :: after } := by
  obtain ⟨known,unknown,hl,hknown,hunknown⟩ := pairwise_split h.returned_first
  have hfilter : s.mshr.filter MshrEntry.hasUnknownReadiness = unknown := by
    rw [hl, List.filter_append, List.filter_eq_self.mpr hunknown, List.filter_eq_nil_iff.mpr,
      List.nil_append]
    exact fun e he => by simp [hknown e he]
  have hout := h.outstanding
  rw [hfilter] at hout
  obtain ⟨e,he,hline⟩ := List.mem_map.mp (hout.mem_iff.mpr (List.mem_of_getElem? hr))
  obtain ⟨before,after,rfl⟩ := List.append_of_mem he
  have hother : ∀ x ∈ known ++ before, decide (line c x.address = line c address) = false := by
    intro x hx
    have hn := h.lines_nodup
    rw [hl, ← List.append_assoc, List.map_append, List.map_cons, List.nodup_append] at hn
    rw [decide_eq_false_iff_not, ← hline]
    exact hn.2.2 _ (List.mem_map_of_mem hx) _ (List.mem_cons_self ..)
  have hi : s.mshr.findIdx? (fun e => decide (line c e.address = line c address)) =
      some (known ++ before).length := by
    rw [hl, ← List.append_assoc]
    exact findIdx?_append_cons (decide_eq_true hline) hother
  have hei : s.mshr[(known ++ before).length]? = some e := by
    rw [hl, ← List.append_assoc, List.getElem?_append_right (Nat.le_refl _), Nat.sub_self]
    rfl
  cases before with
  | nil =>
    have hfirst : s.mshr.findIdx? MshrEntry.hasUnknownReadiness = some known.length := by
      rw [hl]
      exact findIdx?_append_cons (hunknown e he) hknown
    rw [List.append_nil] at hi hei
    have hperm : s.mshr.Perm (e :: (known ++ after)) := by
      rw [hl]
      exact List.perm_middle
    refine ⟨_,?_,h.returned hr hperm hline (hunknown e he) hknown
      (fun x hx => hunknown x (by simp [hx])) (data,s.readyTime c),known,e,after,hperm,rfl⟩
    simp only [CacheLevel.finishPacket, hi, hfirst, hei, bind, Option.bind_some]
    rw [hl]
    simp [readyTime]
  | cons f before =>
    have hfirst : s.mshr.findIdx? MshrEntry.hasUnknownReadiness = some known.length := by
      rw [hl]
      exact findIdx?_append_cons (hunknown f (by simp)) hknown
    have hfi : s.mshr[known.length]? = some f := by
      rw [hl, List.getElem?_append_right (Nat.le_refl _), Nat.sub_self]
      rfl
    have hperm : s.mshr.Perm (e :: (known ++ (before ++ f :: after))) := by
      rw [hl]
      have hrest : (f :: before ++ e :: after).Perm (e :: (before ++ f :: after)) := by
        refine (@List.perm_middle _ e (f :: before) after).trans (.cons e ?_)
        exact List.perm_middle.symm
      exact (hrest.append_left known).trans List.perm_middle
    refine ⟨_,?_,h.returned hr hperm hline (hunknown e he) hknown
      (fun x hx => hunknown x (by simp at hx ⊢; tauto)) (data,s.readyTime c),
      known,e,before ++ f :: after,hperm,rfl⟩
    simp only [CacheLevel.finishPacket, hi, hfirst, hei, hfi, bind, Option.bind_some]
    rw [hl]
    simp [readyTime]

/-- Filling takes the first entry, which was returned. -/
lemma MshrSound.fill (h : s.MshrSound c) {e : MshrEntry} {rest : List MshrEntry}
    (hm : s.mshr = e :: rest) (he : e.hasUnknownReadiness = false) :
    MshrSound c { s with mshr := rest } := by
  constructor
  all_goals dsimp only
  · have hn := h.lines_nodup
    rw [hm] at hn
    exact (List.nodup_cons.mp hn).2
  · have hlen := h.length_le
    rw [hm, List.length_cons] at hlen
    omega
  · have hfirst := h.returned_first
    rw [hm] at hfirst
    exact (List.pairwise_cons.mp hfirst).2
  · have hout := h.outstanding
    rwa [hm, List.filter_cons_of_neg (by simp [he])] at hout

lemma known_of_isReadyAt {e : MshrEntry} {time : ℕ} (h : e.isReadyAt time = true) :
    e.hasUnknownReadiness = false := by
  unfold MshrEntry.isReadyAt at h
  unfold MshrEntry.hasUnknownReadiness
  cases hd : e.dataPromise with
  | none => simp [hd] at h
  | some d => rfl

lemma MshrSound.step (h : s.MshrSound c) {event : CacheEvent} {done : Bool}
    (hs : s.step c event = some (s',done)) : s'.MshrSound c := by
  cases event with
  | tick warmup =>
    obtain ⟨rfl,-⟩ := Prod.mk.inj (Option.some.inj hs)
    exact h.congr rfl rfl
  | respond request address data =>
    simp only [CacheLevel.step] at hs
    split_ifs at hs with hr
    · obtain ⟨s₁,hfinish,hsound,-⟩ := h.finishPacket hr data
      rw [hfinish] at hs
      obtain ⟨rfl,-⟩ := Prod.mk.inj (Option.some.inj hs)
      exact hsound
    · obtain ⟨rfl,-⟩ := Prod.mk.inj (Option.some.inj hs)
      exact h
  | fillMshr victim accepts =>
    simp only [CacheLevel.step] at hs
    split at hs
    · obtain ⟨rfl,-⟩ := Prod.mk.inj (Option.some.inj hs)
      exact h
    · rename_i e rest hm
      split_ifs at hs with hready
      · obtain ⟨⟨s₁,done₁⟩,hfill,he⟩ := Option.map_eq_some_iff.mp hs
        obtain ⟨rfl,rfl⟩ := Prod.mk.inj he
        obtain ⟨hmshr,-,hlower,-⟩ := handleFill_frame hfill
        have hs₁ : s₁.MshrSound c := h.congr hmshr hlower
        dsimp only
        split_ifs
        · exact hs₁.fill (hmshr.trans hm) (known_of_isReadyAt hready)
        · exact hs₁
      · obtain ⟨rfl,-⟩ := Prod.mk.inj (Option.some.inj hs)
        exact h
  | fillWrite victim accepts =>
    simp only [CacheLevel.step] at hs
    split at hs
    · obtain ⟨rfl,-⟩ := Prod.mk.inj (Option.some.inj hs)
      exact h
    · split_ifs at hs with hready
      · obtain ⟨⟨s₁,done₁⟩,hfill,he⟩ := Option.map_eq_some_iff.mp hs
        obtain ⟨rfl,rfl⟩ := Prod.mk.inj he
        obtain ⟨hmshr,-,hlower,-⟩ := handleFill_frame hfill
        dsimp only
        split_ifs
        · exact h.congr hmshr hlower
        · exact h.congr hmshr hlower
      · obtain ⟨rfl,-⟩ := Prod.mk.inj (Option.some.inj hs)
        exact h
  | check pkt =>
    obtain ⟨hmshr,-,hlower⟩ := tryHit_frame (c := c) s pkt
    obtain ⟨rfl,-⟩ := Prod.mk.inj (Option.some.inj hs)
    exact h.congr hmshr hlower
  | miss pkt accepts =>
    simp only [CacheLevel.step, doHandleMiss] at hs
    split_ifs at hs
    · obtain ⟨rfl,-⟩ := Prod.mk.inj (Option.some.inj hs)
      exact h.congr rfl rfl
    · have hmiss := h.handleMiss pkt accepts
      rw [Option.some.inj hs] at hmiss
      exact hmiss

def entries (s : CacheLevel) : List MshrEntry := s.mshr ++ s.inflightWrites

/-- A packet waits for its response to a channel in an entry of its line. -/
def Awaits (c : CacheConfig) (entries : List MshrEntry) (pkt : TagLookup) (channel : ℕ) : Prop :=
  ∃ e ∈ entries, line c e.address = line c pkt.address ∧
    channel ∈ e.toReturn ∧ ∀ i ∈ pkt.instrDependOnMe, i ∈ e.instrDependOnMe

/-- A response to a channel for the line and the instructions of a packet. -/
def Answers (c : CacheConfig) (pkt : TagLookup) (channel : ℕ) (r : ℕ × Response) : Prop :=
  r.1 = channel ∧ line c r.2.address = line c pkt.address ∧
    ∀ i ∈ pkt.instrDependOnMe, i ∈ r.2.instrDependOnMe

/-- The responses due to a channel for a line. -/
def due (c : CacheConfig) (channel ln address : ℕ) (toReturn : List ℕ) : ℕ :=
  if line c address = ln then toReturn.count channel else 0

def responses (c : CacheConfig) (channel ln : ℕ) (returned : List (ℕ × Response)) : ℕ :=
  returned.countP fun r => decide (r.1 = channel ∧ line c r.2.address = ln)

def pending (c : CacheConfig) (channel ln : ℕ) (entries : List MshrEntry) : ℕ :=
  (entries.map fun e => due c channel ln e.address e.toReturn).sum

lemma responses_map (channel ln : ℕ) (toReturn : List ℕ) (r : Response) :
    responses c channel ln (toReturn.map (·,r)) = due c channel ln r.address toReturn := by
  unfold responses due
  rw [List.countP_map]
  split_ifs with hline
  · rw [List.count]
    congr 1
    funext x
    simp [hline, eq_comm, beq_eq_decide]
  · rw [List.countP_eq_zero]
    simp [hline]

section Entries
variable {old new rest : List MshrEntry} {e e' : MshrEntry} {pkt : TagLookup} {channel ln : ℕ}

lemma pending_cons (h : old.Perm (e :: rest)) : pending c channel ln old =
    due c channel ln e.address e.toReturn + pending c channel ln rest := by
  rw [pending, (h.map _).sum_eq]
  rfl

lemma Awaits.mono (h : Awaits c old pkt channel) (hsub : ∀ e ∈ old, e ∈ new) :
    Awaits c new pkt channel := by
  obtain ⟨e,he,hrest⟩ := h
  exact ⟨e,hsub e he,hrest⟩

/-- A waiting packet stays in an entry that takes more in. -/
lemma Awaits.replace (h : Awaits c old pkt channel) (hold : old.Perm (e :: rest))
    (hnew : new.Perm (e' :: rest)) (hline : line c e'.address = line c e.address)
    (hreturn : ∀ x ∈ e.toReturn, x ∈ e'.toReturn)
    (hinstr : ∀ i ∈ e.instrDependOnMe, i ∈ e'.instrDependOnMe) : Awaits c new pkt channel := by
  obtain ⟨x,hx,hl,hc,hi⟩ := h
  obtain rfl | hx := List.mem_cons.mp (hold.mem_iff.mp hx)
  · exact ⟨e',hnew.mem_iff.mpr (by simp),hline.trans hl,hreturn _ hc,fun i h => hinstr i (hi i h)⟩
  · exact ⟨x,hnew.mem_iff.mpr (by simp [hx]),hl,hc,hi⟩

end Entries

/-- In a step the waiting packets and the one taken keep waiting or are answered, and no response
is given twice. -/
structure Progress (c : CacheConfig) (s s' : CacheLevel) (taken : Option TagLookup) : Prop where
  waiting : ∃ new, s'.returned = s.returned ++ new ∧
    (∀ pkt channel, Awaits c s.entries pkt channel ∨ taken = some pkt ∧ channel ∈ pkt.toReturn →
      Awaits c s'.entries pkt channel ∨ ∃ r ∈ new, Answers c pkt channel r) ∧
    ∀ channel ln, responses c channel ln new + pending c channel ln s'.entries ≤
      pending c channel ln s.entries +
        (taken.map fun pkt => due c channel ln pkt.address pkt.toReturn).getD 0

namespace Progress

lemma same (hentries : s'.entries = s.entries) (hreturned : s'.returned = s.returned) :
    Progress c s s' none := by
  refine ⟨[],by rw [hreturned, List.append_nil],fun pkt channel h => .inl ?_,fun channel ln => ?_⟩
  · obtain h | ⟨h,-⟩ := h
    · exact hentries ▸ h
    · cases h
  · simp [hentries, responses]

/-- A hit answers at once. -/
lemma hit (hentries : s'.entries = s.entries) {pkt : TagLookup} {r : Response}
    (hreturned : s'.returned = s.returned ++ pkt.toReturn.map (·,r))
    (haddress : r.address = pkt.address) (hinstr : r.instrDependOnMe = pkt.instrDependOnMe) :
    Progress c s s' (some pkt) := by
  refine ⟨_,hreturned,fun p channel h => ?_,fun channel ln => ?_⟩
  · obtain h | ⟨h,hchannel⟩ := h
    · exact .inl (hentries ▸ h)
    · obtain rfl := Option.some.inj h
      exact .inr ⟨(channel,r),List.mem_map_of_mem hchannel,rfl,by rw [haddress],
        fun i hi => hinstr ▸ hi⟩
  · rw [responses_map, hentries, haddress, Nat.add_comm]
    exact Nat.le_refl _

/-- A packet gets an entry of its own. -/
lemma add {pkt : TagLookup} {e : MshrEntry} (hentries : s'.entries.Perm (e :: s.entries))
    (hreturned : s'.returned = s.returned) (haddress : e.address = pkt.address)
    (hreturn : e.toReturn = pkt.toReturn) (hinstr : e.instrDependOnMe = pkt.instrDependOnMe) :
    Progress c s s' (some pkt) := by
  refine ⟨[],by rw [hreturned, List.append_nil],fun p channel h => .inl ?_,fun channel ln => ?_⟩
  · obtain h | ⟨h,hchannel⟩ := h
    · exact h.mono fun x hx => hentries.mem_iff.mpr (List.mem_cons_of_mem _ hx)
    · obtain rfl := Option.some.inj h
      exact ⟨e,hentries.mem_iff.mpr (by simp),by rw [haddress],hreturn ▸ hchannel,
        fun i hi => hinstr ▸ hi⟩
  · rw [pending_cons hentries, haddress, hreturn]
    simp [responses, Nat.add_comm]

/-- An entry is replaced by one for the same line, into which the packet goes, if there is one. -/
lemma replace {taken : Option TagLookup} (rest : List MshrEntry) (e e' : MshrEntry)
    (hold : s.entries.Perm (e :: rest)) (hnew : s'.entries.Perm (e' :: rest))
    (hreturned : s'.returned = s.returned) (hline : line c e'.address = line c e.address)
    (hreturn : ∀ x, x ∈ e'.toReturn ↔ x ∈ e.toReturn ∨ ∃ pkt ∈ taken, x ∈ pkt.toReturn)
    (hinstr : ∀ i, i ∈ e'.instrDependOnMe ↔
      i ∈ e.instrDependOnMe ∨ ∃ pkt ∈ taken, i ∈ pkt.instrDependOnMe)
    (hpkt : ∀ pkt ∈ taken, line c e.address = line c pkt.address)
    (hcount : ∀ x, e'.toReturn.count x ≤
      e.toReturn.count x + (taken.map fun pkt => pkt.toReturn.count x).getD 0) :
    Progress c s s' taken := by
  refine ⟨[],by rw [hreturned, List.append_nil],fun p channel h => .inl ?_,fun channel ln => ?_⟩
  · obtain h | ⟨h,hchannel⟩ := h
    · exact h.replace hold hnew hline (fun x hx => (hreturn x).mpr (.inl hx))
        fun i hi => (hinstr i).mpr (.inl hi)
    · exact ⟨e',hnew.mem_iff.mpr (by simp),hline.trans (hpkt p h),
        (hreturn channel).mpr (.inr ⟨p,h,hchannel⟩),fun i hi => (hinstr i).mpr (.inr ⟨p,h,hi⟩)⟩
  · have hc := hcount channel
    rw [pending_cons hold, pending_cons hnew]
    cases taken with
    | none =>
      simp only [due, hline, responses, List.countP_nil, Option.map_none, Option.getD_none] at hc ⊢
      split_ifs <;> omega
    | some pkt =>
      simp only [due, hline, responses, List.countP_nil, Option.map_some, Option.getD_some,
        hpkt pkt rfl] at hc ⊢
      split_ifs <;> omega

/-- An entry that is filled answers all that wait in it. -/
lemma fill {e : MshrEntry} (hentries : s.entries.Perm (e :: s'.entries))
    (hreturned : s'.returned = s.returned ++ e.toReturn.map (·,e.response)) :
    Progress c s s' none := by
  refine ⟨_,hreturned,fun p channel h => ?_,fun channel ln => ?_⟩
  · obtain ⟨x,hx,hl,hc,hi⟩ | ⟨h,-⟩ := h
    · obtain rfl | hx := List.mem_cons.mp (hentries.mem_iff.mp hx)
      · exact .inr ⟨(channel,x.response),List.mem_map_of_mem hc,rfl,hl,hi⟩
      · exact .inl ⟨x,hx,hl,hc,hi⟩
    · cases h
  · rw [responses_map, pending_cons hentries]
    exact Nat.le_refl _

end Progress

lemma tryHit_progress {pkt : TagLookup} {done : Bool} (h : s.tryHit c pkt = (s',done)) :
    Progress c s s' (if done then some pkt else none) := by
  unfold tryHit at h
  dsimp only at h
  split at h
  · obtain ⟨rfl,rfl⟩ := Prod.mk.inj h
    exact .same rfl rfl
  · rename_i b hb
    obtain ⟨rfl,rfl⟩ := Prod.mk.inj h
    rw [if_pos rfl]
    refine .hit (r := ⟨pkt.address,pkt.vAddress,b.data,pkt.instrDependOnMe⟩) ?_ ?_ rfl rfl <;> rfl

lemma handleMiss_progress {pkt : TagLookup} {accepts done : Bool}
    (h : s.handleMiss c pkt accepts = (s',done)) :
    Progress c s s' (if done then some pkt else none) := by
  unfold CacheLevel.handleMiss at h
  dsimp only at h
  cases hfind : s.mshr.findIdx? fun e => decide (line c e.address = line c pkt.address) with
  | some i =>
    rw [hfind] at h
    obtain ⟨rfl,rfl⟩ := Prod.mk.inj h
    obtain ⟨before,e,after,hl,rfl,hline,-⟩ := findIdx?_split hfind
    have hline := of_decide_eq_true hline
    refine .replace (before ++ after ++ s.inflightWrites) e
      (e.merge (.ofLookup pkt s.currentTime)) ?_ ?_ rfl ?_ ?_ ?_ ?_ ?_
    · rw [entries, hl]
      exact List.perm_middle.append_right _
    · simp only [entries, hl, modify_append_cons]
      exact List.perm_middle.append_right _
    · obtain he | he := MshrEntry.merge_address e (.ofLookup pkt s.currentTime)
      · rw [he]
      · rw [he, hline]
        rfl
    · intro x
      simp [MshrEntry.merge, MshrEntry.ofLookup]
    · intro x
      simp [MshrEntry.merge, MshrEntry.ofLookup]
    · intro p hp
      obtain rfl := Option.some.inj hp
      exact hline
    · exact fun x => count_setUnion_le x _ _
  | none =>
    simp only [hfind] at h
    split_ifs at h with hfull hreq
    · obtain ⟨rfl,rfl⟩ := Prod.mk.inj h
      exact .same rfl rfl
    · obtain ⟨rfl,rfl⟩ := Prod.mk.inj h
      refine .add (e := .ofLookup pkt s.currentTime) ?_ rfl rfl rfl rfl
      rw [entries, List.append_assoc]
      exact List.perm_middle
    · obtain ⟨rfl,rfl⟩ := Prod.mk.inj h
      have hlocal : pkt.toReturn = [] := by
        apply pkt.local_toReturn
        simp only [responseRequested, Bool.or_eq_true, Bool.not_eq_true', not_or] at hreq
        simpa using hreq.1
      refine .hit (r := ⟨pkt.address,0,0,pkt.instrDependOnMe⟩) rfl ?_ rfl rfl
      rw [hlocal, List.map_nil, List.append_nil]

lemma handleWrite_progress (s : CacheLevel) (pkt : TagLookup) :
    Progress c s (s.handleWrite c pkt).1 (some pkt) := by
  refine .add (e := { MshrEntry.ofLookup pkt s.currentTime with
    dataPromise := some (0,s.readyTime c) }) ?_ rfl rfl rfl rfl
  simp only [handleWrite, entries, ← List.append_assoc]
  exact List.perm_append_singleton _ _

/-- What an event means for the packets that wait. -/
lemma MshrSound.progress (h : s.MshrSound c) {event : CacheEvent} {done : Bool}
    (hs : s.step c event = some (s',done)) :
    Progress c s s' (if done then event.packet else none) := by
  have hnone : ∀ e : CacheEvent, e.packet = none → (if done then e.packet else none) = none := by
    intro e he
    rw [he, ite_self]
  cases event with
  | tick warmup =>
    rw [hnone _ rfl]
    obtain ⟨rfl,-⟩ := Prod.mk.inj (Option.some.inj hs)
    exact .same rfl rfl
  | respond request address data =>
    rw [hnone _ rfl]
    simp only [CacheLevel.step] at hs
    split_ifs at hs with hr
    · obtain ⟨s₁,hfinish,-,before,e,after,hperm,he⟩ := h.finishPacket hr data
      rw [hfinish] at hs
      obtain ⟨rfl,-⟩ := Prod.mk.inj (Option.some.inj hs)
      subst he
      refine .replace (before ++ after ++ s.inflightWrites) e
        { e with dataPromise := some (data,s.readyTime c) } (hperm.append_right _) (List.perm_middle.append_right _) rfl rfl ?_ ?_ ?_ ?_ <;> simp
    · obtain ⟨rfl,-⟩ := Prod.mk.inj (Option.some.inj hs)
      exact .same rfl rfl
  | fillMshr victim accepts =>
    rw [hnone _ rfl]
    simp only [CacheLevel.step] at hs
    split at hs
    · obtain ⟨rfl,-⟩ := Prod.mk.inj (Option.some.inj hs)
      exact .same rfl rfl
    · rename_i e rest hm
      split_ifs at hs with hready
      · obtain ⟨⟨s₁,done₁⟩,hfill,he⟩ := Option.map_eq_some_iff.mp hs
        obtain ⟨rfl,rfl⟩ := Prod.mk.inj he
        obtain ⟨hmshr,hwrites,-,hreturned⟩ := handleFill_frame hfill
        cases done₁ with
        | true =>
          refine .fill (e := e) ?_ hreturned
          rw [entries, hm]
          simp only [entries, hwrites, if_true]
          exact .refl _
        | false => exact .same (by simp [entries, hmshr, hwrites]) (by simp [hreturned])
      · obtain ⟨rfl,-⟩ := Prod.mk.inj (Option.some.inj hs)
        exact .same rfl rfl
  | fillWrite victim accepts =>
    rw [hnone _ rfl]
    simp only [CacheLevel.step] at hs
    split at hs
    · obtain ⟨rfl,-⟩ := Prod.mk.inj (Option.some.inj hs)
      exact .same rfl rfl
    · rename_i e rest hm
      split_ifs at hs with hready
      · obtain ⟨⟨s₁,done₁⟩,hfill,he⟩ := Option.map_eq_some_iff.mp hs
        obtain ⟨rfl,rfl⟩ := Prod.mk.inj he
        obtain ⟨hmshr,hwrites,-,hreturned⟩ := handleFill_frame hfill
        cases done₁ with
        | true =>
          refine .fill (e := e) ?_ hreturned
          rw [entries, hm]
          simp only [entries, hmshr, if_true]
          exact List.perm_middle
        | false => exact .same (by simp [entries, hmshr, hwrites]) (by simp [hreturned])
      · obtain ⟨rfl,-⟩ := Prod.mk.inj (Option.some.inj hs)
        exact .same rfl rfl
  | check pkt =>
    exact tryHit_progress (Option.some.inj hs)
  | miss pkt accepts =>
    simp only [CacheLevel.step, doHandleMiss] at hs
    split_ifs at hs
    · obtain ⟨rfl,rfl⟩ := Prod.mk.inj (Option.some.inj hs)
      exact handleWrite_progress s pkt
    · exact handleMiss_progress (Option.some.inj hs)

end CacheLevel

namespace ObservedLevel
open CacheLevel
variable {c : CacheConfig} {o o' : ObservedLevel}

/-- What is due to a channel for a line by the packets accepted so far. -/
def acceptedDue (c : CacheConfig) (channel ln : ℕ) (accepted : List (TagLookup × ℕ)) : ℕ :=
  (accepted.map fun p => due c channel ln p.1.address p.1.toReturn).sum

/-- The accepted packets are answered after they were accepted, or wait; and there are not more
responses than are due. -/
structure LevelSound (c : CacheConfig) (o : ObservedLevel) : Prop where
  mshrs : o.level.MshrSound c
  indices : ∀ p ∈ o.accepted, p.2 ≤ o.level.returned.length
  served : ∀ p ∈ o.accepted, ∀ channel ∈ p.1.toReturn,
    Awaits c o.level.entries p.1 channel ∨
      ∃ r ∈ o.level.returned.drop p.2, Answers c p.1 channel r
  counts : ∀ channel ln, responses c channel ln o.level.returned +
    pending c channel ln o.level.entries ≤ acceptedDue c channel ln o.accepted

/-- A step with the packet it accepts. -/
lemma step_cases {event : CacheEvent} (hs : o.step c event = some o') :
    ∃ done, o.level.step c event = some (o'.level,done) ∧
      o'.accepted = o.accepted ++
        ((if done then event.packet else none).map (·,o.level.returned.length)).toList := by
  obtain ⟨⟨level,done⟩,hlevel,rfl⟩ := Option.map_eq_some_iff.mp hs
  refine ⟨done,hlevel,?_⟩
  dsimp only
  cases (if done then event.packet else none) with
  | none => simp
  | some pkt => rfl

lemma LevelSound.step (h : o.LevelSound c) {event : CacheEvent}
    (hs : o.step c event = some o') : o'.LevelSound c := by
  obtain ⟨done,hlevel,haccepted⟩ := step_cases hs
  have hsound := h.mshrs.step hlevel
  obtain ⟨new,hreturned,hwaiting,hcounts⟩ := (h.mshrs.progress hlevel).waiting
  generalize (if done then event.packet else none) = taken at haccepted hwaiting hcounts
  have hnew : ∀ n ≤ o.level.returned.length, ∀ r ∈ new, r ∈ o'.level.returned.drop n := by
    intro n hn r hr
    rw [hreturned, List.drop_append_of_le_length hn]
    exact List.mem_append_right _ hr
  have hmem : ∀ p ∈ o'.accepted,
      p ∈ o.accepted ∨ taken = some p.1 ∧ p.2 = o.level.returned.length := by
    intro p hp
    rw [haccepted, List.mem_append, Option.mem_toList, Option.map_eq_some_iff] at hp
    obtain hp | ⟨pkt,htaken,rfl⟩ := hp
    · exact .inl hp
    · exact .inr ⟨htaken,rfl⟩
  refine ⟨hsound,fun p hp => ?_,fun p hp channel hchannel => ?_,fun channel ln => ?_⟩
  · rw [hreturned, List.length_append]
    obtain hp | ⟨-,hp⟩ := hmem p hp
    · exact Nat.le_trans (h.indices p hp) (Nat.le_add_right _ _)
    · omega
  · obtain hp | ⟨htaken,hn⟩ := hmem p hp
    · obtain hawaits | ⟨r,hr,hanswers⟩ := h.served p hp channel hchannel
      · obtain hawaits | ⟨r,hr,hanswers⟩ := hwaiting p.1 channel (.inl hawaits)
        · exact .inl hawaits
        · exact .inr ⟨r,hnew _ (h.indices p hp) r hr,hanswers⟩
      · refine .inr ⟨r,?_,hanswers⟩
        rw [hreturned, List.drop_append_of_le_length (h.indices p hp)]
        exact List.mem_append_left _ hr
    · obtain hawaits | ⟨r,hr,hanswers⟩ := hwaiting p.1 channel (.inr ⟨htaken,hchannel⟩)
      · exact .inl hawaits
      · exact .inr ⟨r,hnew _ (Nat.le_of_eq hn) r hr,hanswers⟩
  · have hold := h.counts channel ln
    have hstep := hcounts channel ln
    rw [hreturned, responses, List.countP_append, haccepted, acceptedDue, List.map_append,
      List.sum_append]
    simp only [responses, acceptedDue] at hold hstep ⊢
    cases taken with
    | none =>
      simp only [Option.map_none, Option.getD_none, Option.toList_none, List.map_nil,
        List.sum_nil] at hstep ⊢
      omega
    | some pkt =>
      simp only [Option.map_some, Option.getD_some, Option.toList_some, List.map_cons,
        List.map_nil, List.sum_cons, List.sum_nil] at hstep ⊢
      omega

lemma levelSound_start (c : CacheConfig) (block : ℕ → List CacheBlock) :
    LevelSound c { level := { block } } where
  mshrs := ⟨List.nodup_nil,Nat.zero_le _,.nil,.nil⟩
  indices := by simp
  served := by simp
  counts := by simp [responses, pending, entries]

lemma LevelSound.run (h : o.LevelSound c) {events : List CacheEvent}
    (hr : o.run c events = some o') : o'.LevelSound c := by
  induction events generalizing o with
  | nil =>
    obtain rfl := Option.some.inj hr
    exact h
  | cons event events ih =>
    rw [ObservedLevel.run, List.foldlM_cons] at hr
    obtain ⟨mid,hstep,hrest⟩ := Option.bind_eq_some_iff.mp hr
    exact ih (h.step hstep) hrest

/-- In every order of checks, misses, answers of the lower level and fills: a packet that was
accepted either has been answered since to each of its channels, with all its instructions, or waits
in an entry of its line; and no channel gets more responses for a line than are due to it. -/
theorem packets_answered (c : CacheConfig) (block : ℕ → List CacheBlock)
    (events : List CacheEvent) {o : ObservedLevel}
    (h : ObservedLevel.run c { level := { block } } events = some o) :
    (∀ p ∈ o.accepted, ∀ channel ∈ p.1.toReturn,
      Awaits c (o.level.mshr ++ o.level.inflightWrites) p.1 channel ∨
        ∃ r ∈ o.level.returned.drop p.2, Answers c p.1 channel r) ∧
    ∀ channel ln, responses c channel ln o.level.returned +
        pending c channel ln (o.level.mshr ++ o.level.inflightWrites) ≤
      acceptedDue c channel ln o.accepted := by
  have hs := (levelSound_start c block).run h
  exact ⟨hs.served,hs.counts⟩

/-- Loads of one line through two channels are merged and answered by one fill; a third one hits. -/
theorem threeLoads_packets_answered :
    let c : CacheConfig := ⟨6,1,2,1,false⟩
    let load (address channel instr : ℕ) : TagLookup :=
      { address, type := .load, instrDependOnMe := [instr], toReturn := [channel] }
    let events : List CacheEvent := [.miss (load 64 1 10) true,.miss (load 72 2 11) false,
      .respond 0 64 7,.tick false,.fillMshr 0 true,.check (load 80 3 12)]
    ∃ o, ObservedLevel.run c { level := { block := fun _ => [{},{}] } } events = some o ∧
      o.level.returned = [(1,⟨72,0,7,[10,11]⟩),(2,⟨72,0,7,[10,11]⟩),(3,⟨80,0,7,[12]⟩)] ∧
      (∀ p ∈ o.accepted, ∀ channel ∈ p.1.toReturn,
        Awaits c (o.level.mshr ++ o.level.inflightWrites) p.1 channel ∨
          ∃ r ∈ o.level.returned.drop p.2, Answers c p.1 channel r) ∧
      ∀ channel ln, responses c channel ln o.level.returned +
          pending c channel ln (o.level.mshr ++ o.level.inflightWrites) ≤
        acceptedDue c channel ln o.accepted := by
  intro c load events
  have hsome : (ObservedLevel.run c { level := { block := fun _ => [{},{}] } } events).isSome =
      true := by decide
  refine ⟨Option.get _ hsome,(Option.some_get hsome).symm,by decide +revert,?_⟩
  exact packets_answered c _ events (Option.some_get hsome).symm

/-- In every such run there is at most one miss entry for a line and not more of them than there is
room for, those that were returned come first, and an answer to any request that the lower level has
not answered finds its entry: the sanity check of finish_packet never fails. -/
theorem answers_find_entries (c : CacheConfig) (block : ℕ → List CacheBlock)
    (events : List CacheEvent) {o : ObservedLevel}
    (h : ObservedLevel.run c { level := { block } } events = some o) :
    (o.level.mshr.map fun e => line c e.address).Nodup ∧ o.level.mshr.length ≤ c.mshrSize ∧
      o.level.mshr.Pairwise (fun e e' =>
        e.hasUnknownReadiness = true → e'.hasUnknownReadiness = true) ∧
      ∀ request address data,
        (o.level.lowerLevel.map (line c))[request]? = some (line c address) →
        ((finishPacket c { o.level with lowerLevel := o.level.lowerLevel.eraseIdx request }
          address data).isSome = true) := by
  have hs := ((levelSound_start c block).run h).mshrs
  refine ⟨hs.lines_nodup,hs.length_le,hs.returned_first,fun request address data hr => ?_⟩
  obtain ⟨s',hfinish,-⟩ := hs.finishPacket hr data
  rw [hfinish]
  rfl

/-- Two misses of different lines, of which the second is answered first. -/
theorem twoMisses_answers_find_entries :
    let c : CacheConfig := ⟨6,1,2,1,false⟩
    let load (address channel instr : ℕ) : TagLookup :=
      { address, type := .load, instrDependOnMe := [instr], toReturn := [channel] }
    let events : List CacheEvent :=
      [.miss (load 64 1 10) true,.miss (load 128 2 11) true,.respond 1 136 7]
    ∃ o, ObservedLevel.run c { level := { block := fun _ => [{},{}] } } events = some o ∧
      o.level.mshr.map (fun e => (e.address,e.hasUnknownReadiness)) = [(128,false),(64,true)] ∧
      (o.level.mshr.map fun e => line c e.address).Nodup ∧ o.level.mshr.length ≤ c.mshrSize ∧
      o.level.mshr.Pairwise (fun e e' =>
        e.hasUnknownReadiness = true → e'.hasUnknownReadiness = true) ∧
      ∀ request address data,
        (o.level.lowerLevel.map (line c))[request]? = some (line c address) →
        ((finishPacket c { o.level with lowerLevel := o.level.lowerLevel.eraseIdx request }
          address data).isSome = true) := by
  intro c load events
  have hsome : (ObservedLevel.run c { level := { block := fun _ => [{},{}] } } events).isSome =
      true := by decide
  refine ⟨Option.get _ hsome,(Option.some_get hsome).symm,by decide +revert,?_⟩
  exact answers_find_entries c _ events (Option.some_get hsome).symm

end ObservedLevel
end CaLabs.Lab4
