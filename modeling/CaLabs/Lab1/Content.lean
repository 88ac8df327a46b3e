import CaLabs.Lab1.Cache

/-! What the cache of lab 1 holds after a trace of accesses, under any policy. -/
namespace CaLabs.Lab1
open Mips

/-! One set. -/

/-- Some way of the set is valid and has the tag. -/
def Holds (blocks : List Block) (tag : Word) : Prop :=
  ∃ w, validAt blocks w = true ∧ tagAt blocks w = tag

/-- Distinct tags in the valid ways, which come before the invalid ones. -/
structure Tidy (blocks : List Block) : Prop where
  distinct : ∀ v w, validAt blocks v = true → validAt blocks w = true →
    tagAt blocks v = tagAt blocks w → v = w
  front : ∀ v w, v < w → validAt blocks w = true → validAt blocks v = true

/-- The two sets have the same tags and valid bits. -/
structure SameTags (blocks blocks' : List Block) : Prop where
  tags : tagAt blocks' = tagAt blocks
  valids : validAt blocks' = validAt blocks
  length : blocks'.length = blocks.length

/-- The second set is the first one with a new tag in one way. -/
structure Filled (tag : Word) (v : ℕ) (blocks blocks' : List Block) : Prop where
  tags : ∀ w, tagAt blocks' w = if w = v then tag else tagAt blocks w
  valids : ∀ w, validAt blocks' w = if w = v then true else validAt blocks w
  length : blocks'.length = blocks.length

section Sets
variable {blocks blocks' blocks'' : List Block} {tag : Word} {v : ℕ}

lemma SameTags.refl (blocks : List Block) : SameTags blocks blocks := ⟨rfl,rfl,rfl⟩

lemma SameTags.trans (h : SameTags blocks blocks') (h' : SameTags blocks' blocks'') :
    SameTags blocks blocks'' :=
  ⟨h'.tags.trans h.tags,h'.valids.trans h.valids,h'.length.trans h.length⟩

lemma SameTags.holds_iff (h : SameTags blocks blocks') (tag : Word) :
    Holds blocks' tag ↔ Holds blocks tag := by
  rw [Holds, Holds, h.tags, h.valids]

lemma SameTags.tidy (h : SameTags blocks blocks') (ht : Tidy blocks) : Tidy blocks' := by
  refine ⟨fun v w hv hw he => ?_,fun v w hlt hw => ?_⟩
  · rw [h.valids] at hv hw
    rw [h.tags] at he
    exact ht.distinct v w hv hw he
  · rw [h.valids] at hw ⊢
    exact ht.front v w hlt hw

/-- A way-by-way change of the replacement state. -/
lemma sameTags_map {f : Block → Block} (hf : ∀ b, (f b).tag = b.tag ∧ (f b).valid = b.valid) :
    SameTags blocks (blocks.map f) := by
  have hget : ∀ w, ((blocks.map f).getD w {}).tag = (blocks.getD w {}).tag ∧
      ((blocks.map f).getD w {}).valid = (blocks.getD w {}).valid := fun w => by
    by_cases hw : w < blocks.length
    · rw [List.getD_eq_getElem _ _ (by simpa using hw), List.getElem_map, getD_of_lt hw]
      exact hf _
    · have hge : blocks.length ≤ w := not_lt.mp hw
      rw [List.getD_eq_default _ _ (by simpa using hge), List.getD_eq_default _ _ hge]
      exact ⟨rfl,rfl⟩
  exact ⟨funext fun w => (hget w).1,funext fun w => (hget w).2,List.length_map ..⟩

lemma sameTags_modify {f : Block → Block} (hf : ∀ b, (f b).tag = b.tag ∧ (f b).valid = b.valid)
    (v : ℕ) : SameTags blocks (blocks.modify v f) := by
  by_cases hv : v < blocks.length
  · have hget := getD_modify hv f
    refine ⟨funext fun w => ?_,funext fun w => ?_,List.length_modify ..⟩
    · rw [tagAt, hget, tagAt]
      split_ifs
      · exact (hf _).1
      · rfl
    · rw [validAt, hget, validAt]
      split_ifs
      · exact (hf _).2
      · rfl
  · rw [List.modify_eq_self (not_lt.mp hv)]
    exact .refl blocks

lemma sameTags_updateLru (v : ℕ) : SameTags blocks (updateLru blocks v) := by
  refine (sameTags_map fun b => ?_).trans
    (sameTags_modify (f := fun b => { b with recency := 0 }) (fun b => ⟨rfl,rfl⟩) v)
  split_ifs <;> exact ⟨rfl,rfl⟩

lemma sameTags_touch (policy : Policy) (v : ℕ) : SameTags blocks (touch policy blocks v) := by
  cases policy with
  | rand => exact .refl blocks
  | lru => exact sameTags_updateLru v
  | rrip =>
    exact sameTags_modify (f := fun b => { b with rrpv := immediateRrpv }) (fun b => ⟨rfl,rfl⟩) v

lemma sameTags_aged : SameTags blocks (blocks.map agedBlock) := by
  refine sameTags_map fun b => ?_
  unfold agedBlock
  split_ifs <;> exact ⟨rfl,rfl⟩

lemma Filled.sameTags (h : SameTags blocks blocks') (hf : Filled tag v blocks' blocks'') :
    Filled tag v blocks blocks'' := by
  obtain ⟨htag,hvalid,hlen⟩ := h
  refine ⟨fun w => ?_,fun w => ?_,hf.length.trans hlen⟩
  · rw [hf.tags, htag]
  · rw [hf.valids, hvalid]

lemma SameTags.filled (hf : Filled tag v blocks blocks') (h : SameTags blocks' blocks'') :
    Filled tag v blocks blocks'' := by
  obtain ⟨htag,hvalid,hlen⟩ := h
  refine ⟨fun w => ?_,fun w => ?_,hlen.trans hf.length⟩
  · rw [htag, hf.tags]
  · rw [hvalid, hf.valids]

lemma filled_replaceBlock (policy : Policy) (tag : Word) (hv : v < blocks.length) :
    Filled tag v blocks (replaceBlock policy tag blocks v) := by
  have hset : ∀ b : List Block, v < b.length →
      Filled tag v b (b.modify v fun b => { b with tag := tag, valid := true }) := fun b hb => by
    have hget := getD_modify hb fun b => { b with tag := tag, valid := true }
    refine ⟨fun w => ?_,fun w => ?_,List.length_modify ..⟩
    · rw [tagAt, hget]
      split_ifs <;> rfl
    · rw [validAt, hget]
      split_ifs <;> rfl
  rw [replaceBlock]
  refine SameTags.filled ?_ (sameTags_touch policy v)
  split_ifs
  · have hsame : SameTags blocks (blocks.modify v fun b => { b with rrpv := longRrpv }) :=
      sameTags_modify (f := fun b => { b with rrpv := longRrpv }) (fun b => ⟨rfl,rfl⟩) v
    exact Filled.sameTags hsame (hset _ (by rwa [hsame.length]))
  · exact hset blocks hv

/-- The search of the RRIP build ages the set and picks one of its ways. -/
lemma rripSearch_ok {n : ℕ} (h : rripSearch n blocks = .ok (v,blocks')) :
    v < blocks.length ∧ SameTags blocks blocks' := by
  induction n generalizing blocks with
  | zero => cases h
  | succ n ih =>
    rw [rripSearch] at h
    cases hf : blocks.findIdx? fun b => b.rrpv == distantRrpv with
    | some victim =>
      rw [hf] at h
      obtain ⟨rfl,rfl⟩ := Prod.mk.inj (Except.ok.inj h)
      exact ⟨(List.findIdx?_eq_some_iff_getElem.mp hf).1,.refl blocks⟩
    | none =>
      rw [hf] at h
      obtain ⟨hlt,hsame⟩ := ih h
      rw [sameTags_aged.length] at hlt
      exact ⟨hlt,sameTags_aged.trans hsame⟩

/-- The victim is a way of the set, the first invalid one if there is any. -/
lemma chooseVictim_ok {policy : Policy} {rand rand' : ℕ → ℕ} (hl : 0 < blocks.length)
    (h : chooseVictim policy blocks.length blocks rand = .ok (v,blocks',rand')) :
    v < blocks.length ∧ SameTags blocks blocks' ∧ ∀ b, invalidWay blocks = some b → v = b := by
  unfold chooseVictim at h
  cases hi : invalidWay blocks with
  | some b =>
    simp only [hi, Except.ok.injEq, Prod.mk.injEq] at h
    obtain ⟨rfl,rfl,-⟩ := h
    exact ⟨(invalidWay_some hi).1,.refl blocks,fun b' hb => Option.some.inj hb⟩
  | none =>
    have hno : ∀ b, none = some b → v = b := fun b hb => by cases hb
    cases policy with
    | rand =>
      simp only [hi, Except.ok.injEq, Prod.mk.injEq] at h
      obtain ⟨rfl,rfl,-⟩ := h
      exact ⟨Nat.mod_lt _ hl,.refl blocks,hno⟩
    | lru =>
      simp only [hi, Except.ok.injEq, Prod.mk.injEq] at h
      obtain ⟨rfl,rfl,-⟩ := h
      refine ⟨?_,.refl blocks,hno⟩
      rw [lruVictim]
      cases hf : blocks.findIdx? fun b => b.recency == blocks.length - 1 with
      | none => exact hl
      | some w => exact (List.findIdx?_eq_some_iff_getElem.mp hf).1
    | rrip =>
      cases hs : rripSearch 4 blocks with
      | error e => simp [hi, hs, bind, Except.bind] at h
      | ok r =>
        obtain ⟨victim,aged⟩ := r
        simp only [hi, hs, bind, Except.bind, Except.ok.injEq, Prod.mk.injEq] at h
        obtain ⟨rfl,rfl,-⟩ := h
        obtain ⟨hlt,hsame⟩ := rripSearch_ok hs
        exact ⟨hlt,hsame,hno⟩

/-- A tag that was missing goes to a valid way or to the first invalid one. -/
lemma Filled.tidy (h : Filled tag v blocks blocks') (ht : Tidy blocks)
    (hmiss : ¬Holds blocks tag) (hv : validAt blocks v = true ∨ invalidWay blocks = some v) :
    Tidy blocks' := by
  have hbefore : ∀ w < v, validAt blocks w = true := by
    rcases hv with hv | hv
    · exact fun w hw => ht.front w v hw hv
    · exact (invalidWay_some hv).2.2
  have hother : ∀ w, validAt blocks' w = true → w ≠ v →
      validAt blocks w = true ∧ tagAt blocks' w = tagAt blocks w := fun w hw hne => by
    rw [h.valids, if_neg hne] at hw
    exact ⟨hw,by rw [h.tags, if_neg hne]⟩
  have hfresh : ∀ w, validAt blocks' w = true → w ≠ v → tagAt blocks' w ≠ tag :=
    fun w hw hne he => by
      obtain ⟨hvalid,htag⟩ := hother w hw hne
      exact hmiss ⟨w,hvalid,htag ▸ he⟩
  have hself : tagAt blocks' v = tag := by rw [h.tags, if_pos rfl]
  refine ⟨fun x y hx hy he => ?_,fun x y hlt hy => ?_⟩
  · by_cases hxv : x = v
    · by_cases hyv : y = v
      · rw [hxv, hyv]
      · rw [hxv, hself] at he
        exact absurd he.symm (hfresh y hy hyv)
    · by_cases hyv : y = v
      · rw [hyv, hself] at he
        exact absurd he (hfresh x hx hxv)
      · obtain ⟨hx',htx⟩ := hother x hx hxv
        obtain ⟨hy',hty⟩ := hother y hy hyv
        exact ht.distinct x y hx' hy' (by rw [← htx, ← hty, he])
  · rw [h.valids]
    split_ifs with hxv
    · rfl
    · by_cases hyv : y = v
      · exact hbefore x (hyv ▸ hlt)
      · exact ht.front x y hlt (hother y hy hyv).1

/-- What the set holds after the fill. -/
lemma Filled.holds_iff (h : Filled tag v blocks blocks') (ht : Tidy blocks) (t : Word) :
    Holds blocks' t ↔ t = tag ∨
      (Holds blocks t ∧ ¬(validAt blocks v = true ∧ t = tagAt blocks v)) := by
  constructor
  · rintro ⟨w,hw,rfl⟩
    by_cases hwv : w = v
    · rw [h.tags, if_pos hwv]
      exact .inl rfl
    · rw [h.valids, if_neg hwv] at hw
      rw [h.tags, if_neg hwv]
      exact .inr ⟨⟨w,hw,rfl⟩,fun hc => hwv (ht.distinct w v hw hc.1 hc.2)⟩
  · rintro (rfl | ⟨⟨w,hw,rfl⟩,hne⟩)
    · exact ⟨v,by rw [h.valids, if_pos rfl],by rw [h.tags, if_pos rfl]⟩
    · have hwv : w ≠ v := by
        rintro rfl
        exact hne ⟨hw,rfl⟩
      exact ⟨w,by rw [h.valids, if_neg hwv, hw],by rw [h.tags, if_neg hwv]⟩

end Sets

/-! The whole cache over a trace. -/

/-- A block of memory, by the set it goes to and its tag. -/
abbrev BlockId := ℕ × Word

def blockOf (c : Cache) (address : Word) : BlockId := (c.setOf address,c.tagOf address)

def Resident (c : Cache) (k : BlockId) : Prop := Holds (c.sets k.1) k.2

/-- The block goes from one state of the cache to the next. -/
def Leaves (c c' : Cache) (k : BlockId) : Prop := Resident c k ∧ ¬Resident c' k

/-- The block in the victim way of a miss in a full set. -/
def replacedBlock (policy : Policy) (c : Cache) (rand : ℕ → ℕ) (address : Word) :
    Option BlockId :=
  let set := c.setOf address
  match hitWay (c.sets set) (c.tagOf address),invalidWay (c.sets set),
    chooseVictim policy c.numWays (c.sets set) rand with
  | none,none,.ok (victim,_) => some (set,tagAt (c.sets set) victim)
  | _,_,_ => none

/-- One access of a trace. -/
structure Access where
  block : BlockId
  replaced : Option BlockId

/-- The traces of accesses to aligned addresses, with the cache after them. -/
inductive Trace (policy : Policy) (c₀ : Cache) (rand₀ : ℕ → ℕ) :
    List Access → Cache → (ℕ → ℕ) → Prop
  | start : Trace policy c₀ rand₀ [] c₀ rand₀
  | access {l c rand c' rand' address stall} : Trace policy c₀ rand₀ l c rand →
      WordAligned address → cacheAccess policy c rand address = .ok (stall,c',rand') →
      Trace policy c₀ rand₀
        (l ++ [⟨blockOf c address,replacedBlock policy c rand address⟩]) c' rand'

/-- The block was accessed in the trace and not replaced since. -/
def Live (l : List Access) (k : BlockId) : Prop :=
  ∃ l₁ e l₂, l = l₁ ++ e :: l₂ ∧ e.block = k ∧ ∀ e' ∈ l₂, e'.replaced ≠ some k

lemma live_nil (k : BlockId) : ¬Live [] k := by
  rintro ⟨l₁,e,l₂,h,-⟩
  cases l₁ <;> cases h

lemma live_snoc (l : List Access) (e : Access) (k : BlockId) :
    Live (l ++ [e]) k ↔ e.block = k ∨ (Live l k ∧ e.replaced ≠ some k) := by
  constructor
  · rintro ⟨l₁,e',l₂,h,hk,hkeep⟩
    rcases List.eq_nil_or_concat l₂ with rfl | ⟨l₃,e'',rfl⟩
    · obtain ⟨-,he⟩ := List.append_inj' h rfl
      obtain rfl := (List.cons.inj he).1
      exact .inl hk
    · rw [List.concat_eq_append, ← List.cons_append, ← List.append_assoc] at h
      obtain ⟨rfl,he⟩ := List.append_inj' h rfl
      obtain rfl := (List.cons.inj he).1
      rw [List.concat_eq_append] at hkeep
      exact .inr ⟨⟨l₁,e',l₃,rfl,hk,fun x hx => hkeep x (List.mem_append_left _ hx)⟩,
        hkeep e (List.mem_append_right _ List.mem_cons_self)⟩
  · rintro (hk | ⟨⟨l₁,e',l₂,rfl,hk,hkeep⟩,he⟩)
    · exact ⟨l,e,[],rfl,hk,fun x hx => by cases hx⟩
    · refine ⟨l₁,e',l₂ ++ [e],by simp,hk,fun x hx => ?_⟩
      rcases List.mem_append.mp hx with hx | hx
      · exact hkeep x hx
      · exact List.mem_singleton.mp hx ▸ he

section Step
variable {policy : Policy} {c c' : Cache} {rand rand' : ℕ → ℕ} {address : Word} {stall : ℕ}

lemma resident_setBlocks (set : ℕ) (blocks : List Block) (k : BlockId) :
    Resident (c.setBlocks set blocks) k ↔
      if k.1 = set then Holds blocks k.2 else Resident c k := by
  by_cases hk : k.1 = set
  · simp [Resident, Cache.setBlocks, hk]
  · simp [Resident, Cache.setBlocks, hk]

lemma tidy_setBlocks (ht : ∀ s, Tidy (c.sets s)) {set : ℕ} {blocks : List Block}
    (hb : Tidy blocks) (s : ℕ) : Tidy ((c.setBlocks set blocks).sets s) := by
  by_cases hs : s = set
  · simpa [Cache.setBlocks, hs] using hb
  · simpa [Cache.setBlocks, hs] using ht s

lemma holds_iff_hitWay (blocks : List Block) (tag : Word) :
    Holds blocks tag ↔ hitWay blocks tag ≠ none := by
  constructor
  · rintro ⟨w,hw,ht⟩ hnone
    exact hitWay_none hnone hw ht
  · intro h
    obtain ⟨w,hw⟩ := Option.ne_none_iff_exists'.mp h
    exact ⟨w,hitWay_some hw⟩

/-- What one access does to the contents of the cache. -/
structure AccessDone (policy : Policy) (c : Cache) (rand : ℕ → ℕ) (address : Word) (stall : ℕ)
    (c' : Cache) : Prop where
  tidy : ∀ s, Tidy (c'.sets s)
  same : c'.blockBits = c.blockBits ∧ c'.setBits = c.setBits ∧ c'.numSets = c.numSets
  hit : stall = 0 ↔ Resident c (blockOf c address)
  resident : ∀ k, Resident c' k ↔
    k = blockOf c address ∨ (Resident c k ∧ replacedBlock policy c rand address ≠ some k)
  replaced : ∀ k, replacedBlock policy c rand address = some k →
    Resident c k ∧ k ≠ blockOf c address ∧ k.1 = c.setOf address ∧
      invalidWay (c.sets (c.setOf address)) = none

/-- A hit only touches the replacement state of the set. -/
lemma accessDone_of_hit (ht : ∀ s, Tidy (c.sets s)) {b : ℕ}
    (hhit : hitWay (c.sets (c.setOf address)) (c.tagOf address) = some b) :
    AccessDone policy c rand address 0
      (c.setBlocks (c.setOf address) (touch policy (c.sets (c.setOf address)) b)) := by
  have hsame : SameTags (c.sets (c.setOf address)) (touch policy (c.sets (c.setOf address)) b) :=
    sameTags_touch policy b
  have hres : Resident c (blockOf c address) :=
    (holds_iff_hitWay _ _).mpr (hhit ▸ Option.some_ne_none b)
  have hrep : replacedBlock policy c rand address = none := by
    simp only [replacedBlock, hhit]
  refine ⟨tidy_setBlocks ht (hsame.tidy (ht _)),⟨rfl,rfl,rfl⟩,iff_of_true rfl hres,fun k => ?_,
    fun k hk => ?_⟩
  · have hkeep : Resident (c.setBlocks (c.setOf address)
        (touch policy (c.sets (c.setOf address)) b)) k ↔ Resident c k := by
      rw [resident_setBlocks]
      split_ifs with hk
      · rw [hsame.holds_iff, Resident, hk]
      · rfl
    rw [hkeep, hrep]
    constructor
    · exact fun h => .inr ⟨h,by simp⟩
    · rintro (rfl | ⟨h,-⟩)
      · exact hres
      · exact h
  · rw [hrep] at hk
    cases hk

/-- A miss puts the block into the victim way. -/
lemma accessDone_of_miss (hw : c.Shaped) (ht : ∀ s, Tidy (c.sets s))
    (hmiss : hitWay (c.sets (c.setOf address)) (c.tagOf address) = none) {v : ℕ}
    {blocks : List Block}
    (hv : chooseVictim policy c.numWays (c.sets (c.setOf address)) rand =
      .ok (v,blocks,rand')) :
    AccessDone policy c rand address dramAccessCycles (c.setBlocks (c.setOf address)
      (replaceBlock policy (c.tagOf address) blocks v)) := by
  set set := c.setOf address with hset
  have hlen : (c.sets set).length = c.numWays := hw.length_setOf address
  obtain ⟨hlt,hsame,hfirst⟩ := chooseVictim_ok (hlen ▸ hw.ways_pos) (hlen ▸ hv)
  have hfill : Filled (c.tagOf address) v (c.sets set)
      (replaceBlock policy (c.tagOf address) blocks v) :=
    Filled.sameTags hsame (filled_replaceBlock policy _ (hsame.length ▸ hlt))
  have hnot : ¬Holds (c.sets set) (c.tagOf address) := fun h =>
    (holds_iff_hitWay _ _).mp h hmiss
  have hfull : invalidWay (c.sets set) = none ↔ validAt (c.sets set) v = true := by
    cases hi : invalidWay (c.sets set) with
    | none => exact iff_of_true rfl (invalidWay_none hi hlt)
    | some b =>
      rw [hfirst b hi, (invalidWay_some hi).2.1]
      simp
  have hwhere : validAt (c.sets set) v = true ∨ invalidWay (c.sets set) = some v := by
    cases hi : invalidWay (c.sets set) with
    | none => exact .inl (hfull.mp hi)
    | some b => exact .inr (by rw [hfirst b hi])
  have hrep : ∀ k, replacedBlock policy c rand address = some k ↔
      validAt (c.sets set) v = true ∧ k = (set,tagAt (c.sets set) v) := fun k => by
    rw [← hfull]
    simp only [replacedBlock, ← hset, hmiss, hv]
    cases invalidWay (c.sets set) with
    | none => simp [eq_comm]
    | some b => simp
  refine ⟨tidy_setBlocks ht (hfill.tidy (ht _) hnot hwhere),⟨rfl,rfl,rfl⟩,
    iff_of_false (by decide) hnot,fun k => ?_,fun k hk => ?_⟩
  · rw [resident_setBlocks, ne_eq, hrep]
    obtain ⟨s,t⟩ := k
    by_cases hs : s = set
    · subst hs
      simp only [if_true, hfill.holds_iff (ht _), Resident, blockOf, Prod.mk.injEq, true_and,
        ← hset]
    · simp only [blockOf, Prod.mk.injEq, hs, ← hset, if_false, false_and, and_false,
        not_false_eq_true, and_true, false_or]
  · obtain ⟨hvalid,rfl⟩ := (hrep k).mp hk
    have hres : Resident c (set,tagAt (c.sets set) v) := ⟨v,hvalid,rfl⟩
    refine ⟨hres,fun he => hnot ?_,rfl,hfull.mpr hvalid⟩
    rw [he] at hres
    exact hres

lemma cacheAccess_done (hw : c.Shaped) (ht : ∀ s, Tidy (c.sets s))
    (h : cacheAccess policy c rand address = .ok (stall,c',rand')) :
    AccessDone policy c rand address stall c' := by
  obtain ⟨-,hanswer⟩ := cacheAccess_cases h
  cases hanswer with
  | hit hhit => exact accessDone_of_hit ht hhit
  | miss hmiss hv => exact accessDone_of_miss hw ht hmiss hv

end Step

/-- What holds of the cache after every trace. -/
structure ContentInv (l : List Access) (c : Cache) : Prop where
  wellFormed : WellFormed c
  tidy : ∀ s, Tidy (c.sets s)
  live : ∀ k, Resident c k ↔ Live l k

section Trace
variable {policy : Policy} {capacity : Word} {numWays blockSize : BitVec 8} {c₀ c : Cache}
  {rand₀ rand : ℕ → ℕ} {l : List Access}

/-- Every way of a new cache is invalid. -/
lemma allocCache_invalid (h : allocCache policy capacity numWays blockSize = some c₀) (s w : ℕ) :
    validAt (c₀.sets s) w = false := by
  have hsets : ∃ ways, c₀.sets s = (List.range ways).map (freshBlock policy) := by
    simp only [allocCache, Cache.alloc] at h
    split_ifs at h
    obtain rfl := Option.some.inj h
    dsimp only
    split_ifs
    · exact ⟨_,rfl⟩
    · exact ⟨0,rfl⟩
  obtain ⟨ways,hways⟩ := hsets
  rw [hways, validAt]
  by_cases hw : w < ways
  · rw [List.getD_eq_getElem _ _ (by simpa using hw), List.getElem_map]
    cases policy <;> rfl
  · rw [List.getD_eq_default _ _ (by simpa using hw)]

lemma contentInv_start (h : allocCache policy capacity numWays blockSize = some c₀)
    (hs : 0 < c₀.numSets) : ContentInv [] c₀ where
  wellFormed := allocCache_wellFormed h hs
  tidy s := by
    have hinv := allocCache_invalid h s
    refine ⟨fun v w hv => ?_,fun v w _ hw => ?_⟩
    · rw [hinv] at hv
      cases hv
    · rw [hinv] at hw
      cases hw
  live k := by
    refine iff_of_false ?_ (live_nil k)
    rintro ⟨w,hw,-⟩
    rw [allocCache_invalid h] at hw
    cases hw

lemma contentInv_access {address : Word} {stall : ℕ} {c' : Cache} {rand' : ℕ → ℕ}
    (hinv : ContentInv l c) (ha : WordAligned address)
    (h : cacheAccess policy c rand address = .ok (stall,c',rand')) :
    ContentInv (l ++ [⟨blockOf c address,replacedBlock policy c rand address⟩]) c' := by
  have hdone := cacheAccess_done hinv.wellFormed.shaped hinv.tidy h
  obtain ⟨_,_,_,hok,hw⟩ := cacheAccess_total policy hinv.wellFormed rand ha
  rw [h] at hok
  obtain ⟨-,hok⟩ := Prod.mk.inj (Except.ok.inj hok)
  obtain ⟨rfl,-⟩ := Prod.mk.inj hok
  refine ⟨hw,hdone.tidy,fun k => ?_⟩
  rw [live_snoc, hdone.resident, ← hinv.live, eq_comm]

theorem contentInv_trace (halloc : allocCache policy capacity numWays blockSize = some c₀)
    (hs : 0 < c₀.numSets) (h : Trace policy c₀ rand₀ l c rand) : ContentInv l c := by
  induction h with
  | start => exact contentInv_start halloc hs
  | access _ ha hok ih => exact contentInv_access ih ha hok

/-- After every trace the valid ways of each set hold distinct tags and come first; an access
hits exactly if its block is live, and afterwards the block is there; what leaves the cache is
the replaced block of the same set, if that set was full. -/
theorem cacheAccess_content (halloc : allocCache policy capacity numWays blockSize = some c₀)
    (hs : 0 < c₀.numSets) (htrace : Trace policy c₀ rand₀ l c rand) {address : Word}
    (ha : WordAligned address) :
    (∀ s < c.numSets, Tidy (c.sets s)) ∧
    ∃ stall c' rand', cacheAccess policy c rand address = .ok (stall,c',rand') ∧
      (stall = 0 ↔ Live l (blockOf c address)) ∧
      Resident c' (blockOf c address) ∧
      (∀ k, Leaves c c' k ↔ replacedBlock policy c rand address = some k) ∧
      ∀ k, Leaves c c' k → k ≠ blockOf c address ∧ k.1 = c.setOf address ∧
        invalidWay (c.sets (c.setOf address)) = none := by
  have hinv := contentInv_trace halloc hs htrace
  obtain ⟨stall,c',rand',hok,-⟩ := cacheAccess_total policy hinv.wellFormed rand ha
  have hdone := cacheAccess_done hinv.wellFormed.shaped hinv.tidy hok
  have hleaves : ∀ k, Leaves c c' k ↔ replacedBlock policy c rand address = some k := fun k => by
    rw [Leaves, hdone.resident]
    constructor
    · rintro ⟨hres,hgone⟩
      by_contra hne
      exact hgone (.inr ⟨hres,hne⟩)
    · intro hrep
      obtain ⟨hres,hne,-⟩ := hdone.replaced k hrep
      exact ⟨hres,fun h => h.elim hne fun h => h.2 hrep⟩
  refine ⟨fun s _ => hinv.tidy s,stall,c',rand',hok,?_,(hdone.resident _).mpr (.inl rfl),hleaves,
    fun k hk => ?_⟩
  · rw [hdone.hit, hinv.live]
  · exact (hdone.replaced k ((hleaves k).mp hk)).2

end Trace

/-- The accesses to these addresses, and the cache after them. -/
def accesses (policy : Policy) (c : Cache) (rand : ℕ → ℕ) :
    List Word → Except Abort (List Access × Cache × (ℕ → ℕ))
  | [] => .ok ([],c,rand)
  | address :: rest => do
    let (_,c',rand') ← cacheAccess policy c rand address
    let (l,c'',rand'') ← accesses policy c' rand' rest
    .ok (⟨blockOf c address,replacedBlock policy c rand address⟩ :: l,c'',rand'')

lemma Trace.accesses {policy : Policy} {c₀ c c' : Cache} {rand₀ rand rand' : ℕ → ℕ}
    {l l' : List Access} {addresses : List Word} (h : Trace policy c₀ rand₀ l c rand)
    (ha : ∀ a ∈ addresses, WordAligned a)
    (hok : Lab1.accesses policy c rand addresses = .ok (l',c',rand')) :
    Trace policy c₀ rand₀ (l ++ l') c' rand' := by
  induction addresses generalizing l l' c rand with
  | nil =>
    obtain ⟨rfl,rfl,rfl⟩ : [] = l' ∧ c = c' ∧ rand = rand' := by
      simpa [Lab1.accesses] using hok
    rwa [List.append_nil]
  | cons address rest ih =>
    rw [List.forall_mem_cons] at ha
    unfold Lab1.accesses at hok
    cases hc : cacheAccess policy c rand address with
    | error e => simp [hc, bind, Except.bind] at hok
    | ok p =>
      obtain ⟨stall,c₁,rand₁⟩ := p
      simp only [hc, bind, Except.bind] at hok
      cases hrest : Lab1.accesses policy c₁ rand₁ rest with
      | error e => simp [hrest] at hok
      | ok q =>
        obtain ⟨l₁,c₂,rand₂⟩ := q
        simp only [hrest, Except.ok.injEq, Prod.mk.injEq] at hok
        obtain ⟨rfl,rfl,rfl⟩ := hok
        have hnext := ih (h.access ha.1 hc) ha.2 hrest
        rwa [List.append_assoc] at hnext

/-- Block 0 is hit before its set is full. The access to block 0x2000 then replaces the block of
0x800, so that the next access to it misses and replaces block 0. -/
theorem icache_cacheAccess_content : ∃ l c rand, Trace .lru
      (initialCache .lru icacheSize icacheWays) id l c rand ∧
    l.map Access.replaced = [none,none,none,none,none,some (0,1)] ∧
    ∃ stall c' rand', cacheAccess .lru c rand 0x800 = .ok (stall,c',rand') ∧
      ¬Live l (0,1) ∧ 0 < stall ∧ Resident c' (0,1) ∧ Leaves c c' (0,0) ∧
      ∀ k, Leaves c c' k → k = (0,0) := by
  have hc : allocCache .lru icacheSize icacheWays blockSize =
      some (initialCache .lru icacheSize icacheWays) := rfl
  have hrun : (match Lab1.accesses .lru (initialCache .lru icacheSize icacheWays) id
        [0,0x800,0,0x1000,0x1800,0x2000] with
      | .ok (l,c,rand) => decide (l.map Access.replaced = [none,none,none,none,none,some (0,1)]) &&
        decide (blockOf c 0x800 = (0,1)) &&
        decide (replacedBlock .lru c rand 0x800 = some (0,0)) &&
        (match cacheAccess .lru c rand 0x800 with
          | .ok (stall,_) => decide (0 < stall)
          | .error _ => false)
      | .error _ => false) = true := by decide +kernel
  cases ha : Lab1.accesses .lru (initialCache .lru icacheSize icacheWays) id
      [0,0x800,0,0x1000,0x1800,0x2000] with
  | error e =>
    rw [ha] at hrun
    cases hrun
  | ok p =>
    obtain ⟨l,c,rand⟩ := p
    simp only [ha, Bool.and_eq_true, decide_eq_true_eq] at hrun
    obtain ⟨⟨⟨hl,hblock⟩,hrep⟩,hstall⟩ := hrun
    have htrace := (@Trace.start .lru (initialCache .lru icacheSize icacheWays) id).accesses
      (by simp [WordAligned]) ha
    rw [List.nil_append] at htrace
    obtain ⟨-,stall,c',rand',hok,hhit,hres,hleaves,-⟩ :=
      cacheAccess_content hc (by decide) htrace (by decide : WordAligned 0x800)
    rw [hok] at hstall
    rw [hblock] at hhit hres
    rw [hrep] at hleaves
    have hpos : 0 < stall := of_decide_eq_true hstall
    exact ⟨l,c,rand,htrace,hl,stall,c',rand',hok,fun hlive => by have := hhit.mpr hlive; omega,hpos,
      hres,(hleaves _).mpr rfl,fun k hk => (Option.some.inj ((hleaves k).mp hk)).symm⟩

end CaLabs.Lab1
