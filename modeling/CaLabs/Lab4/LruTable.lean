import Mathlib.Data.List.Nodup
import Mathlib.Data.List.Pairwise
import Mathlib.Data.List.Perm.Basic
import Mathlib.Data.List.Induction
import Mathlib.Logic.Function.Basic
import Mathlib.Tactic.Ring

/-! The set-associative table with LRU replacement: it behaves as lists in order of most recent
use. -/
namespace CaLabs.Lab4

structure LruBlock (α : Type*) where
  lastUsed : ℕ := 0
  data : α
  deriving DecidableEq, Repr

/-- The projections and the geometry. -/
structure LruConfig (α κ : Type*) where
  setProjection : α → ℕ
  tagProjection : α → κ
  numSet : ℕ
  numWay : ℕ

structure LruTable (α : Type*) where
  accessCount : ℕ := 0
  block : ℕ → List (LruBlock α)

variable {α κ : Type*}

def LruBlock.valid (b : LruBlock α) : Bool := decide (0 < b.lastUsed)

/-- A pass over a range that keeps the entry which is replaced by no later one, with its index. -/
def keepEntry (replaces : α → α → Bool) (first : α) (rest : List α) : α × ℕ :=
  (rest.zipIdx 1).foldl (fun best e => if replaces e.1 best.1 then e else best) (first,0)

namespace LruConfig
variable [DecidableEq κ] (c : LruConfig α κ)

def setIdx (elem : α) : ℕ := c.setProjection elem % c.numSet

def matchFunc (elem : α) (x : LruBlock α) : Bool :=
  x.valid && decide (c.tagProjection x.data = c.tagProjection elem)

def matchAndCheck (tag : κ) (x y : LruBlock α) : Bool :=
  let xMatch := decide (c.tagProjection x.data = tag)
  let yMatch := decide (c.tagProjection y.data = tag)
  !x.valid || (y.valid && ((!xMatch && yMatch) ||
    (xMatch == yMatch && decide (x.lastUsed < y.lastUsed))))

end LruConfig

namespace LruTable
variable [DecidableEq κ] (c : LruConfig α κ) (t : LruTable α)

def init [Inhabited α] : LruTable α where
  block _ := List.replicate c.numWay ⟨0,default⟩

/-- The block of a set at an index is assigned to. -/
def assign (set i : ℕ) (b : LruBlock α) : ℕ → List (LruBlock α) :=
  Function.update t.block set ((t.block set).set i b)

def checkHit (elem : α) : LruTable α × Option α :=
  let set := c.setIdx elem
  match (t.block set).find? (c.matchFunc elem) with
  | none => (t,none)
  | some hit =>
    ({ accessCount := t.accessCount + 1
       block := t.assign set ((t.block set).findIdx (c.matchFunc elem))
        { hit with lastUsed := t.accessCount + 1 } },some hit.data)

/-- minmax_element returns the first of the smallest and the last of the greatest entries; an
invalid block precedes all others, so the last of several is filled. -/
def fill (elem : α) : LruTable α :=
  let set := c.setIdx elem
  let tag := c.tagProjection elem
  match t.block set with
  | [] => t
  | first :: rest =>
    let (_,miss) := keepEntry (c.matchAndCheck tag) first rest
    let (hit,hitIdx) := keepEntry (fun x best => !c.matchAndCheck tag x best) first rest
    { accessCount := t.accessCount + 1
      block := t.assign set (if c.tagProjection hit.data = tag then hitIdx else miss)
        ⟨t.accessCount + 1,elem⟩ }

def invalidate [Inhabited α] (elem : α) : LruTable α × Option α :=
  let set := c.setIdx elem
  match (t.block set).find? (c.matchFunc elem) with
  | none => (t,none)
  | some hit =>
    ({ t with block := t.assign set ((t.block set).findIdx (c.matchFunc elem)) ⟨0,default⟩ },
      some hit.data)

end LruTable

/-- The calls of the users of a table. -/
inductive LruCall (α : Type*)
  | checkHit (elem : α)
  | fill (elem : α)
  | invalidate (elem : α)

/-- The table after a call and what the call returns. -/
def LruTable.call [DecidableEq κ] [Inhabited α] (c : LruConfig α κ) (t : LruTable α) :
    LruCall α → LruTable α × Option α
  | .checkHit elem => t.checkHit c elem
  | .fill elem => (t.fill c elem,none)
  | .invalidate elem => t.invalidate c elem

def LruTable.calls [DecidableEq κ] [Inhabited α] (c : LruConfig α κ) (t : LruTable α) :
    List (LruCall α) → List (Option α)
  | [] => []
  | call :: rest => (t.call c call).2 :: (t.call c call).1.calls c rest

/-- The sets as lists of elements in order of most recent use. -/
abbrev RecentSets (α : Type*) := ℕ → List α

namespace RecentSets
variable [DecidableEq κ] (c : LruConfig α κ) (s : RecentSets α)

def others (elem : α) : List α :=
  (s (c.setIdx elem)).filter fun x => decide (c.tagProjection x ≠ c.tagProjection elem)

def find (elem : α) : Option α :=
  (s (c.setIdx elem)).find? fun x => decide (c.tagProjection x = c.tagProjection elem)

/-- A hit moves its element to the front; a fill puts its element there in place of one with the
same tag, and the last element leaves a set that would grow over its ways. -/
def call : LruCall α → RecentSets α × Option α
  | .checkHit elem =>
    match s.find c elem with
    | none => (s,none)
    | some x => (Function.update s (c.setIdx elem) (x :: s.others c elem),some x)
  | .fill elem =>
    (Function.update s (c.setIdx elem) ((elem :: s.others c elem).take c.numWay),none)
  | .invalidate elem =>
    (Function.update s (c.setIdx elem) (s.others c elem),s.find c elem)

def calls (c : LruConfig α κ) (s : RecentSets α) : List (LruCall α) → List (Option α)
  | [] => []
  | call :: rest => (s.call c call).2 :: calls c (s.call c call).1 rest

end RecentSets

section KeepEntry
variable {replaces : α → α → Bool} {first : α}

lemma keepEntry_concat (rest : List α) (x : α) :
    keepEntry replaces first (rest ++ [x]) =
      if replaces x (keepEntry replaces first rest).1 then (x,rest.length + 1)
      else keepEntry replaces first rest := by
  rw [keepEntry, List.zipIdx_append, List.foldl_append, Nat.add_comm]
  rfl

/-- The entry kept stands at its index, and has what every round of the pass keeps. -/
lemma keepEntry_induction {P : List α → α → Prop} (hfirst : P [first] first)
    (hstep : ∀ pre x best, best ∈ pre → P pre best →
      P (pre ++ [x]) (if replaces x best then x else best)) (rest : List α) :
    (first :: rest)[(keepEntry replaces first rest).2]? =
      some (keepEntry replaces first rest).1 ∧
        P (first :: rest) (keepEntry replaces first rest).1 := by
  induction rest using List.reverseRecOn with
  | nil => exact ⟨rfl,hfirst⟩
  | append_singleton rest x ih =>
    obtain ⟨hget,hP⟩ := ih
    have hnext := hstep _ x _ (List.mem_of_getElem? hget) hP
    have hlt := (List.getElem?_eq_some_iff.mp hget).1
    rw [keepEntry_concat, ← List.cons_append]
    by_cases hr : replaces x (keepEntry replaces first rest).1 = true
    · rw [if_pos hr] at hnext ⊢
      refine ⟨?_,hnext⟩
      rw [List.getElem?_append_right (by simp)]
      simp
    · rw [if_neg hr] at hnext ⊢
      exact ⟨by rw [List.getElem?_append_left hlt, hget],hnext⟩

end KeepEntry

/-- The blocks of a set beside its valid blocks in order of most recent use, up to an access. -/
structure Ordered (c : LruConfig α κ) (n : ℕ) (blocks recent : List (LruBlock α)) : Prop where
  length_eq : blocks.length = c.numWay
  perm : recent.Perm (blocks.filter LruBlock.valid)
  descending : recent.Pairwise fun x y => y.lastUsed < x.lastUsed
  lastUsed_le : ∀ b ∈ blocks, b.lastUsed ≤ n
  tags_ne : recent.Pairwise fun x y => c.tagProjection x.data ≠ c.tagProjection y.data

/-- The valid blocks that stay when one is assigned to. -/
def Ordered.kept (recent : List (LruBlock α)) (b : LruBlock α) : List (LruBlock α) :=
  recent.filter fun x => decide (x.lastUsed ≠ b.lastUsed)

/-- The valid blocks of every set hold the elements of the abstract one, in order. -/
def LruTable.Refines (c : LruConfig α κ) (t : LruTable α) (s : RecentSets α) : Prop :=
  ∀ set, ∃ recent, Ordered c t.accessCount (t.block set) recent ∧
    s set = recent.map LruBlock.data

namespace Ordered
variable {c : LruConfig α κ} {n : ℕ} {blocks recent : List (LruBlock α)} {b b' : LruBlock α}
  {i : ℕ}

lemma mono {n' : ℕ} (h : Ordered c n blocks recent) (hle : n ≤ n') :
    Ordered c n' blocks recent :=
  { h with lastUsed_le := fun b hb => (h.lastUsed_le b hb).trans hle }

lemma mem_iff (h : Ordered c n blocks recent) : b ∈ recent ↔ b ∈ blocks ∧ b.valid = true := by
  rw [h.perm.mem_iff, List.mem_filter]

lemma length_le (h : Ordered c n blocks recent) : recent.length ≤ c.numWay := by
  rw [h.perm.length_eq, ← h.length_eq]
  exact List.length_filter_le _ _

lemma lastUsed_ne (h : Ordered c n blocks recent) :
    recent.Pairwise fun x y => x.lastUsed ≠ y.lastUsed :=
  h.descending.imp fun hlt => (Nat.ne_of_lt hlt).symm

/-- A tag belongs to one valid block only. -/
lemma eq_of_tag_eq (h : Ordered c n blocks recent) {x y : LruBlock α} (hx : x ∈ recent)
    (hy : y ∈ recent) (heq : c.tagProjection x.data = c.tagProjection y.data) : x = y := by
  by_contra hne
  have : Std.Symm fun x y : LruBlock α => c.tagProjection x.data ≠ c.tagProjection y.data :=
    ⟨fun _ _ => Ne.symm⟩
  exact h.tags_ne.forall hx hy hne heq

/-- A time of last use belongs to one valid block only. -/
lemma eq_of_lastUsed_eq (h : Ordered c n blocks recent) {x y : LruBlock α} (hx : x ∈ recent)
    (hy : y ∈ recent) (heq : x.lastUsed = y.lastUsed) : x = y := by
  by_contra hne
  have : Std.Symm fun x y : LruBlock α => x.lastUsed ≠ y.lastUsed := ⟨fun _ _ => Ne.symm⟩
  exact h.lastUsed_ne.forall hx hy hne heq

/-- The valid blocks after an assignment: the new one, if valid, and all but the old one. -/
lemma set_perm (h : Ordered c n blocks recent) (hb : blocks[i]? = some b) (b' : LruBlock α) :
    ([b'].filter LruBlock.valid ++ kept recent b).Perm
      ((blocks.set i b').filter LruBlock.valid) := by
  obtain ⟨hi,hget⟩ := List.getElem?_eq_some_iff.mp hb
  have hsplit : blocks = blocks.take i ++ b :: blocks.drop (i + 1) := by
    rw [← hget, ← List.drop_eq_getElem_cons hi, List.take_append_drop]
  have hset : blocks.set i b' = blocks.take i ++ ([b'] ++ blocks.drop (i + 1)) := by
    rw [List.set_eq_take_append_cons_drop, if_pos hi, List.singleton_append]
  -- no other valid block was used when the old one was
  have hothers : ∀ x, (x ∈ blocks.take i ∨ x ∈ blocks.drop (i + 1)) → x.valid = true →
      x.lastUsed ≠ b.lastUsed := by
    intro x hx hxv
    by_cases hv : b.valid = true
    · have hpair := h.lastUsed_ne.perm h.perm fun hne => hne.symm
      rw [hsplit, List.filter_append, List.filter_cons_of_pos hv,
        List.pairwise_append] at hpair
      rcases hx with hx | hx
      · exact hpair.2.2 x (List.mem_filter.mpr ⟨hx,hxv⟩) b List.mem_cons_self
      · exact ((List.pairwise_cons.mp hpair.2.1).1 x (List.mem_filter.mpr ⟨hx,hxv⟩)).symm
    · simp only [LruBlock.valid, decide_eq_true_eq] at hv hxv
      omega
  have hkept : (kept recent b).Perm
      ((blocks.take i).filter LruBlock.valid ++ (blocks.drop (i + 1)).filter LruBlock.valid) := by
    refine (h.perm.filter _).trans (List.Perm.of_eq ?_)
    rw [List.filter_filter]
    conv_lhs => rw [hsplit]
    rw [List.filter_append, List.filter_cons_of_neg (by simp)]
    congr 1 <;> refine List.filter_congr fun x hx => ?_
    · by_cases hv : x.valid = true
      · simp [hv, hothers x (.inl hx) hv]
      · simp [hv]
    · by_cases hv : x.valid = true
      · simp [hv, hothers x (.inr hx) hv]
      · simp [hv]
  rw [hset, List.filter_append, List.filter_append]
  refine (hkept.append_left _).trans ?_
  exact List.perm_append_comm_assoc _ _ _

/-- The block written last comes first. -/
lemma touch (h : Ordered c n blocks recent) (hb : blocks[i]? = some b) (elem : α)
    (htag : ∀ x ∈ kept recent b, c.tagProjection elem ≠ c.tagProjection x.data) :
    Ordered c (n + 1) (blocks.set i ⟨n + 1,elem⟩) (⟨n + 1,elem⟩ :: kept recent b) where
  length_eq := by rw [List.length_set, h.length_eq]
  perm := h.set_perm hb ⟨n + 1,elem⟩
  descending := by
    refine List.pairwise_cons.mpr ⟨fun x hx => ?_,h.descending.filter _⟩
    have := h.lastUsed_le x (h.mem_iff.mp (List.mem_of_mem_filter hx)).1
    exact Nat.lt_succ_of_le this
  lastUsed_le x hx := by
    rcases List.mem_or_eq_of_mem_set hx with hx | rfl
    · exact (h.lastUsed_le x hx).trans n.le_succ
    · exact Nat.le_refl _
  tags_ne := List.pairwise_cons.mpr ⟨htag,h.tags_ne.filter _⟩

lemma drop (h : Ordered c n blocks recent) (hb : blocks[i]? = some b) (elem : α) :
    Ordered c n (blocks.set i ⟨0,elem⟩) (kept recent b) where
  length_eq := by rw [List.length_set, h.length_eq]
  perm := h.set_perm hb ⟨0,elem⟩
  descending := h.descending.filter _
  lastUsed_le x hx := by
    rcases List.mem_or_eq_of_mem_set hx with hx | rfl
    · exact h.lastUsed_le x hx
    · exact n.zero_le
  tags_ne := h.tags_ne.filter _

lemma kept_of_not_valid (h : Ordered c n blocks recent) (hv : ¬b.valid = true) :
    kept recent b = recent := by
  refine List.filter_eq_self.mpr fun x hx => ?_
  have hxv := (h.mem_iff.mp hx).2
  simp only [LruBlock.valid, decide_eq_true_eq] at hv hxv ⊢
  omega

/-- With all ways valid, the block used least recently is the last one. -/
lemma kept_of_least (h : Ordered c n blocks recent) (hb : b ∈ recent)
    (hleast : ∀ x ∈ recent, b.lastUsed ≤ x.lastUsed) :
    ∃ z, recent = kept recent b ++ [z] := by
  obtain ⟨init,z,rfl⟩ := List.eq_nil_or_concat recent |>.resolve_left (List.ne_nil_of_mem hb)
  have hdesc := h.descending
  rw [List.concat_eq_append, List.pairwise_append] at hdesc
  have hbefore : ∀ x ∈ init, z.lastUsed < x.lastUsed := fun x hx =>
    hdesc.2.2 x hx z List.mem_cons_self
  rw [List.concat_eq_append] at hb hleast ⊢
  have hz : b.lastUsed = z.lastUsed := by
    rcases List.mem_append.mp hb with hb | hb
    · have := hbefore b hb
      have := hleast z (by simp)
      omega
    · rw [List.mem_singleton.mp hb]
  refine ⟨z,?_⟩
  have hinit : init.filter (fun x => decide (x.lastUsed ≠ b.lastUsed)) = init :=
    List.filter_eq_self.mpr fun x hx => decide_eq_true (by have := hbefore x hx; omega)
  rw [kept, List.filter_append, hinit, List.filter_cons_of_neg (by simp [hz])]
  simp

section Matching
variable [DecidableEq κ] {elem : α} {hit : LruBlock α}

lemma kept_of_tag_eq (h : Ordered c n blocks recent) (hb : b ∈ recent)
    (htag : c.tagProjection b.data = c.tagProjection elem) :
    kept recent b = recent.filter
      fun x => decide (c.tagProjection x.data ≠ c.tagProjection elem) := by
  refine List.filter_congr fun x hx => ?_
  have hiff : x.lastUsed = b.lastUsed ↔ c.tagProjection x.data = c.tagProjection elem := by
    constructor
    · intro heq
      rw [h.eq_of_lastUsed_eq hx hb heq, htag]
    · intro heq
      rw [h.eq_of_tag_eq hx hb (heq.trans htag.symm)]
  simp [hiff]

lemma matchFunc_iff (h : Ordered c n blocks recent) : (∃ x ∈ blocks, c.matchFunc elem x = true) ↔
    ∃ x ∈ recent, c.tagProjection x.data = c.tagProjection elem := by
  simp [h.mem_iff, LruConfig.matchFunc, and_assoc]

/-- No element is left out when there is no match. -/
lemma filter_of_miss (h : Ordered c n blocks recent)
    (hmiss : ∀ x ∈ blocks, ¬c.matchFunc elem x = true) :
    (recent.filter fun x => decide (c.tagProjection x.data ≠ c.tagProjection elem)) = recent := by
  refine List.filter_eq_self.mpr fun x hx => decide_eq_true fun htag => ?_
  obtain ⟨y,hy,hmatch⟩ := h.matchFunc_iff.mpr ⟨x,hx,htag⟩
  exact hmiss y hy hmatch

lemma find?_some (h : Ordered c n blocks recent)
    (hf : blocks.find? (c.matchFunc elem) = some hit) :
    hit ∈ recent ∧ c.tagProjection hit.data = c.tagProjection elem := by
  have hmatch := List.find?_some hf
  rw [LruConfig.matchFunc, Bool.and_eq_true, decide_eq_true_eq] at hmatch
  exact ⟨h.mem_iff.mpr ⟨List.mem_of_find?_eq_some hf,hmatch.1⟩,hmatch.2⟩

/-- The search for a match among the blocks finds what one among the recent elements does. -/
lemma find?_recent (h : Ordered c n blocks recent) :
    recent.find? (fun x => decide (c.tagProjection x.data = c.tagProjection elem)) =
      blocks.find? (c.matchFunc elem) := by
  cases hf : blocks.find? (c.matchFunc elem) with
  | none =>
    refine List.find?_eq_none.mpr fun x hx htag => ?_
    obtain ⟨y,hy,hmatch⟩ := h.matchFunc_iff.mpr ⟨x,hx,of_decide_eq_true htag⟩
    exact List.find?_eq_none.mp hf y hy hmatch
  | some hit =>
    obtain ⟨hmem,htag⟩ := h.find?_some hf
    obtain ⟨x,hx⟩ := Option.isSome_iff_exists.mp
      (List.find?_isSome (p := fun x : LruBlock α =>
        decide (c.tagProjection x.data = c.tagProjection elem)).mpr ⟨hit,hmem,decide_eq_true htag⟩)
    have hxtag : c.tagProjection x.data = c.tagProjection elem := by
      simpa using List.find?_some hx
    rw [hx, h.eq_of_tag_eq (List.mem_of_find?_eq_some hx) hmem (hxtag.trans htag.symm)]

end Matching
end Ordered

section Passes
variable [DecidableEq κ] (c : LruConfig α κ) (elem : α) (first : LruBlock α)
  (rest : List (LruBlock α))

/-- The last of the greatest blocks is a match if there is one. -/
lemma keepEntry_greatest : 
    let best := keepEntry (fun x best => !c.matchAndCheck (c.tagProjection elem) x best) first rest
    (first :: rest)[best.2]? = some best.1 ∧
      ((∃ x ∈ first :: rest, c.matchFunc elem x = true) → c.matchFunc elem best.1 = true) := by
  refine keepEntry_induction
    (P := fun pre best => (∃ x ∈ pre, c.matchFunc elem x = true) → c.matchFunc elem best = true)
    (by simp) (fun pre x best _ ih hmatch => ?_) rest
  by_cases hbest : c.matchFunc elem best = true
  · by_cases hx : c.matchFunc elem x = true
    · split <;> assumption
    · rw [if_neg]
      · exact hbest
      · simp only [LruConfig.matchFunc, LruConfig.matchAndCheck] at hbest hx ⊢
        grind
  · have hx : c.matchFunc elem x = true := by
      obtain ⟨y,hy,hym⟩ := hmatch
      rcases List.mem_append.mp hy with hy | hy
      · exact absurd (ih ⟨y,hy,hym⟩) hbest
      · rwa [← List.mem_singleton.mp hy]
    rw [if_pos]
    · exact hx
    · simp only [LruConfig.matchFunc, LruConfig.matchAndCheck] at hbest hx ⊢
      grind

/-- The first of the smallest blocks, when none is a match, is one that is not valid, or the one
used least recently. -/
lemma keepEntry_smallest :
    let best := keepEntry (c.matchAndCheck (c.tagProjection elem)) first rest
    (first :: rest)[best.2]? = some best.1 ∧
      ((∀ x ∈ first :: rest, ¬c.matchFunc elem x = true) → ¬best.1.valid = true ∨
        ∀ x ∈ first :: rest, x.valid = true ∧ best.1.lastUsed ≤ x.lastUsed) := by
  refine keepEntry_induction
    (P := fun pre best => (∀ x ∈ pre, ¬c.matchFunc elem x = true) → ¬best.valid = true ∨
      ∀ x ∈ pre, x.valid = true ∧ best.lastUsed ≤ x.lastUsed)
    (fun _ => ?_) (fun pre x best hbest ih hmiss => ?_) rest
  · by_cases hv : first.valid = true
    · exact .inr (by simp [hv])
    · exact .inl hv
  · have hpre := ih fun y hy => hmiss y (List.mem_append_left _ hy)
    have hmb := hmiss best (List.mem_append_left _ hbest)
    have hmx := hmiss x (List.mem_append_right _ List.mem_cons_self)
    simp only [LruConfig.matchFunc, LruConfig.matchAndCheck] at hmb hmx ⊢
    grind

/-- The block that a fill writes over: the match, or without one a block that is not valid or
the one used least recently. -/
def Replaced (blocks : List (LruBlock α)) (b : LruBlock α) : Prop :=
  c.matchFunc elem b = true ∨ (∀ x ∈ blocks, ¬c.matchFunc elem x = true) ∧
    (¬b.valid = true ∨ ∀ x ∈ blocks, x.valid = true ∧ b.lastUsed ≤ x.lastUsed)

lemma LruTable.fill_replaces {c : LruConfig α κ} (t : LruTable α)
    (hne : t.block (c.setIdx elem) ≠ []) :
    ∃ i b, (t.block (c.setIdx elem))[i]? = some b ∧
      Replaced c elem (t.block (c.setIdx elem)) b ∧
      t.fill c elem = ⟨t.accessCount + 1,
        t.assign (c.setIdx elem) i ⟨t.accessCount + 1,elem⟩⟩ := by
  obtain ⟨first,rest,hblock⟩ := List.exists_cons_of_ne_nil hne
  obtain ⟨hgreatest,hmatch⟩ := keepEntry_greatest c elem first rest
  obtain ⟨hsmallest,hmiss⟩ := keepEntry_smallest c elem first rest
  simp only [LruTable.fill, hblock]
  by_cases hm : ∃ x ∈ first :: rest, c.matchFunc elem x = true
  · have hbest := hmatch hm
    have htag := hbest
    rw [LruConfig.matchFunc, Bool.and_eq_true, decide_eq_true_eq] at htag
    rw [if_pos htag.2]
    exact ⟨_,_,hgreatest,.inl hbest,rfl⟩
  · have hnone : ∀ x ∈ first :: rest, ¬c.matchFunc elem x = true := fun x hx hxm => hm ⟨x,hx,hxm⟩
    split
    · -- the tag of a block without an element may be the one looked for
      rename_i htag
      have hbest := hnone _ (List.mem_of_getElem? hgreatest)
      rw [LruConfig.matchFunc, decide_eq_true htag, Bool.and_true] at hbest
      exact ⟨_,_,hgreatest,.inr ⟨hnone,.inl hbest⟩,rfl⟩
    · exact ⟨_,_,hsmallest,.inr ⟨hnone,hmiss hnone⟩,rfl⟩

namespace Ordered
variable {c : LruConfig α κ} {elem : α} {n i : ℕ} {blocks recent : List (LruBlock α)}
  {b : LruBlock α}

lemma kept_tags_ne (h : Ordered c n blocks recent) (hget : blocks[i]? = some b)
    (hrep : Replaced c elem blocks b) :
    ∀ x ∈ kept recent b, c.tagProjection elem ≠ c.tagProjection x.data := by
  intro x hx
  rcases hrep with hmatch | ⟨hmiss,_⟩
  · rw [LruConfig.matchFunc, Bool.and_eq_true, decide_eq_true_eq] at hmatch
    have hb := h.mem_iff.mpr ⟨List.mem_of_getElem? hget,hmatch.1⟩
    rw [h.kept_of_tag_eq hb hmatch.2, List.mem_filter] at hx
    exact (of_decide_eq_true hx.2).symm
  · have hx' := List.mem_of_mem_filter hx
    rw [← h.filter_of_miss hmiss, List.mem_filter] at hx'
    exact (of_decide_eq_true hx'.2).symm

/-- Only a set whose ways are all valid loses an element, the last one. -/
lemma take_numWay (h : Ordered c n blocks recent) (hget : blocks[i]? = some b)
    (hrep : Replaced c elem blocks b) :
    elem :: (kept recent b).map LruBlock.data =
      (elem :: (recent.filter fun x =>
        decide (c.tagProjection x.data ≠ c.tagProjection elem)).map LruBlock.data).take
          c.numWay := by
  have hlen := (h.touch hget elem (h.kept_tags_ne hget hrep)).length_le
  rw [List.length_cons] at hlen
  have hroom : (elem :: (kept recent b).map LruBlock.data).length ≤ c.numWay := by simpa using hlen
  rcases hrep with hmatch | ⟨hmiss,hinvalid | hleast⟩
  · rw [LruConfig.matchFunc, Bool.and_eq_true, decide_eq_true_eq] at hmatch
    have hb := h.mem_iff.mpr ⟨List.mem_of_getElem? hget,hmatch.1⟩
    rw [← h.kept_of_tag_eq hb hmatch.2, List.take_of_length_le hroom]
  · rw [h.kept_of_not_valid hinvalid] at hroom
    rw [h.filter_of_miss hmiss, h.kept_of_not_valid hinvalid, List.take_of_length_le hroom]
  · have hmem := List.mem_of_getElem? hget
    obtain ⟨z,hz⟩ := h.kept_of_least (h.mem_iff.mpr ⟨hmem,(hleast b hmem).1⟩)
      fun x hx => (hleast x (h.mem_iff.mp hx).1).2
    have hfull : recent.length = c.numWay := by
      rw [h.perm.length_eq, ← h.length_eq, List.filter_eq_self.mpr fun x hx => (hleast x hx).1]
    have hkept : (kept recent b).length + 1 = c.numWay := by
      rw [← hfull]
      conv_rhs => rw [hz]
      simp
    rw [h.filter_of_miss hmiss]
    conv_rhs => rw [hz]
    rw [List.map_append, ← List.cons_append, List.take_left']
    simpa using hkept

end Ordered
end Passes

namespace LruTable.Refines
variable {c : LruConfig α κ} {t : LruTable α} {s : RecentSets α}

lemma init [Inhabited α] : (LruTable.init c).Refines c fun _ => [] := by
  refine fun set => ⟨[],?_,rfl⟩
  constructor <;> simp [LruTable.init, LruBlock.valid]

/-- An assignment to one set is one of the abstract sets; the others stay as they are. -/
lemma assign (h : t.Refines c s) {set n i : ℕ} {b : LruBlock α} (recent : List (LruBlock α))
    (hn : t.accessCount ≤ n) (hset : Ordered c n ((t.block set).set i b) recent) :
    LruTable.Refines c ⟨n,t.assign set i b⟩
      (Function.update s set (recent.map LruBlock.data)) := by
  intro other
  by_cases heq : other = set
  · subst heq
    exact ⟨recent,by simpa [LruTable.assign] using hset,by simp⟩
  · obtain ⟨ordered,hord,hs⟩ := h other
    exact ⟨ordered,by simpa [LruTable.assign, heq] using hord.mono hn,by simpa [heq] using hs⟩

variable [DecidableEq κ]

lemma others_eq {elem : α} {recent : List (LruBlock α)}
    (hs : s (c.setIdx elem) = recent.map LruBlock.data) :
    s.others c elem = (recent.filter fun x =>
      decide (c.tagProjection x.data ≠ c.tagProjection elem)).map LruBlock.data := by
  rw [RecentSets.others, hs, List.filter_map]
  rfl

/-- What the search of a set finds is what the abstract one finds. -/
lemma find_eq {elem : α} {n : ℕ} {recent : List (LruBlock α)}
    (h : Ordered c n (t.block (c.setIdx elem)) recent)
    (hs : s (c.setIdx elem) = recent.map LruBlock.data) :
    s.find c elem =
      ((t.block (c.setIdx elem)).find? (c.matchFunc elem)).map LruBlock.data := by
  rw [RecentSets.find, hs, List.find?_map, ← h.find?_recent]
  rfl

lemma checkHit (h : t.Refines c s) [Inhabited α] (elem : α) :
    (t.checkHit c elem).1.Refines c (s.call c (.checkHit elem)).1 ∧
      (t.checkHit c elem).2 = (s.call c (.checkHit elem)).2 := by
  obtain ⟨recent,hord,hs⟩ := h (c.setIdx elem)
  have hfind := find_eq hord hs
  cases hf : (t.block (c.setIdx elem)).find? (c.matchFunc elem) with
  | none =>
    simp only [LruTable.checkHit, RecentSets.call, hfind, hf, Option.map_none]
    exact ⟨h,trivial⟩
  | some hit =>
    obtain ⟨hmem,htag⟩ := hord.find?_some hf
    have hget := hf
    rw [List.find?_eq_getElem?_findIdx] at hget
    have hkept := hord.kept_of_tag_eq hmem htag
    simp only [LruTable.checkHit, RecentSets.call, hfind, hf, Option.map_some]
    refine ⟨?_,trivial⟩
    rw [others_eq hs, ← hkept]
    refine h.assign (⟨t.accessCount + 1,hit.data⟩ :: Ordered.kept recent hit)
      (Nat.le_succ _) (hord.touch hget hit.data fun x hx => ?_)
    rw [hkept, List.mem_filter] at hx
    rw [htag]
    exact (of_decide_eq_true hx.2).symm

lemma invalidate (h : t.Refines c s) [Inhabited α] (elem : α) :
    (t.invalidate c elem).1.Refines c (s.call c (.invalidate elem)).1 ∧
      (t.invalidate c elem).2 = (s.call c (.invalidate elem)).2 := by
  obtain ⟨recent,hord,hs⟩ := h (c.setIdx elem)
  have hfind := find_eq hord hs
  cases hf : (t.block (c.setIdx elem)).find? (c.matchFunc elem) with
  | none =>
    simp only [LruTable.invalidate, RecentSets.call, hfind, hf, Option.map_none]
    refine ⟨?_,trivial⟩
    rw [others_eq hs, hord.filter_of_miss (List.find?_eq_none.mp hf), ← hs,
      Function.update_eq_self]
    exact h
  | some hit =>
    obtain ⟨hmem,htag⟩ := hord.find?_some hf
    have hget := hf
    rw [List.find?_eq_getElem?_findIdx] at hget
    simp only [LruTable.invalidate, RecentSets.call, hfind, hf, Option.map_some]
    refine ⟨?_,trivial⟩
    rw [others_eq hs, ← hord.kept_of_tag_eq hmem htag]
    exact h.assign _ (Nat.le_refl _) (hord.drop hget default)

lemma fill (h : t.Refines c s) (elem : α) :
    (t.fill c elem).Refines c
      (Function.update s (c.setIdx elem) ((elem :: s.others c elem).take c.numWay)) := by
  obtain ⟨recent,hord,hs⟩ := h (c.setIdx elem)
  by_cases hblock : t.block (c.setIdx elem) = []
  · have hway : c.numWay = 0 := by rw [← hord.length_eq, hblock]; rfl
    have hrecent : recent = [] :=
      List.eq_nil_of_length_eq_zero (Nat.le_zero.mp (hway ▸ hord.length_le))
    have hset : s (c.setIdx elem) = [] := by rw [hs, hrecent]; rfl
    simp only [LruTable.fill, hblock, hway, List.take_zero]
    rw [← hset, Function.update_eq_self]
    exact h
  · obtain ⟨i,b,hget,hrep,hfill⟩ := t.fill_replaces elem hblock
    rw [hfill, others_eq hs, ← hord.take_numWay hget hrep]
    exact h.assign (⟨t.accessCount + 1,elem⟩ :: Ordered.kept recent b)
      (Nat.le_succ _) (hord.touch hget elem (hord.kept_tags_ne hget hrep))

lemma call (h : t.Refines c s) [Inhabited α] (op : LruCall α) :
    (t.call c op).1.Refines c (s.call c op).1 ∧ (t.call c op).2 = (s.call c op).2 := by
  cases op with
  | checkHit elem => exact h.checkHit elem
  | fill elem => exact ⟨h.fill elem,rfl⟩
  | invalidate elem => exact h.invalidate elem

lemma calls [Inhabited α] (ops : List (LruCall α)) {t : LruTable α} {s : RecentSets α}
    (h : t.Refines c s) : t.calls c ops = s.calls c ops := by
  induction ops generalizing t s with
  | nil => rfl
  | cons op rest ih =>
    rw [LruTable.calls, RecentSets.calls, (h.call op).2, ih (h.call op).1]

end LruTable.Refines

/-- In every sequence of calls, a new table returns what lists in order of most recent use do. -/
theorem lruTable_recent [DecidableEq κ] [Inhabited α] (c : LruConfig α κ)
    (ops : List (LruCall α)) :
    (LruTable.init c).calls c ops = RecentSets.calls c (fun _ => []) ops :=
  LruTable.Refines.init.calls ops

/-- The fill of 3 drops 2, which was used less recently than 1. -/
example : let c : LruConfig ℕ ℕ := ⟨fun _ => 0,id,1,2⟩
    (LruTable.init c).calls c
      [.fill 1,.fill 2,.checkHit 1,.fill 3,.checkHit 2,.invalidate 1,.checkHit 1] =
        [none,none,some 1,none,none,some 1,none] := by decide

end CaLabs.Lab4
