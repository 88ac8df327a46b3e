import Mathlib.Data.List.Induction
import Mathlib.Order.Lattice

/-! The entry of a list that a single pass selects: of those that pass a test the first with
the least key, together with its index. -/
namespace CaLabs.Lib

section
variable {α β : Type*} [LinearOrder β] (f : α → β) (p : α → Bool)

/-- One round of the pass. -/
def selectStep (best : Option (α × ℕ)) (entry : α × ℕ) : Option (α × ℕ) :=
  if p entry.1 then
    match best with
    | none => some entry
    | some b => if f entry.1 < f b.1 then some entry else some b
  else best

/-- The selected entry and its index. -/
def select (l : List α) : Option (α × ℕ) := l.zipIdx.foldl (selectStep f p) none

lemma select_concat (l : List α) (a : α) :
    select f p (l ++ [a]) = selectStep f p (select f p l) (a,l.length) := by
  rw [select, List.zipIdx_append, List.foldl_append, ← select, Nat.zero_add]
  rfl

/-- An entry that passes the test, with no better one and no equally good one before it. -/
structure Selected (l : List α) (a : α) (j : ℕ) : Prop where
  stands : l[j]? = some a
  passes : p a = true
  best : ∀ (k : ℕ) b, l[k]? = some b → p b = true → f a < f b ∨ (f a = f b ∧ j ≤ k)

variable {f p}

lemma Selected.unique {l : List α} {a a' : α} {j j' : ℕ} (h : Selected f p l a j)
    (h' : Selected f p l a' j') : (a,j) = (a',j') := by
  obtain ⟨hj,hp,hbest⟩ := h
  obtain ⟨hj',hp',hbest'⟩ := h'
  have hidx : j = j' := by
    rcases hbest j' a' hj' hp' with hlt | ⟨heq,hle⟩
    · rcases hbest' j a hj hp with hlt' | ⟨heq',-⟩
      · exact absurd hlt (lt_asymm hlt')
      · exact absurd heq' hlt.ne'
    · rcases hbest' j a hj hp with hlt' | ⟨-,hle'⟩
      · exact absurd heq hlt'.ne'
      · exact Nat.le_antisymm hle hle'
  subst hidx
  rw [hj] at hj'
  rw [Option.some.inj hj']

lemma getElem?_concat_cases {l : List α} {a b : α} {k : ℕ} (h : (l ++ [a])[k]? = some b) :
    l[k]? = some b ∨ (k = l.length ∧ b = a) := by
  rcases Nat.lt_trichotomy k l.length with hlt | rfl | hgt
  · rw [List.getElem?_append_left hlt] at h
    exact .inl h
  · rw [List.getElem?_concat_length] at h
    exact .inr ⟨rfl,(Option.some.inj h).symm⟩
  · rw [List.getElem?_eq_none (by rw [List.length_append, List.length_singleton]; omega)] at h
    cases h

/-- One more entry that does not pass. -/
lemma Selected.skip {l : List α} {a x : α} {j : ℕ} (h : Selected f p l x j)
    (hp : p a = false) : Selected f p (l ++ [a]) x j := by
  obtain ⟨hj,hx,hbest⟩ := h
  have hlt := (List.getElem?_eq_some_iff.mp hj).1
  refine ⟨by rw [List.getElem?_append_left hlt, hj],hx,fun k b hk hb => ?_⟩
  rcases getElem?_concat_cases hk with hk | ⟨-,rfl⟩
  · exact hbest k b hk hb
  · rw [hp] at hb
    cases hb

/-- One more entry that is not better. -/
lemma Selected.keep {l : List α} {a x : α} {j : ℕ} (h : Selected f p l x j)
    (hle : f x ≤ f a) : Selected f p (l ++ [a]) x j := by
  obtain ⟨hj,hx,hbest⟩ := h
  have hlt := (List.getElem?_eq_some_iff.mp hj).1
  refine ⟨by rw [List.getElem?_append_left hlt, hj],hx,fun k b hk hb => ?_⟩
  rcases getElem?_concat_cases hk with hk | ⟨rfl,rfl⟩
  · exact hbest k b hk hb
  · exact hle.lt_or_eq.imp id fun heq => ⟨heq,Nat.le_of_lt hlt⟩

/-- One more entry that is better than all before it. -/
lemma Selected.new {l : List α} {a : α} (hp : p a = true)
    (hbest : ∀ (k : ℕ) b, l[k]? = some b → p b = true → f a < f b) :
    Selected f p (l ++ [a]) a l.length := by
  refine ⟨List.getElem?_concat_length,hp,fun k b hk hb => ?_⟩
  rcases getElem?_concat_cases hk with hk | ⟨rfl,rfl⟩
  · exact .inl (hbest k b hk hb)
  · exact .inr ⟨rfl,Nat.le_refl _⟩

/-- The pass so far has selected nothing only if nothing passes the test. -/
theorem select_spec (l : List α) :
    (select f p l = none ∧ ∀ a ∈ l, p a = false) ∨
      ∃ a j, select f p l = some (a,j) ∧ Selected f p l a j := by
  induction l using List.reverseRecOn with
  | nil => exact .inl ⟨rfl,fun a ha => (by cases ha)⟩
  | append_singleton l a ih =>
    rw [select_concat]
    cases hp : p a with
    | false =>
      have hstep : ∀ best, selectStep f p best (a,l.length) = best := fun best => by
        simp only [selectStep, hp, Bool.false_eq_true, if_false]
      rw [hstep]
      refine ih.imp (fun ⟨hn,hall⟩ => ⟨hn,fun b hb => ?_⟩) fun ⟨x,j,hs,hx⟩ => ⟨x,j,hs,hx.skip hp⟩
      rcases List.mem_append.mp hb with hb | hb
      · exact hall b hb
      · rw [List.mem_singleton.mp hb, hp]
    | true =>
      right
      rcases ih with ⟨hn,hall⟩ | ⟨x,j,hs,hx⟩
      · refine ⟨a,l.length,by simp only [selectStep, hn, hp, if_true],.new hp fun k b hk hb => ?_⟩
        rw [hall b (List.mem_of_getElem? hk)] at hb
        cases hb
      · by_cases hlt : f a < f x
        · refine ⟨a,l.length,by simp only [selectStep, hs, hp, hlt, if_true],.new hp ?_⟩
          intro k b hk hb
          rcases hx.best k b hk hb with h | ⟨h,-⟩
          · exact hlt.trans h
          · exact h ▸ hlt
        · exact ⟨x,j,by simp only [selectStep, hs, hp, hlt, if_true, if_false],
            hx.keep (not_lt.mp hlt)⟩

theorem select_eq_none_iff {l : List α} : select f p l = none ↔ ∀ a ∈ l, p a = false := by
  rcases select_spec (f := f) (p := p) l with ⟨hn,hall⟩ | ⟨a,j,hs,hj,hp,-⟩
  · exact ⟨fun _ => hall,fun _ => hn⟩
  · rw [hs]
    refine ⟨fun h => (by cases h),fun h => ?_⟩
    rw [h a (List.mem_of_getElem? hj)] at hp
    cases hp

theorem select_eq_some_iff {l : List α} {a : α} {j : ℕ} :
    select f p l = some (a,j) ↔ Selected f p l a j := by
  rcases select_spec (f := f) (p := p) l with ⟨hn,hall⟩ | ⟨a',j',hs,hsel⟩
  · rw [hn]
    refine ⟨fun h => (by cases h),fun ⟨hj,hp,_⟩ => ?_⟩
    rw [hall a (List.mem_of_getElem? hj)] at hp
    cases hp
  · rw [hs]
    constructor
    · intro h
      obtain ⟨rfl,rfl⟩ := Prod.mk.inj (Option.some.inj h)
      exact hsel
    · exact fun h => congrArg some (hsel.unique h)

lemma Selected.le {l : List α} {a b : α} {j : ℕ} (h : Selected f p l a j) (hb : b ∈ l)
    (hp : p b = true) : f a ≤ f b := by
  obtain ⟨k,hk⟩ := List.mem_iff_getElem?.mp hb
  exact (h.best k b hk hp).elim le_of_lt fun he => le_of_eq he.1

/-- The order of the list decides between entries with equal keys only. -/
lemma Selected.perm {l l' : List α} {a a' : α} {j j' : ℕ} (h : Selected f p l a j)
    (hl : l.Perm l') (h' : Selected f p l' a' j') : f a = f a' := by
  have ha : a ∈ l' := hl.mem_iff.mp (List.mem_of_getElem? h.stands)
  have ha' : a' ∈ l := hl.mem_iff.mpr (List.mem_of_getElem? h'.stands)
  exact le_antisymm (h.le ha' h'.passes) (h'.le ha h.passes)

end
end CaLabs.Lib
