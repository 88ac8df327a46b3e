import CaLabs.Lib.Selection
import Mathlib.Data.List.Nodup
import Mathlib.Tactic.SplitIfs

/-! Finite maps as lists of entries in the ascending order of their keys. -/
namespace CaLabs.Lib

structure SortedMap (κ ν : Type*) [LinearOrder κ] where
  entries : List (κ × ν) := []
  sorted : (entries.map Prod.fst).Pairwise (· < ·) := by exact List.Pairwise.nil

namespace SortedMap

section Entries
variable {κ ν : Type*} [LinearOrder κ]

def assignEntry (k : κ) (v : ν) : List (κ × ν) → List (κ × ν)
  | [] => [(k,v)]
  | e :: rest =>
    if k < e.1 then (k,v) :: e :: rest
    else if k = e.1 then (k,v) :: rest
    else e :: assignEntry k v rest

lemma mem_keys_assignEntry {k a : κ} {v : ν} {l : List (κ × ν)} :
    a ∈ (assignEntry k v l).map Prod.fst ↔ a = k ∨ a ∈ l.map Prod.fst := by
  induction l with
  | nil => simp [assignEntry]
  | cons e rest ih =>
    rw [assignEntry]
    split_ifs with hlt heq
    · simp only [List.map_cons, List.mem_cons]
    · subst heq
      simp only [List.map_cons, List.mem_cons, or_self_left]
    · rw [List.map_cons, List.mem_cons, ih, List.map_cons, List.mem_cons]
      exact or_left_comm

lemma sorted_assignEntry {k : κ} {v : ν} {l : List (κ × ν)}
    (h : (l.map Prod.fst).Pairwise (· < ·)) :
    ((assignEntry k v l).map Prod.fst).Pairwise (· < ·) := by
  induction l with
  | nil => exact List.pairwise_singleton _ _
  | cons e rest ih =>
    obtain ⟨hhead,htail⟩ := List.pairwise_cons.mp h
    rw [assignEntry]
    split_ifs with hlt heq
    · refine List.pairwise_cons.mpr ⟨fun a ha => ?_,h⟩
      rcases List.mem_cons.mp ha with rfl | ha
      · exact hlt
      · exact hlt.trans (hhead a ha)
    · subst heq
      exact h
    · refine List.pairwise_cons.mpr ⟨fun a ha => ?_,ih htail⟩
      rcases mem_keys_assignEntry.mp ha with rfl | ha
      · exact lt_of_le_of_ne (not_lt.mp hlt) (Ne.symm heq)
      · exact hhead a ha

/-- The value of a key. -/
def lookup (k : κ) (l : List (κ × ν)) : Option ν := (l.find? fun e => e.1 = k).map Prod.snd

lemma lookup_cons (k : κ) (e : κ × ν) (l : List (κ × ν)) :
    lookup k (e :: l) = if e.1 = k then some e.2 else lookup k l := by
  rw [lookup, List.find?_cons]
  by_cases h : e.1 = k
  · rw [if_pos h, decide_eq_true h]
    rfl
  · rw [if_neg h, decide_eq_false h]
    rfl

lemma lookup_isSome {k : κ} {l : List (κ × ν)} :
    (lookup k l).isSome = true ↔ k ∈ l.map Prod.fst := by
  simp [lookup]

lemma lookup_eq_some {k : κ} {v : ν} {l : List (κ × ν)}
    (h : (l.map Prod.fst).Pairwise (· < ·)) : lookup k l = some v ↔ (k,v) ∈ l := by
  induction l with
  | nil => simp [lookup]
  | cons e rest ih =>
    obtain ⟨hhead,htail⟩ := List.pairwise_cons.mp h
    rw [lookup_cons, List.mem_cons]
    split_ifs with hk
    · subst hk
      have hnot : (e.1,v) ∉ rest := fun hmem =>
        lt_irrefl _ (hhead e.1 (List.mem_map.mpr ⟨_,hmem,rfl⟩))
      constructor
      · rintro ⟨⟩
        exact .inl rfl
      · rintro (heq | hmem)
        · rw [← heq]
        · exact absurd hmem hnot
    · rw [ih htail]
      refine ⟨.inr,fun hor => hor.resolve_left fun heq => hk ?_⟩
      rw [← heq]

lemma lookup_assignEntry (k a : κ) (v : ν) (l : List (κ × ν)) :
    lookup a (assignEntry k v l) = if a = k then some v else lookup a l := by
  induction l with
  | nil =>
    rw [assignEntry, lookup_cons]
    simp only [eq_comm]
  | cons e rest ih =>
    rw [assignEntry]
    by_cases hlt : k < e.1
    · rw [if_pos hlt, lookup_cons]
      simp only [eq_comm]
    · rw [if_neg hlt]
      by_cases heq : k = e.1
      · rw [if_pos heq, lookup_cons, lookup_cons, ← heq]
        by_cases hak : a = k
        · rw [if_pos hak, if_pos hak.symm]
        · rw [if_neg hak, if_neg (Ne.symm hak), if_neg (Ne.symm hak)]
      · rw [if_neg heq, lookup_cons, lookup_cons, ih]
        by_cases hak : a = k
        · rw [hak, if_neg (Ne.symm heq), if_pos rfl, if_pos rfl]
        · rw [if_neg hak, if_neg hak]

lemma length_assignEntry (k : κ) (v : ν) {l : List (κ × ν)}
    (h : (l.map Prod.fst).Pairwise (· < ·)) : (assignEntry k v l).length =
      if (lookup k l).isSome then l.length else l.length + 1 := by
  induction l with
  | nil => rfl
  | cons e rest ih =>
    obtain ⟨hhead,htail⟩ := List.pairwise_cons.mp h
    rw [assignEntry, lookup_cons]
    by_cases hlt : k < e.1
    · have hnone : ¬(lookup k rest).isSome = true := fun hsome =>
        lt_asymm hlt (hhead k (lookup_isSome.mp hsome))
      rw [if_pos hlt, if_neg hlt.ne', if_neg hnone]
      rfl
    · rw [if_neg hlt]
      by_cases heq : k = e.1
      · rw [if_pos heq, if_pos heq.symm]
        rfl
      · rw [if_neg heq, if_neg (Ne.symm heq), List.length_cons, ih htail, List.length_cons]
        split_ifs <;> rfl

end Entries

variable {κ ν : Type*} [LinearOrder κ] (m : SortedMap κ ν)

/-- std::map::find. -/
def find? (k : κ) : Option ν := lookup k m.entries

def size : ℕ := m.entries.length

/-- Assignment to a key, new or not. -/
def assign (k : κ) (v : ν) : SortedMap κ ν :=
  ⟨assignEntry k v m.entries,sorted_assignEntry m.sorted⟩

def erase (k : κ) : SortedMap κ ν where
  entries := m.entries.filter fun e => e.1 ≠ k
  sorted := m.sorted.sublist (List.filter_sublist.map Prod.fst)

variable {m}

lemma find?_eq_some {k : κ} {v : ν} : m.find? k = some v ↔ (k,v) ∈ m.entries :=
  lookup_eq_some m.sorted

lemma find?_assign (k a : κ) (v : ν) :
    (m.assign k v).find? a = if a = k then some v else m.find? a :=
  lookup_assignEntry k a v m.entries

lemma size_assign (k : κ) (v : ν) :
    (m.assign k v).size = if (m.find? k).isSome then m.size else m.size + 1 :=
  length_assignEntry k v m.sorted

lemma find?_erase (k a : κ) : (m.erase k).find? a = if a = k then none else m.find? a := by
  split_ifs with h
  · subst h
    rw [← Option.not_isSome_iff_eq_none]
    intro hsome
    obtain ⟨v,hv⟩ := Option.isSome_iff_exists.mp hsome
    have hmem := (List.mem_filter.mp (find?_eq_some.mp hv)).2
    simp at hmem
  · apply Option.ext
    intro v
    rw [find?_eq_some, find?_eq_some, erase, List.mem_filter]
    simp [h]

/-- Erasing a key of the map takes one entry away. -/
lemma size_erase {k : κ} (h : (m.find? k).isSome = true) : (m.erase k).size + 1 = m.size := by
  have hcount : (m.entries.map Prod.fst).count k = 1 :=
    List.count_eq_one_of_mem (m.sorted.imp ne_of_lt) (lookup_isSome.mp h)
  rw [List.count_eq_countP, List.countP_map] at hcount
  have hsplit := List.length_eq_countP_add_countP (l := m.entries) (fun e => decide (e.1 = k))
  have hkept : (m.erase k).size = m.entries.countP fun e => ¬decide (e.1 = k) = true := by
    rw [size, erase, List.countP_eq_length_filter]
    simp only [ne_eq, decide_eq_true_eq]
  have hgone : m.entries.countP (fun e => decide (e.1 = k)) = 1 := by
    rw [← hcount]
    rfl
  rw [hkept, size, hsplit, hgone, Nat.add_comm]

/-- The keys of a map with entries are those that are found. -/
lemma mem_keys {k : κ} : k ∈ m.entries.map Prod.fst ↔ (m.find? k).isSome = true :=
  lookup_isSome.symm

lemma nodup_keys : (m.entries.map Prod.fst).Nodup := m.sorted.imp ne_of_lt

end SortedMap
end CaLabs.Lib
