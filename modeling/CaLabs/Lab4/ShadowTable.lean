import CaLabs.Lib.SortedMap
import Mathlib.Data.List.Perm.Subperm

/-! The shadow table of the hybrid prefetcher of lab 4: what its two prefetchers would have
fetched, by whom and when, and the tournament that it decides. -/
namespace CaLabs.Lab4.Hybrid
open Lib

inductive Predictor where
  | ghb | bop
  deriving DecidableEq, Repr

/-- The predictor_id. -/
def Predictor.id : Predictor → ℕ
  | ghb => 1
  | bop => 2

/-- The creator is 1 for GHB, 2 for BOP, 3 for both. -/
structure ShadowEntry where
  creator : ℕ
  timestamp : ℕ
  deriving DecidableEq, Repr

/-- The std::map from line addresses to entries. -/
abbrev ShadowTable := SortedMap ℕ ShadowEntry

/-- The first part of update_shadow_table: a new entry, or one that is touched. -/
def touch (t : ShadowTable) (accessCount lineAddr predictorId : ℕ) : ShadowTable :=
  match t.find? lineAddr with
  | none => t.assign lineAddr ⟨predictorId,accessCount⟩
  | some e => t.assign lineAddr ⟨if e.creator ≠ predictorId then 3 else e.creator,accessCount⟩

/-- The loop that finds the LRU entry, the first with the least timestamp. -/
def findLru (t : ShadowTable) : Option (ℕ × ShadowEntry) :=
  (select (fun e : ℕ × ShadowEntry => e.2.timestamp) (fun _ => true) t.entries).map Prod.fst

/-- The second part of update_shadow_table. -/
def cleanup (t : ShadowTable) : ShadowTable :=
  if 256 < t.size then
    match findLru t with
    | none => t
    | some e => t.erase e.1
  else t

def updateShadowTable (t : ShadowTable) (accessCount lineAddr predictorId : ℕ) : ShadowTable :=
  cleanup (touch t accessCount lineAddr predictorId)

/-! What the two parts do. -/

lemma find?_touch (t : ShadowTable) (n line id a : ℕ) : (touch t n line id).find? a =
    if a = line then
      some ⟨(t.find? line).elim id fun e => if e.creator ≠ id then 3 else e.creator,n⟩
    else t.find? a := by
  rw [touch]
  cases t.find? line <;> exact SortedMap.find?_assign _ _ _

lemma size_touch_le (t : ShadowTable) (n line id : ℕ) : (touch t n line id).size ≤ t.size + 1 := by
  rw [touch]
  cases t.find? line <;>
  · dsimp only
    rw [SortedMap.size_assign]
    split_ifs <;> omega

/-- No entry of the table is older. -/
def Oldest (t : ShadowTable) (line : ℕ) (e : ShadowEntry) : Prop :=
  t.find? line = some e ∧ ∀ line' e', t.find? line' = some e' → e.timestamp ≤ e'.timestamp

/-- A table that is not too large is left alone; otherwise an oldest entry is removed. -/
lemma cleanup_cases (t : ShadowTable) : (t.size ≤ 256 ∧ cleanup t = t) ∨
    (256 < t.size ∧ ∃ line e, Oldest t line e ∧ cleanup t = t.erase line) := by
  rw [cleanup]
  by_cases hsize : 256 < t.size
  · right
    rw [if_pos hsize, findLru]
    refine ⟨hsize,?_⟩
    rcases select_spec (f := fun e : ℕ × ShadowEntry => e.2.timestamp) (p := fun _ => true)
      t.entries with ⟨-,hnone⟩ | ⟨⟨line,e⟩,j,hselect,hbest⟩
    · obtain ⟨x,hx⟩ := List.exists_mem_of_length_pos (Nat.zero_lt_of_lt hsize)
      cases hnone x hx
    · rw [hselect]
      refine ⟨line,e,⟨?_,fun line' e' h => ?_⟩,rfl⟩
      · exact SortedMap.find?_eq_some.mpr (List.mem_of_getElem? hbest.stands)
      · exact hbest.le (SortedMap.find?_eq_some.mp h) rfl
  · exact .inl ⟨Nat.le_of_not_lt hsize,if_neg hsize⟩

/-- After an update the table has at most 256 entries. -/
lemma size_update_le {t : ShadowTable} (h : t.size ≤ 256) (n line id : ℕ) :
    (updateShadowTable t n line id).size ≤ 256 := by
  have htouch := size_touch_le t n line id
  rcases cleanup_cases (touch t n line id) with ⟨hsize,heq⟩ | ⟨-,old,e,hold,heq⟩
  · rw [updateShadowTable, heq]
    exact hsize
  · have herase := SortedMap.size_erase (m := touch t n line id) (k := old)
      (by rw [hold.1]; rfl)
    rw [updateShadowTable, heq]
    omega

/-- The lines with the timestamp of the current access are among a few, and no timestamp is
later. -/
structure Recent (t : ShadowTable) (n : ℕ) (lines : List ℕ) : Prop where
  le : ∀ line e, t.find? line = some e → e.timestamp ≤ n
  mem : ∀ line e, t.find? line = some e → e.timestamp = n → line ∈ lines

/-- A table with more entries than recent lines has an entry that is not recent. -/
lemma Recent.oldest_lt {t : ShadowTable} {n : ℕ} {lines : List ℕ} (h : Recent t n lines)
    (hlen : lines.length < t.size) {line : ℕ} {e : ShadowEntry} (hold : Oldest t line e) :
    e.timestamp < n := by
  refine lt_of_le_of_ne (h.le line e hold.1) fun heq => ?_
  have hsub : t.entries.map Prod.fst ⊆ lines := by
    intro k hk
    obtain ⟨e',he'⟩ := Option.isSome_iff_exists.mp (SortedMap.mem_keys.mp hk)
    have hge := hold.2 k e' he'
    exact h.mem k e' he' (le_antisymm (h.le k e' he') (heq ▸ hge))
  have hle := (List.subperm_of_subset SortedMap.nodup_keys hsub).length_le
  rw [List.length_map] at hle
  exact absurd hle (Nat.not_le_of_lt hlen)

/-- An update with few recent lines removes no recent line. -/
lemma Recent.update {t : ShadowTable} {n : ℕ} {lines : List ℕ} (h : Recent t n lines)
    (hlen : lines.length < 256) (line id : ℕ) :
    Recent (updateShadowTable t n line id) n (line :: lines) ∧
      ∀ a e, (touch t n line id).find? a = some e → e.timestamp = n →
        (updateShadowTable t n line id).find? a = some e := by
  have htouch : Recent (touch t n line id) n (line :: lines) := by
    constructor
    · intro a e ha
      rw [find?_touch] at ha
      split_ifs at ha
      · rw [← Option.some.inj ha]
      · exact h.le a e ha
    · intro a e ha hn
      rw [find?_touch] at ha
      split_ifs at ha with hline
      · exact List.mem_cons.mpr (.inl hline)
      · exact List.mem_cons_of_mem _ (h.mem a e ha hn)
  rw [updateShadowTable]
  rcases cleanup_cases (touch t n line id) with ⟨-,heq⟩ | ⟨hsize,old,e,hold,heq⟩
  · rw [heq]
    exact ⟨htouch,fun a e ha _ => ha⟩
  · have hlt := htouch.oldest_lt (Nat.lt_of_le_of_lt hlen hsize) hold
    rw [heq]
    refine ⟨⟨fun a e' ha => ?_,fun a e' ha => ?_⟩,fun a e' ha hn => ?_⟩
    · rw [SortedMap.find?_erase] at ha
      split_ifs at ha
      exact htouch.le a e' ha
    · rw [SortedMap.find?_erase] at ha
      split_ifs at ha
      exact htouch.mem a e' ha
    · rw [SortedMap.find?_erase, if_neg, ha]
      rintro rfl
      rw [hold.1] at ha
      obtain rfl := Option.some.inj ha
      exact hlt.ne hn

end CaLabs.Lab4.Hybrid
