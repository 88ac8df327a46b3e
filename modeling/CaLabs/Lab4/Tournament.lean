import CaLabs.Lab4.ShadowTable

/-! The accesses of the hybrid prefetcher and the history that its shadow table stands for. -/
namespace CaLabs.Lab4.Hybrid
open Lib

structure Tournament where
  table : ShadowTable := {}
  accessCount : ℕ := 0
  tournamentCounter : ℕ := 5

/-- An access with the lines that the prefetchers predict at it. It records them if it is a miss
or hits a useful prefetch. -/
structure Predictions where
  line : ℕ
  records : Bool
  ghb : List ℕ
  bop : Option ℕ
  ghb_le : ghb.length ≤ 6

/-- First GHB's lines, then the one of BOP. -/
def Predictions.predicted (p : Predictions) : List (ℕ × Predictor) :=
  p.ghb.map (fun line => (line,.ghb)) ++ p.bop.toList.map fun line => (line,.bop)

namespace Tournament

/-- The tournament counter after a line of the creator was accessed. -/
def adjusted (tournamentCounter creator : ℕ) : ℕ :=
  if creator = 2 ∧ tournamentCounter > 0 then tournamentCounter - 1
  else if creator = 1 ∧ tournamentCounter < 10 then tournamentCounter + 1
  else tournamentCounter

/-- Part 1 of prefetcher_cache_operate. -/
def score (t : Tournament) (line : ℕ) : Tournament :=
  match t.table.find? line with
  | none => t
  | some e =>
    { t with table := t.table.erase line
             tournamentCounter := adjusted t.tournamentCounter e.creator }

/-- Part 3: the predictions are recorded one after the other. -/
def recordAll (t : Tournament) (predicted : List (ℕ × Predictor)) : Tournament :=
  { t with
    table := predicted.foldl
      (fun table q => updateShadowTable table t.accessCount q.1 q.2.id) t.table }

/-- What an access to the line does to the tournament. -/
def access (t : Tournament) (line : ℕ) (records : Bool) (predicted : List (ℕ × Predictor)) :
    Tournament :=
  let t := { t with accessCount := t.accessCount + 1 }.score line
  if records then t.recordAll predicted else t

def operate (t : Tournament) (p : Predictions) : Tournament :=
  t.access p.line p.records p.predicted

end Tournament

/-! The history of the entries. -/

/-- For every line the predictions since its entry was created, the newest first, each with the
number of its access; and how often its entry was created, scored and evicted. -/
structure Ledger where
  life : ℕ → List (Predictor × ℕ) := fun _ => []
  created : ℕ → ℕ := fun _ => 0
  scored : ℕ → ℕ := fun _ => 0
  evicted : ℕ → ℕ := fun _ => 0

/-- The line has an entry. -/
abbrev Has (t : ShadowTable) (line : ℕ) : Prop := (t.find? line).isSome = true

namespace Ledger
variable (g : Ledger)

/-- A prediction of the line is recorded. -/
def touched (t : ShadowTable) (n : ℕ) (q : ℕ × Predictor) : Ledger :=
  { g with
    life := Function.update g.life q.1 ((q.2,n) :: if Has t q.1 then g.life q.1 else [])
    created := Function.update g.created q.1 (g.created q.1 + if Has t q.1 then 0 else 1) }

/-- Entries are gone after the cleanup. -/
def cleaned (before after : ShadowTable) : Ledger :=
  { g with
    life := fun line => if Has after line then g.life line else []
    evicted := fun line => g.evicted line + if Has before line ∧ ¬Has after line then 1 else 0 }

/-- The accessed line is consumed. -/
def consumed (t : ShadowTable) (line : ℕ) : Ledger :=
  { g with
    life := Function.update g.life line []
    scored := Function.update g.scored line (g.scored line + if Has t line then 1 else 0) }

/-- A prediction that is not recorded, of a line that has an entry. -/
def ignored (t : ShadowTable) (n : ℕ) (q : ℕ × Predictor) : Ledger :=
  if Has t q.1 then { g with life := Function.update g.life q.1 ((q.2,n) :: g.life q.1) } else g

def updated (t : ShadowTable) (n : ℕ) (q : ℕ × Predictor) : Ledger :=
  (g.touched t n q).cleaned (touch t n q.1 q.2.id) (updateShadowTable t n q.1 q.2.id)

end Ledger

/-- The tournament with its history. -/
structure Tracked where
  tournament : Tournament := {}
  ledger : Ledger := {}

namespace Tracked

def record (x : ShadowTable × Ledger) (n : ℕ) (q : ℕ × Predictor) : ShadowTable × Ledger :=
  (updateShadowTable x.1 n q.1 q.2.id,x.2.updated x.1 n q)

/-- An access. With `all` the ledger counts the predictions that are not recorded as well. -/
def operate (all : Bool) (x : Tracked) (p : Predictions) : Tracked :=
  let t := { x.tournament with accessCount := x.tournament.accessCount + 1 }
  let g := x.ledger.consumed t.table p.line
  let t := t.score p.line
  if p.records then
    let y := p.predicted.foldl (fun y q => record y t.accessCount q) (t.table,g)
    ⟨{ t with table := y.1 },y.2⟩
  else
    ⟨t,if all then p.predicted.foldl (fun g q => g.ignored t.table t.accessCount q) g else g⟩

def run (all : Bool) (ps : List Predictions) : Tracked := ps.foldl (operate all) {}

lemma foldl_record_fst (x : ShadowTable × Ledger) (n : ℕ) (qs : List (ℕ × Predictor)) :
    (qs.foldl (fun y q => record y n q) x).1 =
      qs.foldl (fun table q => updateShadowTable table n q.1 q.2.id) x.1 := by
  induction qs generalizing x with
  | nil => rfl
  | cons q qs ih => exact ih _

/-- The history does not influence the tournament. -/
lemma tournament_operate (all : Bool) (x : Tracked) (p : Predictions) :
    (x.operate all p).tournament = x.tournament.operate p := by
  simp only [operate, Tournament.operate, Tournament.access]
  by_cases hrecords : p.records = true
  · rw [if_pos hrecords, if_pos hrecords]
    simp only [foldl_record_fst, Tournament.recordAll]
  · rw [if_neg hrecords, if_neg hrecords]

lemma tournament_run (all : Bool) (ps : List Predictions) :
    (run all ps).tournament = ps.foldl Tournament.operate {} := by
  induction ps using List.reverseRecOn with
  | nil => rfl
  | append_singleton ps p ih =>
    rw [run, List.foldl_append, List.foldl_append, ← ih]
    exact tournament_operate all _ p

end Tracked

/-- The creator for a set of predictors. -/
def creatorOf (life : List (Predictor × ℕ)) : ℕ :=
  (if .ghb ∈ life.map Prod.fst then 1 else 0) + if .bop ∈ life.map Prod.fst then 2 else 0

/-- The entries of a table are what the ledger says. -/
structure Tracks (t : ShadowTable) (g : Ledger) : Prop where
  creator : ∀ line e, t.find? line = some e → e.creator = creatorOf (g.life line)
  timestamp : ∀ line e, t.find? line = some e →
    (g.life line).head?.map Prod.snd = some e.timestamp
  balance : ∀ line,
    g.created line = g.scored line + g.evicted line + if Has t line then 1 else 0

lemma tracks_initial : Tracks {} {} :=
  ⟨fun line e h => (by cases h),fun line e h => (by cases h),fun line => rfl⟩

lemma creatorOf_cons (q : Predictor) (n : ℕ) {life : List (Predictor × ℕ)} (h : life ≠ []) :
    creatorOf ((q,n) :: life) = if creatorOf life ≠ q.id then 3 else creatorOf life := by
  obtain ⟨⟨r,m⟩,rest,rfl⟩ := List.exists_cons_of_ne_nil h
  simp only [creatorOf, List.map_cons, List.mem_cons]
  cases q <;> cases r <;> by_cases hg : Predictor.ghb ∈ rest.map Prod.fst <;>
    by_cases hb : Predictor.bop ∈ rest.map Prod.fst <;> simp [hg, hb, Predictor.id]

namespace Tracks
variable {t : ShadowTable} {g : Ledger}

lemma life_ne_nil (h : Tracks t g) {line : ℕ} {e : ShadowEntry} (he : t.find? line = some e) :
    g.life line ≠ [] := by
  intro hnil
  have hhead := h.timestamp line e he
  rw [hnil] at hhead
  cases hhead

lemma has_touch (t : ShadowTable) (n line id a : ℕ) :
    Has (touch t n line id) a ↔ a = line ∨ Has t a := by
  rw [Has, find?_touch]
  split_ifs with h
  · simp [h]
  · simp [h]

lemma life_touched (g : Ledger) (t : ShadowTable) (n : ℕ) (q : ℕ × Predictor) (line : ℕ) :
    (g.touched t n q).life line =
      if line = q.1 then (q.2,n) :: (if Has t q.1 then g.life q.1 else []) else g.life line :=
  Function.update_apply _ _ _ _

lemma created_touched (g : Ledger) (t : ShadowTable) (n : ℕ) (q : ℕ × Predictor) (line : ℕ) :
    (g.touched t n q).created line =
      if line = q.1 then g.created q.1 + (if Has t q.1 then 0 else 1) else g.created line :=
  Function.update_apply _ _ _ _

lemma touched (h : Tracks t g) (n : ℕ) (q : ℕ × Predictor) :
    Tracks (touch t n q.1 q.2.id) (g.touched t n q) := by
  refine ⟨fun line e he => ?_,fun line e he => ?_,fun line => ?_⟩
  · rw [find?_touch] at he
    rw [life_touched]
    split_ifs at he ⊢ with hline hhas
    · obtain ⟨old,hold⟩ := Option.isSome_iff_exists.mp hhas
      rw [← Option.some.inj he, creatorOf_cons q.2 n (h.life_ne_nil hold), ← h.creator _ _ hold,
        hold]
      rfl
    · rw [← Option.some.inj he, Option.not_isSome_iff_eq_none.mp hhas]
      cases q.2 <;> rfl
    · exact h.creator line e he
  · rw [find?_touch] at he
    rw [life_touched]
    split_ifs at he ⊢
    · rw [← Option.some.inj he]
      rfl
    · rw [← Option.some.inj he]
      rfl
    · exact h.timestamp line e he
  · have hbalance := h.balance line
    rw [created_touched]
    simp only [has_touch]
    change _ = g.scored line + g.evicted line + _
    by_cases hline : line = q.1
    · subst hline
      have hnow : q.1 = q.1 ∨ Has t q.1 := .inl rfl
      rw [if_pos rfl, if_pos hnow, hbalance]
      split_ifs <;> rfl
    · rw [if_neg hline, hbalance]
      simp only [hline, false_or]

/-- After the removal of an entry, or of none. -/
lemma cleaned (h : Tracks t g) {after : ShadowTable}
    (hafter : ∀ line, after.find? line = t.find? line ∨ after.find? line = none) :
    Tracks after (g.cleaned t after) := by
  have hkept : ∀ line e, after.find? line = some e → t.find? line = some e ∧
      (g.cleaned t after).life line = g.life line := by
    intro line e he
    have hhas : Has after line := by simp [Has, he]
    refine ⟨?_,if_pos hhas⟩
    rcases hafter line with heq | hnone
    · exact heq ▸ he
    · rw [hnone] at he
      cases he
  refine ⟨fun line e he => ?_,fun line e he => ?_,fun line => ?_⟩
  · rw [(hkept line e he).2]
    exact h.creator line e (hkept line e he).1
  · rw [(hkept line e he).2]
    exact h.timestamp line e (hkept line e he).1
  · have hbalance := h.balance line
    simp only [Ledger.cleaned]
    rcases hafter line with heq | hnone
    · simp only [Has, heq] at hbalance ⊢
      rw [if_neg (fun hand => hand.2 hand.1)]
      exact hbalance
    · simp only [Has, hnone] at hbalance ⊢
      rw [hbalance]
      by_cases ht : (t.find? line).isSome = true <;> simp [ht, Nat.add_assoc]

lemma updated (h : Tracks t g) (n : ℕ) (q : ℕ × Predictor) :
    Tracks (updateShadowTable t n q.1 q.2.id) (g.updated t n q) := by
  refine (h.touched n q).cleaned fun line => ?_
  rw [updateShadowTable]
  rcases cleanup_cases (touch t n q.1 q.2.id) with ⟨-,heq⟩ | ⟨-,old,e,-,heq⟩
  · exact .inl (by rw [heq])
  · rw [heq, SortedMap.find?_erase]
    split_ifs
    · exact .inr rfl
    · exact .inl rfl

/-- After the accessed line was consumed, if it had an entry. -/
lemma consumed (h : Tracks t g) (line : ℕ) : Tracks (t.erase line) (g.consumed t line) := by
  have hlife : ∀ a, a ≠ line → (g.consumed t line).life a = g.life a := fun a ha =>
    Function.update_of_ne ha _ _
  refine ⟨fun a e he => ?_,fun a e he => ?_,fun a => ?_⟩
  · rw [SortedMap.find?_erase] at he
    split_ifs at he with ha
    rw [hlife a ha]
    exact h.creator a e he
  · rw [SortedMap.find?_erase] at he
    split_ifs at he with ha
    rw [hlife a ha]
    exact h.timestamp a e he
  · have hbalance := h.balance a
    have hscored : (g.consumed t line).scored a =
        if a = line then g.scored line + (if Has t line then 1 else 0) else g.scored a :=
      Function.update_apply _ _ _ _
    change g.created a = (g.consumed t line).scored a + g.evicted a + _
    rw [hscored]
    by_cases ha : a = line
    · have hgone : ¬Has (t.erase line) a := by
        rw [Has, SortedMap.find?_erase, if_pos ha]
        exact Bool.false_ne_true
      rw [if_pos ha, if_neg hgone, hbalance, ha]
      omega
    · have hsame : Has (t.erase line) a ↔ Has t a := by
        rw [Has, SortedMap.find?_erase, if_neg ha]
      rw [if_neg ha, hbalance]
      simp only [hsame]

end Tracks

/-- Erasing a line that has no entry. -/
lemma erase_of_none {t : ShadowTable} {line : ℕ} (h : t.find? line = none) (a : ℕ) :
    (t.erase line).find? a = t.find? a := by
  rw [SortedMap.find?_erase]
  split_ifs with ha
  · rw [ha, h]
  · rfl

/-- Two tables with the same entries are tracked alike. -/
lemma Tracks.congr {t t' : ShadowTable} {g : Ledger} (h : Tracks t g)
    (heq : ∀ a, t'.find? a = t.find? a) : Tracks t' g :=
  ⟨fun a e he => h.creator a e (heq a ▸ he),fun a e he => h.timestamp a e (heq a ▸ he),
    fun a => by simpa only [Has, heq a] using h.balance a⟩

/-- The table after the scoring. -/
lemma find?_score (t : Tournament) (line a : ℕ) :
    (t.score line).table.find? a = (t.table.erase line).find? a := by
  rw [Tournament.score]
  cases h : t.table.find? line with
  | none => exact (erase_of_none h a).symm
  | some e => rfl

lemma score_keeps (t : Tournament) (line : ℕ) :
    (t.score line).accessCount = t.accessCount ∧ (t.score line).table.size ≤ t.table.size := by
  rw [Tournament.score]
  cases h : t.table.find? line with
  | none => exact ⟨rfl,le_rfl⟩
  | some e =>
    have hsize := SortedMap.size_erase (m := t.table) (k := line) (by rw [h]; rfl)
    exact ⟨rfl,by dsimp only; omega⟩

lemma score_counter {t : Tournament} (h : t.tournamentCounter ≤ 10) (line : ℕ) :
    (t.score line).tournamentCounter ≤ 10 := by
  rw [Tournament.score]
  cases t.table.find? line with
  | none => exact h
  | some e =>
    simp only [Tournament.adjusted]
    split_ifs <;> omega

/-- The predictions of an access are at most seven. -/
lemma Predictions.length_predicted (p : Predictions) : p.predicted.length ≤ 7 := by
  have hle := p.ghb_le
  rw [predicted, List.length_append, List.length_map, List.length_map]
  cases p.bop <;> simp <;> omega

/-- What recording a list of predictions keeps and establishes. -/
lemma record_all {n : ℕ} (qs : List (ℕ × Predictor)) {x : ShadowTable × Ledger}
    {lines : List ℕ} (ht : Tracks x.1 x.2) (hs : x.1.size ≤ 256) (hr : Recent x.1 n lines)
    (hlen : lines.length + qs.length ≤ 256) :
    let y := qs.foldl (fun y q => Tracked.record y n q) x
    Tracks y.1 y.2 ∧ y.1.size ≤ 256 ∧ (∃ lines', Recent y.1 n lines') ∧
      ∀ line e, (∃ q ∈ qs, q.1 = line) ∨ (x.1.find? line = some e ∧ e.timestamp = n) →
        ∃ e', y.1.find? line = some e' ∧ e'.timestamp = n := by
  induction qs generalizing x lines with
  | nil =>
    refine ⟨ht,hs,⟨lines,hr⟩,fun line e h => ?_⟩
    rcases h with ⟨q,hq,-⟩ | h
    · cases hq
    · exact ⟨e,h⟩
  | cons q qs ih =>
    rw [List.length_cons] at hlen
    obtain ⟨hr',hkeep⟩ := hr.update (by omega) q.1 q.2.id
    have hrec := ih (x := Tracked.record x n q) (ht.updated n q) (size_update_le hs n q.1 q.2.id)
      hr' (by rw [List.length_cons]; omega)
    obtain ⟨ht'',hs'',hr'',hkeep''⟩ := hrec
    refine ⟨ht'',hs'',hr'',fun line e h => ?_⟩
    have hhead : ∀ e', (touch x.1 n q.1 q.2.id).find? line = some e' → e'.timestamp = n →
        ∃ e'', (List.foldl (fun y q => Tracked.record y n q) x (q :: qs)).1.find? line =
          some e'' ∧ e''.timestamp = n := fun e' he' hn =>
      hkeep'' line e' (.inr ⟨hkeep line e' he' hn,hn⟩)
    rcases h with ⟨q',hq',rfl⟩ | ⟨he,hn⟩
    · rcases List.mem_cons.mp hq' with rfl | hq'
      · exact hhead _ (by rw [find?_touch, if_pos rfl]) rfl
      · exact hkeep'' q'.1 e (.inl ⟨q',hq',rfl⟩)
    · by_cases hline : line = q.1
      · exact hhead _ (by rw [find?_touch, if_pos hline]) rfl
      · exact hhead e (by rw [find?_touch, if_neg hline, he]) hn

/-- What holds after every access. -/
structure Sound (x : Tracked) : Prop extends Tracks x.tournament.table x.ledger where
  size : x.tournament.table.size ≤ 256
  counter : x.tournament.tournamentCounter ≤ 10
  past : ∀ line e, x.tournament.table.find? line = some e →
    e.timestamp ≤ x.tournament.accessCount

/-- One access, with the entries that it leaves for its own predictions. -/
lemma Sound.operate {x : Tracked} (h : Sound x) (p : Predictions) :
    Sound (x.operate false p) ∧
      (x.operate false p).tournament.accessCount = x.tournament.accessCount + 1 ∧
      (p.records = true → ∀ q ∈ p.predicted, ∃ e,
        (x.operate false p).tournament.table.find? q.1 = some e ∧
          e.timestamp = x.tournament.accessCount + 1) := by
  simp only [Tracked.operate]
  generalize htick : ({ x.tournament with
    accessCount := x.tournament.accessCount + 1 } : Tournament) = t
  have htable : t.table = x.tournament.table := by rw [← htick]
  have hcount : t.accessCount = x.tournament.accessCount + 1 := by rw [← htick]
  have hcounter : t.tournamentCounter ≤ 10 := by
    rw [← htick]
    exact h.counter
  rw [← htable]
  have htracks : Tracks (t.score p.line).table (x.ledger.consumed t.table p.line) := by
    rw [htable]
    refine (h.toTracks.consumed p.line).congr fun a => ?_
    rw [find?_score, htable]
  obtain ⟨hscount,hssize⟩ := score_keeps t p.line
  have hpast : ∀ a e, (t.score p.line).table.find? a = some e →
      e.timestamp < (t.score p.line).accessCount := by
    intro a e he
    rw [find?_score, SortedMap.find?_erase] at he
    split_ifs at he
    rw [htable] at he
    rw [hscount, hcount]
    exact Nat.lt_succ_of_le (h.past a e he)
  have hsize : (t.score p.line).table.size ≤ 256 := by
    refine hssize.trans ?_
    rw [htable]
    exact h.size
  by_cases hrecords : p.records = true
  · rw [if_pos hrecords]
    have hrecent : Recent (t.score p.line).table (t.score p.line).accessCount [] :=
      ⟨fun a e he => (hpast a e he).le,fun a e he hn => absurd hn (hpast a e he).ne⟩
    obtain ⟨htr,hsz,⟨lines,hre⟩,hnew⟩ := record_all p.predicted
      (x := ((t.score p.line).table,x.ledger.consumed t.table p.line)) htracks hsize hrecent
      (by have := p.length_predicted; simp; omega)
    refine ⟨⟨htr,hsz,score_counter hcounter p.line,hre.le⟩,hscount.trans hcount,
      fun _ q hq => ?_⟩
    rw [← hcount, ← hscount]
    exact hnew q.1 ⟨0,0⟩ (.inl ⟨q,hq,rfl⟩)
  · rw [if_neg hrecords]
    exact ⟨⟨htracks,hsize,score_counter hcounter p.line,fun a e he => (hpast a e he).le⟩,
      hscount.trans hcount,fun hrec => absurd hrec hrecords⟩

lemma sound_initial : Sound {} :=
  ⟨tracks_initial,by decide,by decide,fun line e h => (by cases h)⟩

lemma Tracked.run_concat (all : Bool) (ps : List Predictions) (p : Predictions) :
    run all (ps ++ [p]) = (run all ps).operate all p := by
  rw [run, List.foldl_append]
  rfl

lemma sound_run (ps : List Predictions) : Sound (Tracked.run false ps) ∧
    (Tracked.run false ps).tournament.accessCount = ps.length := by
  induction ps using List.reverseRecOn with
  | nil => exact ⟨sound_initial,rfl⟩
  | append_singleton ps p ih =>
    obtain ⟨hsound,hcount,-⟩ := ih.1.operate p
    rw [Tracked.run_concat, List.length_append]
    exact ⟨hsound,hcount.trans (congrArg (· + 1) ih.2)⟩

/-- The history of a run fits the table: creators, timestamps, and the balance of creations. -/
structure Exact (x : Tracked) : Prop extends Tracks x.tournament.table x.ledger where
  size : x.tournament.table.size ≤ 256
  counter : x.tournament.tournamentCounter ≤ 10
  once : ∀ line, x.ledger.scored line ≤ x.ledger.created line

lemma exact_run (ps : List Predictions) : Exact (Tracked.run false ps) := by
  have hsound := (sound_run ps).1
  refine ⟨hsound.toTracks,hsound.size,hsound.counter,fun line => ?_⟩
  have hbalance := hsound.balance line
  omega

/-- For every sequence of accesses and predictions, with the predictions counted that are made on
misses and on hits of a useful prefetch: the table is exact after every access, it holds every
line that the access recorded, and each update removes nothing or one oldest entry. -/
theorem shadowTable_exact (ps : List Predictions) :
    (Tracked.run false ps).tournament = ps.foldl Tournament.operate {} ∧
      Exact (Tracked.run false ps) ∧
      (∀ before p, ps = before ++ [p] → p.records = true → ∀ q ∈ p.predicted, ∃ e,
        (Tracked.run false ps).tournament.table.find? q.1 = some e ∧ e.timestamp = ps.length) ∧
      ∀ (t : ShadowTable) (n line id : ℕ),
        updateShadowTable t n line id = touch t n line id ∨
          ∃ old e, Oldest (touch t n line id) old e ∧
            updateShadowTable t n line id = (touch t n line id).erase old := by
  refine ⟨Tracked.tournament_run false ps,exact_run ps,?_,fun t n line id => ?_⟩
  · rintro before p rfl hrecords q hq
    obtain ⟨hbefore,hcount⟩ := sound_run before
    obtain ⟨-,-,hnew⟩ := hbefore.operate p
    rw [Tracked.run_concat, List.length_append, List.length_singleton, ← hcount]
    exact hnew hrecords q hq
  · rcases cleanup_cases (touch t n line id) with ⟨-,heq⟩ | ⟨-,old,e,hold,heq⟩
    · exact .inl heq
    · exact .inr ⟨old,e,hold,heq⟩

/-- BOP predicts line 7 at a miss, then GHB predicts it at a plain hit. -/
def repeatedAtHit : List Predictions :=
  [⟨1,true,[],some 7,by decide⟩, ⟨2,false,[7],none,by decide⟩]

/-- If every prediction counts, the entry of line 7 has neither the right creator nor the right
timestamp. -/
theorem repeatedAtHit_not_exact : ¬Exact (Tracked.run true repeatedAtHit) := by
  intro h
  have hcreator := h.creator 7 ⟨2,1⟩ (by decide)
  revert hcreator
  decide

end CaLabs.Lab4.Hybrid
