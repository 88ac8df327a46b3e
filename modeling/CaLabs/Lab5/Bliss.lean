import CaLabs.Lab5.Request
import Mathlib.Data.List.Induction

/-! The BLISS plugin: whom it blacklists, seen from the history of completed requests. -/
namespace CaLabs.Lab5

/-- The shared state of a channel. The blacklist is a std::set, of which only the elements
matter. -/
structure BLISSState where
  threshold : ℕ := 4
  clearingInterval : ℕ := 10000
  lastSourceId : ℤ := -1
  consecutiveRequests : ℕ := 0
  blacklist : List ℤ := []
  lastClearingTick : ℕ := 0

/-- The plugin of a channel with its clock. -/
structure BLISSPlugin where
  clk : ℕ := 0
  state : BLISSState := {}

namespace BLISSPlugin

/-- The plugin after setup. -/
def setup (threshold clearingInterval : ℕ) : BLISSPlugin :=
  { state := { threshold := threshold, clearingInterval := clearingInterval } }

/-- The clock tick and the periodic clearing at the start of update. -/
def clear (p : BLISSPlugin) : BLISSPlugin :=
  let clk := p.clk + 1
  if p.state.clearingInterval ≤ clk - p.state.lastClearingTick then
    { clk := clk, state := { p.state with blacklist := [], lastClearingTick := clk } }
  else { p with clk := clk }

/-- The streak after a request's command: only a completed request counts. -/
def countRequest (s : BLISSState) (r : Request) : BLISSState :=
  if r.completes then
    if r.sourceId = s.lastSourceId then
      { s with consecutiveRequests := s.consecutiveRequests + 1 }
    else { s with lastSourceId := r.sourceId, consecutiveRequests := 1 }
  else s

/-- BLISSPlugin::update; none is a cycle in which no request was found. -/
def update (p : BLISSPlugin) (request : Option Request) : BLISSPlugin :=
  let p := p.clear
  match request with
  | none => p
  | some r =>
    let s := countRequest p.state r
    if s.threshold < s.consecutiveRequests then
      { p with state := { s with blacklist := r.sourceId :: s.blacklist } }
    else { p with state := s }

/-- The cycles of a run one after the other. -/
def runs (p : BLISSPlugin) (cycles : List (Option Request)) : BLISSPlugin :=
  cycles.foldl update p

/-- The cycle puts the source on the blacklist. -/
def Inserts (p : BLISSPlugin) (request : Option Request) (source : ℤ) : Prop :=
  source ∉ p.clear.state.blacklist ∧ source ∈ (p.update request).state.blacklist

end BLISSPlugin

/-- The sources of the completed requests, the last one first. -/
def completedSources : List (Option Request) → List ℤ
  | [] => []
  | none :: cycles => completedSources cycles
  | some r :: cycles =>
    if r.completes then completedSources cycles ++ [r.sourceId] else completedSources cycles

/-- How many of the last completed requests are of the source. -/
def streakOf (source : ℤ) (history : List ℤ) : ℕ := (history.takeWhile (· = source)).length

lemma completedSources_append (pre : List (Option Request)) (c : Option Request) :
    completedSources (pre ++ [c]) =
      match c with
      | some r => if r.completes then r.sourceId :: completedSources pre else completedSources pre
      | none => completedSources pre := by
  induction pre with
  | nil =>
    cases c with
    | none => rfl
    | some r => simp only [completedSources, List.nil_append]
  | cons e pre ih =>
    cases e with
    | none => simpa only [List.cons_append, completedSources] using ih
    | some q =>
      simp only [List.cons_append, completedSources, ih]
      cases c with
      | none => rfl
      | some r => dsimp only; split_ifs <;> rfl

namespace BLISSPlugin

/-- The two counters describe the streak at the head of the history. -/
structure Counts (p : BLISSPlugin) (history : List ℤ) : Prop where
  streak : p.state.consecutiveRequests = streakOf p.state.lastSourceId history
  head : ∀ source, source ≠ p.state.lastSourceId → streakOf source history = 0

lemma clear_consecutive (p : BLISSPlugin) :
    p.clear.state.consecutiveRequests = p.state.consecutiveRequests ∧
      p.clear.state.lastSourceId = p.state.lastSourceId ∧
      p.clear.state.threshold = p.state.threshold := by
  simp only [clear]
  split_ifs <;> exact ⟨rfl,rfl,rfl⟩

lemma Counts.clear {p : BLISSPlugin} {history : List ℤ} (h : p.Counts history) :
    p.clear.Counts history := by
  obtain ⟨hc,hl,-⟩ := p.clear_consecutive
  exact ⟨by rw [hc, hl, h.streak],fun source hs => h.head source (hl ▸ hs)⟩

/-- The counters after the command of a request. -/
lemma Counts.countRequest {p : BLISSPlugin} {history : List ℤ} (h : p.Counts history)
    (r : Request) (s : BLISSState) (hs : s = BLISSPlugin.countRequest p.state r) :
    Counts { p with state := s }
      (if r.completes then r.sourceId :: history else history) := by
  subst hs
  unfold BLISSPlugin.countRequest
  by_cases hc : r.completes = true
  · rw [if_pos hc, if_pos hc]
    by_cases hl : r.sourceId = p.state.lastSourceId
    · rw [if_pos hl]
      refine ⟨?_,fun source hne => ?_⟩
      · dsimp only
        rw [h.streak, hl, streakOf, streakOf, List.takeWhile_cons]
        simp
      · dsimp only at hne
        rw [streakOf, List.takeWhile_cons]
        simp [hl, hne.symm]
    · rw [if_neg hl]
      refine ⟨?_,fun source hne => ?_⟩
      · dsimp only
        have h0 := h.head r.sourceId hl
        rw [streakOf] at h0
        rw [streakOf, List.takeWhile_cons]
        simp [h0]
      · dsimp only at hne
        rw [streakOf, List.takeWhile_cons]
        simp [hne.symm]
  · rw [if_neg hc, if_neg hc]
    exact h

lemma Counts.update {p : BLISSPlugin} {pre : List (Option Request)}
    (h : p.Counts (completedSources pre)) (c : Option Request) :
    (p.update c).Counts (completedSources (pre ++ [c])) := by
  rw [completedSources_append]
  cases c with
  | none => exact h.clear
  | some r =>
    have hr := h.clear.countRequest r _ rfl
    unfold BLISSPlugin.update
    by_cases hover : (BLISSPlugin.countRequest p.clear.state r).threshold <
        (BLISSPlugin.countRequest p.clear.state r).consecutiveRequests
    · simp only [if_pos hover]
      exact ⟨hr.streak,hr.head⟩
    · simp only [if_neg hover]
      exact hr

/-- The counters along a whole run. -/
theorem setup_counts (threshold clearingInterval : ℕ) (cycles : List (Option Request)) :
    ((setup threshold clearingInterval).runs cycles).Counts (completedSources cycles) := by
  induction cycles using List.reverseRecOn with
  | nil => exact ⟨rfl,fun _ _ => rfl⟩
  | append_singleton pre c ih =>
    rw [runs, List.foldl_append]
    exact ih.update c

lemma countRequest_threshold (s : BLISSState) (r : Request) :
    (countRequest s r).threshold = s.threshold := by
  unfold countRequest
  split_ifs <;> rfl

lemma countRequest_blacklist (s : BLISSState) (r : Request) :
    (countRequest s r).blacklist = s.blacklist := by
  unfold countRequest
  split_ifs <;> rfl

/-- Who is put on the blacklist in a cycle. -/
lemma inserts_iff (p : BLISSPlugin) (c : Option Request) (source : ℤ) :
    p.Inserts c source ↔ ∃ r, c = some r ∧ source = r.sourceId ∧
      source ∉ p.clear.state.blacklist ∧
      p.state.threshold < (countRequest p.clear.state r).consecutiveRequests := by
  have hthr := p.clear_consecutive.2.2
  cases c with
  | none =>
    simp only [Inserts, update]
    constructor
    · rintro ⟨hn,hm⟩
      exact absurd hm hn
    · rintro ⟨r,hr,-⟩
      cases hr
  | some r =>
    simp only [Inserts, update, countRequest_threshold, hthr, Option.some.injEq]
    by_cases hs : p.state.threshold < (countRequest p.clear.state r).consecutiveRequests
    · rw [if_pos hs]
      simp only [countRequest_blacklist, List.mem_cons]
      constructor
      · rintro ⟨hn,hm⟩
        exact ⟨r,rfl,hm.resolve_right hn,hn,hs⟩
      · rintro ⟨q,rfl,he,hn,-⟩
        exact ⟨hn,.inl he⟩
    · rw [if_neg hs]
      simp only [countRequest_blacklist]
      constructor
      · rintro ⟨hn,hm⟩
        exact absurd hm hn
      · rintro ⟨q,rfl,-,-,hq⟩
        exact absurd hq hs

/-- Every source is blacklisted in a cycle in which more than threshold of the last completed
requests are its own. -/
def BlamesStreaming (p : BLISSPlugin) (cycles : List (Option Request)) : Prop :=
  ∀ pre c post, cycles = pre ++ c :: post → ∀ source, (p.runs pre).Inserts c source →
    p.state.threshold < streakOf source (completedSources (pre ++ [c]))

/-- While a streak is over the threshold, a command that does not complete its request is
issued for the streaming source or for one on the blacklist. -/
def OpensForStreaming (p : BLISSPlugin) (cycles : List (Option Request)) : Prop :=
  ∀ pre r post, cycles = pre ++ some r :: post → r.completes = false →
    p.state.threshold < (p.runs pre).state.consecutiveRequests →
    r.sourceId = (p.runs pre).state.lastSourceId ∨
      r.sourceId ∈ (p.runs pre).clear.state.blacklist

lemma runs_threshold (p : BLISSPlugin) (cycles : List (Option Request)) :
    (p.runs cycles).state.threshold = p.state.threshold := by
  induction cycles using List.reverseRecOn with
  | nil => rfl
  | append_singleton pre c ih =>
    rw [runs, List.foldl_append]
    have hu : ∀ q : BLISSPlugin, (q.update c).state.threshold = q.state.threshold := by
      intro q
      have hq := q.clear_consecutive.2.2
      cases c with
      | none => exact hq
      | some r =>
        simp only [update]
        split_ifs <;> simp only [countRequest_threshold, hq]
    exact (hu _).trans ih

/-- BLISS blames the streaming source only if and only if no other source that is not on the
blacklist yet gets a command that does not complete its request while a streak is over the
threshold. -/
theorem blamesStreaming_iff (threshold clearingInterval : ℕ) (cycles : List (Option Request)) :
    (setup threshold clearingInterval).BlamesStreaming cycles ↔
      (setup threshold clearingInterval).OpensForStreaming cycles := by
  generalize hp : setup threshold clearingInterval = p
  have hall : ∀ cycles, (p.runs cycles).Counts (completedSources cycles) :=
    hp ▸ setup_counts threshold clearingInterval
  constructor
  · intro hb pre r post he hc hover
    by_contra hne
    obtain ⟨hother,hfree⟩ := not_or.mp hne
    have hcons : (countRequest (p.runs pre).clear.state r).consecutiveRequests =
        (p.runs pre).state.consecutiveRequests := by
      rw [countRequest, if_neg (by rw [hc]; exact Bool.false_ne_true)]
      exact (p.runs pre).clear_consecutive.1
    have hins : (p.runs pre).Inserts (some r) r.sourceId := by
      refine (inserts_iff _ _ _).mpr ⟨r,rfl,rfl,hfree,?_⟩
      rw [hcons, runs_threshold]
      exact hover
    have hlt := hb pre (some r) post he r.sourceId hins
    rw [completedSources_append] at hlt
    dsimp only at hlt
    rw [if_neg (by rw [hc]; exact Bool.false_ne_true),
      (hall pre).head _ hother] at hlt
    exact absurd hlt (Nat.not_lt_zero _)
  · intro ho pre c post he source hins
    obtain ⟨r,rfl,rfl,hfree,hover⟩ := (inserts_iff _ _ _).mp hins
    rw [runs_threshold] at hover
    have hcounts := ((hall pre).clear.countRequest r _ rfl).streak
    dsimp only at hcounts
    rw [hcounts] at hover
    rw [completedSources_append]
    dsimp only
    by_cases hc : r.completes = true
    · have hlast : (countRequest (p.runs pre).clear.state r).lastSourceId = r.sourceId := by
        rw [countRequest, if_pos hc]
        split_ifs with hl
        · exact hl.symm
        · rfl
      rwa [hlast] at hover
    · have hsame : countRequest (p.runs pre).clear.state r = (p.runs pre).clear.state := by
        rw [countRequest, if_neg hc]
      obtain ⟨hcons,hlast,-⟩ := (p.runs pre).clear_consecutive
      rw [if_neg hc] at hover ⊢
      rw [hsame, hlast] at hover
      have hstreak := (hall pre).streak
      rcases ho pre r post he (by simpa using hc) (by rw [hstreak]; exact hover) with hl | hb
      · rwa [hl]
      · exact absurd hb hfree

end BLISSPlugin

/-- A read of the source, in its final command. -/
def completedRead (source : ℤ) : Request where
  addrVec := ⟨0,0,0,0,0,0⟩
  type := .read
  sourceId := source
  command := .RD
  finalCommand := .RD

/-- The activation for a read of the source. -/
def activation (source : ℤ) : Request where
  addrVec := ⟨0,0,0,1,0,0⟩
  type := .read
  sourceId := source
  command := .ACT
  finalCommand := .RD

/-- Five reads of source 0 and then the activation of a bank for source 1, which gets
blacklisted without having completed a request. -/
theorem activation_blames_innocent : ¬ (BLISSPlugin.setup 4 10000).BlamesStreaming
    (List.replicate 5 (some (completedRead 0)) ++ [some (activation 1)]) := by
  intro h
  have hins : BLISSPlugin.Inserts
      ((BLISSPlugin.setup 4 10000).runs (List.replicate 5 (some (completedRead 0))))
      (some (activation 1)) 1 := by
    unfold BLISSPlugin.Inserts
    decide
  have hlt := h _ _ [] rfl 1 hins
  revert hlt
  decide

end CaLabs.Lab5
