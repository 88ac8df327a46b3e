import CaLabs.Lab5.Graphene
import Mathlib.Tactic.Ring

/-! The OracleRH and TWiCe plugins, which count the activations of each row in the table of its
bank. -/
namespace CaLabs.Lab5

/-- The level of the banks that a command is for. -/
inductive CommandScope
  | row
  | rank
  | other
  deriving DecidableEq

/-- An issued request as the plugins read it. -/
structure RowCommand where
  isOpening : Bool := false
  isRefreshing : Bool := false
  scope : CommandScope
  addrVec : AddrVec

namespace RowCommand

def activates (cmd : RowCommand) : Bool := cmd.isOpening && cmd.scope = .row

def refreshesRank (cmd : RowCommand) : Bool := cmd.isRefreshing && cmd.scope = .rank

end RowCommand

/-- The index of the table of the bank and the row. -/
def rowPlace (org : Organization) (a : AddrVec) : ℤ × ℤ := (Graphene.flatBankId org a,a.row)

/-- The tables of the banks of a rank. -/
def inRank (org : Organization) (rank bank : ℤ) : Bool :=
  rank * (org.bankgroups * org.banks) ≤ bank ∧ bank < (rank + 1) * (org.bankgroups * org.banks)

structure OracleRH where
  org : Organization
  threshold : ℕ
  table : ℤ × ℤ → Option ℕ := fun _ => none

namespace OracleRH
variable (p : OracleRH)

/-- A row that is not in the table enters it without a comparison. -/
def activate (a : AddrVec) : OracleRH × Option AddrVec :=
  let place := rowPlace p.org a
  match p.table place with
  | none => ({ p with table := Function.update p.table place (some 1) },none)
  | some count =>
    if p.threshold ≤ count + 1 then
      ({ p with table := Function.update p.table place (some 0) },some a)
    else ({ p with table := Function.update p.table place (some (count + 1)) },none)

def refresh (a : AddrVec) : OracleRH :=
  { p with table := fun place => if inRank p.org a.rank place.1 then none else p.table place }

def update (request : Option RowCommand) : OracleRH × Option AddrVec :=
  match request with
  | none => (p,none)
  | some cmd =>
    if cmd.activates then p.activate cmd.addrVec
    else if cmd.refreshesRank then (p.refresh cmd.addrVec,none)
    else (p,none)

/-- A cycle with an observer, who counts the activations of each row since its last refresh
request or the last refresh of its rank. -/
def observe (s : OracleRH × (ℤ × ℤ → ℕ)) (request : Option RowCommand) :
    OracleRH × (ℤ × ℤ → ℕ) :=
  let r := s.1.update request
  (r.1,match request with
    | none => s.2
    | some cmd =>
      if cmd.activates then
        let place := rowPlace s.1.org cmd.addrVec
        Function.update s.2 place (if r.2.isSome then 0 else s.2 place + 1)
      else if cmd.refreshesRank then
        fun place => if inRank s.1.org cmd.addrVec.rank place.1 then 0 else s.2 place
      else s.2)

def run (requests : List (Option RowCommand)) : OracleRH × (ℤ × ℤ → ℕ) :=
  requests.foldl observe (p,fun _ => 0)

end OracleRH

structure TwiceEntry where
  actCount : ℕ
  life : ℕ
  deriving DecidableEq

/-- The comparison of the count with the life times the pruning threshold, both floating point,
is an argument. -/
structure TWiCe where
  org : Organization
  threshold : ℕ
  prunes : ℕ → ℕ → Bool
  table : ℤ × ℤ → Option TwiceEntry := fun _ => none

namespace TWiCe
variable (p : TWiCe)

/-- An entry is pruned at a refresh or gets older. -/
def ageEntry (prunes : ℕ → ℕ → Bool) (e : TwiceEntry) : Option TwiceEntry :=
  if prunes e.actCount e.life then none else some { e with life := e.life + 1 }

/-- A refresh of any rank goes through the tables of all banks. -/
def refresh : TWiCe :=
  { p with table := fun place => (p.table place).bind (ageEntry p.prunes) }

def activate (a : AddrVec) : TWiCe × Option AddrVec :=
  let place := rowPlace p.org a
  match p.table place with
  | none => ({ p with table := Function.update p.table place (some ⟨1,0⟩) },none)
  | some e =>
    if p.threshold ≤ e.actCount + 1 then
      ({ p with table := Function.update p.table place none },some a)
    else ({ p with
      table := Function.update p.table place (some { e with actCount := e.actCount + 1 }) },none)

def update (request : Option RowCommand) : TWiCe × Option AddrVec :=
  match request with
  | none => (p,none)
  | some cmd =>
    if cmd.refreshesRank then (p.refresh,none)
    else if cmd.activates then p.activate cmd.addrVec
    else (p,none)

/-- What an observer counts for each row since its last refresh request: its activations, and the
refreshes of ranks. -/
structure Observed where
  since : ℤ × ℤ → ℕ := fun _ => 0
  refreshes : ℤ × ℤ → ℕ := fun _ => 0

def observe (s : TWiCe × Observed) (request : Option RowCommand) : TWiCe × Observed :=
  let r := s.1.update request
  (r.1,match request with
    | none => s.2
    | some cmd =>
      if cmd.refreshesRank then { s.2 with refreshes := fun place => s.2.refreshes place + 1 }
      else if cmd.activates then
        let place := rowPlace s.1.org cmd.addrVec
        if r.2.isSome then
          { since := Function.update s.2.since place 0
            refreshes := Function.update s.2.refreshes place 0 }
        else { s.2 with since := Function.update s.2.since place (s.2.since place + 1) }
      else s.2)

def run (requests : List (Option RowCommand)) : TWiCe × Observed := requests.foldl observe (p,{})

end TWiCe

namespace OracleRH
variable {p : OracleRH} {since : ℤ × ℤ → ℕ}

lemma activate_cases (p : OracleRH) (a : AddrVec) :
    (p.table (rowPlace p.org a) = none ∧ p.activate a =
      ({ p with table := Function.update p.table (rowPlace p.org a) (some 1) },none)) ∨
    ∃ count, p.table (rowPlace p.org a) = some count ∧
      (p.threshold ≤ count + 1 ∧ p.activate a =
        ({ p with table := Function.update p.table (rowPlace p.org a) (some 0) },some a) ∨
      count + 1 < p.threshold ∧ p.activate a =
        ({ p with table := Function.update p.table (rowPlace p.org a) (some (count + 1)) },
          none)) := by
  unfold activate
  dsimp only
  cases htable : p.table (rowPlace p.org a) with
  | none => exact .inl ⟨rfl,rfl⟩
  | some count =>
    refine .inr ⟨count,rfl,?_⟩
    by_cases hr : p.threshold ≤ count + 1
    · exact .inl ⟨hr,if_pos hr⟩
    · exact .inr ⟨Nat.lt_of_not_le hr,if_neg hr⟩

/-- The table holds what is observed. -/
structure Exact (s : OracleRH × (ℤ × ℤ → ℕ)) : Prop where
  count : ∀ place, (s.1.table place).getD 0 = s.2 place
  lt : ∀ place, s.2 place < s.1.threshold

lemma Exact.write (h : Exact (p,since)) (place : ℤ × ℤ) {v : ℕ} (hv : v < p.threshold) :
    Exact ({ p with table := Function.update p.table place (some v) },
      Function.update since place v) := by
  constructor <;> intro other <;> by_cases heq : other = place
  · simp [heq]
  · simpa [Function.update_of_ne heq] using h.count other
  · simpa [heq] using hv
  · simpa [Function.update_of_ne heq] using h.lt other

/-- A row's refresh is asked for by the activation that reaches the threshold. -/
lemma Exact.activate (h : Exact (p,since)) (ht : 2 ≤ p.threshold) (a : AddrVec) :
    (p.activate a).2 =
        (if since (rowPlace p.org a) + 1 = p.threshold then some a else none) ∧
      Exact ((p.activate a).1,Function.update since (rowPlace p.org a)
        (if (p.activate a).2.isSome then 0 else since (rowPlace p.org a) + 1)) := by
  have hcount := h.count (rowPlace p.org a)
  have hlt := h.lt (rowPlace p.org a)
  dsimp only at hcount hlt
  rcases p.activate_cases a with ⟨hnone,heq⟩ | ⟨count,hsome,⟨hr,heq⟩ | ⟨hr,heq⟩⟩
  · rw [hnone, Option.getD_none] at hcount
    rw [heq, ← hcount, if_neg (by omega)]
    exact ⟨rfl,h.write _ (by omega)⟩
  · rw [hsome, Option.getD_some] at hcount
    rw [heq, if_pos (by omega)]
    exact ⟨rfl,h.write _ (by omega)⟩
  · rw [hsome, Option.getD_some] at hcount
    rw [heq, if_neg (by omega), ← hcount]
    exact ⟨rfl,h.write _ hr⟩

lemma Exact.refresh (h : Exact (p,since)) (ht : 2 ≤ p.threshold) (a : AddrVec) :
    Exact (p.refresh a,fun place => if inRank p.org a.rank place.1 then 0 else since place) := by
  constructor <;> intro place <;> simp only [OracleRH.refresh] <;>
    by_cases hin : inRank p.org a.rank place.1 = true
  · simp [hin]
  · simpa [hin] using h.count place
  · simp only [if_pos hin]
    omega
  · simpa [hin] using h.lt place

lemma update_framed (p : OracleRH) (request : Option RowCommand) :
    (p.update request).1.org = p.org ∧ (p.update request).1.threshold = p.threshold := by
  unfold update
  cases request with
  | none => exact ⟨rfl,rfl⟩
  | some cmd =>
    dsimp only
    split_ifs
    · rcases p.activate_cases cmd.addrVec with ⟨-,heq⟩ | ⟨_,-,⟨-,heq⟩ | ⟨-,heq⟩⟩ <;>
        exact heq ▸ ⟨rfl,rfl⟩
    · exact ⟨rfl,rfl⟩
    · exact ⟨rfl,rfl⟩

theorem Exact.observe {s : OracleRH × (ℤ × ℤ → ℕ)} (h : Exact s) (ht : 2 ≤ s.1.threshold)
    (request : Option RowCommand) : Exact (observe s request) := by
  obtain ⟨p,since⟩ := s
  unfold OracleRH.observe update
  cases request with
  | none => exact h
  | some cmd =>
    by_cases ha : cmd.activates = true
    · simp only [if_pos ha]
      exact (h.activate ht cmd.addrVec).2
    · by_cases hr : cmd.refreshesRank = true
      · simp only [if_neg ha, if_pos hr]
        exact h.refresh ht cmd.addrVec
      · simp only [if_neg ha, if_neg hr]
        exact h

lemma run_concat (requests : List (Option RowCommand)) (request : Option RowCommand) :
    p.run (requests ++ [request]) = observe (p.run requests) request := by
  rw [run, List.foldl_concat]
  rfl

theorem Exact.run (h : Exact (p,fun _ => 0)) (ht : 2 ≤ p.threshold)
    (requests : List (Option RowCommand)) : Exact (p.run requests) ∧
      (p.run requests).1.org = p.org ∧ (p.run requests).1.threshold = p.threshold := by
  induction requests using List.reverseRecOn with
  | nil => exact ⟨h,rfl,rfl⟩
  | append_singleton requests request ih =>
    obtain ⟨hrun,horg,hthreshold⟩ := ih
    obtain ⟨horg',hthreshold'⟩ := update_framed (p.run requests).1 request
    rw [run_concat]
    exact ⟨hrun.observe (hthreshold ▸ ht) request,horg'.trans horg,hthreshold'.trans hthreshold⟩

/-- After every run an activation asks for the refresh of its row if and only if it is the one
that reaches the threshold since the last such request or refresh of the rank. -/
theorem refresh_at_threshold (org : Organization) {threshold : ℕ} (ht : 2 ≤ threshold)
    (requests : List (Option RowCommand)) (cmd : RowCommand) (hact : cmd.activates = true) :
    let s := run ⟨org,threshold,fun _ => none⟩ requests
    (s.1.update (some cmd)).2 =
        (if s.2 (rowPlace org cmd.addrVec) + 1 = threshold then some cmd.addrVec else none) ∧
      ∀ place, s.2 place < threshold := by
  have hstart : Exact (⟨org,threshold,fun _ => none⟩,fun _ => 0) :=
    ⟨fun _ => rfl,fun _ => Nat.lt_of_lt_of_le Nat.zero_lt_two ht⟩
  obtain ⟨hrun,horg,hthreshold⟩ := hstart.run ht requests
  dsimp only at horg hthreshold ⊢
  generalize run ⟨org,threshold,fun _ => none⟩ requests = s at *
  have hstep := (hrun.activate (hthreshold ▸ ht) cmd.addrVec).1
  rw [horg, hthreshold] at hstep
  refine ⟨?_,fun place => hthreshold ▸ hrun.lt place⟩
  unfold update
  simp only [if_pos hact]
  exact hstep

/-- The second activation of a row asks for its refresh if the threshold is 2. -/
theorem rowTwice_refresh_at_threshold :
    let act : RowCommand := { isOpening := true, scope := .row, addrVec := ⟨0,0,1,1,5,0⟩ }
    let s := run ⟨⟨2,2⟩,2,fun _ => none⟩ [some act]
    s.2 (3,5) = 1 ∧ (s.1.update (some act)).2 = some act.addrVec :=
  ⟨by decide,(refresh_at_threshold ⟨2,2⟩ (Nat.le_refl 2)
    [some { isOpening := true, scope := .row, addrVec := ⟨0,0,1,1,5,0⟩ }]
    { isOpening := true, scope := .row, addrVec := ⟨0,0,1,1,5,0⟩ } rfl).1⟩

end OracleRH

namespace TWiCe
variable {p : TWiCe} {o : Observed}

lemma activate_cases (p : TWiCe) (a : AddrVec) :
    (p.table (rowPlace p.org a) = none ∧ p.activate a =
      ({ p with table := Function.update p.table (rowPlace p.org a) (some ⟨1,0⟩) },none)) ∨
    ∃ e, p.table (rowPlace p.org a) = some e ∧
      (p.threshold ≤ e.actCount + 1 ∧ p.activate a =
        ({ p with table := Function.update p.table (rowPlace p.org a) none },some a) ∨
      e.actCount + 1 < p.threshold ∧ p.activate a =
        ({ p with
          table := Function.update p.table (rowPlace p.org a)
            (some { e with actCount := e.actCount + 1 }) },none)) := by
  unfold activate
  dsimp only
  cases htable : p.table (rowPlace p.org a) with
  | none => exact .inl ⟨rfl,rfl⟩
  | some e =>
    refine .inr ⟨e,rfl,?_⟩
    by_cases hr : p.threshold ≤ e.actCount + 1
    · exact .inl ⟨hr,if_pos hr⟩
    · exact .inr ⟨Nat.lt_of_not_le hr,if_neg hr⟩

/-- An entry is pruned only when it counts at most so many activations a refresh. -/
def PrunesBelow (prunes : ℕ → ℕ → Bool) (rate : ℕ) : Prop :=
  ∀ count life, prunes count life = true → count ≤ rate * life

/-- The activations of a row are those its entry counts, and at most so many for each refresh
before the entry. -/
structure Bounded (rate threshold : ℕ) (entry : Option TwiceEntry) (since refreshes : ℕ) :
    Prop where
  tracked : ∀ e, entry = some e → e.life ≤ refreshes ∧
    since ≤ e.actCount + rate * (refreshes - e.life) ∧ e.actCount < max threshold 2
  untracked : entry = none → since ≤ rate * refreshes

namespace Bounded
variable {rate threshold since refreshes : ℕ} {e : TwiceEntry}

lemma start : Bounded rate threshold none 0 0 where
  tracked _ h := absurd h (by simp)
  untracked _ := Nat.zero_le _

lemma insert (h : Bounded rate threshold none since refreshes) :
    Bounded rate threshold (some ⟨1,0⟩) (since + 1) refreshes where
  tracked e he := by
    obtain rfl := Option.some.inj he
    have := h.untracked rfl
    exact ⟨Nat.zero_le _,by simpa [Nat.add_comm] using this,
      lt_of_lt_of_le Nat.one_lt_two (Nat.le_max_right _ _)⟩
  untracked h := absurd h (by simp)

lemma count (h : Bounded rate threshold (some e) since refreshes)
    (hlt : e.actCount + 1 < threshold) :
    Bounded rate threshold (some { e with actCount := e.actCount + 1 }) (since + 1) refreshes where
  tracked e' he := by
    obtain rfl := Option.some.inj he
    obtain ⟨hlife,hsince,-⟩ := h.tracked e rfl
    refine ⟨hlife,?_,lt_of_lt_of_le hlt (Nat.le_max_left _ _)⟩
    dsimp only
    omega
  untracked h := absurd h (by simp)

/-- A refresh that prunes an entry moves its count to the refreshes. -/
lemma refresh {prunes : ℕ → ℕ → Bool} (hp : PrunesBelow prunes rate)
    {entry : Option TwiceEntry} (h : Bounded rate threshold entry since refreshes) :
    Bounded rate threshold (entry.bind (ageEntry prunes)) since (refreshes + 1) := by
  cases entry with
  | none => exact ⟨fun _ he => absurd he (by simp),fun _ =>
      (h.untracked rfl).trans (Nat.mul_le_mul_left _ refreshes.le_succ)⟩
  | some e =>
    obtain ⟨hlife,hsince,hcount⟩ := h.tracked e rfl
    rw [Option.bind_some, ageEntry]
    split_ifs with hpruned
    · refine ⟨fun _ he => absurd he (by simp),fun _ => ?_⟩
      calc
        since ≤ rate * e.life + rate * (refreshes - e.life) :=
          hsince.trans (Nat.add_le_add_right (hp _ _ hpruned) _)
        _ = rate * refreshes := by rw [← Nat.mul_add, Nat.add_sub_cancel' hlife]
        _ ≤ rate * (refreshes + 1) := Nat.mul_le_mul_left _ refreshes.le_succ
    · refine ⟨fun e' he => ?_,fun he => absurd he (by simp)⟩
      obtain rfl := Option.some.inj he
      exact ⟨Nat.succ_le_succ hlife,by simpa [Nat.add_sub_add_right] using hsince,hcount⟩

lemma since_lt {entry : Option TwiceEntry}
    (h : Bounded rate threshold entry since refreshes) :
    since < max threshold 2 + rate * refreshes := by
  have hmax : 0 < max threshold 2 := lt_of_lt_of_le Nat.zero_lt_two (Nat.le_max_right _ _)
  cases entry with
  | none =>
    have := h.untracked rfl
    omega
  | some e =>
    obtain ⟨-,hsince,hcount⟩ := h.tracked e rfl
    have := Nat.mul_le_mul_left rate (Nat.sub_le refreshes e.life)
    omega

end Bounded

/-- Every entry bounds what is observed of its row. -/
def Bounds (rate : ℕ) (s : TWiCe × Observed) : Prop :=
  ∀ place, Bounded rate s.1.threshold (s.1.table place) (s.2.since place) (s.2.refreshes place)

lemma Bounds.refresh {rate : ℕ} (h : Bounds rate (p,o)) (hp : PrunesBelow p.prunes rate) :
    Bounds rate (p.refresh,{ o with refreshes := fun place => o.refreshes place + 1 }) :=
  fun place => (h place).refresh hp

/-- An entry is written together with the observation of its row. -/
lemma Bounds.write {rate : ℕ} (h : Bounds rate (p,o)) (place : ℤ × ℤ) {entry : Option TwiceEntry}
    {since refreshes : ℕ} (hplace : Bounded rate p.threshold entry since refreshes) :
    Bounds rate ({ p with table := Function.update p.table place entry },
      ⟨Function.update o.since place since,Function.update o.refreshes place refreshes⟩) := by
  intro other
  by_cases heq : other = place
  · simpa [heq] using hplace
  · simpa [Function.update_of_ne heq] using h other

lemma Bounds.activate {rate : ℕ} (h : Bounds rate (p,o)) (a : AddrVec) :
    Bounds rate ((p.activate a).1,
      if (p.activate a).2.isSome then
        { since := Function.update o.since (rowPlace p.org a) 0
          refreshes := Function.update o.refreshes (rowPlace p.org a) 0 }
      else { o with
        since := Function.update o.since (rowPlace p.org a)
          (o.since (rowPlace p.org a) + 1) }) := by
  have hplace := h (rowPlace p.org a)
  have hrefreshes := Function.update_eq_self (rowPlace p.org a) o.refreshes
  dsimp only at hplace
  rcases p.activate_cases a with ⟨hnone,heq⟩ | ⟨e,hsome,⟨-,heq⟩ | ⟨hr,heq⟩⟩
  · rw [hnone] at hplace
    have hnext := h.write (rowPlace p.org a) hplace.insert
    rw [hrefreshes] at hnext
    rw [heq]
    exact hnext
  · rw [heq]
    exact h.write _ .start
  · rw [hsome] at hplace
    have hnext := h.write (rowPlace p.org a) (hplace.count hr)
    rw [hrefreshes] at hnext
    rw [heq]
    exact hnext

lemma update_framed (p : TWiCe) (request : Option RowCommand) :
    (p.update request).1.threshold = p.threshold ∧ (p.update request).1.prunes = p.prunes := by
  unfold update
  cases request with
  | none => exact ⟨rfl,rfl⟩
  | some cmd =>
    dsimp only
    split_ifs
    · exact ⟨rfl,rfl⟩
    · rcases p.activate_cases cmd.addrVec with ⟨-,heq⟩ | ⟨_,-,⟨-,heq⟩ | ⟨-,heq⟩⟩ <;>
        exact heq ▸ ⟨rfl,rfl⟩
    · exact ⟨rfl,rfl⟩

theorem Bounds.observe {rate : ℕ} {s : TWiCe × Observed} (h : Bounds rate s)
    (hp : PrunesBelow s.1.prunes rate) (request : Option RowCommand) :
    Bounds rate (observe s request) := by
  obtain ⟨p,o⟩ := s
  unfold TWiCe.observe update
  cases request with
  | none => exact h
  | some cmd =>
    by_cases hr : cmd.refreshesRank = true
    · simp only [if_pos hr]
      exact h.refresh hp
    · by_cases ha : cmd.activates = true
      · simp only [if_neg hr, if_pos ha]
        exact h.activate cmd.addrVec
      · simp only [if_neg hr, if_neg ha]
        exact h

lemma run_concat (requests : List (Option RowCommand)) (request : Option RowCommand) :
    p.run (requests ++ [request]) = observe (p.run requests) request := by
  rw [run, List.foldl_concat]
  rfl

theorem Bounds.run {rate : ℕ} (h : Bounds rate (p,{})) (hp : PrunesBelow p.prunes rate)
    (requests : List (Option RowCommand)) : Bounds rate (p.run requests) ∧
      (p.run requests).1.threshold = p.threshold ∧ (p.run requests).1.prunes = p.prunes := by
  induction requests using List.reverseRecOn with
  | nil => exact ⟨h,rfl,rfl⟩
  | append_singleton requests request ih =>
    obtain ⟨hrun,hthreshold,hprunes⟩ := ih
    obtain ⟨hthreshold',hprunes'⟩ := update_framed (p.run requests).1 request
    rw [run_concat]
    exact ⟨hrun.observe (hprunes ▸ hp) request,hthreshold'.trans hthreshold,
      hprunes'.trans hprunes⟩

/-- In every run the activations of a row since its last refresh request are below the threshold
and the rate of the pruned entries for each refresh since then. -/
theorem activations_bounded (org : Organization) (threshold : ℕ) (prunes : ℕ → ℕ → Bool)
    {rate : ℕ} (hp : PrunesBelow prunes rate) (requests : List (Option RowCommand))
    (place : ℤ × ℤ) :
    let o := (run ⟨org,threshold,prunes,fun _ => none⟩ requests).2
    o.since place < max threshold 2 + rate * o.refreshes place := by
  have hstart : Bounds rate (⟨org,threshold,prunes,fun _ => none⟩,{}) := fun _ => .start
  obtain ⟨hrun,hthreshold,-⟩ := hstart.run hp requests
  have hlt := (hrun place).since_lt
  rwa [hthreshold] at hlt

/-- The count of an entry that is pruned at the second refresh after it. -/
theorem rowOnce_activations_bounded :
    let act : RowCommand := { isOpening := true, scope := .row, addrVec := ⟨0,0,1,1,5,0⟩ }
    let refresh : RowCommand := { isRefreshing := true, scope := .rank, addrVec := ⟨0,0,0,0,0,0⟩ }
    let o := (run ⟨⟨2,2⟩,3,fun count life => count < 2 * life,fun _ => none⟩
      [some act,some refresh,some refresh,some act]).2
    o.since (3,5) = 2 ∧ o.refreshes (3,5) = 2 ∧ o.since (3,5) < max 3 2 + 2 * o.refreshes (3,5) :=
  ⟨by decide,by decide,activations_bounded ⟨2,2⟩ 3 (fun count life => count < 2 * life)
    (fun _ _ h => Nat.le_of_lt (of_decide_eq_true h)) _ (3,5)⟩

end TWiCe
end CaLabs.Lab5
