import Mathlib.Data.List.Infix
import Mathlib.Logic.Function.Iterate

/-! Runs of a step function that may abort, with an observation before every step, and the
simulation rule that turns a stuttering simulation into a prefix of the specified trace. -/
namespace CaLabs.Lib

/-- A machine that steps while it is running and shows at most one observation a step. -/
structure Machine (σ ε β : Type*) where
  step : σ → Except ε σ
  running : σ → Bool
  observe : σ → Option β

namespace Machine
variable {σ ε β : Type*} (M : Machine σ ε β)

/-- The observations and the final state of at most n steps; a halted machine stays put. -/
def run : ℕ → σ → Except ε (List β × σ)
  | 0,s => .ok ([],s)
  | n+1,s =>
    match run n s with
    | .error e => .error e
    | .ok (t,s') =>
      if M.running s' then
        match M.step s' with
        | .error e => .error e
        | .ok s'' => .ok (t ++ (M.observe s').toList,s'')
      else .ok (t,s')

/-- The run goes on for n full steps from s and reaches s'. -/
def Reaches (s : σ) : ℕ → σ → Prop
  | 0,s' => s' = s
  | n+1,s' => ∃ m, Reaches s n m ∧ M.running m = true ∧ M.step m = .ok s'

theorem run_succ {n : ℕ} {s s' : σ} {t : List β} (h : M.run n s = .ok (t,s')) :
    M.run (n+1) s =
      if M.running s' then
        match M.step s' with
        | .error e => .error e
        | .ok s'' => .ok (t ++ (M.observe s').toList,s'')
      else .ok (t,s') := by
  simp only [run, h]

/-- What one more step of a run can do. -/
theorem run_succ_cases {n : ℕ} {s s'' : σ} {t' : List β} (h : M.run (n+1) s = .ok (t',s'')) :
    ∃ t s', M.run n s = .ok (t,s') ∧
      ((M.running s' = true ∧ M.step s' = .ok s'' ∧ t' = t ++ (M.observe s').toList) ∨
        (M.running s' = false ∧ t' = t ∧ s'' = s')) := by
  cases hr : M.run n s with
  | error e => simp [run, hr] at h
  | ok p =>
    obtain ⟨t,s'⟩ := p
    rw [run_succ M hr] at h
    refine ⟨t,s',rfl,?_⟩
    by_cases hrun : M.running s' = true
    · rw [if_pos hrun] at h
      cases hs : M.step s' with
      | error e => simp [hs] at h
      | ok m =>
        simp only [hs, Except.ok.injEq, Prod.mk.injEq] at h
        exact .inl ⟨hrun,by rw [h.2],h.1.symm⟩
    · rw [if_neg hrun, Except.ok.injEq, Prod.mk.injEq] at h
      exact .inr ⟨by simpa using hrun,h.1.symm,h.2.symm⟩

/-- A run in two parts. -/
theorem run_add {m n : ℕ} {s s' s'' : σ} {t t' : List β} (h : M.run m s = .ok (t,s'))
    (h' : M.run n s' = .ok (t',s'')) : M.run (m+n) s = .ok (t ++ t',s'') := by
  induction n generalizing t' s'' with
  | zero =>
    obtain ⟨rfl,rfl⟩ := Prod.mk.inj (Except.ok.inj h')
    rw [Nat.add_zero, List.append_nil, h]
  | succ n ih =>
    obtain ⟨t₀,m₀,hrun,hcase⟩ := M.run_succ_cases h'
    rw [← Nat.add_assoc, run_succ M (ih hrun)]
    rcases hcase with ⟨hr,hs,rfl⟩ | ⟨hr,rfl,rfl⟩
    · simp only [hr, if_true, hs, List.append_assoc]
    · simp only [hr, Bool.false_eq_true, if_false]

/-- Reached states are the states of the runs that have not halted before. -/
theorem Reaches.run {n : ℕ} {s s' : σ} (h : M.Reaches s n s') :
    ∃ t, M.run n s = .ok (t,s') := by
  induction n generalizing s' with
  | zero => exact ⟨[],by rw [show s' = s from h]; rfl⟩
  | succ n ih =>
    obtain ⟨m,hm,hrun,hstep⟩ := h
    obtain ⟨t,ht⟩ := ih hm
    exact ⟨_,by rw [run_succ M ht, if_pos hrun, hstep]⟩

theorem Reaches.unique {n : ℕ} {s s₁ s₂ : σ} (h₁ : M.Reaches s n s₁)
    (h₂ : M.Reaches s n s₂) : s₁ = s₂ := by
  induction n generalizing s₁ s₂ with
  | zero => exact (show s₁ = s from h₁).trans (show s₂ = s from h₂).symm
  | succ n ih =>
    obtain ⟨m₁,hm₁,-,hs₁⟩ := h₁
    obtain ⟨m₂,hm₂,-,hs₂⟩ := h₂
    rw [ih hm₁ hm₂, hs₂] at hs₁
    exact (Except.ok.inj hs₁).symm

/-- An inductive invariant holds in every reached state. -/
theorem Reaches.invariant {P : σ → Prop} {s : σ} (h0 : P s)
    (hstep : ∀ a b, P a → M.running a = true → M.step a = .ok b → P b)
    {n : ℕ} {s' : σ} (h : M.Reaches s n s') : P s' := by
  induction n generalizing s' with
  | zero => exact (show s' = s from h) ▸ h0
  | succ n ih =>
    obtain ⟨m,hm,hrun,hs⟩ := h
    exact hstep m s' (ih hm) hrun hs

/-- What counts down by one a step from n on, after the first step of a run. -/
theorem Reaches.countdown {P : ℕ → σ → Prop} {n k : ℕ} {s s' : σ}
    (h0 : ∀ b, M.step s = .ok b → P n b)
    (hstep : ∀ i j a b, M.Reaches s i a → P (j+1) a → M.step a = .ok b → P j b)
    (hk : k ≤ n) (h : M.Reaches s (k+1) s') : P (n-k) s' := by
  induction k generalizing s' with
  | zero =>
    obtain ⟨m,hm,-,hs⟩ := h
    obtain rfl : m = s := hm
    exact h0 s' hs
  | succ k ih =>
    obtain ⟨m,hm,-,hs⟩ := h
    have hcount := ih (by omega) hm
    rw [show n-k = (n-(k+1))+1 by omega] at hcount
    exact hstep (k+1) _ m s' hm hcount hs

/-- A run by its first step. -/
theorem Reaches.head {n : ℕ} {s s' : σ} (h : M.Reaches s (n+1) s') :
    ∃ m, M.running s = true ∧ M.step s = .ok m ∧ M.Reaches m n s' := by
  induction n generalizing s' with
  | zero =>
    obtain ⟨m,hm,hrun,hstep⟩ := h
    obtain rfl : m = s := hm
    exact ⟨s',hrun,hstep,rfl⟩
  | succ n ih =>
    obtain ⟨m,hm,hrun,hstep⟩ := h
    obtain ⟨k,hk,hs,hrest⟩ := ih hm
    exact ⟨k,hk,hs,m,hrest,hrun,hstep⟩

theorem Reaches.trans {m n : ℕ} {s s' s'' : σ} (h : M.Reaches s m s')
    (h' : M.Reaches s' n s'') : M.Reaches s (m+n) s'' := by
  induction n generalizing s'' with
  | zero =>
    obtain rfl : s'' = s' := h'
    exact h
  | succ n ih =>
    obtain ⟨k,hk,hrun,hstep⟩ := h'
    exact ⟨k,ih hk,hrun,hstep⟩

/-- Test the state that n steps lead to. -/
def leadsTo (p : σ → Bool) : ℕ → σ → Bool
  | 0,s => p s
  | n+1,s => M.running s && match M.step s with
    | .ok s' => leadsTo p n s'
    | .error _ => false

theorem leadsTo_reaches {p : σ → Bool} {n : ℕ} {s : σ} (h : M.leadsTo p n s = true) :
    ∃ s', M.Reaches s n s' ∧ p s' = true := by
  induction n generalizing s with
  | zero => exact ⟨s,rfl,h⟩
  | succ n ih =>
    simp only [leadsTo, Bool.and_eq_true] at h
    cases hs : M.step s with
    | error e => simp [hs] at h
    | ok m =>
      rw [hs] at h
      obtain ⟨s',hr,hp⟩ := ih h.2
      refine ⟨s',?_,hp⟩
      rw [Nat.add_comm]
      exact Reaches.trans M (m := 1) ⟨s,rfl,h.1,hs⟩ hr

/-- Test every state of the first n steps. -/
def checkRun (p : σ → Bool) : ℕ → σ → Bool
  | 0,s => p s
  | n+1,s => p s && match M.step s with
    | .ok s' => checkRun p n s'
    | .error _ => true

/-- A successful test covers every state that a run of that length reaches. -/
theorem Reaches.checked {p : σ → Bool} {n m : ℕ} {s s' : σ} (hc : M.checkRun p n s = true)
    (h : M.Reaches s m s') (hm : m ≤ n) : p s' = true := by
  induction n generalizing m s with
  | zero =>
    obtain rfl := Nat.le_zero.mp hm
    exact (show s' = s from h) ▸ hc
  | succ n ih =>
    simp only [checkRun, Bool.and_eq_true] at hc
    cases m with
    | zero => exact (show s' = s from h) ▸ hc.1
    | succ m =>
      obtain ⟨k,-,hstep,hrest⟩ := Reaches.head M h
      rw [hstep] at hc
      exact ih hc.2 hrest (by omega)

/-- An earlier state of the same run. -/
theorem Reaches.earlier {s s' : σ} {n k : ℕ} (h : M.Reaches s n s') (hk : k ≤ n) :
    ∃ m, M.Reaches s k m := by
  induction n generalizing s' with
  | zero => exact ⟨s',by rwa [Nat.le_zero.mp hk]⟩
  | succ n ih =>
    obtain ⟨m,hm,hrest⟩ := h
    rcases Nat.lt_or_ge n k with hlt | hge
    · have he : k = n+1 := by omega
      exact ⟨s',he ▸ ⟨m,hm,hrest⟩⟩
    · exact ih hm hge

/-- What is left of a run after its first m steps. -/
theorem Reaches.rest {s s' s'' : σ} {m n : ℕ} (h : M.Reaches s (m+n) s'')
    (hm : M.Reaches s m s') : M.Reaches s' n s'' := by
  induction n generalizing s'' with
  | zero => exact h.unique M hm
  | succ n ih =>
    obtain ⟨k,hk,hrest⟩ := h
    exact ⟨k,ih hk,hrest⟩

/-- n full steps from s to s', and every state before s' has the property. -/
structure Along (P : σ → Prop) (s : σ) (n : ℕ) (s' : σ) : Prop where
  reaches : M.Reaches s n s'
  holds : ∀ m < n, ∀ x, M.Reaches s m x → P x

theorem Along.refl {P : σ → Prop} (s : σ) : M.Along P s 0 s :=
  ⟨rfl,fun m hm => absurd hm (Nat.not_lt_zero m)⟩

theorem Along.trans {P : σ → Prop} {m n : ℕ} {s s' s'' : σ} (h : M.Along P s m s')
    (h' : M.Along P s' n s'') : M.Along P s (m+n) s'' := by
  refine ⟨h.reaches.trans M h'.reaches,fun k hk x hx => ?_⟩
  rcases Nat.lt_or_ge k m with hlt | hge
  · exact h.holds k hlt x hx
  · obtain ⟨j,rfl⟩ := Nat.exists_eq_add_of_le hge
    exact h'.holds j (by omega) x (hx.rest M h.reaches)

/-- One step. -/
theorem Along.one {P : σ → Prop} {s s' : σ} (hP : P s) (hrun : M.running s = true)
    (hs : M.step s = .ok s') : M.Along P s 1 s' := by
  refine ⟨⟨s,rfl,hrun,hs⟩,fun m hm x hx => ?_⟩
  obtain rfl : m = 0 := by omega
  exact (show x = s from hx) ▸ hP

/-- A run in which nothing is shown. -/
theorem Along.run_silent {n : ℕ} {s s' : σ} (h : M.Along (fun x => M.observe x = none) s n s') :
    M.run n s = .ok ([],s') := by
  obtain ⟨hreach,hquiet⟩ := h
  induction n generalizing s' with
  | zero =>
    obtain rfl : s' = s := hreach
    rfl
  | succ n ih =>
    obtain ⟨m,hm,hrun,hstep⟩ := hreach
    have hrest := ih hm fun k hk => hquiet k (by omega)
    rw [run_succ M hrest, if_pos hrun, hstep, hquiet n (by omega) m hm]
    rfl

/-- Test n states in a row and the one that they lead to. -/
def passes (p q : σ → Bool) : ℕ → σ → Bool
  | 0,s => q s
  | n+1,s => p s && M.running s && match M.step s with
    | .ok s' => passes p q n s'
    | .error _ => false

theorem along_of_passes {p q : σ → Bool} {n : ℕ} {s : σ} (h : M.passes p q n s = true) :
    ∃ s', M.Along (p · = true) s n s' ∧ q s' = true := by
  induction n generalizing s with
  | zero => exact ⟨s,Along.refl M s,h⟩
  | succ n ih =>
    simp only [passes, Bool.and_eq_true] at h
    cases hs : M.step s with
    | error e => simp [hs] at h
    | ok m =>
      rw [hs] at h
      obtain ⟨s',hr,hq⟩ := ih h.2
      refine ⟨s',?_,hq⟩
      rw [Nat.add_comm]
      exact (Along.one M h.1.1 h.1.2 hs).trans M hr

end Machine

/-- The test of a result that must not be an abort. -/
def succeeds {ε α : Type*} (p : α → Bool) (x : Except ε α) : Bool := x.toOption.any p

lemma succeeds_iff {ε α : Type*} {p : α → Bool} {x : Except ε α} :
    succeeds p x = true ↔ ∃ a, x = .ok a ∧ p a = true := by
  cases x <;> simp [succeeds, Except.toOption]

/-- An invariant of the steps of a fold that may abort. -/
theorem foldlM_invariant {σ ι ε : Type*} {f : σ → ι → Except ε σ} {P : σ → Prop} {l : List ι}
    {s s' : σ} (h0 : P s) (hstep : ∀ a b, ∀ i ∈ l, P a → f a i = .ok b → P b)
    (h : l.foldlM f s = .ok s') : P s' := by
  induction l generalizing s with
  | nil =>
    obtain rfl := Except.ok.inj h
    exact h0
  | cons i l ih =>
    rw [List.foldlM_cons] at h
    cases hf : f s i with
    | error e => simp [hf, bind, Except.bind] at h
    | ok m =>
      simp only [hf, bind, Except.bind] at h
      exact ih (hstep s m i List.mem_cons_self h0 hf)
        (fun a b j hj => hstep a b j (List.mem_cons_of_mem i hj)) h

/-- A fold aborts with the error of one of its steps. -/
theorem foldlM_error {σ ι ε : Type*} {f : σ → ι → Except ε σ} {P : ε → Prop} {l : List ι}
    {s : σ} {e : ε} (hstep : ∀ a i {e}, f a i = .error e → P e) (h : l.foldlM f s = .error e) :
    P e := by
  induction l generalizing s with
  | nil => cases h
  | cons i l ih =>
    rw [List.foldlM_cons] at h
    cases hf : f s i with
    | error e' =>
      simp only [hf, bind, Except.bind, Except.error.injEq] at h
      exact h ▸ hstep s i hf
    | ok m =>
      simp only [hf, bind, Except.bind] at h
      exact ih h

section Trace
variable {α β : Type*} (next : α → α) (stop : α → Prop)

/-- No step before the k-th one stops. -/
def Executes (a : α) (k : ℕ) : Prop := ∀ j < k, ¬ stop (next^[j] a)

variable {next stop}

theorem Executes.mono {a : α} {k l : ℕ} (h : Executes next stop a l) (hk : k ≤ l) :
    Executes next stop a k := fun j hj => h j (by omega)

theorem Executes.zero (a : α) : Executes next stop a 0 := fun j hj => absurd hj (Nat.not_lt_zero j)

theorem Executes.succ {a : α} {k : ℕ} (h : Executes next stop a k)
    (hk : ¬ stop (next^[k] a)) : Executes next stop a (k+1) := by
  intro j hj
  rcases Nat.lt_succ_iff_lt_or_eq.mp hj with hj | rfl
  · exact h j hj
  · exact hk

theorem Executes.tail {a : α} {k : ℕ} (h : ¬ stop a) (ht : Executes next stop (next a) k) :
    Executes next stop a (k+1) := by
  intro j hj
  cases j with
  | zero => exact h
  | succ j => exact ht j (by omega)

variable (next) (out : α → β) (stop) [DecidablePred stop]

/-- The outputs of at most n specified steps; the last one is the first stopping one. -/
def specTrace : ℕ → α → List β
  | 0,_ => []
  | n+1,a => out a :: if stop a then [] else specTrace n (next a)

theorem specTrace_succ {a : α} {k : ℕ} (h : Executes next stop a k) :
    specTrace next stop out (k+1) a = specTrace next stop out k a ++ [out (next^[k] a)] := by
  induction k generalizing a with
  | zero => simp [specTrace]
  | succ k ih =>
    have h0 : ¬ stop a := h 0 (by omega)
    have ht : Executes next stop (next a) k := fun j hj => h (j+1) (by omega)
    rw [specTrace, if_neg h0, ih ht, specTrace, if_neg h0]
    rfl

theorem specTrace_mono (a : α) {k n : ℕ} (h : k ≤ n) :
    specTrace next stop out k a <+: specTrace next stop out n a := by
  induction k generalizing a n with
  | zero => exact List.nil_prefix
  | succ k ih =>
    obtain ⟨m,rfl⟩ : ∃ m, n = m+1 := ⟨n-1,by omega⟩
    simp only [specTrace, List.cons_prefix_cons, true_and]
    split_ifs
    · exact List.prefix_rfl
    · exact ih (next a) (by omega)

/-- Of two prefixes of one specified trace one is a prefix of the other. -/
theorem specTrace_comparable (a : α) (m n : ℕ) {s t : List β}
    (hs : s <+: specTrace next stop out m a) (ht : t <+: specTrace next stop out n a) :
    s <+: t ∨ t <+: s := by
  have hm := hs.trans (specTrace_mono next stop out a (Nat.le_max_left m n))
  have hn := ht.trans (specTrace_mono next stop out a (Nat.le_max_right m n))
  exact List.prefix_or_prefix_of_prefix hm hn

end Trace

/-- A stuttering simulation of the specification (next, out, stop) by a machine: R relates
running states, F a state that has just halted to the specified state after the stop. -/
structure Simulation {σ ε α β : Type*} (M : Machine σ ε β) (next : α → α) (out : α → β)
    (stop : α → Prop) (R F : σ → α → Prop) : Prop where
  running : ∀ {s a}, R s a → M.running s = true
  halted : ∀ {s a}, F s a → M.running s = false
  quiet : ∀ {s s' a}, R s a → M.observe s = none → M.step s = .ok s' → R s' a
  emits : ∀ {s a b}, R s a → M.observe s = some b → b = out a
  goes : ∀ {s s' a b}, R s a → M.observe s = some b → M.step s = .ok s' → ¬ stop a →
    R s' (next a)
  stops : ∀ {s s' a b}, R s a → M.observe s = some b → M.step s = .ok s' → stop a →
    F s' (next a)

namespace Simulation
variable {σ ε α β : Type*} {M : Machine σ ε β} {next : α → α} {out : α → β}
  {stop : α → Prop} [DecidablePred stop] {R F : σ → α → Prop}

/-- A run has either executed k specified steps without stopping, or it has stopped with
the last of them. -/
theorem run_trace (hsim : Simulation M next out stop R F) {s₀ : σ} {a : α} (h0 : R s₀ a)
    {n : ℕ} {t : List β} {s : σ} (h : M.run n s₀ = .ok (t,s)) :
    ∃ k ≤ n, t = specTrace next stop out k a ∧ t.length = k ∧
      ((Executes next stop a k ∧ R s (next^[k] a)) ∨
        ∃ j, k = j+1 ∧ Executes next stop a j ∧ stop (next^[j] a) ∧ F s (next^[k] a)) := by
  induction n generalizing t s with
  | zero =>
    simp only [Machine.run, Except.ok.injEq, Prod.mk.injEq] at h
    obtain ⟨rfl,rfl⟩ := h
    exact ⟨0,le_rfl,rfl,rfl,.inl ⟨.zero a,h0⟩⟩
  | succ n ih =>
    obtain ⟨t₀,m,hrun,hcase⟩ := M.run_succ_cases h
    obtain ⟨k,hk,rfl,hl,hstate⟩ := ih hrun
    rcases hstate with ⟨hex,hR⟩ | ⟨j,rfl,hex,hstop,hF⟩
    · rcases hcase with ⟨-,hstep,rfl⟩ | ⟨hstopped,-,-⟩
      · cases hobs : M.observe m with
        | none =>
          exact ⟨k,by omega,by simp,by simpa using hl,.inl ⟨hex,hsim.quiet hR hobs hstep⟩⟩
        | some b =>
          have hb := hsim.emits hR hobs
          refine ⟨k+1,by omega,?_,by simpa using hl,?_⟩
          · rw [specTrace_succ next stop out hex, ← hb]; rfl
          · rw [Function.iterate_succ_apply']
            by_cases hs : stop (next^[k] a)
            · exact .inr ⟨k,rfl,hex,hs,hsim.stops hR hobs hstep hs⟩
            · exact .inl ⟨hex.succ hs,hsim.goes hR hobs hstep hs⟩
      · rw [hsim.running hR] at hstopped
        contradiction
    · rcases hcase with ⟨hrunning,-,-⟩ | ⟨-,rfl,rfl⟩
      · rw [hsim.halted hF] at hrunning
        contradiction
      · exact ⟨j+1,by omega,rfl,hl,.inr ⟨j,rfl,hex,hstop,hF⟩⟩

/-- The observed trace is a prefix of the specified one. -/
theorem prefix_of_run (hsim : Simulation M next out stop R F) {s₀ : σ} {a : α} (h0 : R s₀ a)
    {n : ℕ} {t : List β} {s : σ} (h : M.run n s₀ = .ok (t,s)) :
    t <+: specTrace next stop out n a := by
  obtain ⟨k,hk,rfl,-⟩ := hsim.run_trace h0 h
  exact specTrace_mono next stop out a hk

/-- When related running states never abort, no run does. -/
theorem run_total (hsim : Simulation M next out stop R F)
    (hok : ∀ s a, R s a → ∃ s', M.step s = .ok s') {s₀ : σ} {a : α} (h0 : R s₀ a) (n : ℕ) :
    ∃ t s, M.run n s₀ = .ok (t,s) := by
  induction n with
  | zero => exact ⟨_,_,rfl⟩
  | succ n ih =>
    obtain ⟨t,s,h⟩ := ih
    rw [M.run_succ h]
    split_ifs with hrun
    · obtain ⟨k,-,-,-,⟨-,hR⟩ | ⟨j,-,-,-,hF⟩⟩ := hsim.run_trace h0 h
      · obtain ⟨s',hs'⟩ := hok _ _ hR
        exact ⟨_,s',by rw [hs']⟩
      · rw [hsim.halted hF] at hrun
        contradiction
    · exact ⟨t,s,rfl⟩

omit [DecidablePred stop] in
/-- A simulation keeps any invariant of the machine's own steps. -/
theorem restrict (hsim : Simulation M next out stop R F) {P : σ → Prop}
    (hP : ∀ s s' a, R s a → P s → M.step s = .ok s' → P s') :
    Simulation M next out stop (fun s a => R s a ∧ P s) F where
  running h := hsim.running h.1
  halted h := hsim.halted h
  quiet h ho hs := ⟨hsim.quiet h.1 ho hs,hP _ _ _ h.1 h.2 hs⟩
  emits h ho := hsim.emits h.1 ho
  goes h ho hs hh := ⟨hsim.goes h.1 ho hs hh,hP _ _ _ h.1 h.2 hs⟩
  stops h ho hs hh := hsim.stops h.1 ho hs hh

end Simulation
end CaLabs.Lib
