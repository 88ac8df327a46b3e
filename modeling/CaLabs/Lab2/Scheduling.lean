import CaLabs.Lab2.MemController
import CaLabs.Lib.Runs

/-! What one cycle of the memory controller does: which request it selects, what queueing the
new misses changes, and the cycle as a whole. -/
namespace CaLabs.Lab2
open Mips

/-- A request that may be issued in this cycle. -/
structure Eligible (mc : MemController) (currentCycle : Word) (req : MemRequest) : Prop where
  valid : req.valid = true
  arrived : ¬ currentCycle < req.arrivalCycle
  schedulable : isRequestSchedulable mc req.address currentCycle = true

lemma considerRequest_cases (mc : MemController) (t : Word) (best : Option (MemRequest × ℕ))
    (entry : MemRequest × ℕ) :
    considerRequest mc t best entry = best ∨
      (considerRequest mc t best entry = some entry ∧ Eligible mc t entry.1) := by
  unfold considerRequest
  split_ifs with hskip hsched
  · exact .inl rfl
  · exact .inl rfl
  · have he : Eligible mc t entry.1 := by
      simp only [Bool.or_eq_true, Bool.not_eq_true', decide_eq_true_eq, not_or] at hskip
      exact ⟨by simpa using hskip.1,hskip.2,by simpa using hsched⟩
    cases best with
    | none => exact .inr ⟨rfl,he⟩
    | some b =>
      dsimp only
      split_ifs
      · exact .inr ⟨rfl,he⟩
      · exact .inl rfl

lemma foldl_considerRequest {mc : MemController} {t : Word} {l : List (MemRequest × ℕ)}
    {best : Option (MemRequest × ℕ)} {entry : MemRequest × ℕ}
    (h : l.foldl (considerRequest mc t) best = some entry) :
    best = some entry ∨ (entry ∈ l ∧ Eligible mc t entry.1) := by
  induction l generalizing best with
  | nil => exact .inl h
  | cons e l ih =>
    rw [List.foldl_cons] at h
    rcases ih h with hb | ⟨hm,he⟩
    · rcases considerRequest_cases mc t best e with hc | ⟨hc,he⟩
      · exact .inl (hc ▸ hb)
      · rw [hc] at hb
        obtain rfl := Option.some.inj hb
        exact .inr ⟨List.mem_cons_self,he⟩
    · exact .inr ⟨List.mem_cons_of_mem e hm,he⟩

/-- The selected request stands in the queue at the given index and may be issued. -/
theorem selectRequestToSchedule_spec {mc : MemController} {t : Word} {req : MemRequest} {j : ℕ}
    (h : selectRequestToSchedule mc t = some (req,j)) :
    mc.queue[j]? = some req ∧ Eligible mc t req := by
  rcases foldl_considerRequest h with hn | ⟨hm,he⟩
  · cases hn
  · exact ⟨List.mem_zipIdx_iff_getElem?.mp hm,he⟩

/-- What one round of the queueing loop can do. -/
lemma queueMiss_cases {t : Word} {mshrs : MshrFile} {mc : MemController} {i : Fin numMshr}
    {r : MshrFile × MemController} (h : queueMiss t (mshrs,mc) i = .ok r) :
    (isUnqueuedMiss (mshrs i) = false ∧ r = (mshrs,mc)) ∨
    (isUnqueuedMiss (mshrs i) = true ∧
      ∃ j, ∃ hj : j < mc.queue.length, mc.queue[j].valid = false ∧
        r = (Function.update mshrs i { mshrs i with fillReadyCycle := 1 },
          { mc with queue := mc.queue.set j (requestFor mshrs i t),
                    queueSize := mc.queueSize + 1 })) := by
  simp only [queueMiss] at h
  split_ifs at h with hu
  · refine .inr ⟨hu,?_⟩
    cases hf : mc.queue.findIdx? fun r => !r.valid with
    | none => simp [hf] at h
    | some j =>
      obtain ⟨hj,hp,-⟩ := List.findIdx?_eq_some_iff_getElem.mp hf
      simp only [hf, Except.ok.injEq] at h
      exact ⟨j,hj,by simpa using hp,h.symm⟩
  · exact .inl ⟨by simpa using hu,(Except.ok.inj h).symm⟩

/-- Queueing misses does not touch the banks. -/
lemma queueMisses_banks {t : Word} {mshrs mshrs' : MshrFile} {mc mc' : MemController}
    (h : queueMisses mshrs mc t = .ok (mshrs',mc')) : mc'.banks = mc.banks := by
  refine Lib.foldlM_invariant (P := fun s : MshrFile × MemController => s.2.banks = mc.banks)
    rfl ?_ h
  rintro ⟨ms,m⟩ b i - hm hb
  rcases queueMiss_cases hb with ⟨-,rfl⟩ | ⟨-,j,hj,-,rfl⟩
  · exact hm
  · exact hm

/-- One cycle of the controller in three steps. -/
lemma memoryControllerCycle_ok {mshrs mshrs' : MshrFile} {mc mc' : MemController}
    {l2cache l2cache' : Cache} {t : Word}
    (h : memoryControllerCycle mshrs mc l2cache t = .ok (mshrs',mc',l2cache')) :
    ∃ m₁ c₁, queueMisses (markFills mshrs t) mc t = .ok (m₁,c₁) ∧
      scheduleRequest m₁ c₁ t = (mshrs',mc') ∧
      l2cache' = processCompletedFills mshrs' mc' l2cache := by
  unfold memoryControllerCycle at h
  cases hq : queueMisses (markFills mshrs t) mc t with
  | error e => simp [hq, bind, Except.bind] at h
  | ok p =>
    obtain ⟨m₁,c₁⟩ := p
    simp only [hq, bind, Except.bind, Except.ok.injEq, Prod.mk.injEq] at h
    obtain ⟨rfl,rfl,rfl⟩ := h
    exact ⟨m₁,c₁,rfl,rfl,rfl⟩

/-- The first loop leaves new misses alone and makes none. -/
lemma isUnqueuedMiss_markFills {mshrs : MshrFile} {t : Word} {i : Fin numMshr}
    (h : isUnqueuedMiss (markFills mshrs t i) = true) :
    markFills mshrs t i = mshrs i ∧ isUnqueuedMiss (mshrs i) = true := by
  by_cases hf : fillIsReady (mshrs i) t = true
  · simp [markFills, hf, isUnqueuedMiss] at h
  · have he : markFills mshrs t i = mshrs i := by simp [markFills, hf]
    exact ⟨he,he ▸ h⟩

/-- In use as before, for the same block. -/
structure Mshr.SameUse (m m' : Mshr) : Prop where
  valid : m'.valid = m.valid
  address : m'.address = m.address

lemma markFills_sameUse (mshrs : MshrFile) (t : Word) (i : Fin numMshr) :
    (mshrs i).SameUse (markFills mshrs t i) := by
  unfold markFills
  split_ifs <;> exact ⟨rfl,rfl⟩

lemma update_sameUse (mshrs : MshrFile) (i j : Fin numMshr) (t : Word) : (mshrs i).SameUse
    (Function.update mshrs j { mshrs j with fillReadyCycle := t } i) := by
  by_cases he : i = j
  · subst he
    rw [Function.update_self]
    exact ⟨rfl,rfl⟩
  · rw [Function.update_of_ne he]
    exact ⟨rfl,rfl⟩

lemma Mshr.SameUse.trans {m m' m'' : Mshr} (h : m.SameUse m') (h' : m'.SameUse m'') :
    m.SameUse m'' := ⟨h'.valid.trans h.valid,h'.address.trans h.address⟩

lemma queueMisses_sameUse {t : Word} {mshrs mshrs' : MshrFile} {mc mc' : MemController}
    (h : queueMisses mshrs mc t = .ok (mshrs',mc')) (i : Fin numMshr) :
    (mshrs i).SameUse (mshrs' i) := by
  refine Lib.foldlM_invariant (P := fun s : MshrFile × MemController =>
    (mshrs i).SameUse (s.1 i)) ⟨rfl,rfl⟩ ?_ h
  rintro ⟨ms,m⟩ b k - hm hb
  rcases queueMiss_cases hb with ⟨-,rfl⟩ | ⟨-,j,hj,-,rfl⟩
  · exact hm
  · exact hm.trans (update_sameUse ms i k 1)

lemma scheduleRequest_sameUse {t : Word} {mshrs mshrs' : MshrFile} {mc mc' : MemController}
    (h : scheduleRequest mshrs mc t = (mshrs',mc')) (i : Fin numMshr) :
    (mshrs i).SameUse (mshrs' i) := by
  unfold scheduleRequest at h
  cases hs : selectRequestToSchedule mc t with
  | none =>
    simp only [hs, Prod.mk.injEq] at h
    rw [← h.1]
    exact ⟨rfl,rfl⟩
  | some entry =>
    simp only [hs, issueDramRequest, Prod.mk.injEq] at h
    rw [← h.1]
    exact update_sameUse mshrs i _ _

/-- The controller neither frees nor allocates MSHRs. -/
theorem memoryControllerCycle_sameUse {mshrs mshrs' : MshrFile} {mc mc' : MemController}
    {l2cache l2cache' : Cache} {t : Word}
    (h : memoryControllerCycle mshrs mc l2cache t = .ok (mshrs',mc',l2cache')) (i : Fin numMshr) :
    (mshrs i).SameUse (mshrs' i) := by
  obtain ⟨m₁,c₁,hq,hs,-⟩ := memoryControllerCycle_ok h
  exact (markFills_sameUse mshrs t i).trans
    ((queueMisses_sameUse hq i).trans (scheduleRequest_sameUse hs i))

/-! A controller with an empty queue and no new misses. -/

lemma foldlM_queueMiss_idle {mshrs : MshrFile} {l : List (Fin numMshr)}
    (h : ∀ i ∈ l, isUnqueuedMiss (mshrs i) = false) (mc : MemController) (t : Word) :
    l.foldlM (queueMiss t) (mshrs,mc) = .ok (mshrs,mc) := by
  induction l with
  | nil => rfl
  | cons i l ih =>
    have hi : queueMiss t (mshrs,mc) i = .ok (mshrs,mc) := by
      simp [queueMiss, h i List.mem_cons_self]
    rw [List.foldlM_cons, hi]
    exact ih fun k hk => h k (List.mem_cons_of_mem i hk)

lemma queueMisses_idle {mshrs : MshrFile} (h : ∀ i, isUnqueuedMiss (mshrs i) = false)
    (mc : MemController) (t : Word) : queueMisses mshrs mc t = .ok (mshrs,mc) :=
  foldlM_queueMiss_idle (fun i _ => h i) mc t

lemma selectRequestToSchedule_idle {mc : MemController}
    (h : ∀ q ∈ mc.queue, q.valid = false) (t : Word) : selectRequestToSchedule mc t = none := by
  cases hs : selectRequestToSchedule mc t with
  | none => rfl
  | some entry =>
    obtain ⟨req,j⟩ := entry
    obtain ⟨hj,helig⟩ := selectRequestToSchedule_spec hs
    have hv := helig.valid
    rw [h req (List.mem_of_getElem? hj)] at hv
    cases hv

lemma processCompletedFills_idle (mshrs : MshrFile) {mc : MemController}
    (h : ∀ q ∈ mc.queue, q.valid = false) (l2cache : Cache) :
    processCompletedFills mshrs mc l2cache = l2cache := by
  have hfold : ∀ l : List MemRequest, (∀ q ∈ l, q.valid = false) →
      l.foldl (fun l2cache r => if r.valid && (mshrs r.mshr).done then
        insertL2Block l2cache r.address else l2cache) l2cache = l2cache := by
    intro l hl
    induction l with
    | nil => rfl
    | cons q l ih =>
      rw [List.foldl_cons, hl q List.mem_cons_self, Bool.false_and, if_neg Bool.false_ne_true]
      exact ih fun r hr => hl r (List.mem_cons_of_mem q hr)
  exact hfold _ h

/-- Nothing to mark, to queue or to issue. -/
lemma memoryControllerCycle_idle {mshrs : MshrFile} {mc : MemController} {t : Word}
    (hq : ∀ r ∈ mc.queue, r.valid = false) (hready : ∀ i, fillIsReady (mshrs i) t = false)
    (hnew : ∀ i, isUnqueuedMiss (mshrs i) = false) (l2cache : Cache) :
    memoryControllerCycle mshrs mc l2cache t = .ok (mshrs,mc,l2cache) := by
  have hmark : markFills mshrs t = mshrs := by
    funext i
    simp only [markFills, hready i, Bool.false_eq_true, if_false]
  simp only [memoryControllerCycle, hmark, queueMisses_idle hnew, scheduleRequest,
    selectRequestToSchedule_idle hq, processCompletedFills_idle _ hq, bind, Except.bind]

/-! A controller with an empty queue and one new miss that can be issued at once. -/

section Prompt
variable {mshrs : MshrFile} {mc : MemController} {t : Word} {i : Fin numMshr} {j : ℕ}

/-- The only new miss goes to the first free place of the queue. -/
lemma queueMisses_single (hi : isUnqueuedMiss (mshrs i) = true)
    (honly : ∀ k, isUnqueuedMiss (mshrs k) = true → k = i)
    (hj : (mc.queue.findIdx? fun r => !r.valid) = some j) :
    queueMisses mshrs mc t = .ok (Function.update mshrs i { mshrs i with fillReadyCycle := 1 },
      { mc with queue := mc.queue.set j (requestFor mshrs i t),
                queueSize := mc.queueSize + 1 }) := by
  obtain ⟨l₁,l₂,hl⟩ := List.append_of_mem (List.mem_finRange i)
  have hnodup := List.nodup_finRange numMshr
  rw [hl] at hnodup
  have hout : ∀ k, k ∈ l₁ ∨ k ∈ l₂ → k ≠ i := by
    rintro k hk rfl
    have hn := List.nodup_middle.mp hnodup
    exact (List.nodup_cons.mp hn).1 (List.mem_append.mpr hk)
  have hbefore : ∀ k ∈ l₁, isUnqueuedMiss (mshrs k) = false := fun k hk => by
    by_contra hne
    exact hout k (.inl hk) (honly k (by simpa using hne))
  have hafter : ∀ k ∈ l₂, isUnqueuedMiss (Function.update mshrs i
      { mshrs i with fillReadyCycle := 1 } k) = false := fun k hk => by
    rw [Function.update_of_ne (hout k (.inr hk))]
    by_contra hne
    exact hout k (.inr hk) (honly k (by simpa using hne))
  have hq : queueMiss t (mshrs,mc) i =
      .ok (Function.update mshrs i { mshrs i with fillReadyCycle := 1 },
        { mc with queue := mc.queue.set j (requestFor mshrs i t),
                  queueSize := mc.queueSize + 1 }) := by
    simp only [queueMiss, hi, hj, if_true]
  rw [queueMisses, hl, List.foldlM_append, foldlM_queueMiss_idle hbefore]
  simp only [bind, Except.bind, List.foldlM_cons, hq]
  exact foldlM_queueMiss_idle hafter _ t

lemma considerRequest_isSome {best : Option (MemRequest × ℕ)} {entry : MemRequest × ℕ}
    (h : best.isSome = true ∨ Eligible mc t entry.1) :
    (considerRequest mc t best entry).isSome = true := by
  unfold considerRequest
  cases best with
  | some b => split_ifs <;> try rfl
              all_goals dsimp only; split_ifs <;> rfl
  | none =>
    obtain ⟨hv,ha,hs⟩ := h.resolve_left Bool.false_ne_true
    simp [hv, ha, hs]

/-- An eligible request is not passed over unless another one is selected. -/
lemma foldl_considerRequest_isSome {l : List (MemRequest × ℕ)} {best : Option (MemRequest × ℕ)}
    (h : best.isSome = true ∨ ∃ entry ∈ l, Eligible mc t entry.1) :
    (l.foldl (considerRequest mc t) best).isSome = true := by
  induction l generalizing best with
  | nil =>
    rcases h with h | ⟨entry,hm,-⟩
    · exact h
    · cases hm
  | cons e l ih =>
    rw [List.foldl_cons]
    apply ih
    rcases h with h | ⟨entry,hm,he⟩
    · exact .inl (considerRequest_isSome (.inl h))
    · rcases List.mem_cons.mp hm with rfl | hm
      · exact .inl (considerRequest_isSome (.inr he))
      · exact .inr ⟨entry,hm,he⟩

/-- The only valid request is selected when it is eligible. -/
lemma selectRequestToSchedule_single {req : MemRequest} (hj : mc.queue[j]? = some req)
    (honly : ∀ k r, mc.queue[k]? = some r → r.valid = true → k = j) (he : Eligible mc t req) :
    selectRequestToSchedule mc t = some (req,j) := by
  have hsome : (selectRequestToSchedule mc t).isSome = true :=
    foldl_considerRequest_isSome (.inr ⟨(req,j),List.mem_zipIdx_iff_getElem?.mpr hj,he⟩)
  obtain ⟨⟨r,k⟩,hs⟩ := Option.isSome_iff_exists.mp hsome
  obtain ⟨hk,hr⟩ := selectRequestToSchedule_spec hs
  obtain rfl := honly k r hk hr.valid
  rw [hk] at hj
  rw [hs, Option.some.inj hj]

end Prompt
end CaLabs.Lab2
