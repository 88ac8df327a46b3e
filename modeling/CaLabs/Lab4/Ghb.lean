import Mathlib.Data.BitVec
import Mathlib.Data.List.Infix
import Mathlib.Tactic.Ring

/-! The global history buffer of lab 4: linked pointers of 12 bits into 256 slots, against the
history of the accesses themselves. -/
namespace CaLabs.Lab4.Ghb

abbrev itSz : ℕ := 256
abbrev ghbSz : ℕ := 256
abbrev invalidPtr : ℕ := 0xFFFF
abbrev ptrValues : ℕ := 4096
abbrev historyLength : ℕ := 2
abbrev prefetchDistance : ℕ := 4

structure GHBEntry where
  block : BitVec 64 := 0
  fullPtr : ℕ := invalidPtr
  prev : ℕ := invalidPtr
  pcTag : ℕ := 0
  deriving DecidableEq, Repr

structure ITEntry where
  ghbPtr : ℕ := invalidPtr
  tag : ℕ := 0
  valid : Bool := false
  deriving DecidableEq, Repr

/-- Both tables and head_counter, as prefetcher_initialize leaves them. -/
structure Tables where
  it : ℕ → ITEntry := fun _ => {}
  ghb : ℕ → GHBEntry := fun _ => {}
  headCounter : ℕ := 0

/-- The arguments of prefetcher_cache_operate that it uses. -/
structure Access where
  addr : BitVec 64
  ip : BitVec 64
  deriving DecidableEq, Repr

namespace Access

def block (a : Access) : BitVec 64 := a.addr >>> 6
def index (a : Access) : ℕ := a.ip.toNat % itSz
def tag (a : Access) : ℕ := a.ip.toNat / itSz % 256

end Access

namespace Tables
variable (t : Tables)

/-- head_counter - pointer modulo the number of pointer values. -/
def distance (pointer : ℕ) : ℤ := ((t.headCounter : ℤ) - pointer) % ptrValues

def pointerValid (pointer tag : ℕ) : Bool :=
  if pointer = invalidPtr then false
  else if t.distance pointer > ghbSz then false
  else if (t.ghb (pointer % ghbSz)).fullPtr ≠ pointer then false
  else (t.ghb (pointer % ghbSz)).pcTag = tag

def sanitizePointer (pointer tag : ℕ) : ℕ :=
  if t.pointerValid pointer tag then pointer else invalidPtr

/-- prev_ptr of an access. -/
def prevPtr (a : Access) : ℕ :=
  let entry := t.it a.index
  if entry.valid ∧ entry.tag = a.tag then t.sanitizePointer entry.ghbPtr a.tag else invalidPtr

/-- The walk through the buffer, with the free places of the history array. -/
def walk (tag : ℕ) : ℕ → ℕ → List (BitVec 64)
  | 0,_ => []
  | n+1,walker =>
    if t.pointerValid walker tag then
      let entry := t.ghb (walker % ghbSz)
      entry.block :: walk tag n (t.sanitizePointer entry.prev tag)
    else []

/-- The history array of an access. -/
def history (a : Access) : List (BitVec 64) := t.walk a.tag historyLength (t.prevPtr a)

/-- The update of both tables. -/
def record (a : Access) : Tables where
  ghb := Function.update t.ghb (t.headCounter % ghbSz)
    { block := a.block, fullPtr := t.headCounter,
      prev := t.sanitizePointer (t.prevPtr a) a.tag, pcTag := a.tag }
  it := Function.update t.it a.index { ghbPtr := t.headCounter, tag := a.tag, valid := true }
  headCounter := (t.headCounter + 1) % ptrValues

end Tables

/-- The addresses that an access prefetches, up to the first negative block. -/
def prefetches (degree : ℕ) (block : BitVec 64) (history : List (BitVec 64)) :
    List (BitVec 64) :=
  match history with
  | h0 :: h1 :: _ =>
    let stride1 := block - h0
    let stride2 := h0 - h1
    if stride1 = stride2 ∧ stride1 ≠ 0 then
      let pfBlocks := (List.range degree).map fun i =>
        block + stride1 * BitVec.ofNat 64 (prefetchDistance + i)
      (pfBlocks.takeWhile fun pfBlock => !pfBlock.slt 0).map fun (pfBlock : BitVec 64) =>
        pfBlock <<< 6
    else []
  | _ => []

/-- ghb_pccs::prefetcher_cache_operate: the prefetched addresses and the new tables. -/
def ghbPccsCacheOperate (degree : ℕ) (t : Tables) (a : Access) : List (BitVec 64) × Tables :=
  (prefetches degree a.block (t.history a),t.record a)

/-- The ghb of the hybrid prefetcher. -/
structure HybridGhb where
  tables : Tables := {}
  pendingPrefetches : List (BitVec 64) := []
  hybridMode : Bool := false

/-- ghb::prefetcher_cache_operate: in hybrid mode the prefetches are left to the hybrid. -/
def ghbCacheOperate (degree : ℕ) (s : HybridGhb) (a : Access) :
    List (BitVec 64) × HybridGhb :=
  let addresses := prefetches degree a.block (s.tables.history a)
  let s := { s with tables := s.tables.record a }
  if s.hybridMode then ([],{ s with pendingPrefetches := addresses })
  else (addresses,{ s with pendingPrefetches := [] })

/-- The tables after some accesses, the newest first. -/
def tablesAfter : List Access → Tables
  | [] => {}
  | a :: past => (tablesAfter past).record a

/-- Another access goes to the same entry of the index table. -/
def SameKey (a x : Access) : Prop := x.index = a.index ∧ x.tag = a.tag

instance (a x : Access) : Decidable (SameKey a x) := inferInstanceAs (Decidable (_ ∧ _))

/-- The blocks of the last two accesses with the same index and tag, newest first, among the
last 256 accesses and after the last one with that index and another tag. -/
def realHistory (past : List Access) (a : Access) : List (BitVec 64) :=
  ((((past.take ghbSz).takeWhile fun x => !(decide (x.index = a.index) && decide (x.tag ≠ a.tag))).filter
    fun x => SameKey a x).map (·.block)).take historyLength

/-- The last access with the same index had the same tag and is too old, but its pointer is
also that of a recent access with that tag. -/
def Aliases (past : List Access) (a : Access) : Prop :=
  ∃ l₁ x l₂, past = l₁ ++ x :: l₂ ∧ (∀ y ∈ l₁, y.index ≠ a.index) ∧ SameKey a x ∧
    ghbSz ≤ l₁.length ∧ l₁.length % ptrValues < ghbSz ∧
    ∃ y, l₁[l₁.length % ptrValues]? = some y ∧ y.tag = a.tag

/-! What the tables hold. -/

lemma slot_of_ptr (n : ℕ) : n % ptrValues % ghbSz = n % ghbSz :=
  Nat.mod_mod_of_dvd n (by decide)

lemma headCounter_tablesAfter (past : List Access) :
    (tablesAfter past).headCounter = past.length % ptrValues := by
  induction past with
  | nil => rfl
  | cons a past ih =>
    change ((tablesAfter past).headCounter + 1) % ptrValues = _
    rw [ih, List.length_cons, Nat.mod_add_mod]

lemma ghb_record (t : Tables) (a : Access) : (t.record a).ghb =
    Function.update t.ghb (t.headCounter % ghbSz)
      { block := a.block, fullPtr := t.headCounter,
        prev := t.sanitizePointer (t.prevPtr a) a.tag, pcTag := a.tag } := rfl

lemma it_record (t : Tables) (a : Access) : (t.record a).it =
    Function.update t.it a.index { ghbPtr := t.headCounter, tag := a.tag, valid := true } := rfl

/-- The slot of one of the last 256 accesses. -/
lemma ghb_tablesAfter (l₁ : List Access) (x : Access) (l₂ : List Access)
    (h : l₁.length < ghbSz) :
    (tablesAfter (l₁ ++ x :: l₂)).ghb (l₂.length % ghbSz) =
      { block := x.block, fullPtr := l₂.length % ptrValues,
        prev := (tablesAfter l₂).sanitizePointer ((tablesAfter l₂).prevPtr x) x.tag,
        pcTag := x.tag } := by
  induction l₁ with
  | nil =>
    rw [List.nil_append, tablesAfter, ghb_record, headCounter_tablesAfter, slot_of_ptr,
      Function.update_self]
  | cons y l₁ ih =>
    rw [List.length_cons] at h
    have hne : l₂.length % ghbSz ≠ (tablesAfter (l₁ ++ x :: l₂)).headCounter % ghbSz := by
      rw [headCounter_tablesAfter, slot_of_ptr, List.length_append, List.length_cons]
      simp only [ghbSz] at h ⊢
      omega
    rw [List.cons_append, tablesAfter, ghb_record, Function.update_of_ne hne]
    exact ih (Nat.lt_of_succ_lt h)

/-- The index table points to the last access with the index. -/
lemma it_tablesAfter (l₁ : List Access) (x : Access) (l₂ : List Access)
    (h : ∀ y ∈ l₁, y.index ≠ x.index) :
    (tablesAfter (l₁ ++ x :: l₂)).it x.index =
      { ghbPtr := l₂.length % ptrValues, tag := x.tag, valid := true } := by
  induction l₁ with
  | nil =>
    rw [List.nil_append, tablesAfter, it_record, headCounter_tablesAfter, Function.update_self]
  | cons y l₁ ih =>
    rw [List.cons_append, tablesAfter, it_record,
      Function.update_of_ne (h y List.mem_cons_self).symm]
    exact ih fun z hz => h z (List.mem_cons_of_mem y hz)

lemma it_tablesAfter_invalid {past : List Access} {index : ℕ}
    (h : ∀ y ∈ past, y.index ≠ index) : ((tablesAfter past).it index).valid = false := by
  induction past with
  | nil => rfl
  | cons y past ih =>
    rw [tablesAfter, it_record, Function.update_of_ne (h y List.mem_cons_self).symm]
    exact ih fun z hz => h z (List.mem_cons_of_mem y hz)

lemma pointerValid_invalidPtr (t : Tables) (tag : ℕ) : t.pointerValid invalidPtr tag = false :=
  if_pos rfl

/-- The pointer of a recent access is valid for its tag. -/
lemma pointerValid_recent (l₁ : List Access) (x : Access) (l₂ : List Access) (tag : ℕ)
    (h : l₁.length < ghbSz) :
    (tablesAfter (l₁ ++ x :: l₂)).pointerValid (l₂.length % ptrValues) tag =
      decide (x.tag = tag) := by
  have hptr : l₂.length % ptrValues ≠ invalidPtr := by
    simp only [ptrValues, invalidPtr]
    omega
  have hdist : ¬(tablesAfter (l₁ ++ x :: l₂)).distance (l₂.length % ptrValues) > ghbSz := by
    rw [Tables.distance, headCounter_tablesAfter, List.length_append, List.length_cons]
    simp only [ptrValues, ghbSz] at h ⊢
    push_cast
    omega
  rw [Tables.pointerValid, slot_of_ptr, ghb_tablesAfter l₁ x l₂ h, if_neg hptr, if_neg hdist,
    if_neg (by simp)]

/-- The pointer of an older access is taken for that of a recent one. -/
lemma pointerValid_old (l₁ : List Access) (x : Access) (l₂ : List Access) (tag : ℕ)
    (h : ghbSz ≤ l₁.length) :
    (tablesAfter (l₁ ++ x :: l₂)).pointerValid (l₂.length % ptrValues) tag = true ↔
      l₁.length % ptrValues < ghbSz ∧
        ∃ y, l₁[l₁.length % ptrValues]? = some y ∧ y.tag = tag := by
  -- the recent access in the slot of the pointer
  set j := l₁.length % ghbSz with hj
  have hlt : j < l₁.length := lt_of_lt_of_le (Nat.mod_lt _ (by decide)) h
  obtain ⟨m₁,y,m₂,hsplit,hlen⟩ : ∃ m₁ y m₂, l₁ = m₁ ++ y :: m₂ ∧ m₁.length = j :=
    ⟨l₁.take j,l₁[j],l₁.drop (j+1),by simp,List.length_take_of_le hlt.le⟩
  have hj256 : m₁.length < ghbSz := hlen ▸ Nat.mod_lt _ (by decide)
  have hwhole : l₁ ++ x :: l₂ = m₁ ++ y :: (m₂ ++ x :: l₂) := by
    rw [hsplit, List.append_assoc, List.cons_append]
  have hlen₁ : l₁.length = m₁.length + 1 + m₂.length := by
    rw [hsplit, List.length_append, List.length_cons]
    omega
  have hlen₂ : (m₂ ++ x :: l₂).length = m₂.length + 1 + l₂.length := by
    rw [List.length_append, List.length_cons]
    omega
  have hslot : l₂.length % ghbSz = (m₂ ++ x :: l₂).length % ghbSz := by
    simp only [ghbSz] at *
    omega
  have hy : l₁[m₁.length]? = some y := by
    rw [hsplit]
    simp
  by_cases hsame : l₁.length % ptrValues < ghbSz
  · have hidx : l₁.length % ptrValues = m₁.length := by
      simp only [ghbSz, ptrValues] at *
      omega
    have hptr : l₂.length % ptrValues = (m₂ ++ x :: l₂).length % ptrValues := by
      simp only [ghbSz, ptrValues] at *
      omega
    rw [hwhole, hptr, pointerValid_recent m₁ y _ tag hj256, hidx, hy, decide_eq_true_iff]
    constructor
    · exact fun ht => ⟨hj256,y,rfl,ht⟩
    · rintro ⟨-,y',hy',ht⟩
      rw [Option.some.inj hy']
      exact ht
  · refine iff_of_false ?_ fun hc => hsame hc.1
    have hne : (m₂ ++ x :: l₂).length % ptrValues ≠ l₂.length % ptrValues := by
      simp only [ghbSz, ptrValues] at *
      omega
    rw [hwhole, Tables.pointerValid, slot_of_ptr, hslot, ghb_tablesAfter m₁ y _ hj256,
      if_pos hne]
    split_ifs <;> simp

/-! The history of the accesses themselves. -/

section Real
variable {a : Access}

/-- The accesses of the same index-table entry, down to one with another tag. -/
def sameKeys (a : Access) (l : List Access) : List Access :=
  (l.takeWhile fun x => !(decide (x.index = a.index) && decide (x.tag ≠ a.tag))).filter
    fun x => SameKey a x

lemma sameKeys_of_absent {l : List Access} (h : ∀ y ∈ l, y.index ≠ a.index) :
    sameKeys a l = [] := by
  rw [sameKeys, List.filter_eq_nil_iff]
  intro y hy
  have hne := h y ((List.takeWhile_sublist _).subset hy)
  simp [SameKey, hne]

lemma sameKeys_append (l₁ : List Access) {x : Access} (l₂ : List Access)
    (h : ∀ y ∈ l₁, y.index ≠ a.index) (hx : x.index = a.index) :
    sameKeys a (l₁ ++ x :: l₂) = if x.tag = a.tag then x :: sameKeys a l₂ else [] := by
  induction l₁ with
  | nil =>
    by_cases ht : x.tag = a.tag
    · simp [sameKeys, SameKey, hx, ht]
    · simp [sameKeys, hx, ht]
  | cons y l₁ ih =>
    have hy := h y List.mem_cons_self
    rw [← ih fun z hz => h z (List.mem_cons_of_mem y hz)]
    simp [sameKeys, SameKey, hy]

/-- The last access with the index, if there is one. -/
lemma exists_last (index : ℕ) (past : List Access) : (∀ y ∈ past, y.index ≠ index) ∨
    ∃ l₁ x l₂, past = l₁ ++ x :: l₂ ∧ (∀ y ∈ l₁, y.index ≠ index) ∧ x.index = index := by
  induction past with
  | nil => exact .inl fun y hy => (by cases hy)
  | cons y past ih =>
    by_cases hy : y.index = index
    · exact .inr ⟨[],y,past,rfl,fun z hz => (by cases hz),hy⟩
    · rcases ih with h | ⟨l₁,x,l₂,rfl,h,hx⟩
      · exact .inl (List.forall_mem_cons.mpr ⟨hy,h⟩)
      · exact .inr ⟨y :: l₁,x,l₂,rfl,List.forall_mem_cons.mpr ⟨hy,h⟩,hx⟩

lemma sameKeys_take (l₁ : List Access) {x : Access} (l₂ : List Access) (m : ℕ)
    (h : ∀ y ∈ l₁, y.index ≠ a.index) (hx : x.index = a.index) :
    sameKeys a ((l₁ ++ x :: l₂).take m) =
      if l₁.length < m ∧ x.tag = a.tag then x :: sameKeys a (l₂.take (m - 1 - l₁.length))
      else [] := by
  by_cases hlt : l₁.length < m
  · have htake : (l₁ ++ x :: l₂).take m = l₁ ++ x :: l₂.take (m - 1 - l₁.length) := by
      rw [List.take_append, List.take_of_length_le hlt.le]
      obtain ⟨k,hk⟩ : ∃ k, m - l₁.length = k + 1 := ⟨m - l₁.length - 1,by omega⟩
      rw [hk, List.take_succ_cons, show m - 1 - l₁.length = k by omega]
    rw [htake, sameKeys_append l₁ _ h hx]
    simp [hlt]
  · rw [List.take_append_of_le_length (not_lt.mp hlt), if_neg fun hc => hlt hc.1]
    exact sameKeys_of_absent fun y hy => h y (List.mem_of_mem_take hy)

lemma realHistory_eq (past : List Access) (a : Access) :
    realHistory past a = ((sameKeys a (past.take ghbSz)).map (·.block)).take historyLength := rfl

end Real

/-- The pointer that an access starts from: to the last access with its index and tag, if that
pointer is still valid. -/
lemma prevPtr_tablesAfter (l₁ : List Access) {x : Access} (l₂ : List Access) {a : Access}
    (h : ∀ y ∈ l₁, y.index ≠ a.index) (hx : x.index = a.index) :
    (tablesAfter (l₁ ++ x :: l₂)).prevPtr a =
      if x.tag = a.tag then
        (tablesAfter (l₁ ++ x :: l₂)).sanitizePointer (l₂.length % ptrValues) a.tag
      else invalidPtr := by
  rw [Tables.prevPtr, ← hx, it_tablesAfter l₁ x l₂ (hx ▸ h)]
  simp

lemma prevPtr_of_absent {past : List Access} {a : Access} (h : ∀ y ∈ past, y.index ≠ a.index) :
    (tablesAfter past).prevPtr a = invalidPtr := by
  rw [Tables.prevPtr, it_tablesAfter_invalid h]
  simp

lemma walk_invalidPtr (t : Tables) (tag n : ℕ) : t.walk tag n invalidPtr = [] := by
  cases n with
  | zero => rfl
  | succ n => rw [Tables.walk, pointerValid_invalidPtr, if_neg Bool.false_ne_true]

lemma walk_sanitizePointer (t : Tables) (tag n pointer : ℕ) :
    t.walk tag n (t.sanitizePointer pointer tag) = t.walk tag n pointer := by
  rw [Tables.sanitizePointer]
  split_ifs with h
  · rfl
  · rw [walk_invalidPtr]
    cases n with
    | zero => rfl
    | succ n => rw [Tables.walk, if_neg h]

/-- With an alias the history has a block where the real one is empty. -/
lemma history_ne_of_aliases {past : List Access} {a : Access} (h : Aliases past a) :
    realHistory past a = [] ∧ (tablesAfter past).history a ≠ [] := by
  obtain ⟨l₁,x,l₂,rfl,habsent,⟨hx,ht⟩,hge,hmod,y,hy,hty⟩ := h
  constructor
  · rw [realHistory_eq, List.take_append_of_le_length hge,
      sameKeys_of_absent fun y hy => habsent y (List.mem_of_mem_take hy)]
    rfl
  · have hvalid := (pointerValid_old l₁ x l₂ a.tag hge).mpr ⟨hmod,y,hy,hty⟩
    rw [Tables.history, prevPtr_tablesAfter l₁ l₂ habsent hx, if_pos ht, walk_sanitizePointer,
      Tables.walk, if_pos hvalid]
    exact List.cons_ne_nil _ _

lemma sanitizePointer_invalidPtr (t : Tables) (tag : ℕ) :
    t.sanitizePointer invalidPtr tag = invalidPtr := by
  rw [Tables.sanitizePointer, ite_self]

/-- The pointer of the last access with the index, when it is no alias. -/
lemma prevPtr_of_not_aliases (l₁ : List Access) {x : Access} (l₂ : List Access) {a : Access}
    (h : ∀ y ∈ l₁, y.index ≠ a.index) (hx : x.index = a.index)
    (hno : ¬Aliases (l₁ ++ x :: l₂) a) :
    (tablesAfter (l₁ ++ x :: l₂)).prevPtr a =
      if l₁.length < ghbSz ∧ x.tag = a.tag then l₂.length % ptrValues else invalidPtr := by
  rw [prevPtr_tablesAfter l₁ l₂ h hx, Tables.sanitizePointer]
  by_cases ht : x.tag = a.tag
  · by_cases hlt : l₁.length < ghbSz
    · have hlast : l₁.length < ghbSz ∧ x.tag = a.tag := ⟨hlt,ht⟩
      rw [if_pos ht, if_pos hlast, pointerValid_recent l₁ x l₂ a.tag hlt,
        if_pos (decide_eq_true ht)]
    · have hinvalid : ¬(tablesAfter (l₁ ++ x :: l₂)).pointerValid (l₂.length % ptrValues) a.tag =
          true := by
        rw [pointerValid_old l₁ x l₂ a.tag (not_lt.mp hlt)]
        rintro ⟨hmod,y,hy,hty⟩
        exact hno ⟨l₁,x,l₂,rfl,h,⟨hx,ht⟩,not_lt.mp hlt,hmod,y,hy,hty⟩
      rw [if_pos ht, if_neg hinvalid, if_neg fun hc => hlt hc.1]
  · rw [if_neg ht, if_neg fun hc => ht hc.2]

/-- The second step of the walk: from a recent access to the one before it. -/
lemma walk_prev (l₁ : List Access) {x : Access} (l₂ : List Access) {a : Access}
    (hx : SameKey a x) (hlt : l₁.length < ghbSz) (hno : ¬Aliases l₂ x) :
    (tablesAfter (l₁ ++ x :: l₂)).walk a.tag 1
        ((tablesAfter l₂).sanitizePointer ((tablesAfter l₂).prevPtr x) x.tag) =
      ((sameKeys a (l₂.take (ghbSz - 1 - l₁.length))).map (·.block)).take 1 := by
  obtain ⟨hindex,htag⟩ := hx
  rcases exists_last a.index l₂ with habsent | ⟨k₁,z,k₂,rfl,habsent,hz⟩
  · have hprev : (tablesAfter l₂).prevPtr x = invalidPtr :=
      prevPtr_of_absent (hindex ▸ habsent)
    rw [hprev, sanitizePointer_invalidPtr, walk_invalidPtr,
      sameKeys_of_absent fun y hy => habsent y (List.mem_of_mem_take hy)]
    rfl
  · rw [prevPtr_of_not_aliases k₁ k₂ (hindex ▸ habsent) (hz.trans hindex.symm) hno,
      sameKeys_take k₁ k₂ _ habsent hz, htag]
    by_cases hk : k₁.length < ghbSz ∧ z.tag = a.tag
    · obtain ⟨hk,hzt⟩ := hk
      have hvalid : (tablesAfter (k₁ ++ z :: k₂)).sanitizePointer (k₂.length % ptrValues) a.tag =
          k₂.length % ptrValues := by
        rw [Tables.sanitizePointer, pointerValid_recent k₁ z k₂ a.tag hk,
          if_pos (decide_eq_true hzt)]
      have hwhole : l₁ ++ x :: (k₁ ++ z :: k₂) = (l₁ ++ x :: k₁) ++ z :: k₂ := by
        rw [List.append_assoc, List.cons_append]
      have hlen : (l₁ ++ x :: k₁).length = l₁.length + 1 + k₁.length := by
        rw [List.length_append, List.length_cons]
        omega
      rw [if_pos ⟨hk,hzt⟩, hvalid, hwhole, Tables.walk]
      by_cases hnear : (l₁ ++ x :: k₁).length < ghbSz
      · have hin : k₁.length < ghbSz - 1 - l₁.length ∧ z.tag = a.tag := ⟨by omega,hzt⟩
        rw [pointerValid_recent _ z k₂ a.tag hnear, if_pos (decide_eq_true hzt), if_pos hin,
          slot_of_ptr, ghb_tablesAfter _ z k₂ hnear]
        rfl
      · have hfar : ¬(tablesAfter ((l₁ ++ x :: k₁) ++ z :: k₂)).pointerValid
            (k₂.length % ptrValues) a.tag = true := by
          rw [pointerValid_old _ z k₂ a.tag (not_lt.mp hnear)]
          rintro ⟨hmod,-⟩
          simp only [ghbSz, ptrValues] at *
          omega
        rw [if_neg hfar, if_neg fun hc => hnear (by have h1 := hc.1; omega)]
        rfl
    · rw [if_neg hk, sanitizePointer_invalidPtr, walk_invalidPtr,
        if_neg fun hc => hk ⟨by have h1 := hc.1; omega,hc.2⟩]
      rfl

/-- Without an alias now or before, the history is the real one. -/
lemma history_of_not_aliases {past : List Access} {a : Access} (hno : ¬Aliases past a)
    (hbefore : ∀ l₁ x l₂, past = l₁ ++ x :: l₂ → ¬Aliases l₂ x) :
    (tablesAfter past).history a = realHistory past a := by
  rw [realHistory_eq, Tables.history]
  rcases exists_last a.index past with habsent | ⟨l₁,x,l₂,rfl,habsent,hx⟩
  · rw [prevPtr_of_absent habsent, walk_invalidPtr,
      sameKeys_of_absent fun y hy => habsent y (List.mem_of_mem_take hy)]
    rfl
  · rw [prevPtr_of_not_aliases l₁ l₂ habsent hx hno, sameKeys_take l₁ l₂ _ habsent hx]
    by_cases hlast : l₁.length < ghbSz ∧ x.tag = a.tag
    · obtain ⟨hlt,ht⟩ := hlast
      rw [if_pos ⟨hlt,ht⟩, if_pos ⟨hlt,ht⟩, Tables.walk,
        pointerValid_recent l₁ x l₂ a.tag hlt, if_pos (decide_eq_true ht), slot_of_ptr,
        ghb_tablesAfter l₁ x l₂ hlt]
      dsimp only
      rw [walk_sanitizePointer, walk_prev l₁ l₂ ⟨hx,ht⟩ hlt (hbefore l₁ x l₂ rfl)]
      rfl
    · rw [if_neg hlast, if_neg hlast, walk_invalidPtr]
      rfl

/-- Over a run the history is always the real one exactly if no access aliases. -/
lemma history_run_iff (accesses : List Access) :
    (∀ a past, a :: past <:+ accesses → (tablesAfter past).history a = realHistory past a) ↔
      ∀ a past, a :: past <:+ accesses → ¬Aliases past a := by
  constructor
  · intro h a past hs halias
    obtain ⟨hreal,hne⟩ := history_ne_of_aliases halias
    exact hne ((h a past hs).trans hreal)
  · intro h a past hs
    refine history_of_not_aliases (h a past hs) fun l₁ x l₂ hpast => h x l₂ ?_
    have hsuffix : x :: l₂ <:+ a :: past :=
      hpast ▸ (List.suffix_append l₁ (x :: l₂)).trans (List.suffix_cons a _)
    exact hsuffix.trans hs

/-- The tables of ghb_pccs after the accesses, the degree before each of them given. -/
def ghbPccsAfter (degree : ℕ → ℕ) : List Access → Tables
  | [] => {}
  | a :: past => (ghbPccsCacheOperate (degree past.length) (ghbPccsAfter degree past) a).2

/-- The hybrid's ghb after the accesses, in either mode. -/
def ghbAfter (degree : ℕ → ℕ) (hybridMode : Bool) : List Access → HybridGhb
  | [] => { hybridMode := hybridMode }
  | a :: past => (ghbCacheOperate (degree past.length) (ghbAfter degree hybridMode past) a).2

lemma ghbPccsAfter_eq (degree : ℕ → ℕ) (past : List Access) :
    ghbPccsAfter degree past = tablesAfter past := by
  induction past with
  | nil => rfl
  | cons a past ih => rw [ghbPccsAfter, ih, tablesAfter, ghbPccsCacheOperate]

lemma ghbAfter_tables (degree : ℕ → ℕ) (hybridMode : Bool) (past : List Access) :
    (ghbAfter degree hybridMode past).tables = tablesAfter past := by
  induction past with
  | nil => rfl
  | cons a past ih =>
    rw [ghbAfter, tablesAfter, ← ih, ghbCacheOperate]
    split_ifs <;> rfl

/-- In every run of either prefetcher every access sees its real history exactly if no access
aliases. -/
theorem history_real_iff (degree : ℕ → ℕ) (hybridMode : Bool) (accesses : List Access) :
    ((∀ a past, a :: past <:+ accesses →
        (ghbPccsAfter degree past).history a = realHistory past a) ↔
      ∀ a past, a :: past <:+ accesses → ¬Aliases past a) ∧
    ((∀ a past, a :: past <:+ accesses →
        (ghbAfter degree hybridMode past).tables.history a = realHistory past a) ↔
      ∀ a past, a :: past <:+ accesses → ¬Aliases past a) := by
  simp only [ghbPccsAfter_eq, ghbAfter_tables]
  exact ⟨history_run_iff accesses,history_run_iff accesses⟩

/-- An access at index 5, another 4095 times, one at index 9 with the tag of the first, and the
first one again. -/
def aliasingAccess : Access := ⟨0,0x0705⟩
def aliasingPast : List Access :=
  ⟨0x40,0x0709⟩ :: (List.replicate 4095 ⟨0x80,0x0301⟩ ++ [aliasingAccess])

/-- The first access is too far back, but the pointer to it is valid again. -/
theorem aliasingPast_history :
    realHistory aliasingPast aliasingAccess = [] ∧
      (ghbPccsAfter (fun _ => 6) aliasingPast).history aliasingAccess ≠ [] ∧
      (ghbAfter (fun _ => 6) true aliasingPast).tables.history aliasingAccess ≠ [] := by
  have halias : Aliases aliasingPast aliasingAccess := by
    refine ⟨⟨0x40,0x0709⟩ :: List.replicate 4095 ⟨0x80,0x0301⟩,aliasingAccess,[],rfl,?_,⟨rfl,rfl⟩,
      ?_,?_,⟨0x40,0x0709⟩,?_,rfl⟩
    · intro y hy
      rcases List.mem_cons.mp hy with rfl | hy
      · decide
      · rw [List.eq_of_mem_replicate hy]
        decide
    · rw [List.length_cons, List.length_replicate]
      decide
    · rw [List.length_cons, List.length_replicate]
      decide
    · rw [List.length_cons, List.length_replicate]
      rfl
  obtain ⟨hreal,hne⟩ := history_ne_of_aliases halias
  rw [ghbPccsAfter_eq, ghbAfter_tables]
  exact ⟨hreal,hne,hne⟩

end CaLabs.Lab4.Ghb
