import Mathlib.Data.List.Nodup
import Mathlib.Data.List.Perm.Basic
import Mathlib.Data.List.Induction
import Mathlib.Data.Nat.Log
import Mathlib.Logic.Function.Basic
import Mathlib.Tactic.Ring

/-! The virtual memory hands out physical pages to the address spaces and to their page tables. -/
namespace CaLabs.Lab4

/-- The bits of the second operand replace those of the first one between the two positions. -/
def spliceBits (upper lower bitsUpper bitsLower : ℕ) : ℕ :=
  upper / 2^bitsUpper * 2^bitsUpper + lower % 2^bitsUpper / 2^bitsLower * 2^bitsLower +
    upper % 2^bitsLower

/-- The sizes, the penalty and the shuffle of the generator, which starts from the same seed each
time. -/
structure VmemConfig where
  log2PageSize : ℕ
  log2PteEntries : ℕ
  dramSize : ℕ
  minorFaultPenalty : ℕ
  shuffle : List ℕ → List ℕ
  shuffle_perm : ∀ pages, (shuffle pages).Perm pages
  pte_fits : log2PteEntries + 3 ≤ log2PageSize
  pages_pos : 0 < (dramSize - 2^20) / 2^log2PageSize

namespace VmemConfig
variable (c : VmemConfig)

/-- populate_pages: the memory above the first mebibyte. -/
def populatePages : List ℕ :=
  (List.range ((c.dramSize - 2^20) / 2^c.log2PageSize)).map
    (max (2^c.log2PageSize) (2^20) / 2^c.log2PageSize + ·)

/-- The logarithm of the size of a page table page. -/
def log2PtePage : ℕ := c.log2PteEntries + 3

/-- The width of next_pte_page. -/
def pteSlotBits : ℕ := c.log2PageSize - c.log2PtePage

def shamt (level : ℕ) : ℕ := c.log2PageSize + c.log2PteEntries * (level - 1)

/-- The bits of the page number from a level on. -/
def upperBits (vaddr level : ℕ) : ℕ := vaddr * 2^c.log2PageSize / 2^c.shamt level

def getOffset (vaddr level : ℕ) : ℕ := c.upperBits vaddr level % 2^c.log2PteEntries

/-- The splice of a page and next_pte_page, as an address. -/
def tableAddr (page slot : ℕ) : ℕ :=
  spliceBits (page * 2^c.pteSlotBits) slot c.pteSlotBits 0 * 2^c.log2PtePage

/-- The splice of a page table page and the offset of an entry. -/
def entryAddr (table offset : ℕ) : ℕ := spliceBits table (offset * 2^3) c.log2PtePage 3

lemma populatePages_nodup : c.populatePages.Nodup :=
  List.nodup_range.map fun _ _ h => Nat.add_left_cancel h

lemma pos_of_mem_populatePages {page : ℕ} (h : page ∈ c.populatePages) : 0 < page := by
  obtain ⟨i,-,rfl⟩ := List.mem_map.mp h
  have hbase : 0 < max (2^c.log2PageSize) (2^20) / 2^c.log2PageSize :=
    Nat.div_pos (le_max_left ..) (Nat.two_pow_pos _)
  omega

lemma shuffle_ne_nil : c.shuffle c.populatePages ≠ [] := by
  intro h
  have hlen := (c.shuffle_perm c.populatePages).length_eq
  rw [h, populatePages, List.length_map, List.length_range, List.length_nil] at hlen
  exact c.pages_pos.ne hlen

end VmemConfig

/-- The free list is filled again as soon as it is empty. -/
structure VirtualMemory (c : VmemConfig) where
  vpageToPpageMap : ℕ × ℕ → Option ℕ := fun _ => none
  pageTable : ℕ × ℕ × ℕ → Option ℕ := fun _ => none
  ppageFreeList : List ℕ := c.shuffle c.populatePages
  available : ppageFreeList ≠ [] := by exact c.shuffle_ne_nil
  activePtePage : ℕ := 0
  nextPtePage : ℕ := 0

namespace VirtualMemory
variable {c : VmemConfig} (m : VirtualMemory c)

def ppageFront : ℕ := m.ppageFreeList.head m.available

/-- With whether the warning was printed that pages are freed. -/
def ppagePop : VirtualMemory c × Bool :=
  if h : m.ppageFreeList.tail = [] then
    ({ m with
      ppageFreeList := c.shuffle c.populatePages
      available := c.shuffle_ne_nil },true)
  else ({ m with ppageFreeList := m.ppageFreeList.tail, available := h },false)

/-- What an operation returns, and whether it freed the pages. -/
structure Translated where
  address : ℕ
  penalty : ℕ
  freed : Bool
  deriving DecidableEq, Repr

/-- The page number is returned. -/
def vaToPa (cpuNum vaddr : ℕ) : VirtualMemory c × Translated :=
  match m.vpageToPpageMap (cpuNum,vaddr) with
  | some ppage => (m,⟨ppage,0,false⟩)
  | none =>
    let (m',freed) := m.ppagePop
    ({ m' with
      vpageToPpageMap := Function.update m.vpageToPpageMap (cpuNum,vaddr) (some m.ppageFront) },
      ⟨m.ppageFront,c.minorFaultPenalty,freed⟩)

/-- The next free page table page is taken; a page is popped when the active one is full. -/
def getPtePa (cpuNum vaddr level : ℕ) : VirtualMemory c × Translated :=
  let key := (cpuNum,level,c.upperBits vaddr (level + 1))
  let offset := c.getOffset vaddr level
  match m.pageTable key with
  | some table => (m,⟨c.entryAddr table offset,0,false⟩)
  | none =>
    let table := c.tableAddr m.activePtePage m.nextPtePage
    let m := { m with
      pageTable := Function.update m.pageTable key (some table)
      nextPtePage := (m.nextPtePage + 1) % 2^c.pteSlotBits }
    if m.nextPtePage = 0 then
      let (m',freed) := m.ppagePop
      ({ m' with activePtePage := m.ppageFront },
        ⟨c.entryAddr table offset,c.minorFaultPenalty,freed⟩)
    else (m,⟨c.entryAddr table offset,c.minorFaultPenalty,false⟩)

/-- A request of a page table walk: for an entry of a level, or for the page itself. -/
inductive Translation
  | page (cpuNum vaddr : ℕ)
  | entry (cpuNum vaddr level : ℕ)
  deriving DecidableEq, Repr

/-- The page walker gets an address for a page number. -/
def translate (request : Translation) : VirtualMemory c × Translated :=
  match request with
  | .page cpuNum vaddr =>
    let (m,t) := m.vaToPa cpuNum vaddr
    (m,{ t with address := t.address * 2^c.log2PageSize })
  | .entry cpuNum vaddr level => m.getPtePa cpuNum vaddr level

/-- The requests of any walks, with what they returned. -/
def translateAll (m : VirtualMemory c) (requests : List Translation) :
    VirtualMemory c × List (Translation × Translated) :=
  requests.foldl (fun s request =>
    let (m,t) := s.1.translate request
    (m,s.2 ++ [(request,t)])) (m,[])

end VirtualMemory

/-- What a physical address is used for. -/
inductive Location
  | page (cpuNum vaddr : ℕ)
  | entry (cpuNum level upper : ℕ)
  deriving DecidableEq, Repr

/-- One entry of a level serves all pages with the same bits from the level on. -/
def VirtualMemory.Translation.location (c : VmemConfig) : Translation → Location
  | .page cpuNum vaddr => .page cpuNum vaddr
  | .entry cpuNum vaddr level => .entry cpuNum level (c.upperBits vaddr level)

/-! Addresses as numbers of digits: the page, the page table page in it and the entry. -/
section Digits
variable {n a b a' b' : ℕ}

lemma digits_div (hb : b < n) : (a * n + b) / n = a := by
  rw [Nat.add_comm, Nat.add_mul_div_right _ _ (Nat.zero_lt_of_lt hb), Nat.div_eq_of_lt hb,
    Nat.zero_add]

lemma digits_inj (hb : b < n) (hb' : b' < n) (h : a * n + b = a' * n + b') : a = a' ∧ b = b' := by
  have ha : a = a' := by rw [← digits_div (a := a) hb, h, digits_div hb']
  subst ha
  exact ⟨rfl,Nat.add_left_cancel h⟩

end Digits

namespace VmemConfig
variable (c : VmemConfig) {page slot offset page' slot' offset' : ℕ}

lemma tableAddr_eq (h : slot < 2^c.pteSlotBits) :
    c.tableAddr page slot = (page * 2^c.pteSlotBits + slot) * 2^c.log2PtePage := by
  simp only [tableAddr, spliceBits, pow_zero, Nat.div_one, mul_one, Nat.mod_one, add_zero,
    Nat.mod_eq_of_lt h]
  rw [Nat.mul_div_cancel _ (Nat.two_pow_pos _)]

lemma entryAddr_eq (hs : slot < 2^c.pteSlotBits) (ho : offset < 2^c.log2PteEntries) :
    c.entryAddr (c.tableAddr page slot) offset =
      ((page * 2^c.pteSlotBits + slot) * 2^c.log2PteEntries + offset) * 2^3 := by
  have hlt : offset * 2^3 < 2^c.log2PtePage := by
    rw [log2PtePage, pow_add]
    exact Nat.mul_lt_mul_of_pos_right ho (by norm_num)
  rw [c.tableAddr_eq hs, entryAddr, spliceBits, Nat.mul_div_cancel _ (Nat.two_pow_pos _),
    Nat.mod_eq_of_lt hlt, Nat.mul_div_cancel _ (by norm_num), log2PtePage, pow_add, ← mul_assoc,
    Nat.mul_mod_left]
  ring

/-- The page of an entry. -/
lemma entryAddr_div (hs : slot < 2^c.pteSlotBits) (ho : offset < 2^c.log2PteEntries) :
    c.entryAddr (c.tableAddr page slot) offset / 2^c.log2PageSize = page := by
  have hsize : 2^c.log2PageSize = 2^3 * 2^c.log2PteEntries * 2^c.pteSlotBits := by
    rw [← pow_add, ← pow_add, pteSlotBits, log2PtePage]
    have hfits := c.pte_fits
    congr 1
    omega
  rw [c.entryAddr_eq hs ho, hsize, ← Nat.div_div_eq_div_mul, ← Nat.div_div_eq_div_mul,
    Nat.mul_div_cancel _ (by norm_num), digits_div ho, digits_div hs]

lemma entryAddr_inj (hs : slot < 2^c.pteSlotBits) (hs' : slot' < 2^c.pteSlotBits)
    (ho : offset < 2^c.log2PteEntries) (ho' : offset' < 2^c.log2PteEntries)
    (h : c.entryAddr (c.tableAddr page slot) offset =
      c.entryAddr (c.tableAddr page' slot') offset') :
    page = page' ∧ slot = slot' ∧ offset = offset' := by
  rw [c.entryAddr_eq hs ho, c.entryAddr_eq hs' ho'] at h
  obtain ⟨htable,hoffset⟩ := digits_inj ho ho' (Nat.eq_of_mul_eq_mul_right (by norm_num) h)
  obtain ⟨hpage,hslot⟩ := digits_inj hs hs' htable
  exact ⟨hpage,hslot,hoffset⟩

lemma getOffset_lt (vaddr level : ℕ) : c.getOffset vaddr level < 2^c.log2PteEntries :=
  Nat.mod_lt _ (Nat.two_pow_pos _)

/-- The bits from a level on are those from the next level on and the offset. -/
lemma upperBits_succ (vaddr : ℕ) {level : ℕ} (h : 0 < level) :
    c.upperBits vaddr (level + 1) = c.upperBits vaddr level / 2^c.log2PteEntries := by
  obtain ⟨level,rfl⟩ := Nat.exists_eq_succ_of_ne_zero h.ne'
  rw [upperBits, upperBits, Nat.div_div_eq_div_mul, ← pow_add]
  simp only [shamt, Nat.succ_eq_add_one, Nat.add_sub_cancel]
  congr 2
  ring

/-- One entry of a level: the same page table page and the same offset. -/
lemma upperBits_eq_iff (vaddr vaddr' : ℕ) {level : ℕ} (h : 0 < level) :
    c.upperBits vaddr level = c.upperBits vaddr' level ↔
      c.upperBits vaddr (level + 1) = c.upperBits vaddr' (level + 1) ∧
        c.getOffset vaddr level = c.getOffset vaddr' level := by
  rw [c.upperBits_succ vaddr h, c.upperBits_succ vaddr' h, getOffset, getOffset]
  constructor
  · intro he
    rw [he]
    exact ⟨rfl,rfl⟩
  · rintro ⟨hdiv,hmod⟩
    rw [← Nat.div_add_mod (c.upperBits vaddr level) (2^c.log2PteEntries), hdiv, hmod,
      Nat.div_add_mod]

end VmemConfig

namespace VirtualMemory
variable {c : VmemConfig} {m m' : VirtualMemory c} {t : Translated}

/-- The pages handed out and those that are free are apart, and so are the uses of the former. -/
structure Separated (m : VirtualMemory c) : Prop where
  free_nodup : m.ppageFreeList.Nodup
  page_used : ∀ key page, m.vpageToPpageMap key = some page →
    page ∉ m.ppageFreeList ∧ page ≠ m.activePtePage
  page_inj : ∀ key key' page, m.vpageToPpageMap key = some page →
    m.vpageToPpageMap key' = some page → key = key'
  active_used : m.activePtePage ∉ m.ppageFreeList
  slot_lt : m.nextPtePage < 2^c.pteSlotBits
  table_used : ∀ key table, m.pageTable key = some table → ∃ page slot,
    slot < 2^c.pteSlotBits ∧ table = c.tableAddr page slot ∧ page ∉ m.ppageFreeList ∧
      (∀ key, m.vpageToPpageMap key ≠ some page) ∧
      (page = m.activePtePage → slot < m.nextPtePage)
  table_inj : ∀ key key' table, m.pageTable key = some table →
    m.pageTable key' = some table → key = key'

lemma separated_start : Separated ({} : VirtualMemory c) where
  free_nodup := (c.shuffle_perm _).nodup_iff.mpr c.populatePages_nodup
  page_used := by simp
  page_inj := by simp
  active_used h :=
    (c.pos_of_mem_populatePages ((c.shuffle_perm _).mem_iff.mp h)).ne rfl
  slot_lt := Nat.two_pow_pos _
  table_used := by simp
  table_inj := by simp

/-- A pop without a warning takes the front off the list. -/
lemma ppagePop_cases (h : m.ppagePop.2 = false) :
    ∃ rest, m.ppageFreeList = m.ppageFront :: rest ∧
      m.ppagePop.1.ppageFreeList = rest ∧
      m.ppagePop.1.vpageToPpageMap = m.vpageToPpageMap ∧
      m.ppagePop.1.pageTable = m.pageTable ∧
      m.ppagePop.1.activePtePage = m.activePtePage ∧
      m.ppagePop.1.nextPtePage = m.nextPtePage := by
  unfold ppagePop at h ⊢
  split_ifs at h ⊢
  exact ⟨_,(List.cons_head_tail m.available).symm,rfl,rfl,rfl,rfl,rfl⟩

/-- What a result stands for in a later state. -/
def Explained (m : VirtualMemory c) : Translation × Translated → Prop
  | (.page cpuNum vaddr,t) => ∃ page, m.vpageToPpageMap (cpuNum,vaddr) = some page ∧
      t.address = page * 2^c.log2PageSize
  | (.entry cpuNum vaddr level,t) => ∃ table,
      m.pageTable (cpuNum,level,c.upperBits vaddr (level + 1)) = some table ∧
      t.address = c.entryAddr table (c.getOffset vaddr level)

/-- The mappings of a state are kept. -/
def Extends (m m' : VirtualMemory c) : Prop :=
  (∀ key page, m.vpageToPpageMap key = some page → m'.vpageToPpageMap key = some page) ∧
    ∀ key table, m.pageTable key = some table → m'.pageTable key = some table

lemma Explained.extend {e : Translation × Translated} (h : m.Explained e) (hm : m.Extends m') :
    m'.Explained e := by
  obtain ⟨request | request,t⟩ := e
  · obtain ⟨page,hpage,ht⟩ := h
    exact ⟨page,hm.1 _ _ hpage,ht⟩
  · obtain ⟨table,htable,ht⟩ := h
    exact ⟨table,hm.2 _ _ htable,ht⟩

lemma extends_update {κ : Type*} [DecidableEq κ] {f : κ → Option ℕ} {key : κ}
    (h : f key = none) (x : ℕ) (k : κ) (y : ℕ) (hk : f k = some y) :
    Function.update f key (some x) k = some y := by
  rw [Function.update_of_ne, hk]
  rintro rfl
  rw [h] at hk
  cases hk

/-- The page of a new mapping is none of those in use. -/
lemma Separated.vaToPa (hm : m.Separated) {cpuNum vaddr : ℕ}
    (h : m.vaToPa cpuNum vaddr = (m',t)) (hfreed : t.freed = false) :
    m'.Separated ∧ m.Extends m' ∧ m'.vpageToPpageMap (cpuNum,vaddr) = some t.address := by
  unfold VirtualMemory.vaToPa at h
  cases hmap : m.vpageToPpageMap (cpuNum,vaddr) with
  | some page =>
    simp only [hmap] at h
    obtain ⟨rfl,rfl⟩ := Prod.mk.inj h
    exact ⟨hm,⟨fun _ _ => id,fun _ _ => id⟩,hmap⟩
  | none =>
    simp only [hmap] at h
    obtain ⟨rfl,rfl⟩ := Prod.mk.inj h
    obtain ⟨rest,hlist,hrest,-,htable,hactive,hslot⟩ := ppagePop_cases hfreed
    have hnodup := hm.free_nodup
    have hactive_used := hm.active_used
    rw [hlist] at hnodup hactive_used
    obtain ⟨hfront,hnodup⟩ := List.nodup_cons.mp hnodup
    rw [List.mem_cons, not_or] at hactive_used
    have hused : ∀ page, page ∉ m.ppageFreeList → page ≠ m.ppageFront ∧ page ∉ rest := by
      intro page hpage
      rwa [hlist, List.mem_cons, not_or] at hpage
    refine ⟨?_,⟨?_,?_⟩,Function.update_self ..⟩
    · constructor
      · exact hrest ▸ hnodup
      · intro key page hkey
        dsimp only at hkey ⊢
        rw [hrest, hactive]
        rw [Function.update_apply] at hkey
        split_ifs at hkey
        · obtain rfl := Option.some.inj hkey
          exact ⟨hfront,Ne.symm hactive_used.1⟩
        · obtain ⟨hpage,hne⟩ := hm.page_used key page hkey
          exact ⟨(hused page hpage).2,hne⟩
      · intro key key' page hkey hkey'
        dsimp only at hkey hkey'
        rw [Function.update_apply] at hkey hkey'
        split_ifs at hkey hkey' with h1 h2 h3
        · exact h1.trans h2.symm
        · obtain rfl := Option.some.inj hkey
          exact absurd rfl (hused _ (hm.page_used key' _ hkey').1).1
        · obtain rfl := Option.some.inj hkey'
          exact absurd rfl (hused _ (hm.page_used key _ hkey).1).1
        · exact hm.page_inj key key' page hkey hkey'
      · dsimp only
        rw [hrest, hactive]
        exact hactive_used.2
      · dsimp only
        rw [hslot]
        exact hm.slot_lt
      · intro key table hkey
        dsimp only at hkey ⊢
        rw [htable] at hkey
        obtain ⟨page,slot,hlt,hpage,hfree,hother,hactive'⟩ := hm.table_used key table hkey
        rw [hrest, hactive, hslot]
        refine ⟨page,slot,hlt,hpage,(hused page hfree).2,fun key' hkey' => ?_,hactive'⟩
        rw [Function.update_apply] at hkey'
        split_ifs at hkey'
        · exact (hused page hfree).1 (Option.some.inj hkey').symm
        · exact hother key' hkey'
      · dsimp only
        rw [htable]
        exact hm.table_inj
    · exact extends_update hmap _
    · intro key table hkey
      dsimp only
      rwa [htable]

/-- The memory with a table for the key in the next page table page. -/
def addTable (m : VirtualMemory c) (key : ℕ × ℕ × ℕ) : VirtualMemory c :=
  { m with
    pageTable := Function.update m.pageTable key
      (some (c.tableAddr m.activePtePage m.nextPtePage))
    nextPtePage := (m.nextPtePage + 1) % 2^c.pteSlotBits }

/-- The next page table page is none of those in use. -/
lemma Separated.table_new (hm : m.Separated) (key : ℕ × ℕ × ℕ) :
    m.pageTable key ≠ some (c.tableAddr m.activePtePage m.nextPtePage) := by
  intro hkey
  obtain ⟨page,slot,hlt,he,-,-,hactive⟩ := hm.table_used key _ hkey
  obtain ⟨hp,hs,-⟩ := c.entryAddr_inj hm.slot_lt hlt (Nat.two_pow_pos _) (Nat.two_pow_pos _)
    (congrArg (c.entryAddr · 0) he)
  exact (hactive hp.symm).ne hs.symm

lemma Separated.addTable_inj (hm : m.Separated) (key₀ key key' : ℕ × ℕ × ℕ) (table : ℕ)
    (hkey : (m.addTable key₀).pageTable key = some table)
    (hkey' : (m.addTable key₀).pageTable key' = some table) : key = key' := by
  dsimp only [addTable] at hkey hkey'
  rw [Function.update_apply] at hkey hkey'
  split_ifs at hkey hkey' with h1 h2 h3
  · exact h1.trans h2.symm
  · exact absurd (hkey'.trans hkey.symm) (hm.table_new key')
  · exact absurd (hkey.trans hkey'.symm) (hm.table_new key)
  · exact hm.table_inj key key' table hkey hkey'

lemma Separated.active_other (hm : m.Separated) (key : ℕ × ℕ) :
    m.vpageToPpageMap key ≠ some m.activePtePage :=
  fun hkey => (hm.page_used key _ hkey).2 rfl

/-- The active page still has place for another table. -/
lemma Separated.addTable (hm : m.Separated) (key₀ : ℕ × ℕ × ℕ)
    (hfull : (m.nextPtePage + 1) % 2^c.pteSlotBits ≠ 0) : (m.addTable key₀).Separated := by
  have hnext : (m.nextPtePage + 1) % 2^c.pteSlotBits = m.nextPtePage + 1 := by
    apply Nat.mod_eq_of_lt
    have hlt := hm.slot_lt
    by_contra hge
    have he : m.nextPtePage + 1 = 2^c.pteSlotBits := by omega
    exact hfull (by rw [he, Nat.mod_self])
  constructor
  · exact hm.free_nodup
  · exact hm.page_used
  · exact hm.page_inj
  · exact hm.active_used
  · exact Nat.mod_lt _ (Nat.two_pow_pos _)
  · intro key table hkey
    dsimp only [VirtualMemory.addTable] at hkey ⊢
    rw [hnext]
    rw [Function.update_apply] at hkey
    split_ifs at hkey
    · obtain rfl := Option.some.inj hkey
      exact ⟨_,_,hm.slot_lt,rfl,hm.active_used,hm.active_other,fun _ => Nat.lt_succ_self _⟩
    · obtain ⟨page,slot,hlt,he,hfree,hother,hactive⟩ := hm.table_used key table hkey
      exact ⟨page,slot,hlt,he,hfree,hother,fun he => (hactive he).trans (Nat.lt_succ_self _)⟩
  · exact hm.addTable_inj key₀

/-- The table is the last one of the active page: the next page is popped. -/
lemma Separated.addLastTable (hm : m.Separated) (key₀ : ℕ × ℕ × ℕ)
    (hpop : (m.addTable key₀).ppagePop.2 = false) :
    ({ (m.addTable key₀).ppagePop.1 with activePtePage := m.ppageFront } :
      VirtualMemory c).Separated := by
  obtain ⟨rest,hlist,hrest,hmap,htab,-,hslot⟩ := ppagePop_cases hpop
  have hnodup := hm.free_nodup
  have hactive_used := hm.active_used
  have hfreeList : m.ppageFreeList = m.ppageFront :: rest := hlist
  rw [hfreeList] at hnodup hactive_used
  obtain ⟨hfront,hnodup⟩ := List.nodup_cons.mp hnodup
  rw [List.mem_cons, not_or] at hactive_used
  have hused : ∀ page, page ∉ m.ppageFreeList → page ∉ rest := by
    intro page hpage
    rw [hfreeList, List.mem_cons, not_or] at hpage
    exact hpage.2
  have hne : ∀ page, page ∉ m.ppageFreeList → page ≠ m.ppageFront := by
    rintro page hpage rfl
    exact hpage (List.head_mem m.available)
  constructor
  · exact hrest ▸ hnodup
  · intro key page hkey
    dsimp only at hkey ⊢
    rw [hmap] at hkey
    rw [hrest]
    have hpage := (hm.page_used key page hkey).1
    exact ⟨hused page hpage,hne page hpage⟩
  · dsimp only
    rw [hmap]
    exact hm.page_inj
  · dsimp only
    rw [hrest]
    exact hfront
  · dsimp only
    rw [hslot]
    exact Nat.mod_lt _ (Nat.two_pow_pos _)
  · intro key table hkey
    dsimp only at hkey ⊢
    rw [htab] at hkey
    dsimp only [VirtualMemory.addTable] at hkey
    rw [Function.update_apply] at hkey
    rw [hrest, hmap]
    split_ifs at hkey
    · obtain rfl := Option.some.inj hkey
      exact ⟨_,_,hm.slot_lt,rfl,hactive_used.2,hm.active_other,
        fun he => absurd he (hne _ hm.active_used)⟩
    · obtain ⟨page,slot,hlt,he,hfree,hother,-⟩ := hm.table_used key table hkey
      exact ⟨page,slot,hlt,he,hused page hfree,hother,fun he => absurd he (hne _ hfree)⟩
  · dsimp only
    rw [htab]
    exact hm.addTable_inj key₀

/-- A new page table page is none of those in use, and not in the page of a mapping. -/
lemma Separated.getPtePa (hm : m.Separated) {cpuNum vaddr level : ℕ}
    (h : m.getPtePa cpuNum vaddr level = (m',t)) (hfreed : t.freed = false) :
    m'.Separated ∧ m.Extends m' ∧
      ∃ table, m'.pageTable (cpuNum,level,c.upperBits vaddr (level + 1)) = some table ∧
        t.address = c.entryAddr table (c.getOffset vaddr level) := by
  unfold VirtualMemory.getPtePa at h
  cases htable : m.pageTable (cpuNum,level,c.upperBits vaddr (level + 1)) with
  | some table =>
    simp only [htable] at h
    obtain ⟨rfl,rfl⟩ := Prod.mk.inj h
    exact ⟨hm,⟨fun _ _ => id,fun _ _ => id⟩,table,htable,rfl⟩
  | none =>
    simp only [htable] at h
    split_ifs at h with hfull
    · obtain ⟨rfl,rfl⟩ := Prod.mk.inj h
      obtain ⟨-,-,-,hmap,htab,-,-⟩ := ppagePop_cases hfreed
      refine ⟨hm.addLastTable _ hfreed,⟨fun key page hkey => ?_,?_⟩,_,?_,rfl⟩
      · dsimp only
        rwa [hmap]
      · dsimp only
        rw [htab]
        exact extends_update htable _
      · dsimp only
        rw [htab]
        exact Function.update_self ..
    · obtain ⟨rfl,rfl⟩ := Prod.mk.inj h
      exact ⟨hm.addTable _ hfull,⟨fun _ _ => id,extends_update htable _⟩,_,
        Function.update_self ..,rfl⟩

/-- A request whose result freed no pages. -/
lemma Separated.translate (hm : m.Separated) {request : Translation}
    (h : m.translate request = (m',t)) (hfreed : t.freed = false) :
    m'.Separated ∧ m.Extends m' ∧ m'.Explained (request,t) := by
  cases request with
  | page cpuNum vaddr =>
    obtain ⟨rfl,rfl⟩ := Prod.mk.inj h
    obtain ⟨hm',he,hpage⟩ := hm.vaToPa rfl hfreed
    exact ⟨hm',he,_,hpage,rfl⟩
  | entry cpuNum vaddr level => exact hm.getPtePa h hfreed

lemma translateAll_concat (requests : List Translation) (request : Translation) :
    m.translateAll (requests ++ [request]) =
      (((m.translateAll requests).1.translate request).1,
        (m.translateAll requests).2 ++
          [(request,((m.translateAll requests).1.translate request).2)]) := by
  rw [translateAll, List.foldl_append]
  rfl

lemma request_mem {requests : List Translation} {e : Translation × Translated}
    (he : e ∈ (m.translateAll requests).2) : e.1 ∈ requests := by
  induction requests using List.reverseRecOn with
  | nil => cases he
  | append_singleton requests request ih =>
    rw [translateAll_concat] at he
    apply List.mem_append.mpr
    obtain he | he := List.mem_append.mp he
    · exact .inl (ih he)
    · obtain rfl := List.mem_singleton.mp he
      exact .inr (List.mem_singleton_self _)

/-- As long as no pages are freed the uses of the memory stay apart, and every earlier result
stays right. -/
lemma Separated.translateAll (hm : m.Separated) (requests : List Translation)
    (hfreed : ∀ e ∈ (m.translateAll requests).2, e.2.freed = false) :
    (m.translateAll requests).1.Separated ∧
      ∀ e ∈ (m.translateAll requests).2, (m.translateAll requests).1.Explained e := by
  induction requests using List.reverseRecOn with
  | nil => exact ⟨hm,fun e he => by cases he⟩
  | append_singleton requests request ih =>
    rw [translateAll_concat] at hfreed ⊢
    obtain ⟨hs,hexp⟩ := ih fun e he => hfreed e (List.mem_append_left _ he)
    have hnew := hfreed (request,((m.translateAll requests).1.translate request).2)
      (List.mem_append_right _ (List.mem_singleton_self _))
    obtain ⟨hs',hext,hlast⟩ := hs.translate rfl hnew
    refine ⟨hs',fun e he => ?_⟩
    obtain he | he := List.mem_append.mp he
    · exact (hexp e he).extend hext
    · obtain rfl := List.mem_singleton.mp he
      exact hlast

/-- The levels of page table pages start at 1. -/
def Translation.WalkLevel : Translation → Prop
  | .page _ _ => True
  | .entry _ _ level => 0 < level

/-- The page of an explained address. -/
lemma Separated.page_of_entry (hm : m.Separated) {cpuNum vaddr level : ℕ}
    (h : m.Explained (.entry cpuNum vaddr level,t)) :
    ∃ page slot, slot < 2^c.pteSlotBits ∧
      m.pageTable (cpuNum,level,c.upperBits vaddr (level + 1)) = some (c.tableAddr page slot) ∧
      t.address = c.entryAddr (c.tableAddr page slot) (c.getOffset vaddr level) ∧
      t.address / 2^c.log2PageSize = page ∧ ∀ key, m.vpageToPpageMap key ≠ some page := by
  obtain ⟨table,htable,ht⟩ := h
  obtain ⟨page,slot,hlt,rfl,-,hother,-⟩ := hm.table_used _ table htable
  refine ⟨page,slot,hlt,htable,ht,?_,hother⟩
  rw [ht, c.entryAddr_div hlt (c.getOffset_lt vaddr level)]

/-- Addresses for two uses of the memory are equal exactly when the uses are. -/
lemma Separated.address_eq_iff (hm : m.Separated) {r r' : Translation} {t t' : Translated}
    (h : m.Explained (r,t)) (h' : m.Explained (r',t')) (hr : r.WalkLevel) :
    t.address = t'.address ↔ r.location c = r'.location c := by
  have hpos := Nat.two_pow_pos c.log2PageSize
  cases r with
  | page cpuNum vaddr =>
    obtain ⟨page,hpage,ht⟩ := h
    cases r' with
    | page cpuNum' vaddr' =>
      obtain ⟨page',hpage',ht'⟩ := h'
      rw [ht, ht', Nat.mul_left_inj hpos.ne']
      simp only [Translation.location, Location.page.injEq]
      constructor
      · rintro rfl
        exact Prod.mk.inj (hm.page_inj _ _ page hpage hpage')
      · rintro ⟨rfl,rfl⟩
        exact Option.some.inj (hpage.symm.trans hpage')
    | entry cpuNum' vaddr' level' =>
      obtain ⟨page',slot',-,-,-,hdiv,hother⟩ := hm.page_of_entry h'
      simp only [Translation.location, reduceCtorEq, iff_false]
      intro he
      rw [← he, ht, Nat.mul_div_cancel _ hpos] at hdiv
      exact hother _ (hdiv ▸ hpage)
  | entry cpuNum vaddr level =>
    obtain ⟨page,slot,hlt,htable,ht,hdiv,hother⟩ := hm.page_of_entry h
    cases r' with
    | page cpuNum' vaddr' =>
      obtain ⟨page',hpage',ht'⟩ := h'
      simp only [Translation.location, reduceCtorEq, iff_false]
      intro he
      rw [he, ht', Nat.mul_div_cancel _ hpos] at hdiv
      exact hother _ (hdiv ▸ hpage')
    | entry cpuNum' vaddr' level' =>
      obtain ⟨page',slot',hlt',htable',ht',-,-⟩ := hm.page_of_entry h'
      simp only [Translation.location, Location.entry.injEq]
      constructor
      · intro he
        rw [ht, ht'] at he
        obtain ⟨rfl,rfl,hoffset⟩ := c.entryAddr_inj hlt hlt' (c.getOffset_lt ..)
          (c.getOffset_lt ..) he
        have hkey := hm.table_inj _ _ _ htable htable'
        simp only [Prod.mk.injEq] at hkey
        obtain ⟨rfl,rfl,hupper⟩ := hkey
        exact ⟨rfl,rfl,(c.upperBits_eq_iff _ _ hr).mpr ⟨hupper,hoffset⟩⟩
      · rintro ⟨rfl,rfl,hupper⟩
        obtain ⟨hnext,hoffset⟩ := (c.upperBits_eq_iff _ _ hr).mp hupper
        rw [hnext] at htable
        rw [ht, ht', Option.some.inj (htable.symm.trans htable'), hoffset]

/-- In any interleaving of page and page table requests, as long as the memory has not run out of
pages: a page or an entry always gets the same address, two different ones get different addresses,
and no page table entry lies in a page of an address space. -/
theorem addresses_apart (c : VmemConfig) (requests : List Translation)
    (hlevels : ∀ r ∈ requests, r.WalkLevel)
    (hfreed : ∀ e ∈ (({} : VirtualMemory c).translateAll requests).2, e.2.freed = false) :
    ∀ e ∈ (({} : VirtualMemory c).translateAll requests).2,
      ∀ e' ∈ (({} : VirtualMemory c).translateAll requests).2,
        (e.2.address = e'.2.address ↔ e.1.location c = e'.1.location c) ∧
          ∀ cpuNum vaddr cpuNum' vaddr' level', e.1 = .page cpuNum vaddr →
            e'.1 = .entry cpuNum' vaddr' level' →
            e.2.address / 2^c.log2PageSize ≠ e'.2.address / 2^c.log2PageSize := by
  obtain ⟨hs,hexp⟩ := separated_start.translateAll requests hfreed
  rintro ⟨r,t⟩ he ⟨r',t'⟩ he'
  refine ⟨hs.address_eq_iff (hexp _ he) (hexp _ he') (hlevels _ (request_mem he)),?_⟩
  rintro cpuNum vaddr cpuNum' vaddr' level' rfl rfl heq
  obtain ⟨page,hpage,ht⟩ := hexp _ he
  obtain ⟨page',slot',-,-,-,hdiv,hother⟩ := hs.page_of_entry (hexp _ he')
  dsimp only at heq
  rw [← heq, ht, Nat.mul_div_cancel _ (Nat.two_pow_pos _)] at hdiv
  exact hother _ (hdiv ▸ hpage)

/-- A pop frees no pages if one is left. -/
lemma ppagePop_length (h : 1 < m.ppageFreeList.length) :
    m.ppagePop.2 = false ∧ m.ppageFreeList.length ≤ m.ppagePop.1.ppageFreeList.length + 1 := by
  have htail : m.ppageFreeList.tail ≠ [] := by
    apply List.ne_nil_of_length_pos
    rw [List.length_tail]
    omega
  unfold ppagePop
  rw [dif_neg htail]
  refine ⟨rfl,?_⟩
  rw [List.length_tail]
  omega

lemma translate_length (h : 1 < m.ppageFreeList.length) (request : Translation) :
    (m.translate request).2.freed = false ∧
      m.ppageFreeList.length ≤ (m.translate request).1.ppageFreeList.length + 1 := by
  cases request with
  | page cpuNum vaddr =>
    simp only [translate, VirtualMemory.vaToPa]
    cases m.vpageToPpageMap (cpuNum,vaddr) with
    | some page => exact ⟨rfl,Nat.le_succ _⟩
    | none => exact ppagePop_length h
  | entry cpuNum vaddr level =>
    simp only [translate, VirtualMemory.getPtePa]
    cases m.pageTable (cpuNum,level,c.upperBits vaddr (level + 1)) with
    | some table => exact ⟨rfl,Nat.le_succ _⟩
    | none =>
      dsimp only
      split_ifs
      · exact ppagePop_length h
      · exact ⟨rfl,Nat.le_succ _⟩

/-- Fewer requests than there are pages free no pages. -/
theorem freed_of_lt_length {requests : List Translation}
    (h : requests.length < m.ppageFreeList.length) :
    (∀ e ∈ (m.translateAll requests).2, e.2.freed = false) ∧
      m.ppageFreeList.length ≤
        (m.translateAll requests).1.ppageFreeList.length + requests.length := by
  induction requests using List.reverseRecOn with
  | nil => exact ⟨by simp [translateAll],le_rfl⟩
  | append_singleton requests request ih =>
    rw [List.length_append, List.length_singleton] at h ⊢
    obtain ⟨hfreed,hlen⟩ := ih (by omega)
    obtain ⟨hlast,hlen'⟩ := translate_length (m := (m.translateAll requests).1) (by omega) request
    rw [translateAll_concat]
    refine ⟨fun e he => ?_,by dsimp only; omega⟩
    obtain he | he := List.mem_append.mp he
    · exact hfreed e he
    · obtain rfl := List.mem_singleton.mp he
      exact hlast

/-- Walks of two address spaces in a memory of eight free pages with two page table pages each: the
entries of page 5 at two levels, and the page itself. -/
theorem twoSpaces_addresses_apart :
    let c : VmemConfig := ⟨12,8,2^20 + 2^15,100,id,fun _ => .refl _,by decide,by decide⟩
    let requests : List Translation := [.entry 0 5 2,.entry 0 5 1,.page 0 5,.page 1 5,.page 0 5]
    let log := (({} : VirtualMemory c).translateAll requests).2
    log.map (·.2.address) = [0,2088,2^20 + 2^12,2^20 + 2^13,2^20 + 2^12] ∧
      ∀ e ∈ log, ∀ e' ∈ log,
        (e.2.address = e'.2.address ↔ e.1.location c = e'.1.location c) ∧
          ∀ cpuNum vaddr cpuNum' vaddr' level', e.1 = .page cpuNum vaddr →
            e'.1 = .entry cpuNum' vaddr' level' →
            e.2.address / 2^c.log2PageSize ≠ e'.2.address / 2^c.log2PageSize := by
  intro c requests log
  refine ⟨by decide,addresses_apart c requests ?_ (freed_of_lt_length (by decide)).1⟩
  intro r hr
  simp only [requests, List.mem_cons, List.not_mem_nil, or_false] at hr
  obtain rfl | rfl | rfl | rfl | rfl := hr <;> simp [Translation.WalkLevel]

end VirtualMemory
end CaLabs.Lab4
