import Mathlib.Data.List.Nodup
import Mathlib.Data.List.Perm.Basic
import Mathlib.Logic.Function.Basic
import Mathlib.Tactic.SplitIfs

/-! The register allocator of the out-of-order core, and who holds each physical register. -/
namespace CaLabs.Lab4

structure PhysicalRegister where
  archRegIndex : ℕ := 0
  producingInstructionId : ℕ := 0
  valid : Bool := false
  busy : Bool := false
  deriving DecidableEq, Repr

/-- The allocation tables are partial: -1 stands for no mapping. -/
structure RegisterAllocator where
  frontendRat : ℕ → Option ℕ := fun _ => none
  backendRat : ℕ → Option ℕ := fun _ => none
  freeRegisters : List ℕ
  physicalRegisterFile : ℕ → PhysicalRegister := fun _ => {}

namespace RegisterAllocator

def init (numPhysicalRegisters : ℕ) : RegisterAllocator where
  freeRegisters := List.range numPhysicalRegisters

variable (a : RegisterAllocator)

def isValid (p : ℕ) : Bool := (a.physicalRegisterFile p).valid

def isAllocated (reg : ℕ) : Bool := (a.frontendRat reg).isSome

def setRegister (p : ℕ) (r : PhysicalRegister) : RegisterAllocator :=
  { a with physicalRegisterFile := Function.update a.physicalRegisterFile p r }

/-- No result stands for the front of an empty queue. -/
def renameDestRegister (reg producerId : ℕ) : Option (ℕ × RegisterAllocator) :=
  match a.freeRegisters with
  | [] => none
  | p :: rest =>
    some (p,{ a.setRegister p ⟨reg,producerId,false,true⟩ with
      frontendRat := Function.update a.frontendRat reg (some p)
      freeRegisters := rest })

/-- A register that is read before it was written is mapped as if its write were committed. -/
def renameSrcRegister (reg : ℕ) : Option (ℕ × RegisterAllocator) :=
  match a.frontendRat reg with
  | some p => some (p,a)
  | none =>
    match a.freeRegisters with
    | [] => none
    | p :: rest =>
      some (p,{ a.setRegister p ⟨reg,0,true,true⟩ with
        frontendRat := Function.update a.frontendRat reg (some p)
        backendRat := Function.update a.backendRat reg (some p)
        freeRegisters := rest })

def completeDestRegister (p : ℕ) : RegisterAllocator :=
  a.setRegister p { a.physicalRegisterFile p with valid := true }

def freeRegister (p : ℕ) : RegisterAllocator :=
  { a.setRegister p ⟨255,0,false,false⟩ with freeRegisters := a.freeRegisters ++ [p] }

def retireDestRegister (p : ℕ) : RegisterAllocator :=
  let reg := (a.physicalRegisterFile p).archRegIndex
  let committed := { a with backendRat := Function.update a.backendRat reg (some p) }
  match a.backendRat reg with
  | none => committed
  | some old => committed.freeRegister old

end RegisterAllocator

/-! The mapping that a sequence of writes leaves; a write is an architectural register with the
physical one that holds its value. -/

def write (m : ℕ → Option ℕ) (w : ℕ × ℕ) : ℕ → Option ℕ := Function.update m w.1 (some w.2)

def mappingAfter (m : ℕ → Option ℕ) (writes : List (ℕ × ℕ)) : ℕ → Option ℕ := writes.foldl write m

section Mapping
variable {m m' : ℕ → Option ℕ} {writes : List (ℕ × ℕ)} {w : ℕ × ℕ} {reg p : ℕ}

lemma write_self (h : reg = w.1) : write m w reg = some w.2 := by
  rw [write, h, Function.update_self]

lemma write_of_ne (h : reg ≠ w.1) : write m w reg = m reg := Function.update_of_ne h _ _

lemma mappingAfter_append (m : ℕ → Option ℕ) (ws ws' : List (ℕ × ℕ)) :
    mappingAfter m (ws ++ ws') = mappingAfter (mappingAfter m ws) ws' := List.foldl_append ..

lemma mappingAfter_congr (h : m reg = m' reg) :
    mappingAfter m writes reg = mappingAfter m' writes reg := by
  induction writes generalizing m m' with
  | nil => exact h
  | cons w writes ih =>
    refine ih ?_
    by_cases hr : reg = w.1
    · rw [write_self hr, write_self hr]
    · rw [write_of_ne hr, write_of_ne hr, h]

lemma mappingAfter_none (h : mappingAfter m writes reg = none) : m reg = none := by
  induction writes generalizing m with
  | nil => exact h
  | cons w writes ih =>
    have hw := ih h
    by_cases hr : reg = w.1
    · rw [write_self hr] at hw
      cases hw
    · rwa [write_of_ne hr] at hw

/-- Every mapped register comes from the start or from a write. -/
lemma mappingAfter_cases (h : mappingAfter m writes reg = some p) :
    m reg = some p ∨ (reg,p) ∈ writes := by
  induction writes generalizing m with
  | nil => exact .inl h
  | cons w writes ih =>
    rcases ih h with hm | hmem
    · by_cases hr : reg = w.1
      · rw [write_self hr] at hm
        refine .inr (List.mem_cons.mpr (.inl ?_))
        rw [hr, ← Option.some.inj hm]
      · rw [write_of_ne hr] at hm
        exact .inl hm
    · exact .inr (List.mem_cons_of_mem _ hmem)

/-- A mapping that maps more registers before the writes does so after them. -/
lemma mappingAfter_mono (h : ∀ r q, m r = some q → m' r = some q)
    (hr : mappingAfter m writes reg = some p) : mappingAfter m' writes reg = some p := by
  induction writes generalizing m m' with
  | nil => exact h reg p hr
  | cons w writes ih =>
    refine ih (fun r q hq => ?_) hr
    by_cases he : r = w.1
    · rwa [write_self he] at hq ⊢
    · rw [write_of_ne he] at hq ⊢
      exact h r q hq

/-- A register that is not mapped afterwards is one that no write is to. -/
lemma mappingAfter_of_none (m' : ℕ → Option ℕ) (h : mappingAfter m writes reg = none) :
    mappingAfter m' writes reg = m' reg := by
  induction writes generalizing m m' with
  | nil => rfl
  | cons w writes ih =>
    have hw : write m w reg = none := mappingAfter_none h
    have hne : reg ≠ w.1 := fun he => by rw [write_self he] at hw; cases hw
    exact (ih (write m' w) h).trans (write_of_ne hne)

end Mapping

/-- Each of the physical registers is free, in flight or committed, in one way only. -/
structure Partition (n : ℕ) (free flight : List ℕ) (committed : ℕ → Option ℕ) : Prop where
  nodup : (free ++ flight).Nodup
  injective : ∀ r s p, committed r = some p → committed s = some p → r = s
  apart : ∀ r p, committed r = some p → p ∉ free ++ flight
  total : ∀ p, p < n ↔ p ∈ free ++ flight ∨ ∃ r, committed r = some p

namespace Partition
variable {n : ℕ} {free flight free' flight' : List ℕ} {committed : ℕ → Option ℕ} {p reg : ℕ}

lemma perm (h : Partition n free flight committed)
    (hp : (free ++ flight).Perm (free' ++ flight')) : Partition n free' flight' committed where
  nodup := hp.nodup_iff.mp h.nodup
  injective := h.injective
  apart r p hr hmem := h.apart r p hr (hp.mem_iff.mpr hmem)
  total p := by rw [h.total p, hp.mem_iff]

/-- A free register is put in flight. -/
lemma rename (h : Partition n (p :: free) flight committed) :
    Partition n free (flight ++ [p]) committed := by
  refine h.perm ?_
  rw [List.cons_append, ← List.append_assoc]
  exact (List.perm_append_singleton p _).symm

/-- A free register is committed for one that has none. -/
lemma map (h : Partition n (p :: free) flight committed) (hnone : committed reg = none) :
    Partition n free flight (Function.update committed reg (some p)) := by
  obtain ⟨hp,hrest⟩ := List.nodup_cons.mp h.nodup
  have hother : ∀ r q, Function.update committed reg (some p) r = some q →
      (r = reg ∧ q = p) ∨ (r ≠ reg ∧ committed r = some q ∧ q ≠ p) := by
    intro r q hr
    by_cases he : r = reg
    · rw [he, Function.update_self] at hr
      exact .inl ⟨he,(Option.some.inj hr).symm⟩
    · rw [Function.update_of_ne he] at hr
      refine .inr ⟨he,hr,fun hq => h.apart r q hr ?_⟩
      rw [hq]
      exact List.mem_cons_self
  refine ⟨hrest,fun r s q hr hs => ?_,fun r q hr hmem => ?_,fun q => ?_⟩
  · rcases hother r q hr with ⟨rfl,rfl⟩ | ⟨-,hr,hq⟩
    · rcases hother s _ hs with ⟨rfl,-⟩ | ⟨-,-,hq⟩
      · rfl
      · exact absurd rfl hq
    · rcases hother s q hs with ⟨-,rfl⟩ | ⟨-,hs,-⟩
      · exact absurd rfl hq
      · exact h.injective r s q hr hs
  · rcases hother r q hr with ⟨-,rfl⟩ | ⟨-,hr,-⟩
    · exact hp hmem
    · exact h.apart r q hr (List.mem_cons_of_mem _ hmem)
  · rw [h.total q, List.cons_append, List.mem_cons]
    constructor
    · rintro ((rfl | hmem) | ⟨r,hr⟩)
      · exact .inr ⟨reg,Function.update_self _ _ _⟩
      · exact .inl hmem
      · refine .inr ⟨r,?_⟩
        rw [Function.update_of_ne fun he => by rw [he, hnone] at hr; cases hr]
        exact hr
    · rintro (hmem | ⟨r,hr⟩)
      · exact .inl (.inr hmem)
      · rcases hother r q hr with ⟨-,rfl⟩ | ⟨-,hr,-⟩
        · exact .inl (.inl rfl)
        · exact .inr ⟨r,hr⟩

/-- The oldest register in flight is committed, and the one that it replaces is free again. -/
lemma retire (h : Partition n free (p :: flight) committed) (reg : ℕ) :
    Partition n (free ++ (committed reg).toList) flight
      (Function.update committed reg (some p)) := by
  have hmid : (free ++ p :: flight).Perm (p :: (free ++ flight)) := List.perm_middle
  have hnodup : (p :: (free ++ flight)).Nodup := hmid.nodup_iff.mp h.nodup
  cases hc : committed reg with
  | none =>
    rw [Option.toList_none, List.append_nil]
    have hfirst : Partition n (p :: free) flight committed := h.perm hmid
    exact hfirst.map hc
  | some old =>
    -- take the old register out of the committed ones first
    have hne : old ≠ p := fun he => h.apart reg old hc (by rw [he]; simp)
    have hdrop :
        Partition n (p :: (free ++ [old])) flight (Function.update committed reg none) := by
      have hlist : (p :: (free ++ [old]) ++ flight).Perm (old :: (free ++ p :: flight)) := by
        refine List.Perm.trans ?_ (hmid.symm.cons old)
        rw [List.cons_append, List.append_assoc, List.singleton_append]
        exact (List.perm_middle.cons p).trans (List.Perm.swap old p _)
      have hsub : ∀ r q, Function.update committed reg none r = some q →
          r ≠ reg ∧ committed r = some q := by
        intro r q hr
        by_cases he : r = reg
        · rw [he, Function.update_self] at hr
          cases hr
        · rw [Function.update_of_ne he] at hr
          exact ⟨he,hr⟩
      refine ⟨?_,fun r s q hr hs => ?_,fun r q hr hmem => ?_,fun q => ?_⟩
      · rw [hlist.nodup_iff, List.nodup_cons]
        exact ⟨h.apart reg old hc,h.nodup⟩
      · exact h.injective r s q (hsub r q hr).2 (hsub s q hs).2
      · rw [hlist.mem_iff, List.mem_cons] at hmem
        obtain ⟨hr',hq⟩ := hsub r q hr
        rcases hmem with rfl | hmem
        · exact hr' (h.injective r reg _ hq hc)
        · exact h.apart r q hq hmem
      · rw [h.total q, hlist.mem_iff, List.mem_cons]
        constructor
        · rintro (hmem | ⟨r,hr⟩)
          · exact .inl (.inr hmem)
          · by_cases he : r = reg
            · rw [he, hc] at hr
              exact .inl (.inl (Option.some.inj hr).symm)
            · exact .inr ⟨r,by rw [Function.update_of_ne he, hr]⟩
        · rintro ((rfl | hmem) | ⟨r,hr⟩)
          · exact .inr ⟨reg,hc⟩
          · exact .inl hmem
          · exact .inr ⟨r,(hsub r q hr).2⟩
    have hmap := hdrop.map (Function.update_self reg none committed)
    rwa [Function.update_idem] at hmap

lemma start (n : ℕ) : Partition n (List.range n) [] fun _ => none := by
  refine ⟨?_,fun r s p hr => (by cases hr),fun r p hr => (by cases hr),fun p => ?_⟩
  · rw [List.append_nil]
    exact List.nodup_range
  · simp

end Partition

/-- The allocator while these writes are in flight, the oldest one first. -/
structure Allocated (n : ℕ) (a : RegisterAllocator) (flight : List (ℕ × ℕ)) : Prop where
  partition : Partition n a.freeRegisters (flight.map Prod.snd) a.backendRat
  frontend : a.frontendRat = mappingAfter a.backendRat flight
  arch : ∀ w ∈ flight, (a.physicalRegisterFile w.2).archRegIndex = w.1
  committed : ∀ r p, a.backendRat r = some p → a.isValid p = true

namespace RegisterAllocator

lemma isValid_setRegister (a : RegisterAllocator) (p q : ℕ) (r : PhysicalRegister) :
    (a.setRegister p r).isValid q = if q = p then r.valid else a.isValid q := by
  by_cases h : q = p
  · rw [if_pos h, h]
    exact congrArg PhysicalRegister.valid (Function.update_self _ _ _)
  · rw [if_neg h]
    exact congrArg PhysicalRegister.valid (Function.update_of_ne h _ _)

end RegisterAllocator

namespace Allocated
variable {n reg p : ℕ} {a a' : RegisterAllocator} {flight : List (ℕ × ℕ)}

lemma start (n : ℕ) : Allocated n (.init n) [] where
  partition := Partition.start n
  frontend := rfl
  arch w hw := absurd hw List.not_mem_nil
  committed r p hr := by cases hr

lemma committed_not_free (h : Allocated n a flight) (hr : a.backendRat reg = some p) :
    p ∉ a.freeRegisters :=
  fun hfree => h.partition.apart reg p hr (List.mem_append_left _ hfree)

lemma flight_not_free (h : Allocated n a flight) {w : ℕ × ℕ} (hw : w ∈ flight) :
    w.2 ∉ a.freeRegisters := fun hfree =>
  (List.nodup_append.mp h.partition.nodup).2.2 w.2 hfree w.2 (List.mem_map_of_mem hw) rfl

/-- A register that an instruction can read is committed or in flight. -/
lemma not_free (h : Allocated n a flight) {older : List (ℕ × ℕ)} (holder : older ⊆ flight)
    (hr : mappingAfter a.backendRat older reg = some p) : p ∉ a.freeRegisters := by
  rcases mappingAfter_cases hr with hc | hmem
  · exact h.committed_not_free hc
  · exact h.flight_not_free (holder hmem)

/-- Reading a register gives the one that the youngest write to it in flight has, else the
committed one, else a free one that counts as committed from then on. -/
lemma renameSrc (h : Allocated n a flight)
    (hfree : a.frontendRat reg = none → a.freeRegisters ≠ []) :
    ∃ p a', a.renameSrcRegister reg = some (p,a') ∧ Allocated n a' flight ∧
      a'.frontendRat reg = some p ∧
      (∀ r q, a.frontendRat r = some q → a'.frontendRat r = some q) ∧
      (∀ r q, a.backendRat r = some q → a'.backendRat r = some q) ∧
      (∀ q ∉ a.freeRegisters, a'.isValid q = a.isValid q) ∧
      a'.freeRegisters ⊆ a.freeRegisters ∧
      a.freeRegisters.length ≤
        a'.freeRegisters.length + if a.isAllocated reg then 0 else 1 := by
  cases hf : a.frontendRat reg with
  | some p =>
    refine ⟨p,a,?_,h,hf,fun _ _ hr => hr,fun _ _ hr => hr,fun _ _ => rfl,List.Subset.refl _,
      Nat.le_add_right _ _⟩
    simp only [RegisterAllocator.renameSrcRegister, hf]
  | none =>
    obtain ⟨p,rest,hp⟩ := List.exists_cons_of_ne_nil (hfree hf)
    have hmapped := hf
    rw [h.frontend] at hmapped
    have hnone : a.backendRat reg = none := mappingAfter_none hmapped
    have hpart := h.partition
    rw [hp] at hpart
    have hother : ∀ q ∉ a.freeRegisters, q ≠ p := by
      rintro q hq rfl
      exact hq (by rw [hp]; exact List.mem_cons_self)
    let a' : RegisterAllocator := { a.setRegister p ⟨reg,0,true,true⟩ with
      frontendRat := Function.update a.frontendRat reg (some p)
      backendRat := Function.update a.backendRat reg (some p)
      freeRegisters := rest }
    have hvalid : ∀ q, a'.isValid q = if q = p then true else a.isValid q :=
      fun q => RegisterAllocator.isValid_setRegister a p q _
    have hextend : ∀ m : ℕ → Option ℕ, m reg = none → ∀ r q, m r = some q →
        Function.update m reg (some p) r = some q := by
      intro m hm r q hr
      rw [Function.update_of_ne fun he => by rw [he, hm] at hr; cases hr]
      exact hr
    refine ⟨p,a',?_,⟨hpart.map hnone,?_,fun w hw => ?_,fun r q hr => ?_⟩,
      Function.update_self _ _ _,hextend _ hf,hextend _ hnone,fun q hq => ?_,?_,?_⟩
    · simp only [RegisterAllocator.renameSrcRegister, hf, hp]
      rfl
    · funext r
      change Function.update a.frontendRat reg (some p) r =
        mappingAfter (Function.update a.backendRat reg (some p)) flight r
      by_cases hr : r = reg
      · rw [hr, mappingAfter_of_none _ hmapped, Function.update_self, Function.update_self]
      · rw [Function.update_of_ne hr, h.frontend]
        exact mappingAfter_congr (Function.update_of_ne hr _ _).symm
    · have hne := hother w.2 (h.flight_not_free hw)
      exact (congrArg _ (Function.update_of_ne hne _ _)).trans (h.arch w hw)
    · rw [hvalid]
      split_ifs with hq
      · rfl
      · refine h.committed r q ?_
        by_cases he : r = reg
        · subst he
          cases (Function.update_self r (some p) a.backendRat).symm.trans hr
          exact absurd rfl hq
        · exact (Function.update_of_ne he _ _).symm.trans hr
    · rw [hvalid, if_neg (hother q hq)]
    · rw [hp]
      exact List.subset_cons_self p rest
    · rw [hp, RegisterAllocator.isAllocated, hf]
      exact Nat.le_refl _

/-- A register that is written gets a free one, that is not valid yet. -/
lemma renameDest (h : Allocated n a flight) (reg producerId : ℕ) (hfree : a.freeRegisters ≠ []) :
    ∃ p a', a.renameDestRegister reg producerId = some (p,a') ∧
      Allocated n a' (flight ++ [(reg,p)]) ∧ a'.backendRat = a.backendRat ∧
      a'.isValid p = false ∧ (∀ q ∉ a.freeRegisters, a'.isValid q = a.isValid q) ∧
      a'.freeRegisters ⊆ a.freeRegisters ∧
      a.freeRegisters.length = a'.freeRegisters.length + 1 := by
  obtain ⟨p,rest,hp⟩ := List.exists_cons_of_ne_nil hfree
  have hpart := h.partition
  rw [hp] at hpart
  have hother : ∀ q ∉ a.freeRegisters, q ≠ p := by
    rintro q hq rfl
    exact hq (by rw [hp]; exact List.mem_cons_self)
  let a' : RegisterAllocator := { a.setRegister p ⟨reg,producerId,false,true⟩ with
    frontendRat := Function.update a.frontendRat reg (some p)
    freeRegisters := rest }
  have hvalid : ∀ q, a'.isValid q = if q = p then false else a.isValid q :=
    fun q => RegisterAllocator.isValid_setRegister a p q _
  refine ⟨p,a',?_,⟨?_,?_,fun w hw => ?_,fun r q hr => ?_⟩,rfl,?_,fun q hq => ?_,?_,?_⟩
  · simp only [RegisterAllocator.renameDestRegister, hp]
    rfl
  · rw [List.map_append]
    exact hpart.rename
  · rw [mappingAfter_append]
    exact congrArg (write · (reg,p)) h.frontend
  · rcases List.mem_append.mp hw with hw | hw
    · have hne := hother w.2 (h.flight_not_free hw)
      exact (congrArg _ (Function.update_of_ne hne _ _)).trans (h.arch w hw)
    · rw [List.mem_singleton.mp hw]
      exact congrArg _ (Function.update_self p _ _)
  · rw [hvalid, if_neg (hother q (h.committed_not_free hr))]
    exact h.committed r q hr
  · rw [hvalid, if_pos rfl]
  · rw [hvalid, if_neg (hother q hq)]
  · rw [hp]
    exact List.subset_cons_self p rest
  · rw [hp]
    rfl

lemma completeDest (h : Allocated n a flight) (p : ℕ) :
    Allocated n (a.completeDestRegister p) flight where
  partition := h.partition
  frontend := h.frontend
  arch w hw := by
    by_cases hp : w.2 = p
    · subst hp
      exact (congrArg _ (Function.update_self w.2 _ _)).trans (h.arch w hw)
    · exact (congrArg _ (Function.update_of_ne hp _ _)).trans (h.arch w hw)
  committed r q hr := by
    rw [RegisterAllocator.completeDestRegister, RegisterAllocator.isValid_setRegister]
    split_ifs
    · rfl
    · exact h.committed r q hr

/-- The oldest write in flight is committed once its register is valid. -/
lemma retireDest (h : Allocated n a ((reg,p) :: flight)) (hp : a.isValid p = true) :
    Allocated n (a.retireDestRegister p) flight ∧
      (a.retireDestRegister p).backendRat = write a.backendRat (reg,p) ∧
      ∀ q ∉ (a.retireDestRegister p).freeRegisters,
        (a.retireDestRegister p).isValid q = a.isValid q := by
  have hreg : (a.physicalRegisterFile p).archRegIndex = reg := h.arch (reg,p) List.mem_cons_self
  have hpart := h.partition
  rw [List.map_cons] at hpart
  have hretired := hpart.retire reg
  cases hb : a.backendRat reg with
  | none =>
    have hresult : a.retireDestRegister p =
        { a with backendRat := Function.update a.backendRat reg (some p) } := by
      simp only [RegisterAllocator.retireDestRegister, hreg, hb]
    rw [hb, Option.toList_none, List.append_nil] at hretired
    rw [hresult]
    refine ⟨⟨hretired,h.frontend,fun w hw => h.arch w (List.mem_cons_of_mem _ hw),
      fun r q hr => ?_⟩,rfl,fun _ _ => rfl⟩
    by_cases he : r = reg
    · subst he
      rw [← Option.some.inj ((Function.update_self r (some p) a.backendRat).symm.trans hr)]
      exact hp
    · exact h.committed r q ((Function.update_of_ne he _ _).symm.trans hr)
  | some old =>
    let a' := { a with backendRat := Function.update a.backendRat reg (some p) }.freeRegister old
    have hresult : a.retireDestRegister p = a' := by
      simp only [RegisterAllocator.retireDestRegister, hreg, hb]
      rfl
    rw [hb, Option.toList_some] at hretired
    rw [hresult]
    have hvalid : ∀ q, a'.isValid q = if q = old then false else a.isValid q :=
      fun q => RegisterAllocator.isValid_setRegister _ old q _
    have hkept : ∀ q ∉ a'.freeRegisters, q ≠ old := by
      rintro q hq rfl
      exact hq (List.mem_append_right _ (List.mem_singleton_self q))
    refine ⟨⟨hretired,h.frontend,fun w hw => ?_,fun r q hr => ?_⟩,rfl,fun q hq => ?_⟩
    · have hw' := List.mem_cons_of_mem (reg,p) hw
      have hne : w.2 ≠ old := fun he => hpart.apart reg old hb <|
        he ▸ List.mem_append_right _ (List.mem_map_of_mem hw')
      exact (congrArg _ (Function.update_of_ne hne _ _)).trans (h.arch w hw')
    · have hq : q ≠ old := hkept q fun hfree =>
        hretired.apart r q hr (List.mem_append_left _ hfree)
      rw [hvalid, if_neg hq]
      by_cases he : r = reg
      · subst he
        change Function.update a.backendRat r (some p) r = some q at hr
        have hqp := (Function.update_self r (some p) a.backendRat).symm.trans hr
        rw [← Option.some.inj hqp]
        exact hp
      · exact h.committed r q ((Function.update_of_ne he _ _).symm.trans hr)
    · rw [hvalid, if_neg (hkept q hq)]

end Allocated
end CaLabs.Lab4
