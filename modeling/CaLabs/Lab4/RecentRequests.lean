import CaLabs.Lab4.BestOffset

/-! The RR table: index and tag together name a line modulo 2^20, but a slot that was never
written holds a valid tag. -/
namespace CaLabs.Lab4.BestOffset

lemma toNat_extractLsb'_zero (line : Line) :
    (line.extractLsb' 0 20).toNat = line.toNat % 2 ^ 20 := by
  rw [BitVec.extractLsb'_toNat, Nat.shiftRight_zero]

/-- Index and tag together are the 20 lowest bits. -/
lemma mod_eq_iff (line line' : Line) : line.toNat % 2 ^ 20 = line'.toNat % 2 ^ 20 ↔
    hash line = hash line' ∧ tagVal line = tagVal line' := by
  rw [← toNat_extractLsb'_zero, ← toNat_extractLsb'_zero, BitVec.toNat_inj]
  constructor
  · intro h
    have hbit : ∀ i < 20, line.getLsbD i = line'.getLsbD i := by
      intro i hi
      have hi' := congrArg (fun x : BitVec 20 => x.getLsbD i) h
      simpa only [BitVec.getLsbD_extractLsb', hi, decide_true, Bool.true_and, Nat.zero_add]
        using hi'
    constructor
    · apply BitVec.eq_of_getLsbD_eq
      intro i hi
      simp only [hash, BitVec.getLsbD_xor, BitVec.getLsbD_extractLsb', hi, decide_true,
        Bool.true_and, Nat.zero_add]
      rw [hbit i (by omega), hbit (8 + i) (by omega)]
    · apply BitVec.eq_of_getLsbD_eq
      intro i hi
      simp only [tagVal, BitVec.getLsbD_extractLsb', hi, decide_true, Bool.true_and]
      exact hbit (8 + i) (by omega)
  · rintro ⟨hhash,htag⟩
    have hhigh : ∀ i < 12, line.getLsbD (8 + i) = line'.getLsbD (8 + i) := by
      intro i hi
      have hi' := congrArg (fun x : BitVec 12 => x.getLsbD i) htag
      simpa only [tagVal, BitVec.getLsbD_extractLsb', hi, decide_true, Bool.true_and] using hi'
    apply BitVec.eq_of_getLsbD_eq
    intro i hi
    simp only [BitVec.getLsbD_extractLsb', hi, decide_true, Bool.true_and, Nat.zero_add]
    rcases Nat.lt_or_ge i 8 with hlow | hge
    · -- a low bit is the bit of the index without that of the tag
      have hi' := congrArg (fun x : BitVec 8 => x.getLsbD i) hhash
      simp only [hash, BitVec.getLsbD_xor, BitVec.getLsbD_extractLsb', hlow, decide_true,
        Bool.true_and, Nat.zero_add, hhigh i (by omega)] at hi'
      exact Bool.xor_left_inj.mp hi'
    · have hshift := hhigh (i - 8) (by omega)
      rwa [Nat.add_sub_cancel' hge] at hshift

/-- The trigger line that a fill records, if it is in the page of the filled line. -/
def recorded (bestOffset : ℕ) (fillLine : Line) (prefetch : Bool) : List Line :=
  if page (triggerLine bestOffset fillLine prefetch) ≠ page fillLine then []
  else [triggerLine bestOffset fillLine prefetch]

/-- The last line recorded into a slot; the newest line is first. -/
def lastRecorded (records : List Line) (slot : BitVec 8) : Option Line :=
  records.find? fun line => hash line = slot

namespace OffsetPrefetcher
variable {σ : Type} (P : OffsetPrefetcher σ)

/-- What an event records. -/
def recordedBy (s : σ) : Event → List Line
  | .fill addr prefetch => recorded (P.bestOffset s) (lineOf addr) prefetch
  | .access _ => []

/-- The lines that the fills of a run record, the newest first. -/
def records : σ → List Event → List Line
  | _,[] => []
  | s,e :: rest => records (P.step s e) rest ++ P.recordedBy s e

end OffsetPrefetcher

/-- Each slot holds the tag of the last line recorded into it, and 0 before the first. -/
def HoldsLast (l : Learner) (records : List Line) : Prop :=
  ∀ slot, l.rrTable slot = ((lastRecorded records slot).map tagVal).getD 0

namespace HoldsLast
variable {l : Learner} {records : List Line}

lemma rrTable_learn (l : Learner) (line : Line) : (l.learn line).rrTable = l.rrTable := by
  simp only [Learner.learn]
  split_ifs <;> rfl

lemma cacheFill (h : HoldsLast l records) (bestOffset : ℕ) (fillLine : Line) (prefetch : Bool) :
    HoldsLast (l.cacheFill bestOffset fillLine prefetch)
      (recorded bestOffset fillLine prefetch ++ records) := by
  simp only [Learner.cacheFill, recorded]
  generalize triggerLine bestOffset fillLine prefetch = trigger
  split_ifs with hpage
  · exact h
  · intro slot
    simp only [Learner.record, lastRecorded, List.singleton_append, List.find?_cons]
    by_cases hslot : hash trigger = slot
    · subst hslot
      simp
    · rw [Function.update_of_ne (Ne.symm hslot), h slot]
      simp [hslot, lastRecorded]

/-- The table along a run. -/
lemma run {σ : Type} (P : OffsetPrefetcher σ) {s : σ} (h : HoldsLast (P.learner s) records)
    (events : List Event) :
    HoldsLast (P.learner (P.run s events)) (P.records s events ++ records) := by
  induction events generalizing s records with
  | nil => exact h
  | cons e rest ih =>
    have hstep : HoldsLast (P.learner (P.step s e)) (P.recordedBy s e ++ records) := by
      cases e with
      | fill addr prefetch =>
        rw [OffsetPrefetcher.step, P.learner_fill]
        exact h.cacheFill _ _ _
      | access a =>
        rw [OffsetPrefetcher.step]
        cases ha : a.operates with
        | false =>
          rw [P.learner_idle s a ha]
          exact h
        | true =>
          rw [P.learner_operate s a ha]
          intro slot
          rw [rrTable_learn]
          exact h slot
    have hrun := ih hstep
    rw [OffsetPrefetcher.records, List.append_assoc]
    exact hrun

end HoldsLast

/-- The score of the tested candidate rises. -/
def ScoreRises (l : Learner) (line : Line) : Prop :=
  (l.test line).scores l.candidateIdx = l.scores l.candidateIdx + 1

lemma scoreRises_iff_hits (l : Learner) (line : Line) :
    ScoreRises l line ↔ l.hits line = true := by
  rw [ScoreRises, Learner.test]
  cases l.hits line <;> simp

/-- The last line recorded into the slot of the tested line is the tested line modulo 2^20. -/
def SeenRecently (records : List Line) (testLine : Line) : Prop :=
  ∃ line, lastRecorded records (hash testLine) = some line ∧
    line.toNat % 2 ^ 20 = testLine.toNat % 2 ^ 20

/-- Some line was recorded into the slot, or one of the bits 8 to 19 of the tested line is
set. -/
def SlotKnown (records : List Line) (testLine : Line) : Prop :=
  (lastRecorded records (hash testLine)).isSome = true ∨ tagVal testLine ≠ 0

lemma hash_of_lastRecorded {records : List Line} {slot : BitVec 8} {line : Line}
    (h : lastRecorded records slot = some line) : hash line = slot := by
  have hfound := List.find?_some h
  simpa using hfound

/-- A score rises for the right reason exactly if the slot is known. -/
lemma HoldsLast.exact_iff {l : Learner} {records : List Line} (h : HoldsLast l records)
    (line : Line) : (ScoreRises l line ↔ SeenRecently records (l.testLine line)) ↔
      SlotKnown records (l.testLine line) := by
  rw [scoreRises_iff_hits, Learner.hits, decide_eq_true_eq, h, SeenRecently, SlotKnown]
  cases hlast : lastRecorded records (hash (l.testLine line)) with
  | none =>
    simp only [Option.map_none, Option.getD_none, reduceCtorEq, false_and, exists_false,
      iff_false, Option.isSome_none, Bool.false_eq_true, false_or]
    exact not_congr eq_comm
  | some recordedLine =>
    have hhash := hash_of_lastRecorded hlast
    simp only [Option.map_some, Option.getD_some, Option.some.injEq, Option.isSome_some, true_or,
      exists_eq_left', mod_eq_iff, hhash, true_and]

namespace OffsetPrefetcher
variable {σ : Type} (P : OffsetPrefetcher σ)

/-- After the events, an access to the line raises the score of the tested candidate if and only
if the tested line was seen recently. -/
def ExactAt (events : List Event) (line : Line) : Prop :=
  ScoreRises (P.learner (P.run P.initial events)) line ↔
    SeenRecently (P.records P.initial events)
      ((P.learner (P.run P.initial events)).testLine line)

def KnownAt (events : List Event) (line : Line) : Prop :=
  SlotKnown (P.records P.initial events) ((P.learner (P.run P.initial events)).testLine line)

lemma exactAt_iff (events : List Event) (line : Line) :
    P.ExactAt events line ↔ P.KnownAt events line := by
  have hinit : HoldsLast (P.learner P.initial) [] := by
    rw [P.initial_learner]
    exact fun _ => rfl
  have hrun := hinit.run P events
  rw [List.append_nil] at hrun
  exact hrun.exact_iff line

end OffsetPrefetcher

/-- For bop in either mode and for abop, after every sequence of fills and accesses and for every
line: the RR table is exact if and only if the slot of the tested line is known. -/
theorem rrTable_exact_iff (events : List Event) (line : Line) :
    (∀ hybridMode, (Bop.prefetcher hybridMode).ExactAt events line ↔
      (Bop.prefetcher hybridMode).KnownAt events line) ∧
    (Abop.prefetcher.ExactAt events line ↔ Abop.prefetcher.KnownAt events line) :=
  ⟨fun hybridMode => (Bop.prefetcher hybridMode).exactAt_iff events line,
    Abop.prefetcher.exactAt_iff events line⟩

/-- The very first access, to line 1, raises the score of offset 1. -/
theorem firstAccess_hits : ¬(Bop.prefetcher false).ExactAt [] 1 ∧ ¬Abop.prefetcher.ExactAt [] 1 := by
  constructor
  · intro h
    obtain ⟨line,hline,-⟩ := h.mp (by unfold ScoreRises; decide)
    cases hline
  · intro h
    obtain ⟨line,hline,-⟩ := h.mp (by unfold ScoreRises; decide)
    cases hline

end CaLabs.Lab4.BestOffset
