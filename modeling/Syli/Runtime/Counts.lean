import Syli.Runtime.GcHelpers

/-! `object.h`: the word that holds the count of an object below its flags, and the two ways in
which the model counts. -/
namespace Syli.Runtime

open Foundation

namespace GCObject

variable (o : GCObject)

/-- Bits 56 to 63 of `meta_ref_count`: the flags, of which three have no name, and the mark. -/
def flagByte : BitVec 8 :=
  BitVec.ofBoolListLE [o.cyclicCandidate, o.spareFlags.getLsbD 0, o.tracing, o.waitingRemove,
    o.childrenReleased, o.spareFlags.getLsbD 1, o.spareFlags.getLsbD 2, o.mark]

def setFlagByte (b : BitVec 8) : GCObject :=
  { o with
    cyclicCandidate := b.getLsbD 0
    tracing := b.getLsbD 2
    waitingRemove := b.getLsbD 3
    childrenReleased := b.getLsbD 4
    spareFlags := BitVec.ofBoolListLE [b.getLsbD 1, b.getLsbD 5, b.getLsbD 6]
    mark := b.getLsbD 7 }

/-- A word with a count of 56 bits. -/
def wordOf (flags : BitVec 8) (count : Nat) : BitVec 64 :=
  BitVec.ofNat 64 (flags.toNat * 2 ^ 56 + count)

/-- `meta_ref_count`. -/
def metaWord : BitVec 64 := wordOf o.flagByte o.refcount

/-- `meta_ref_count++`: past 56 bits the carry goes into the flags. -/
def metaIncr : GCObject :=
  if o.refcount + 1 = 2 ^ 56 then { o.setFlagByte (o.flagByte + 1) with refcount := 0 }
  else { o with refcount := o.refcount + 1 }

/-- `meta_ref_count--`: below 0 the borrow comes from the flags. -/
def metaDecr : GCObject :=
  if o.refcount = 0 then { o.setFlagByte (o.flagByte - 1) with refcount := 2 ^ 56 - 1 }
  else { o with refcount := o.refcount - 1 }

variable {o}

theorem flagByte_setFlagByte (b : BitVec 8) (n : Nat) :
    flagByte { o.setFlagByte b with refcount := n } = b := by
  have hbits : ∀ b : BitVec 8, BitVec.ofBoolListLE [b.getLsbD 0,
      (BitVec.ofBoolListLE [b.getLsbD 1, b.getLsbD 5, b.getLsbD 6]).getLsbD 0, b.getLsbD 2,
      b.getLsbD 3, b.getLsbD 4,
      (BitVec.ofBoolListLE [b.getLsbD 1, b.getLsbD 5, b.getLsbD 6]).getLsbD 1,
      (BitVec.ofBoolListLE [b.getLsbD 1, b.getLsbD 5, b.getLsbD 6]).getLsbD 2, b.getLsbD 7] = b := by
    decide
  exact hbits b

theorem wordOf_succ (flags : BitVec 8) (count : Nat) :
    wordOf flags (count + 1) = wordOf flags count + 1 := by
  unfold wordOf
  rw [← Nat.add_assoc, BitVec.ofNat_add]
  rfl

theorem wordOf_carry (flags : BitVec 8) : wordOf (flags + 1) 0 = wordOf flags (2 ^ 56) := by
  apply BitVec.eq_of_toNat_eq
  have hflags := flags.isLt
  have hone : (1 : BitVec 8).toNat = 1 := rfl
  simp only [wordOf, BitVec.toNat_ofNat, BitVec.toNat_add, hone]
  omega

theorem metaWord_metaIncr : o.metaIncr.metaWord = o.metaWord + 1 := by
  unfold metaIncr
  split
  · rename_i hfull
    have hword : metaWord { o.setFlagByte (o.flagByte + 1) with refcount := 0 } =
        wordOf (o.flagByte + 1) 0 := by
      rw [metaWord, flagByte_setFlagByte]
    rw [hword, wordOf_carry, ← hfull, wordOf_succ]
    rfl
  · exact wordOf_succ o.flagByte o.refcount

theorem metaWord_metaDecr : o.metaDecr.metaWord = o.metaWord - 1 := by
  rw [eq_sub_iff_add_eq]
  unfold metaDecr
  split
  · rename_i hzero
    have hword : metaWord { o.setFlagByte (o.flagByte - 1) with refcount := 2 ^ 56 - 1 } =
        wordOf (o.flagByte - 1) (2 ^ 56 - 1) := by
      rw [metaWord, flagByte_setFlagByte]
    rw [hword, ← wordOf_succ, Nat.sub_add_cancel Nat.one_le_two_pow, ← wordOf_carry,
      sub_add_cancel, ← hzero]
    rfl
  · have hcount : o.refcount - 1 + 1 = o.refcount := by omega
    exact (wordOf_succ o.flagByte (o.refcount - 1)).symm.trans (by rw [hcount]; rfl)

end GCObject

/-- How `syli.c` adds and gives up a count. -/
structure Counting where
  incr : GCObject → GCObject
  decr : GCObject → Result GCObject
  incr_header : ∀ o, (incr o).header = o.header
  decr_header : ∀ {o o'}, decr o = .ok o' → o'.header = o.header
  decr_last : ∀ {o o'}, decr o = .ok o' → o'.refcount = 0 →
    o.refcount = 1 ∧ o' = { o with refcount := 0 }

/-- The word of the object as it is, which is tested by neither operation. -/
def wordCounts : Counting where
  incr := GCObject.metaIncr
  decr o := .ok o.metaDecr
  incr_header o := by
    unfold GCObject.metaIncr
    split <;> rfl
  decr_header {o _} h := by
    obtain rfl := Except.ok.inj h
    unfold GCObject.metaDecr
    split <;> rfl
  decr_last {o _} h hzero := by
    obtain rfl := Except.ok.inj h
    unfold GCObject.metaDecr at hzero ⊢
    split at hzero
    · simp at hzero
    · have hone : o.refcount = 1 := by
        simp only at hzero
        omega
      simp [hone]

/-- Counts without a bound, where giving up more counts than there are ends the run. -/
def naturalCounts : Counting where
  incr o := { o with refcount := o.refcount + 1 }
  decr o := do
    check (0 < o.refcount) .refcountUnderflow
    return { o with refcount := o.refcount - 1 }
  incr_header _ := rfl
  decr_header h := by
    simp only [bind_eq_ok, check_eq_ok, pure_eq_ok] at h
    obtain ⟨-, -, rfl⟩ := h
    rfl
  decr_last {o _} h hzero := by
    simp only [bind_eq_ok, check_eq_ok, pure_eq_ok] at h
    obtain ⟨-, hpos, rfl⟩ := h
    have hone : o.refcount = 1 := by
      simp only at hzero
      omega
    simp [hone]

/-- Below 56 bits the word counts as the naturals do. -/
theorem wordCounts_incr {o : GCObject} (h : o.refcount + 1 < 2 ^ 56) :
    wordCounts.incr o = naturalCounts.incr o := by
  have hne : ¬ o.refcount + 1 = 2 ^ 56 := by omega
  simp only [wordCounts, naturalCounts, GCObject.metaIncr, if_neg hne]

theorem wordCounts_decr {o : GCObject} (h : 0 < o.refcount) :
    wordCounts.decr o = naturalCounts.decr o := by
  have hne : o.refcount ≠ 0 := by omega
  simp only [wordCounts, naturalCounts, GCObject.metaDecr, if_neg hne, check, if_pos h]
  rfl

end Syli.Runtime
