import Mathlib

/-! Exact bit queries: bounded search, bitmaps of 256 bits and growable bit sets.
A bit set knows its length and holds no bit beyond it. -/
namespace Logblock

/-- The least index of `[i,n)` with the property. -/
def search (p : ℕ → Bool) (i n : ℕ) : Option ℕ := (List.range' i (n-i)).find? p

theorem search_eq_some {p : ℕ → Bool} {i n j : ℕ} (h : search p i n = some j) :
    i ≤ j ∧ j < n ∧ p j = true ∧ ∀ k, i ≤ k → k < j → p k = false := by
  obtain ⟨h₁,h₂,h₃⟩ := List.find?_range'_eq_some.mp h
  rw [List.mem_range'_1] at h₂
  refine ⟨h₂.1,by omega,h₁,fun k hk hkj => ?_⟩
  simpa using h₃ k hk hkj

theorem search_eq_none {p : ℕ → Bool} {i n : ℕ} (h : search p i n = none) :
    ∀ k, i ≤ k → k < n → p k = false := by
  intro k hk hkn
  simpa using List.find?_range'_eq_none.mp h k hk (by omega)

/-- The least result of a search that answers `n` when it finds nothing. -/
theorem search_getD_spec (p : ℕ → Bool) {i n : ℕ} (hi : i ≤ n) :
    i ≤ (search p i n).getD n ∧ (search p i n).getD n ≤ n ∧
      ((search p i n).getD n < n → p ((search p i n).getD n) = true) ∧
      ∀ k, i ≤ k → k < (search p i n).getD n → p k = false := by
  cases h : search p i n with
  | none => exact ⟨hi,le_rfl,fun hlt => absurd hlt (by simp),search_eq_none h⟩
  | some j =>
    obtain ⟨h₁,h₂,h₃,h₄⟩ := search_eq_some h
    exact ⟨h₁,h₂.le,fun _ => h₃,h₄⟩

/-- 256 bits; a search that finds nothing answers 256. -/
structure Bitmap256 where
  bits : ℕ → Bool

namespace Bitmap256

def zero : Bitmap256 := ⟨fun _ => false⟩

def get (bm : Bitmap256) (i : ℕ) : Bool := bm.bits i

def set (bm : Bitmap256) (i : ℕ) : Bitmap256 := ⟨fun j => if j = i then true else bm.bits j⟩

def empty (bm : Bitmap256) : Bool := (List.range 256).all fun i => !bm.bits i

def full (bm : Bitmap256) : Bool := (List.range 256).all bm.bits

def findNextSet (bm : Bitmap256) (i : ℕ) : ℕ := (search bm.bits i 256).getD 256

def findNextClear (bm : Bitmap256) (i : ℕ) : ℕ := (search (fun j => !bm.bits j) i 256).getD 256

def findFirstSet (bm : Bitmap256) : ℕ := bm.findNextSet 0

def findFirstClear (bm : Bitmap256) : ℕ := bm.findNextClear 0

theorem empty_iff {bm : Bitmap256} : bm.empty = true ↔ ∀ i < 256, bm.bits i = false := by
  simp [empty]

theorem full_iff {bm : Bitmap256} : bm.full = true ↔ ∀ i < 256, bm.bits i = true := by
  simp [full]

theorem findNextSet_spec (bm : Bitmap256) {i : ℕ} (hi : i ≤ 256) :
    i ≤ bm.findNextSet i ∧ (bm.findNextSet i < 256 → bm.bits (bm.findNextSet i) = true) ∧
      ∀ k, i ≤ k → k < bm.findNextSet i → bm.bits k = false := by
  obtain ⟨h₁,-,h₃,h₄⟩ := search_getD_spec bm.bits hi
  exact ⟨h₁,h₃,h₄⟩

theorem findNextClear_spec (bm : Bitmap256) {i : ℕ} (hi : i ≤ 256) :
    i ≤ bm.findNextClear i ∧ (bm.findNextClear i < 256 → bm.bits (bm.findNextClear i) = false) ∧
      ∀ k, i ≤ k → k < bm.findNextClear i → bm.bits k = true := by
  obtain ⟨h₁,-,h₃,h₄⟩ := search_getD_spec (fun j => !bm.bits j) hi
  exact ⟨h₁,fun h => (Bool.not_eq_true' _).mp (h₃ h),
    fun k hk hlt => (Bool.not_eq_false' _).mp (h₄ k hk hlt)⟩

end Bitmap256

structure BitSet where
  len : ℕ
  bits : ℕ → Bool
  lt_len : ∀ i, bits i = true → i < len

namespace BitSet

def empty : BitSet := ⟨0,fun _ => false,by simp⟩

def test (b : BitSet) (i : ℕ) : Bool := b.bits i

/-- Setting a bit beyond the end grows the set. -/
def set (b : BitSet) (i : ℕ) : BitSet where
  len := max b.len (i+1)
  bits j := if j = i then true else b.bits j
  lt_len j hj := by
    split_ifs at hj with h
    · omega
    · have := b.lt_len j hj
      omega

def new (len : ℕ) : BitSet := ⟨len,fun _ => false,by simp⟩

def setAll (b : BitSet) : BitSet := ⟨b.len,fun i => i < b.len,fun i hi => by simpa using hi⟩

def clear (b : BitSet) (i : ℕ) : BitSet where
  len := b.len
  bits j := if j = i then false else b.bits j
  lt_len j hj := by
    split_ifs at hj
    exact b.lt_len j hj

def nextSet (b : BitSet) (i : ℕ) : Option ℕ := search b.bits i b.len

/-- Fails when every stored bit from `i` on is set. -/
def nextClear (b : BitSet) (i : ℕ) : Option ℕ := search (fun j => !b.bits j) i b.len

@[simp] theorem set_bits (b : BitSet) (i j : ℕ) :
    (b.set i).bits j = if j = i then true else b.bits j := rfl

@[simp] theorem clear_bits (b : BitSet) (i j : ℕ) :
    (b.clear i).bits j = if j = i then false else b.bits j := rfl

@[simp] theorem setAll_bits (b : BitSet) (i : ℕ) : b.setAll.bits i = decide (i < b.len) := rfl

@[simp] theorem len_new (len : ℕ) : (new len).len = len := rfl

theorem nextSet_eq_some {b : BitSet} {i j : ℕ} (h : b.nextSet i = some j) :
    i ≤ j ∧ b.bits j = true ∧ ∀ k, i ≤ k → k < j → b.bits k = false := by
  obtain ⟨h₁,-,h₃,h₄⟩ := search_eq_some h
  exact ⟨h₁,h₃,h₄⟩

theorem nextSet_eq_none {b : BitSet} {i : ℕ} (h : b.nextSet i = none) :
    ∀ k, i ≤ k → b.bits k = false := by
  intro k hk
  by_contra hb
  have hb : b.bits k = true := by simpa using hb
  have := search_eq_none h k hk (b.lt_len k hb)
  simp [hb] at this

end BitSet
end Logblock
