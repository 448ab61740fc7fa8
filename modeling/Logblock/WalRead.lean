import Logblock.ExtentRangeMap
import Logblock.WalFormat

/-! Reading a log through its index. The index maps device bytes to records, a record says
where its bytes lie in the log file, and what no record maps reads as zeros. -/
namespace Logblock
namespace Wal

open Bytes Loop Runs ByteStream

abbrev Index := ExtentRangeMap LogRecord

/-- `Index` in the source is keyed by `uint64`, its offsets are `int64`. -/
def nextData (index : Index) (off : ℤ) : ℤ × Option Error :=
  match index.nextKey (toU64 off) with
  | none => (0,some .eof)
  | some next => (i64 next,none)

def nextHole (index : Index) (off : ℤ) : ℤ × Option Error :=
  (i64 (index.nextEmpty (toU64 off)),none)

/-- One pass of the read loop, with `n` bytes of the buffer to fill from `off` on and `out`
the bytes filled so far. -/
def readBody (file : List UInt8) (index : Index) :
    ℕ × ℤ × List UInt8 → Exec ((ℕ × ℤ × List UInt8) ⊕ (List UInt8 × Option Error))
  | (n,off,out) =>
    if n = 0 then .ok (.inr (out,none))
    else
      match index.getWithRange (toU64 off) with
      | none =>
        match index.nextKey (toU64 off) with
        | none => .ok (.inr (out,some .eof))
        | some nextOffset =>
          let zeroLen := min (n : ℤ) (i64 (i64 nextOffset-off))
          if zeroLen < 0 then .error (.panic "slice bounds out of range")
          else .ok (.inl (n-zeroLen.toNat,i64 (off+zeroLen),out++List.replicate zeroLen.toNat 0))
      | some mr =>
        let eEnd := i64 (mr.offset+mr.length : ℕ)
        let readLen := min (n : ℤ) (i64 (eEnd-off))
        let lr := mr.value
        let lrOff := i64 (off-lr.offset)
        let lrRem := i64 (lr.length-lrOff)
        if lrOff < 0 ∨ lrRem < 0 then .error (.panic "lrOff < 0 || lrRem < 0")
        else if readLen > lrRem then .error (.panic "unexpected readLen > lrRem")
        else if readLen < 0 then .error (.panic "slice bounds out of range")
        else
          let logOff := i64 (lr.logOffset+lrOff)
          match (if lr.zero then (List.replicate readLen.toNat 0,none)
            else readAt file logOff readLen.toNat) with
          | (_,some err) => .ok (.inr (out,some err))
          | (bs,none) => .ok (.inl (n-readLen.toNat,i64 (off+readLen),out++bs))

/-- `Reader.ReadAt` and `Writer.ReadAtFrom` with a buffer of `n` bytes: the bytes read and
the error. A pass fills at least one byte. -/
def readIndexed (file : List UInt8) (index : Index) (n : ℕ) (off : ℤ) :
    Exec (List UInt8 × Option Error) :=
  run (readBody file index) (n+1) (n,off,[])

/-- The byte of the device at `x`, if a record maps it. -/
def content (file : List UInt8) (index : Index) (x : ℕ) : Option UInt8 :=
  (index.get x).map fun lr =>
    if lr.zero then 0 else file.getD (lr.logOffset.toNat+(x-toU64 lr.offset)) 0

/-- What a read of `n` bytes at `x` returns when the device holds `c` and ends at `stop`. -/
def readResult (c : ℕ → Option UInt8) (stop n x : ℕ) : List UInt8 × Option Error :=
  ((List.range' x (min n (stop-x))).map fun y => (c y).getD 0,
    if min n (stop-x) < n then some .eof else none)

/-- The record of an extent: it covers the extent, and its bytes are in the file. -/
structure Backed (file : List UInt8) (e : RangeValue LogRecord) : Prop where
  int64 : -2^63 ≤ e.value.offset ∧ e.value.offset < 2^63
  start_le : toU64 e.value.offset ≤ e.offset
  le_end : (e.offset+e.length : ℤ) ≤ toU64 e.value.offset+e.value.length
  short : e.value.length < 2^63
  inFile : e.value.zero = false →
    0 ≤ e.value.logOffset ∧ e.value.logOffset+e.value.length ≤ file.length

/-- An index that can be read. Keys beyond the largest `int64` are only mapped by records
that start below, so there is no hole among them. -/
structure Readable (file : List UInt8) (index : Index) : Prop where
  wf : index.WF
  backed : ∀ e ∈ index.tree, Backed file e
  solid : ∀ k, 2^63 ≤ k → index.get k ≠ none → index.get (k-1) ≠ none
  small : file.length < 2^63

namespace Readable

variable {file : List UInt8} {index : Index}

theorem lt_endKey (h : Readable file index) {x : ℕ} (hx : index.get x ≠ none) :
    x < index.endKey := by
  by_contra hge
  exact hx ((ExtentRangeMap.endKey_spec h.wf).1 x (by omega))

theorem endKey_lt (h : Readable file index) : index.endKey < 2^64 := by
  by_contra hge
  obtain ⟨v,hv⟩ := Option.ne_none_iff_exists'.mp ((ExtentRangeMap.endKey_spec h.wf).2 (by omega))
  obtain ⟨e,he,hx,-⟩ := (ExtentRangeMap.get_eq_some h.wf).mp hv
  have := h.wf.bounded e he
  have := hx.2
  omega

/-- The bytes of an extent are one stretch of the log. -/
theorem content_of_mem (h : Readable file index) {e : RangeValue LogRecord} (he : e ∈ index.tree)
    {y : ℕ} (hy : Has e.toRange y) : content file index y = some (if e.value.zero then 0 else
      file.getD (e.value.logOffset.toNat+(y-toU64 e.value.offset)) 0) := by
  rw [content,(ExtentRangeMap.get_eq_some h.wf).mpr ⟨e,he,hy,rfl⟩]
  rfl

end Readable

theorem map_range'_eq_slice {file : List UInt8} {a r x : ℕ} (h : a+r ≤ file.length)
    (c : ℕ → Option UInt8) (hc : ∀ y, x ≤ y → y < x+r → c y = some (file.getD (a+(y-x)) 0)) :
    (List.range' x r).map (fun y => (c y).getD 0) = (file.drop a).take r := by
  refine List.ext_getElem (by simp; omega) fun i h₁ h₂ => ?_
  have hi : i < r := by simpa using h₁
  simp only [List.getElem_map,List.getElem_range',List.getElem_take,List.getElem_drop,one_mul]
  rw [hc (x+i) (by omega) (by omega),Option.getD_some,show a+(x+i-x) = a+i by omega]
  exact List.getD_eq_getElem _ _ (by omega)

theorem map_range'_eq_zeros {r x : ℕ} (c : ℕ → Option UInt8)
    (hc : ∀ y, x ≤ y → y < x+r → (c y).getD 0 = 0) :
    (List.range' x r).map (fun y => (c y).getD 0) = List.replicate r 0 := by
  refine List.ext_getElem (by simp) fun i h₁ h₂ => ?_
  have hi : i < r := by simpa using h₁
  simpa using hc (x+i) (by omega) (by omega)

/-- A pass of the loop that fills `r` bytes leaves the rest of the read to be done. -/
theorem readResult_step {c : ℕ → Option UInt8} {stop n x r : ℕ} (hr : r ≤ min n (stop-x)) :
    readResult c stop n x = ((List.range' x r).map (fun y => (c y).getD 0)++
      (readResult c stop (n-r) (x+r)).1,(readResult c stop (n-r) (x+r)).2) := by
  have hm : min n (stop-x) = r+min (n-r) (stop-(x+r)) := by omega
  have hlt : (min n (stop-x) < n) ↔ (min (n-r) (stop-(x+r)) < n-r) := by omega
  refine Prod.ext ?_ ?_
  · simp only [readResult]
    rw [hm,← List.range'_append_1,List.map_append]
  · simp only [readResult,hlt]

theorem toU64_i64_natCast {x : ℕ} (h : x < 2^64) : toU64 (i64 x) = x := by
  rw [toU64_i64,toU64_natCast h]

theorem i64_sub_i64 (a b : ℤ) : i64 (i64 a-i64 b) = i64 (a-b) := by
  unfold i64
  omega

theorem i64_add_i64 (a b : ℤ) : i64 (i64 a+b) = i64 (a+b) := by
  unfold i64
  omega

namespace Readable

variable {file : List UInt8} {index : Index}

/-- At a hole before the end the pass clears the bytes up to the next mapped key. -/
theorem readBody_hole (h : Readable file index) {n x : ℕ} (hn : 0 < n) (hx : x < index.endKey)
    (hg : index.getWithRange x = none) (out : List UInt8) :
    ∃ r, 0 < r ∧ r ≤ min n (index.endKey-x) ∧ readBody file index (n,i64 x,out) =
      .ok (.inl (n-r,i64 (x+r : ℕ),
        out++(List.range' x r).map fun y => (content file index y).getD 0)) := by
  have hend := h.endKey_lt
  have hget : index.get x = none := by rw [ExtentRangeMap.get_eq_map,hg]; rfl
  have hkey := ExtentRangeMap.nextKey_spec h.wf x
  cases hk : index.nextKey x with
  | none =>
    rw [hk] at hkey
    exact absurd ((ExtentRangeMap.endKey_spec h.wf).2 (by omega)) (hkey _ (by omega))
  | some next =>
    rw [hk] at hkey
    obtain ⟨hle,hne,hgap⟩ := hkey
    have hlt : x < next := lt_of_le_of_ne hle fun he => hne (he ▸ hget)
    have hnext : next < index.endKey := h.lt_endKey hne
    -- the hole ends below 2^63, so the signed distance is the distance
    have hsmall : next < 2^63 := by
      by_contra hge
      exact h.solid next (by omega) hne (not_not.mp (hgap (next-1) (by omega) (by omega)))
    refine ⟨min n (next-x),by omega,by omega,?_⟩
    have hdist : i64 (i64 next-i64 x) = ((next-x : ℕ) : ℤ) := by
      rw [i64_sub_i64]
      unfold i64
      omega
    have hmin : min (n : ℤ) ((next-x : ℕ) : ℤ) = ((min n (next-x) : ℕ) : ℤ) := by omega
    have hz : (List.range' x (min n (next-x))).map (fun y => (content file index y).getD 0) =
        List.replicate (min n (next-x)) 0 := by
      refine map_range'_eq_zeros _ fun y hy hy' => ?_
      rw [content,not_not.mp (hgap y hy (by omega))]
      rfl
    simp only [readBody,if_neg hn.ne',toU64_i64_natCast (hx.trans hend),hg,hk,hdist,hmin,
      Int.toNat_natCast,hz,i64_add_i64]
    rw [if_neg (by omega),Nat.cast_add]

/-- In an extent the pass copies its bytes from the log. -/
theorem readBody_extent (h : Readable file index) {n x : ℕ} (hn : 0 < n)
    {e : RangeValue LogRecord} (hg : index.getWithRange x = some e) (out : List UInt8) :
    ∃ r, 0 < r ∧ r ≤ min n (index.endKey-x) ∧ readBody file index (n,i64 x,out) =
      .ok (.inl (n-r,i64 (x+r : ℕ),
        out++(List.range' x r).map fun y => (content file index y).getD 0)) := by
  have hend := h.endKey_lt
  obtain ⟨he,hhas⟩ := (ExtentRangeMap.getWithRange_eq_some h.wf).mp hg
  obtain ⟨hx₁,hx₂⟩ := hhas
  have hb := h.backed e he
  have hbound := h.wf.bounded e he
  have hlast : e.offset+e.length-1 < index.endKey :=
    h.lt_endKey (h.wf.get_ne_none he ⟨by omega,by omega⟩)
  obtain ⟨hi₁,hi₂⟩ := hb.int64
  have hs := hb.start_le
  have hl := hb.le_end
  have hshort := hb.short
  have hsmall := h.small
  set st := toU64 e.value.offset with hst
  have hoff : e.value.offset = i64 st := by
    rw [hst]
    unfold i64 toU64
    omega
  have hdist : i64 (i64 ((e.offset+e.length : ℕ) : ℤ)-i64 x) =
      ((e.offset+e.length-x : ℕ) : ℤ) := by
    rw [i64_sub_i64]
    unfold i64
    omega
  have hlrOff : i64 (i64 x-e.value.offset) = ((x-st : ℕ) : ℤ) := by
    rw [hoff,i64_sub_i64]
    unfold i64
    omega
  have hlrRem : i64 (e.value.length-((x-st : ℕ) : ℤ)) = e.value.length-((x-st : ℕ) : ℤ) :=
    i64_of_range (by omega) (by omega)
  have hmin : min (n : ℤ) ((e.offset+e.length-x : ℕ) : ℤ) =
      ((min n (e.offset+e.length-x) : ℕ) : ℤ) := by omega
  have hcontent : ∀ y, x ≤ y → y < x+min n (e.offset+e.length-x) → content file index y =
      some (if e.value.zero then 0 else file.getD (e.value.logOffset.toNat+(y-st)) 0) :=
    fun y hy hy' => h.content_of_mem he ⟨by omega,by omega⟩
  refine ⟨min n (e.offset+e.length-x),by omega,by omega,?_⟩
  simp only [readBody,if_neg hn.ne',toU64_i64_natCast (show x < 2^64 by omega),hg,hdist,hlrOff,
    hlrRem,hmin,Int.toNat_natCast,i64_add_i64]
  rw [if_neg (by omega),if_neg (by omega),if_neg (by omega)]
  cases hz : e.value.zero with
  | true =>
    have hzero : (List.range' x (min n (e.offset+e.length-x))).map
        (fun y => (content file index y).getD 0) = List.replicate (min n (e.offset+e.length-x)) 0 := by
      refine map_range'_eq_zeros _ fun y hy hy' => ?_
      rw [hcontent y hy hy',hz]
      rfl
    simp only [if_true,hzero,Nat.cast_add]
  | false =>
    obtain ⟨hf₁,hf₂⟩ := hb.inFile hz
    have hlog : i64 (e.value.logOffset+((x-st : ℕ) : ℤ)) =
        ((e.value.logOffset.toNat+(x-st) : ℕ) : ℤ) := by
      rw [i64_of_range (by omega) (by omega)]
      omega
    have hslice := map_range'_eq_slice (x := x) (show e.value.logOffset.toNat+(x-st)+
      min n (e.offset+e.length-x) ≤ file.length by omega) (content file index) fun y hy hy' => by
        rw [hcontent y hy hy',hz,show e.value.logOffset.toNat+(y-st) =
          e.value.logOffset.toNat+(x-st)+(y-x) by omega]
        rfl
    simp only [Bool.false_eq_true,if_false,hlog]
    rw [readAt_of_le (by omega)]
    simp only [hslice,Nat.cast_add]

/-- Below the end a pass fills some bytes with the content of the device. -/
theorem readBody_of_lt (h : Readable file index) {n x : ℕ} (hn : 0 < n) (hx : x < index.endKey)
    (out : List UInt8) : ∃ r, 0 < r ∧ r ≤ min n (index.endKey-x) ∧ readBody file index (n,i64 x,out) =
      .ok (.inl (n-r,i64 (x+r : ℕ),
        out++(List.range' x r).map fun y => (content file index y).getD 0)) := by
  cases hg : index.getWithRange x with
  | none => exact h.readBody_hole hn hx hg out
  | some e => exact h.readBody_extent hn hg out

/-- From the end on there is neither data nor a next key. -/
theorem lookup_of_ge (h : Readable file index) {x : ℕ} (hx : index.endKey ≤ x) :
    index.getWithRange x = none ∧ index.nextKey x = none := by
  have hall : ∀ y, x ≤ y → index.get y = none :=
    fun y hy => (ExtentRangeMap.endKey_spec h.wf).1 y (by omega)
  constructor
  · have := hall x le_rfl
    rw [ExtentRangeMap.get_eq_map] at this
    exact Option.map_eq_none_iff.mp this
  · have hkey := ExtentRangeMap.nextKey_spec h.wf x
    cases hk : index.nextKey x with
    | none => rfl
    | some y =>
      rw [hk] at hkey
      exact absurd (hall y hkey.1) hkey.2.1

theorem run_readBody (h : Readable file index) (fuel n x : ℕ) (hx : x < 2^64) (out : List UInt8)
    (hfuel : n < fuel) : run (readBody file index) fuel (n,i64 x,out) =
      .ok (out++(readResult (content file index) index.endKey n x).1,
        (readResult (content file index) index.endKey n x).2) := by
  induction fuel generalizing n x out with
  | zero => omega
  | succ fuel ih =>
    have hend := h.endKey_lt
    by_cases hn : n = 0
    · subst hn
      have hbody : readBody file index (0,i64 x,out) = .ok (.inr (out,none)) := rfl
      rw [run_done hbody]
      simp [readResult]
    · by_cases hlt : x < index.endKey
      · obtain ⟨r,hr,hrle,hbody⟩ := h.readBody_of_lt (Nat.pos_of_ne_zero hn) hlt out
        rw [run_next hbody,ih (n-r) (x+r) (by omega) _ (by omega),readResult_step hrle,
          List.append_assoc]
      · obtain ⟨hg,hk⟩ := h.lookup_of_ge (not_lt.mp hlt)
        have hbody : readBody file index (n,i64 x,out) = .ok (.inr (out,some .eof)) := by
          simp only [readBody,if_neg hn,toU64_i64_natCast hx,hg,hk]
        have hm : min n (index.endKey-x) = 0 := by omega
        rw [run_done hbody]
        simp [readResult,hm,Nat.pos_of_ne_zero hn]

/-- Reading returns the content of the device up to its end. -/
theorem readIndexed_eq (h : Readable file index) (n : ℕ) (off : ℤ) (h₁ : -2^63 ≤ off)
    (h₂ : off < 2^63) : readIndexed file index n off =
      .ok (readResult (content file index) index.endKey n (toU64 off)) := by
  have hoff : off = i64 (toU64 off) := by
    unfold i64 toU64
    omega
  have := h.run_readBody (n+1) n (toU64 off) (toU64_lt off) [] (by omega)
  rw [← hoff] at this
  exact this

end Readable

end Wal
end Logblock
