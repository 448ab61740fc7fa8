import Logblock.Runs
import Logblock.SparseIndex

/-! The queries of a sparse table, byte by byte, as long as all its bytes have `int64` offsets. -/
namespace Logblock
namespace Sparse

open Loop Bytes Runs

section Bytes

variable (bs : ℕ)

def Run.lo (e : Run) : ℕ := e.off*bs

def Run.hi (e : Run) : ℕ := (e.off+e.len)*bs

/-- The byte `x` lies in one of the runs. -/
def Added (es : List Run) (x : ℕ) : Prop := ∃ e ∈ es, e.lo bs ≤ x ∧ x < e.hi bs

/-- The end of the last run. -/
def IsEnd (es : List Run) (n : ℕ) : Prop := (∀ e ∈ es, e.hi bs ≤ n) ∧ ∃ e ∈ es, e.hi bs = n

/-- The byte `x` of a table: its place in the data section follows from its run. -/
def cell (es : List Run) (data : List UInt8) (x : ℕ) : Option UInt8 :=
  (es.find? fun e => e.lo bs ≤ x ∧ x < e.hi bs).map fun e => data.getD (e.data*bs+(x-e.lo bs)) 0

variable {bs}

theorem Run.hi_eq (bs : ℕ) (e : Run) : e.hi bs = e.lo bs+e.len*bs := Nat.add_mul _ _ _

theorem cell_eq_none {es : List Run} {data : List UInt8} {x : ℕ} :
    cell bs es data x = none ↔ ¬Added bs es x := by
  rw [cell,Option.map_eq_none_iff,List.find?_eq_none]
  constructor
  · rintro h ⟨e,he,hx⟩
    exact h e he (by simpa using hx)
  · intro h e he hx
    exact h ⟨e,he,by simpa using hx⟩

variable {es : List Run} (hasc : es.Pairwise fun a b => a.off+a.len ≤ b.off)

include hasc

/-- The first run that ends behind the byte `x`: no byte before it is in a run. -/
theorem find?_hi {x : ℕ} {e : Run} (h : es.find? (fun e => x < e.hi bs) = some e) :
    e ∈ es ∧ x < e.hi bs ∧ ∀ z, x ≤ z → z < e.lo bs → ¬Added bs es z := by
  obtain ⟨hx,pre,post,rfl,hpre⟩ := List.find?_eq_some_iff_append.mp h
  refine ⟨by simp,by simpa using hx,fun z h₁ h₂ hz => ?_⟩
  obtain ⟨e',he',hlo,hhi⟩ := hz
  rcases List.mem_append.mp he' with he' | he'
  · have := hpre e' he'
    simp only [Bool.not_eq_eq_eq_not,Bool.not_true,decide_eq_false_iff_not] at this
    omega
  · rcases List.mem_cons.mp he' with rfl | he'
    · omega
    · have hle := List.rel_of_pairwise_cons (List.pairwise_append.mp hasc).2.1 he'
      have hmul : (e.off+e.len)*bs ≤ e'.off*bs := Nat.mul_le_mul_right bs hle
      have hlo' : e.lo bs ≤ e.hi bs := by rw [e.hi_eq bs]; omega
      simp only [Run.lo,Run.hi] at *
      omega

/-- In a run, the byte is found in that run. -/
theorem cell_of_mem {e : Run} (he : e ∈ es) {x : ℕ} (hlo : e.lo bs ≤ x) (hhi : x < e.hi bs)
    (data : List UInt8) : cell bs es data x = some (data.getD (e.data*bs+(x-e.lo bs)) 0) := by
  obtain ⟨e',hf⟩ := Option.ne_none_iff_exists'.mp (fun hn => by
    rw [List.find?_eq_none] at hn
    exact hn e he (by simpa using ⟨hlo,hhi⟩) :
      es.find? (fun e => e.lo bs ≤ x ∧ x < e.hi bs) ≠ none)
  have hx : e'.lo bs ≤ x ∧ x < e'.hi bs := by simpa using List.find?_some hf
  have heq : e' = e := by
    by_contra hne
    have hor : es.Pairwise fun a b => a.off+a.len ≤ b.off ∨ b.off+b.len ≤ a.off :=
      hasc.imp fun hab => .inl hab
    have : Std.Symm fun a b : Run => a.off+a.len ≤ b.off ∨ b.off+b.len ≤ a.off :=
      ⟨fun _ _ hab => hab.symm⟩
    simp only [Run.lo,Run.hi] at hx hlo hhi
    rcases hor.forall (List.mem_of_find?_eq_some hf) he hne with hle | hle
    · have := Nat.mul_le_mul_right bs hle
      omega
    · have := Nat.mul_le_mul_right bs hle
      omega
  rw [cell,hf,heq]
  rfl

end Bytes

/-- A reader whose file holds the index `gs` and behind it the data of the runs. -/
structure Reader.Table (r : Reader) (gs : List (List Run)) (data : List UInt8) : Prop
    extends r.Holds gs where
  blockSize_pos : 0 < r.header.blockSize
  file : ∃ pre, r.r = pre++data ∧ r.dataOffset = pre.length
  small : r.r.length < 2^63
  length_data : data.length = totalLen gs.flatten*r.header.blockSize
  short : ∀ e ∈ gs.flatten, e.hi r.header.blockSize < 2^63

namespace Reader.Table

variable {r : Reader} {gs : List (List Run)} {data : List UInt8} (h : r.Table gs data)

include h

/-- The lookup of a byte. -/
theorem getNextEntry_eq (off : ℕ) :
    r.getNextEntry ((off : ℤ).tdiv r.header.blockSize) = .ok
      ((gs.flatten.find? fun e => off < e.hi r.header.blockSize).map
        (toEntry r.header.blockSize)) := by
  rw [h.toHolds.getNextEntry_eq,← Int.ofNat_tdiv]
  congr 2
  refine List.find?_congr fun e _ => ?_
  rw [decide_eq_decide,Nat.cast_lt,Run.hi,Nat.div_lt_iff_lt_mul h.blockSize_pos]

theorem data_le {e : Run} (he : e ∈ gs.flatten) : e.data+e.len ≤ totalLen gs.flatten := by
  simpa using h.wf.packed.data_le he

/-- The fields of an entry are what they are without the 64-bit arithmetic. -/
theorem toEntry_eq {e : Run} (he : e ∈ gs.flatten) :
    (toEntry r.header.blockSize e).offset = e.lo r.header.blockSize ∧
    (toEntry r.header.blockSize e).length = (e.len*r.header.blockSize : ℕ) ∧
    (toEntry r.header.blockSize e).dataOffset = (e.data*r.header.blockSize : ℕ) ∧
    i64 ((toEntry r.header.blockSize e).offset+(toEntry r.header.blockSize e).length) =
      e.hi r.header.blockSize := by
  have hshort := h.short e he
  have hhi := e.hi_eq r.header.blockSize
  have hdata : e.data*r.header.blockSize ≤ data.length := by
    rw [h.length_data]
    exact Nat.mul_le_mul_right _ ((Nat.le_add_right _ _).trans (h.data_le he))
  have hfile : data.length ≤ r.r.length := by
    obtain ⟨pre,hr,_⟩ := h.file
    simp [hr]
  have hsmall := h.small
  have h₁ : i64 (e.off*r.header.blockSize : ℕ) = e.lo r.header.blockSize :=
    i64_of_range (by omega) (by simp only [Run.lo] at hhi ⊢; omega)
  have h₂ : i64 (e.len*r.header.blockSize : ℕ) = (e.len*r.header.blockSize : ℕ) :=
    i64_of_range (by omega) (by omega)
  refine ⟨h₁,h₂,i64_of_range (by omega) (by omega),?_⟩
  simp only [toEntry,h₁,h₂]
  rw [← Nat.cast_add,← hhi]
  exact i64_of_range (by omega) (by omega)

theorem contains_iff {e : Run} (he : e ∈ gs.flatten) (off : ℕ) :
    (toEntry r.header.blockSize e).contains off = true ↔
      e.lo r.header.blockSize ≤ off ∧ off < e.hi r.header.blockSize := by
  obtain ⟨h₁,_,_,h₄⟩ := h.toEntry_eq he
  rw [Entry.contains,decide_eq_true_eq,h₄,h₁,Nat.cast_le,Nat.cast_lt]

theorem nextData_eq (off : ℕ) :
    ∃ o, LeastFrom (Added r.header.blockSize gs.flatten) off o ∧
      r.nextData off = .ok (match o with | some y => ((y : ℤ),none) | none => (0,some .eof)) := by
  rw [nextData,h.getNextEntry_eq]
  cases hf : gs.flatten.find? fun e => off < e.hi r.header.blockSize with
  | none =>
    refine ⟨none,fun z hz => ?_,rfl⟩
    rintro ⟨e,he,_,hhi⟩
    have := List.find?_eq_none.mp hf e he
    simp only [decide_eq_true_eq] at this
    omega
  | some e =>
    obtain ⟨he,hx,hmin⟩ := find?_hi h.wf.ascending hf
    simp only [bind,Except.bind,Option.map_some]
    by_cases hc : e.lo r.header.blockSize ≤ off
    · rw [if_pos ((h.contains_iff he off).mpr ⟨hc,hx⟩)]
      exact ⟨some off,⟨le_refl _,⟨e,he,hc,hx⟩,fun z h₁ h₂ => by omega⟩,rfl⟩
    · rw [if_neg (fun hin => hc ((h.contains_iff he off).mp hin).1),(h.toEntry_eq he).1]
      have hlen : 0 < e.len*r.header.blockSize :=
        Nat.mul_pos (h.wf.len e he).1 h.blockSize_pos
      exact ⟨some (e.lo r.header.blockSize),⟨by omega,⟨e,he,le_refl _,by rw [e.hi_eq]; omega⟩,hmin⟩,
        rfl⟩

/-- A pass of the loop of `NextHole`; it leaves one run more behind. -/
theorem nextHolePass_spec {off₀ off : ℕ} (hle : off₀ ≤ off)
    (hall : ∀ z, off₀ ≤ z → z < off → Added r.header.blockSize gs.flatten z) :
    (∃ off' : ℕ, r.nextHolePass off = .ok (.inl (off' : ℤ)) ∧ off₀ ≤ off' ∧
      (∀ z, off₀ ≤ z → z < off' → Added r.header.blockSize gs.flatten z) ∧
      (gs.flatten.countP fun e => off' < e.hi r.header.blockSize) <
        gs.flatten.countP fun e => off < e.hi r.header.blockSize) ∨
    (r.nextHolePass off = .ok (.inr (off : ℤ)) ∧ ¬Added r.header.blockSize gs.flatten off) := by
  rw [nextHolePass,h.getNextEntry_eq]
  cases hf : gs.flatten.find? fun e => off < e.hi r.header.blockSize with
  | none =>
    refine .inr ⟨rfl,?_⟩
    rintro ⟨e,he,_,hhi⟩
    have := List.find?_eq_none.mp hf e he
    simp only [decide_eq_true_eq] at this
    omega
  | some e =>
    obtain ⟨he,hx,hmin⟩ := find?_hi h.wf.ascending hf
    simp only [bind,Except.bind,Option.map_some]
    by_cases hc : e.lo r.header.blockSize ≤ off
    · rw [if_pos ((h.contains_iff he off).mpr ⟨hc,hx⟩),(h.toEntry_eq he).2.2.2]
      refine .inl ⟨e.hi r.header.blockSize,rfl,by omega,fun z h₁ h₂ => ?_,?_⟩
      · by_cases hz : z < off
        · exact hall z h₁ hz
        · exact ⟨e,he,by omega,h₂⟩
      · have hmono : ∀ l : List Run,
            (l.countP fun e' => e.hi r.header.blockSize < e'.hi r.header.blockSize) ≤
              l.countP fun e' => off < e'.hi r.header.blockSize := by
          refine fun l => List.countP_mono_left fun a _ ha => ?_
          simp only [decide_eq_true_eq] at ha ⊢
          omega
        obtain ⟨pre,post,hsplit⟩ := List.append_of_mem he
        have h₁ := hmono pre
        have h₂ := hmono post
        rw [hsplit,List.countP_append,List.countP_append,List.countP_cons_of_neg (by simp),
          List.countP_cons_of_pos (by simpa using hx)]
        omega
    · rw [if_neg fun hin => hc ((h.contains_iff he off).mp hin).1]
      exact .inr ⟨rfl,hmin off (le_refl _) (by omega)⟩

theorem nextHole_eq (off : ℕ) :
    ∃ y, LeastFrom (fun x => ¬Added r.header.blockSize gs.flatten x) off (some y) ∧
      r.nextHole off = .ok ((y : ℤ),none) := by
  obtain ⟨_,hrun,y,rfl,hy,hall,hnot⟩ := run_total r.nextHolePass
    (fun s => ∃ o : ℕ, s = (o : ℤ) ∧ off ≤ o ∧
      ∀ z, off ≤ z → z < o → Added r.header.blockSize gs.flatten z)
    (fun s => ∃ y : ℕ, s = (y : ℤ) ∧ off ≤ y ∧
      (∀ z, off ≤ z → z < y → Added r.header.blockSize gs.flatten z) ∧
      ¬Added r.header.blockSize gs.flatten y)
    (fun s => gs.flatten.countP fun e => s < e.hi r.header.blockSize) (by
      rintro _ ⟨o,rfl,hle,hall⟩
      rcases h.nextHolePass_spec hle hall with ⟨o',hpass,hle',hall',hlt⟩ | ⟨hpass,hnot⟩
      · exact .inl ⟨o',hpass,⟨o',rfl,hle',hall'⟩,by simpa only [Nat.cast_lt] using hlt⟩
      · exact .inr ⟨o,hpass,o,rfl,hle,hall,hnot⟩)
    ((r.ranges.map (·.numEntries)).sum+r.ranges.length+1) off
    ⟨off,rfl,le_refl _,fun z h₁ h₂ => by omega⟩ (by
      have := List.countP_le_length (p := fun e => decide ((off : ℤ) < e.hi r.header.blockSize))
        (l := gs.flatten)
      rw [h.ranges,sum_numEntries_parsed]
      omega)
  refine ⟨y,⟨hy,hnot,fun z h₁ h₂ => not_not.mpr (hall z h₁ h₂)⟩,?_⟩
  rw [nextHole,hrun]
  rfl

omit h

/-- What `ReadAt` has to deliver in the `m` bytes from `off` on. -/
def bytes (r : Reader) (gs : List (List Run)) (data : List UInt8) (off m : ℕ) : List UInt8 :=
  (List.range' off m).map fun x => (cell r.header.blockSize gs.flatten data x).getD 0

theorem bytes_append (off m n : ℕ) :
    bytes r gs data off m++bytes r gs data (off+m) n = bytes r gs data off (m+n) := by
  rw [bytes,bytes,bytes,← List.map_append,List.range'_append_1]

@[simp] theorem length_bytes (off m : ℕ) : (bytes r gs data off m).length = m := by
  simp [bytes]

theorem bytes_of_gap {off m : ℕ}
    (hgap : ∀ x, off ≤ x → x < off+m → ¬Added r.header.blockSize gs.flatten x) :
    bytes r gs data off m = List.replicate m 0 := by
  rw [bytes,show List.replicate m (0 : UInt8) = (List.range' off m).map fun _ => 0 by simp]
  refine List.map_congr_left fun x hx => ?_
  obtain ⟨h₁,h₂⟩ := List.mem_range'_1.mp hx
  rw [cell_eq_none.mpr (hgap x h₁ h₂)]
  rfl

include h

/-- In a run the bytes stand one after the other in the data section. -/
theorem bytes_of_run {e : Run} (he : e ∈ gs.flatten) {off m : ℕ}
    (hlo : e.lo r.header.blockSize ≤ off) (hhi : off+m ≤ e.hi r.header.blockSize) :
    bytes r gs data off m =
      (data.drop (e.data*r.header.blockSize+(off-e.lo r.header.blockSize))).take m := by
  have hend : (e.data+e.len)*r.header.blockSize ≤ data.length := by
    rw [h.length_data]
    exact Nat.mul_le_mul_right _ (h.data_le he)
  rw [Nat.add_mul] at hend
  have hhi' := e.hi_eq r.header.blockSize
  refine List.ext_getElem? fun i => ?_
  by_cases hi : i < m
  · rw [List.getElem?_take_of_lt hi,List.getElem?_drop,bytes,List.getElem?_map,
      List.getElem?_range' hi,Option.map_some,
      cell_of_mem h.wf.ascending he (by omega) (by omega),Option.getD_some,
      List.getD_eq_getElem?_getD]
    have hin : e.data*r.header.blockSize+(off-e.lo r.header.blockSize)+i < data.length := by omega
    rw [show e.data*r.header.blockSize+(off+1*i-e.lo r.header.blockSize) =
      e.data*r.header.blockSize+(off-e.lo r.header.blockSize)+i by omega,
      List.getElem?_eq_getElem hin]
    rfl
  · rw [List.getElem?_eq_none (by simp; omega),List.getElem?_eq_none (by simp; omega)]

omit h in
/-- The loop of `ReadAt`: what is filled so far is right. -/
structure Reading (r : Reader) (gs : List (List Run)) (data : List UInt8) (off n stop : ℕ)
    (s : ReadState) : Prop where
  out : s.out = bytes r gs data off s.out.length
  off_eq : s.off = (off+s.out.length : ℕ)
  left_add : s.left+s.out.length = n
  within : off+s.out.length ≤ max off stop

omit h in
theorem Reading.extend {off n stop m : ℕ} {s : ReadState} (hs : Reading r gs data off n stop s)
    {bs : List UInt8} (hbs : bs = bytes r gs data (off+s.out.length) m) (hm : m ≤ s.left)
    (hend : off+s.out.length+m ≤ stop) (hsmall : stop < 2^63) {z : ℤ} (hz : z = m) :
    Reading r gs data off n stop ⟨s.left-m,i64 (s.off+z),s.out++bs⟩ := by
  have hlen : bs.length = m := by simp [hbs]
  have hadd := hs.left_add
  refine ⟨?_,?_,?_,?_⟩
  · simp only [List.length_append,hlen]
    rw [← bytes_append,← hs.out,hbs]
  · simp only [List.length_append,hlen,hs.off_eq,hz]
    rw [i64_of_range (by omega) (by omega)]
    push_cast
    ring
  · simp only [List.length_append,hlen]
    omega
  · simp only [List.length_append,hlen]
    omega

omit h in
/-- The part of the `left` bytes from `a` on that is before `b`. -/
theorem clip_eq (left : ℕ) {a b : ℕ} (hab : a ≤ b) (hb : b < 2^63) :
    (if i64 ((b : ℤ)-a) < left then i64 ((b : ℤ)-a) else (left : ℤ)) = (min left (b-a) : ℕ) := by
  rw [i64_of_range (by omega) (by omega)]
  split_ifs <;> omega

theorem readData_eq {off n stop : ℕ} {s : ReadState} (hs : Reading r gs data off n stop s)
    (hstop : IsEnd r.header.blockSize gs.flatten stop) {e : Run} (he : e ∈ gs.flatten)
    (hlo : e.lo r.header.blockSize ≤ off+s.out.length)
    (hhi : off+s.out.length < e.hi r.header.blockSize) (hleft : 0 < s.left) :
    ∃ s', r.readData (toEntry r.header.blockSize e) s = .ok (.inl s') ∧
      Reading r gs data off n stop s' ∧ s'.left < s.left := by
  obtain ⟨h₁,h₂,h₃,h₄⟩ := h.toEntry_eq he
  rw [h₁,h₂] at h₄
  obtain ⟨pre,hfile,hpre⟩ := h.file
  have hsmall := h.small
  have hshort := h.short e he
  have hle := hstop.1 e he
  have hstop' : stop < 2^63 := by
    obtain ⟨e',he',rfl⟩ := hstop.2
    exact h.short e' he'
  generalize hx : off+s.out.length = x at hlo hhi
  have hoff : s.off = (x : ℤ) := by rw [hs.off_eq,hx]
  have hend : (e.data+e.len)*r.header.blockSize ≤ data.length := by
    rw [h.length_data]
    exact Nat.mul_le_mul_right _ (h.data_le he)
  have hlenfile : r.r.length = pre.length+data.length := by rw [hfile,List.length_append]
  rw [Nat.add_mul] at hend
  have hhi' := e.hi_eq r.header.blockSize
  generalize hm : min s.left (e.hi r.header.blockSize-x) = m
  have hread := clip_eq s.left hhi.le hshort
  rw [hm] at hread
  have hpos : i64 (i64 ((x : ℤ)-e.lo r.header.blockSize)+
      i64 (pre.length+(e.data*r.header.blockSize : ℕ))) =
      (pre.length+(e.data*r.header.blockSize+(x-e.lo r.header.blockSize)) : ℕ) := by
    rw [i64_of_range (x := (x : ℤ)-e.lo r.header.blockSize) (by omega) (by omega),
      i64_of_range (x := (pre.length : ℤ)+_) (by omega) (by omega),
      i64_of_range (by omega) (by omega)]
    omega
  have hbytes : ByteStream.readAt r.r
      (pre.length+(e.data*r.header.blockSize+(x-e.lo r.header.blockSize)) : ℕ) m =
      (bytes r gs data x m,none) := by
    rw [ByteStream.readAt_of_le (by omega),hfile,List.drop_append,
      List.drop_of_length_le (by omega),List.nil_append,Nat.add_sub_cancel_left,
      ← h.bytes_of_run he hlo (by omega)]
  refine ⟨⟨s.left-m,i64 (s.off+m),s.out++bytes r gs data x m⟩,?_,?_,by simp only; omega⟩
  · have hneg : ¬((m : ℤ) < 0) := by omega
    simp only [readData,h₁,h₂,h₃,h₄,hpre,hoff,hread,hpos,Int.toNat_natCast,hbytes,if_neg hneg]
    simp
  · exact hs.extend (by rw [hx]) (by omega) (by omega) hstop' rfl

theorem readPass_eq {off n stop : ℕ} {s : ReadState} (hs : Reading r gs data off n stop s)
    (hstop : IsEnd r.header.blockSize gs.flatten stop) :
    (∃ s', r.readPass s = .ok (.inl s') ∧ Reading r gs data off n stop s' ∧ s'.left < s.left) ∨
    ∃ out, r.readPass s = .ok (.inr out) ∧ out = (bytes r gs data off (min n (stop-off)),
      if min n (stop-off) < n then some .eof else none) := by
  have hadd := hs.left_add
  have hwithin := hs.within
  by_cases hzero : s.left = 0
  · refine .inr ⟨(s.out,none),by rw [readPass,if_pos hzero],?_⟩
    by_cases hn : n = 0
    · have hnil : s.out = [] := List.eq_nil_of_length_eq_zero (by omega)
      simp [hn,hnil,bytes]
    · have hmin : min n (stop-off) = s.out.length := by omega
      rw [hmin,← hs.out,if_neg (by omega)]
  have hstop' : stop < 2^63 := by
    obtain ⟨e',he',rfl⟩ := hstop.2
    exact h.short e' he'
  have hlook := h.getNextEntry_eq (off+s.out.length)
  rw [← hs.off_eq] at hlook
  cases hf : gs.flatten.find? fun e => off+s.out.length < e.hi r.header.blockSize with
  | none =>
    rw [hf] at hlook
    refine .inr ⟨(s.out,some .eof),?_,?_⟩
    · rw [readPass,if_neg hzero,hlook]
      rfl
    · have hge : stop ≤ off+s.out.length := by
        obtain ⟨e,he,rfl⟩ := hstop.2
        have := List.find?_eq_none.mp hf e he
        simpa using this
      have hmin : min n (stop-off) = s.out.length := by omega
      rw [hmin,← hs.out,if_pos (by omega)]
  | some e =>
    rw [hf] at hlook
    obtain ⟨he,hx,hmin⟩ := find?_hi h.wf.ascending hf
    have h₁ := (h.toEntry_eq he).1
    have hle := hstop.1 e he
    have hshort := h.short e he
    by_cases hc : e.lo r.header.blockSize ≤ off+s.out.length
    · obtain ⟨s',hdata,hs',hlt⟩ := h.readData_eq hs hstop he hc hx (by omega)
      refine .inl ⟨s',?_,hs',hlt⟩
      rw [readPass,if_neg hzero,hlook]
      simp only [bind,Except.bind,Option.map_some]
      rw [if_pos (by rw [hs.off_eq]; exact (h.contains_iff he _).mpr ⟨hc,hx⟩)]
      exact hdata
    · -- the gap up to the run is filled with zeros first
      generalize hm : min s.left (e.lo r.header.blockSize-(off+s.out.length)) = m
      have hhi' := e.hi_eq r.header.blockSize
      have hlen : 0 < e.len*r.header.blockSize :=
        Nat.mul_pos (h.wf.len e he).1 h.blockSize_pos
      have hzl := clip_eq s.left (le_of_not_ge hc) (by omega)
      rw [hm,← hs.off_eq] at hzl
      have hgap : bytes r gs data (off+s.out.length) m = List.replicate m 0 :=
        bytes_of_gap fun x hx₁ hx₂ => hmin x hx₁ (by omega)
      have hext := hs.extend hgap.symm (by omega) (by omega) hstop' (z := m) rfl
      have hpass : r.readPass s = if s.left-m = 0 then .ok (.inr (s.out++List.replicate m 0,none))
          else r.readData (toEntry r.header.blockSize e)
            ⟨s.left-m,i64 (s.off+m),s.out++List.replicate m 0⟩ := by
        rw [readPass,if_neg hzero,hlook]
        simp only [bind,Except.bind,Option.map_some]
        rw [if_neg (by
          rw [hs.off_eq]
          exact fun hin => hc ((h.contains_iff he _).mp hin).1)]
        simp only [h₁,hzl,Int.toNat_natCast,if_neg (show ¬((m : ℤ) < 0) by omega)]
      rw [hpass]
      by_cases hlast : s.left-m = 0
      · rw [if_pos hlast]
        refine .inr ⟨_,rfl,?_⟩
        have hlen' := hext.left_add
        have hout := hext.out
        simp only at hlen' hout
        have hmin' : min n (stop-off) = (s.out++List.replicate m 0).length := by
          simp only [List.length_append,List.length_replicate] at hlen' ⊢
          omega
        rw [hmin',← hout,if_neg (by omega)]
      · rw [if_neg hlast]
        have hat : off+(s.out++List.replicate m (0 : UInt8)).length = e.lo r.header.blockSize := by
          simp only [List.length_append,List.length_replicate]
          omega
        obtain ⟨s',hdata,hs',hlt⟩ := h.readData_eq hext hstop he (by simp only; omega)
          (by simp only; omega) (by simp only; omega)
        exact .inl ⟨s',hdata,hs',by simp only at hlt; omega⟩

/-- `ReadAt` fills the buffer up to the end of the last run. -/
theorem readAt_eq {stop : ℕ} (hstop : IsEnd r.header.blockSize gs.flatten stop) (n off : ℕ) :
    r.readAt n off = .ok (bytes r gs data off (min n (stop-off)),
      if min n (stop-off) < n then some .eof else none) := by
  obtain ⟨out,hrun,rfl⟩ := run_total r.readPass (Reading r gs data off n stop) _ ReadState.left
    (fun s hs => h.readPass_eq hs hstop) (n+1) ⟨n,off,[]⟩
    ⟨rfl,by simp,by simp,by simp⟩ (Nat.lt_succ_self n)
  exact hrun

end Reader.Table

end Sparse
end Logblock
