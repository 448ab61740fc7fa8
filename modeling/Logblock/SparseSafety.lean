import Logblock.SparseTable

/-! Which byte strings are tables that are safe to query. `Load` takes the sizes and the counts
of the index from the file as they are; the queries rely on them. -/
namespace Logblock
namespace Sparse

open Loop Bytes

namespace Reader

/-- What `LogLoadStats` logs. -/
structure LoadStats where
  numRanges : ℕ
  entryBytes : ℕ
  blockEntries : ℕ
  blockEntriesPerRange : ℕ
  blocksPerBlockEntry : ℤ

def logLoadStats (r : Reader) : Exec LoadStats :=
  if r.header.numRangeEntries = 0 ∨ r.header.numBlockEntries = 0 then
    .error (.panic "integer divide by zero")
  else .ok
    { numRanges := r.ranges.length
      entryBytes := r.entryBuf.length
      blockEntries := r.header.numBlockEntries
      blockEntriesPerRange := r.header.numBlockEntries/r.header.numRangeEntries
      blocksPerBlockEntry := (i64 r.header.totalBlocks).tdiv r.header.numBlockEntries }

/-- No query of the table panics, and all of them return. -/
structure Safe (r : Reader) : Prop where
  logLoadStats : ∃ stats, r.logLoadStats = .ok stats
  nextData : ∀ off : ℕ, off < 2^63 → ∃ res, r.nextData off = .ok res
  nextHole : ∀ off : ℕ, off < 2^63 → ∃ res, r.nextHole off = .ok res
  readAt : ∀ n off : ℕ, off < 2^63 → ∃ res, r.readAt n off = .ok res

section Lookup

variable (r : Reader)

/-- The offset of the entry number `i` in the buffer, as a word. -/
def entryOffset (i : ℕ) : ℕ := toU64 (i*r.header.blockEntrySize)

/-- The entry number `i`, if the buffer holds all of it. -/
def entryAt (i : ℕ) : Option BlockEntry :=
  if 3 ≤ r.header.blockEntrySize ∧
      r.entryOffset i+r.header.blockEntrySize ≤ r.entryBuf.length then
    let buf := (r.entryBuf.drop (r.entryOffset i)).take r.header.blockEntrySize
    some ⟨(buf.getD 0 0).toNat+256*(buf.getD 1 0).toNat,(buf.getD 2 0).toNat⟩
  else none

/-- The first block of an entry of the range and the number of its blocks. -/
def blocksOf (re : ParsedRange) (be : BlockEntry) : ℕ × ℕ := (re.startOffset+be.offset,be.length)

/-- The scan of a range ends at an entry that starts at the block or ends behind it. -/
def hits (re : ParsedRange) (b : ℤ) (be : BlockEntry) : Bool :=
  b ≤ (blocksOf re be).1 ∨
    ((blocksOf re be).1 ≤ b ∧ b < ((blocksOf re be).1 : ℤ)+(blocksOf re be).2)

/-- The number of ranges in front of the block, as the binary search finds it. -/
def rangesBefore (b : ℤ) : ℕ :=
  sortSearch r.ranges.length fun i => b < ((r.ranges.map (·.startOffset)).getD i 0 : ℕ)

/-- The first entry of a range. -/
def firstOf (re : ParsedRange) : Option (ℕ × ℕ) :=
  (r.entryAt re.firstEntryIndex).map (blocksOf re)

/-- What the index says about the block `b`: the blocks of the entry that the lookup stops at, if
there is one, unless the lookup needs an entry that is not in the buffer. -/
def lookup (b : ℤ) : Option (Option (ℕ × ℕ)) :=
  match r.rangesBefore b with
  | 0 => r.ranges[0]?.bind fun re => (r.entryAt 0).map fun be => some (blocksOf re be)
  | i+1 => r.ranges[i]?.bind fun re =>
    match ((List.range' re.firstEntryIndex re.numEntries).map r.entryAt).find?
        (fun o => o.all (hits re b)) with
    | some none => none
    | some (some be) => some (some (blocksOf re be))
    | none =>
      match r.ranges[i+1]? with
      | none => some none
      | some re' => (r.firstOf re').map some

variable {r}

theorem parseBlockEntry_eq {i : ℕ} {be : BlockEntry} (h : r.entryAt i = some be) :
    r.parseBlockEntry i = .ok be := by
  rw [entryAt] at h
  split_ifs at h with hin
  obtain ⟨hsize,hlen⟩ := hin
  have hbuf : ((r.entryBuf.drop (r.entryOffset i)).take r.header.blockEntrySize).length =
      r.header.blockEntrySize := by
    rw [List.length_take,List.length_drop]
    omega
  rw [parseBlockEntry,← entryOffset,slice,if_neg (not_lt.mpr hlen)]
  simp only [bind,Except.bind]
  rw [BlockEntry.unmarshal,if_neg (by omega)]
  exact congrArg Except.ok (Option.some.inj h)

theorem parseBlockEntry_outside {i : ℕ} (h : r.entryAt i = none) :
    ∃ e, r.parseBlockEntry i = .error e := by
  rw [entryAt] at h
  split_ifs at h with hin
  rw [parseBlockEntry,← entryOffset,slice]
  by_cases hlen : r.entryBuf.length < r.entryOffset i+r.header.blockEntrySize
  · exact ⟨_,by rw [if_pos hlen]; rfl⟩
  · have hsize : r.header.blockEntrySize < 3 := by
      by_contra hge
      exact hin ⟨by omega,by omega⟩
    have hshort : ((r.entryBuf.drop (r.entryOffset i)).take
        r.header.blockEntrySize).length < 3 := by
      rw [List.length_take]
      omega
    simp only [if_neg hlen,bind,Except.bind,BlockEntry.unmarshal,if_pos hshort]
    exact ⟨_,rfl⟩

/-- The entry has the blocks `c`, in bytes. -/
def HasBlocks (r : Reader) (e : Entry) (c : ℕ × ℕ) : Prop :=
  e.offset = i64 (c.1*r.header.blockSize) ∧ e.length = i64 (c.2*r.header.blockSize)

theorem hasBlocks_fillEntry (re : ParsedRange) (be : BlockEntry) (d : ℕ) :
    r.HasBlocks (r.fillEntry re be d) (blocksOf re be) := by
  refine ⟨?_,rfl⟩
  simp only [fillEntry,blocksOf,Nat.cast_add]

/-- The outcome of a lookup. -/
def Finds (r : Reader) (x : Exec (Option Entry)) : Option (Option (ℕ × ℕ)) → Prop
  | none => ∃ e, x = .error e
  | some none => x = .ok none
  | some (some c) => ∃ e, x = .ok (some e) ∧ r.HasBlocks e c

theorem scanEntries_spec (re : ParsedRange) (b : ℤ) (n ei d : ℕ) :
    match ((List.range' ei n).map r.entryAt).find? (fun o => o.all (hits re b)) with
    | none => r.scanEntries re b n ei d = .ok none
    | some none => ∃ e, r.scanEntries re b n ei d = .error e
    | some (some be) => ∃ e, r.scanEntries re b n ei d = .ok (some e) ∧
        r.HasBlocks e (blocksOf re be) := by
  induction n generalizing ei d with
  | zero => rfl
  | succ n ih =>
    rw [List.range'_succ,List.map_cons,List.find?_cons]
    cases hei : r.entryAt ei with
    | none =>
      obtain ⟨e,he⟩ := parseBlockEntry_outside hei
      refine ⟨e,?_⟩
      rw [scanEntries,he]
      rfl
    | some be =>
      rw [scanEntries,parseBlockEntry_eq hei]
      simp only [bind,Except.bind,Option.all_some]
      cases hhit : hits re b be with
      | true =>
        have hcond : b ≤ (re.startOffset : ℤ)+be.offset ∨ ((re.startOffset : ℤ)+be.offset ≤ b ∧
            b < (re.startOffset : ℤ)+be.offset+be.length) := by
          simpa [hits,blocksOf] using hhit
        exact ⟨_,if_pos hcond,hasBlocks_fillEntry re be d⟩
      | false =>
        have hcond : ¬(b ≤ (re.startOffset : ℤ)+be.offset ∨ ((re.startOffset : ℤ)+be.offset ≤ b ∧
            b < (re.startOffset : ℤ)+be.offset+be.length)) := by
          intro hc
          have : hits re b be = true := by simpa [hits,blocksOf] using hc
          rw [hhit] at this
          cases this
        rw [if_neg hcond]
        exact ih (ei+1) (d+be.length)

/-- `getNextEntry` finds what the index says. -/
theorem getNextEntry_spec (b : ℤ) : r.Finds (r.getNextEntry b) (r.lookup b) := by
  have hri : sortSearch r.ranges.length
      (fun i => b < ((r.ranges.map (·.startOffset)).getD i 0 : ℕ)) = r.rangesBefore b := rfl
  rw [getNextEntry,lookup]
  simp only [hri]
  cases r.rangesBefore b with
  | zero =>
    simp only [if_true,rangeAt]
    cases r.ranges[0]? with
    | none => exact ⟨_,rfl⟩
    | some re =>
      simp only [Option.bind_some,bind,Except.bind]
      cases hbe : r.entryAt 0 with
      | none =>
        obtain ⟨e,he⟩ := parseBlockEntry_outside hbe
        exact ⟨e,by rw [he]⟩
      | some be =>
        rw [parseBlockEntry_eq hbe]
        exact ⟨_,rfl,hasBlocks_fillEntry re be 0⟩
  | succ i =>
    simp only [Nat.succ_ne_zero,if_false,Nat.add_sub_cancel,rangeAt]
    cases r.ranges[i]? with
    | none => exact ⟨_,rfl⟩
    | some re =>
      simp only [Option.bind_some,bind,Except.bind]
      have hscan := scanEntries_spec (r := r) re b re.numEntries re.firstEntryIndex re.dataOffset
      cases hfind : ((List.range' re.firstEntryIndex re.numEntries).map r.entryAt).find?
          (fun o => o.all (hits re b)) with
      | some o =>
        rw [hfind] at hscan
        cases o with
        | none =>
          obtain ⟨e,he⟩ := hscan
          exact ⟨e,by rw [he]⟩
        | some be =>
          obtain ⟨e,he,hblocks⟩ := hscan
          exact ⟨e,by rw [he],hblocks⟩
      | none =>
        rw [hfind] at hscan
        rw [hscan]
        simp only
        cases hnext : r.ranges[i+1]? with
        | none =>
          rw [if_neg (by have := List.getElem?_eq_none_iff.mp hnext; omega)]
          rfl
        | some re' =>
          have hlt : i+1 < r.ranges.length := (List.getElem?_eq_some_iff.mp hnext).1
          rw [if_pos hlt]
          simp only [firstOf]
          cases hbe : r.entryAt re'.firstEntryIndex with
          | none =>
            obtain ⟨e,he⟩ := parseBlockEntry_outside hbe
            exact ⟨e,by rw [he]⟩
          | some be =>
            rw [parseBlockEntry_eq hbe]
            exact ⟨_,rfl,hasBlocks_fillEntry re' be re'.dataOffset⟩

end Lookup

/-- What `Load` makes sure of. -/
structure Loaded (r : Reader) : Prop where
  low : 512 ≤ r.header.blockSize
  high : r.header.blockSize ≤ 2^20
  first : ∀ re ∈ r.ranges.head?, re.firstEntryIndex = 0

section Spots

variable {r : Reader}

theorem entryAt_length {i : ℕ} {be : BlockEntry} (h : r.entryAt i = some be) : be.length ≤ 127 := by
  rw [entryAt] at h
  split_ifs at h
  rw [← Option.some.inj h]
  have : ∀ x : UInt8, x.toNat/2 ≤ 127 := fun x => by
    have := x.toNat_lt
    omega
  exact this _

/-- Every entry a lookup may stop at, with the range it is read as a part of. -/
def spots (r : Reader) : List (ParsedRange × ℕ) :=
  r.ranges.flatMap (fun re => (List.range' re.firstEntryIndex re.numEntries).map (Prod.mk re))++
  r.ranges.map fun re => (re,re.firstEntryIndex)

theorem length_spots : r.spots.length = (r.ranges.map (·.numEntries)).sum+r.ranges.length := by
  simp [spots,List.length_flatMap]

theorem Loaded.mem_spots (h : r.Loaded) {b : ℤ} {c : ℕ × ℕ} (hc : r.lookup b = some (some c)) :
    ∃ re i be, (re,i) ∈ r.spots ∧ r.entryAt i = some be ∧ c = blocksOf re be := by
  rw [lookup] at hc
  cases hi : r.rangesBefore b with
  | zero =>
    rw [hi] at hc
    obtain ⟨re,hre,hc⟩ := Option.bind_eq_some_iff.mp hc
    obtain ⟨be,hbe,hc⟩ := Option.map_eq_some_iff.mp hc
    refine ⟨re,re.firstEntryIndex,be,List.mem_append_right _ ?_,?_,(Option.some.inj hc).symm⟩
    · exact List.mem_map.mpr ⟨re,List.mem_of_getElem? hre,rfl⟩
    · rw [h.first re (by rw [List.head?_eq_getElem?,hre]; rfl)]
      exact hbe
  | succ i =>
    rw [hi] at hc
    obtain ⟨re,hre,hc⟩ := Option.bind_eq_some_iff.mp hc
    cases hfind : ((List.range' re.firstEntryIndex re.numEntries).map r.entryAt).find?
        (fun o => o.all (hits re b)) with
    | some o =>
      rw [hfind] at hc
      cases o with
      | none => cases hc
      | some be =>
        obtain ⟨k,hk,hbe⟩ := List.mem_map.mp (List.mem_of_find?_eq_some hfind)
        refine ⟨re,k,be,List.mem_append_left _ ?_,hbe,(Option.some.inj (Option.some.inj hc)).symm⟩
        exact List.mem_flatMap.mpr
          ⟨re,List.mem_of_getElem? hre,List.mem_map.mpr ⟨k,hk,rfl⟩⟩
    | none =>
      rw [hfind] at hc
      cases hnext : r.ranges[i+1]? with
      | none =>
        rw [hnext] at hc
        cases hc
      | some re' =>
        rw [hnext] at hc
        obtain ⟨c',hc',heq⟩ := Option.map_eq_some_iff.mp hc
        obtain ⟨be,hbe,hblocks⟩ := Option.map_eq_some_iff.mp hc'
        refine ⟨re',re'.firstEntryIndex,be,List.mem_append_right _ ?_,hbe,?_⟩
        · exact List.mem_map.mpr ⟨re',List.mem_of_getElem? hnext,rfl⟩
        · rw [hblocks]
          exact (Option.some.inj heq).symm

theorem Loaded.found_length (h : r.Loaded) {b : ℤ} {c : ℕ × ℕ}
    (hc : r.lookup b = some (some c)) : c.2 ≤ 127 := by
  obtain ⟨re,i,be,_,hbe,rfl⟩ := h.mem_spots hc
  exact entryAt_length hbe

end Spots

section Queries

variable {r : Reader}

theorem tdiv_blockSize (off bs : ℕ) : (off : ℤ).tdiv bs = (off/bs : ℕ) := (Int.ofNat_tdiv off bs).symm

/-- The end of the blocks `c` in bytes, as the reader computes it. -/
def endOf (r : Reader) (c : ℕ × ℕ) : ℤ :=
  i64 (i64 (c.1*r.header.blockSize)+i64 (c.2*r.header.blockSize))

open Classical in
/-- The spots that end behind `off`. -/
noncomputable def ahead (r : Reader) (off : ℤ) : Finset (ParsedRange × ℕ) :=
  r.spots.toFinset.filter fun p =>
    ∃ be, r.entryAt p.2 = some be ∧ off < r.endOf (blocksOf p.1 be)

theorem mem_ahead {off : ℤ} {p : ParsedRange × ℕ} : p ∈ r.ahead off ↔
    p ∈ r.spots ∧ ∃ be, r.entryAt p.2 = some be ∧ off < r.endOf (blocksOf p.1 be) := by
  simp [ahead]

open Classical in
theorem card_ahead_le (off : ℤ) : (r.ahead off).card ≤ r.spots.length :=
  (Finset.card_filter_le _ _).trans (List.toFinset_card_le _)

/-- There are fewer spots ahead of the end of one of them. -/
theorem card_ahead_lt {off : ℤ} {re : ParsedRange} {i : ℕ} {be : BlockEntry}
    (hmem : (re,i) ∈ r.spots) (hbe : r.entryAt i = some be)
    (hlt : off < r.endOf (blocksOf re be)) :
    (r.ahead (r.endOf (blocksOf re be))).card < (r.ahead off).card := by
  refine Finset.card_lt_card ((Finset.ssubset_iff_of_subset fun p hp => ?_).mpr
    ⟨(re,i),mem_ahead.mpr ⟨hmem,be,hbe,hlt⟩,fun hp => ?_⟩)
  · obtain ⟨hp,be',hbe',hlt'⟩ := mem_ahead.mp hp
    exact mem_ahead.mpr ⟨hp,be',hbe',hlt.trans hlt'⟩
  · obtain ⟨_,be',hbe',hlt'⟩ := mem_ahead.mp hp
    rw [show be' = be from Option.some.inj (hbe'.symm.trans hbe)] at hlt'
    exact lt_irrefl _ hlt'

theorem exists_natCast {x : ℤ} (h₀ : 0 ≤ x) (h₁ : x < 2^63) : ∃ o : ℕ, x = o ∧ o < 2^63 :=
  ⟨x.toNat,by omega,by omega⟩

/-- `NextHole` returns as soon as the lookups stay inside the buffer: each pass but the last goes
to the end of another entry. -/
theorem Loaded.nextHole_ok (h : r.Loaded)
    (hin : ∀ b : ℕ, b*r.header.blockSize < 2^63 → r.lookup b ≠ none) {off : ℕ}
    (hoff : off < 2^63) : ∃ res, r.nextHole off = .ok res := by
  have hpass : ∀ s, (∃ o : ℕ, s = (o : ℤ) ∧ o < 2^63) →
      (∃ s', r.nextHolePass s = .ok (.inl s') ∧ (∃ o : ℕ, s' = (o : ℤ) ∧ o < 2^63) ∧
        (r.ahead s').card < (r.ahead s).card) ∨
      ∃ y, r.nextHolePass s = .ok (.inr y) ∧ True := by
    rintro s ⟨o,rfl,ho⟩
    have hblock : o/r.header.blockSize*r.header.blockSize < 2^63 :=
      (Nat.div_mul_le_self _ _).trans_lt ho
    have hfinds := getNextEntry_spec (r := r) (o/r.header.blockSize : ℕ)
    rw [nextHolePass,tdiv_blockSize]
    cases hl : r.lookup (o/r.header.blockSize : ℕ) with
    | none => exact absurd hl (hin _ hblock)
    | some found =>
      rw [hl] at hfinds
      cases found with
      | none =>
        rw [show r.getNextEntry (o/r.header.blockSize : ℕ) = .ok none from hfinds]
        exact .inr ⟨_,rfl,trivial⟩
      | some c =>
        obtain ⟨e,he,hblocks⟩ := hfinds
        rw [he]
        simp only [bind,Except.bind]
        cases hcont : e.contains o with
        | false => exact .inr ⟨_,rfl,trivial⟩
        | true =>
          have hend : i64 (e.offset+e.length) = r.endOf c := by rw [hblocks.1,hblocks.2,endOf]
          have hcont' : e.offset ≤ (o : ℤ) ∧ (o : ℤ) < i64 (e.offset+e.length) := by
            simpa [Entry.contains] using hcont
          rw [hend] at hcont' ⊢
          have hlt : r.endOf c < 2^63 := i64_lt _
          refine .inl ⟨r.endOf c,rfl,exists_natCast ((Int.natCast_nonneg o).trans hcont'.2.le) hlt,?_⟩
          obtain ⟨re,i,be,hmem,hbe,rfl⟩ := h.mem_spots hl
          exact card_ahead_lt hmem hbe hcont'.2
  have hcard := card_ahead_le (r := r) off
  rw [length_spots] at hcard
  obtain ⟨y,hrun,_⟩ := run_total r.nextHolePass _ (fun _ => True) (fun s => (r.ahead s).card) hpass
    ((r.ranges.map (·.numEntries)).sum+r.ranges.length+1) off ⟨off,rfl,hoff⟩ (by omega)
  exact ⟨_,by rw [nextHole,hrun]; rfl⟩

/-- The part of an entry from `o` on that is in the buffer. -/
theorem readData_ok {e : Entry} {s : ReadState} {a l o : ℕ} (he : e.offset = a) (hl : e.length = l)
    (hend : a+l < 2^63) (ho : s.off = o) (hol : o ≤ a+l) :
    (∃ s', r.readData e s = .ok (.inl s') ∧ s'.left = s.left-min s.left (a+l-o) ∧
        s'.off = (o+min s.left (a+l-o) : ℕ)) ∨
      ∃ out, r.readData e s = .ok (.inr out) := by
  have heEnd : i64 ((a : ℤ)+l) = (a+l : ℕ) := by
    rw [← Nat.cast_add]
    exact i64_of_range (by omega) (by omega)
  have hleft : i64 (((a+l : ℕ) : ℤ)-(o : ℕ)) = (a+l-o : ℕ) := by
    rw [← Nat.cast_sub hol]
    exact i64_of_range (by omega) (by omega)
  have hmin : (if ((a+l-o : ℕ) : ℤ) < (s.left : ℤ) then ((a+l-o : ℕ) : ℤ) else (s.left : ℤ)) =
      (min s.left (a+l-o) : ℕ) := by
    split_ifs with hlt
    · rw [Nat.min_eq_right (by omega)]
    · rw [Nat.min_eq_left (by omega)]
  have hsum : i64 ((o : ℤ)+(min s.left (a+l-o) : ℕ)) = (o+min s.left (a+l-o) : ℕ) := by
    rw [← Nat.cast_add]
    exact i64_of_range (by omega) (by omega)
  rw [readData]
  simp only [he,hl,ho,heEnd,hleft,hmin,Int.toNat_natCast]
  rw [if_neg (not_lt.mpr (Int.natCast_nonneg _))]
  split
  · exact .inr ⟨_,rfl⟩
  · exact .inl ⟨_,rfl,rfl,hsum⟩

/-- The index describes runs of blocks below `2^63` bytes, and what a lookup finds ends behind the
block that is looked up. -/
structure Sound (r : Reader) : Prop where
  ranges : r.header.numRangeEntries ≠ 0
  entries : r.header.numBlockEntries ≠ 0
  lookup : ∀ b : ℕ, b*r.header.blockSize < 2^63 → ∃ o, r.lookup b = some o ∧
    ∀ c ∈ o, b < c.1+c.2 ∧ (c.1+c.2)*r.header.blockSize < 2^63

theorem HasBlocks.nat {e : Entry} {c : ℕ × ℕ} (h : r.HasBlocks e c)
    (hend : (c.1+c.2)*r.header.blockSize < 2^63) :
    e.offset = (c.1*r.header.blockSize : ℕ) ∧ e.length = (c.2*r.header.blockSize : ℕ) := by
  rw [Nat.add_mul] at hend
  rw [h.1,h.2,← Nat.cast_mul,← Nat.cast_mul]
  exact ⟨i64_of_range (by omega) (by omega),i64_of_range (by omega) (by omega)⟩

theorem contains_nat {e : Entry} {a l o : ℕ} (he : e.offset = a) (hl : e.length = l)
    (hend : a+l < 2^63) (hao : a ≤ o) (hol : o < a+l) : e.contains o = true := by
  have heEnd : i64 (e.offset+e.length) = (a+l : ℕ) := by
    rw [he,hl,← Nat.cast_add]
    exact i64_of_range (by omega) (by omega)
  refine decide_eq_true ⟨?_,?_⟩
  · rw [he]
    exact_mod_cast hao
  · rw [heEnd]
    exact_mod_cast hol

/-- The part of a pass that is in front of the entry, and then the entry. -/
theorem gap_ok {e : Entry} {s : ReadState} {a l o : ℕ} (he : e.offset = a)
    (hl : e.length = l) (hend : a+l < 2^63) (hlow : o < a) (hleft : s.left ≠ 0) :
    let zeroLen : ℤ := if i64 (e.offset-o) < s.left then i64 (e.offset-o) else s.left
    let x : Exec (ReadState ⊕ ReadOut) := if zeroLen < 0 then .error (.panic "slice bounds out of range")
      else
        let s : ReadState := ⟨s.left-zeroLen.toNat,i64 (o+zeroLen),
          s.out++List.replicate zeroLen.toNat 0⟩
        if s.left = 0 then .ok (.inr (s.out,none)) else r.readData e s
    (∃ s', x = .ok (.inl s') ∧ ∃ o' : ℕ, s'.off = o' ∧ o' < 2^63 ∧ s'.left < s.left) ∨
      ∃ out, x = .ok (.inr out) := by
  obtain ⟨z,hz⟩ : ∃ z, z = min s.left (a-o) := ⟨_,rfl⟩
  have hzpos : 0 < z := by omega
  have hza : o+z < 2^63 := by omega
  have hfill : s.left-z ≠ 0 → o+z = a := by omega
  have hgap : i64 (e.offset-o) = (a-o : ℕ) := by
    rw [he,← Nat.cast_sub hlow.le]
    exact i64_of_range (by omega) (by omega)
  have hmin : (if ((a-o : ℕ) : ℤ) < (s.left : ℤ) then ((a-o : ℕ) : ℤ) else (s.left : ℤ)) = z := by
    clear hgap
    split_ifs with hlt
    · omega
    · omega
  have hsum : i64 ((o : ℤ)+(z : ℕ)) = (o+z : ℕ) := by
    rw [← Nat.cast_add]
    exact i64_of_range (by clear hgap; omega) (by clear hgap; omega)
  simp only [hgap,hmin,hsum,Int.toNat_natCast]
  clear hgap hmin hsum
  rw [if_neg (not_lt.mpr (Int.natCast_nonneg _))]
  by_cases hfull : s.left-z = 0
  · exact .inr ⟨_,if_pos hfull⟩
  · rw [if_neg hfull]
    have ha := hfill hfull
    rcases readData_ok (r := r) (s := ⟨s.left-z,(o+z : ℕ),s.out++List.replicate z 0⟩) he hl hend rfl
      (by omega) with ⟨s',hs',hleft',hoff'⟩ | ⟨out,hout⟩
    · simp only at hleft' hoff'
      exact .inl ⟨s',hs',_,hoff',by omega,by omega⟩
    · exact .inr ⟨out,hout⟩

/-- Every pass of `ReadAt` fills a part of the buffer. -/
theorem Sound.readPass_ok (h : r.Sound) (hl : r.Loaded) {s : ReadState} {o : ℕ} (ho : s.off = o)
    (hlt : o < 2^63) :
    (∃ s', r.readPass s = .ok (.inl s') ∧ (∃ o' : ℕ, s'.off = o' ∧ o' < 2^63) ∧
        s'.left < s.left) ∨
      ∃ out, r.readPass s = .ok (.inr out) ∧ True := by
  rw [readPass]
  by_cases hzero : s.left = 0
  · exact .inr ⟨_,if_pos hzero,trivial⟩
  have hbs : 0 < r.header.blockSize := by
    have := hl.low
    omega
  have hblock := (Nat.div_mul_le_self o r.header.blockSize).trans_lt hlt
  have hnext := Nat.lt_mul_of_div_lt (show o/r.header.blockSize < o/r.header.blockSize+1 by omega) hbs
  obtain ⟨found,hfound,hall⟩ := h.lookup _ hblock
  have hfinds := getNextEntry_spec (r := r) (o/r.header.blockSize : ℕ)
  rw [hfound] at hfinds
  rw [if_neg hzero,ho,tdiv_blockSize]
  cases found with
  | none =>
    rw [show r.getNextEntry (o/r.header.blockSize : ℕ) = .ok none from hfinds]
    exact .inr ⟨_,rfl,trivial⟩
  | some c =>
    obtain ⟨e,he,hblocks⟩ := hfinds
    obtain ⟨hbehind,hend⟩ := hall c rfl
    obtain ⟨hoff,hlen⟩ := hblocks.nat hend
    have hafter := Nat.mul_le_mul_right r.header.blockSize (Nat.succ_le_of_lt hbehind)
    rw [Nat.add_mul c.1] at hend hafter
    rw [he]
    simp only [bind,Except.bind]
    generalize c.1*r.header.blockSize = a at *
    generalize c.2*r.header.blockSize = l at *
    have hin : o < a+l := hnext.trans_le hafter
    cases hcont : e.contains o with
    | true =>
      rw [if_pos rfl]
      rcases readData_ok (r := r) (s := s) hoff hlen hend ho hin.le with ⟨s',hs',hleft,hoff'⟩ | ⟨out,hout⟩
      · exact .inl ⟨s',hs',⟨_,hoff',by omega⟩,by omega⟩
      · exact .inr ⟨out,hout,trivial⟩
    | false =>
      have hlow : o < a := not_le.mp fun hle => by
        rw [contains_nat hoff hlen hend hle hin] at hcont
        cases hcont
      rw [if_neg Bool.false_ne_true]
      rcases gap_ok (r := r) hoff hlen hend hlow hzero with ⟨s',hs',o',hoff',ho',hleft⟩ | ⟨out,hout⟩
      · exact .inl ⟨s',hs',⟨o',hoff',ho'⟩,hleft⟩
      · exact .inr ⟨out,hout,trivial⟩

/-- A table with a sound index can be queried. -/
theorem Sound.safe (h : r.Sound) (hl : r.Loaded) : r.Safe where
  logLoadStats := ⟨_,if_neg (not_or.mpr ⟨h.ranges,h.entries⟩)⟩
  nextData off hoff := by
    have hblock := (Nat.div_mul_le_self off r.header.blockSize).trans_lt hoff
    obtain ⟨found,hfound,_⟩ := h.lookup _ hblock
    have hfinds := getNextEntry_spec (r := r) (off/r.header.blockSize : ℕ)
    rw [hfound] at hfinds
    rw [nextData,tdiv_blockSize]
    cases found with
    | none =>
      rw [show r.getNextEntry (off/r.header.blockSize : ℕ) = .ok none from hfinds]
      exact ⟨_,rfl⟩
    | some c =>
      obtain ⟨e,he,_⟩ := hfinds
      rw [he]
      exact ⟨_,rfl⟩
  nextHole off hoff := hl.nextHole_ok (fun b hb hnone => by
    obtain ⟨o,ho,_⟩ := h.lookup b hb
    rw [ho] at hnone
    cases hnone) hoff
  readAt n off hoff := by
    obtain ⟨out,hrun,_⟩ := run_total r.readPass (fun s => ∃ o : ℕ, s.off = o ∧ o < 2^63)
      (fun _ => True) ReadState.left (fun s hs => by
        obtain ⟨o,ho,hlt⟩ := hs
        exact h.readPass_ok hl ho hlt) (n+1) ⟨n,off,[]⟩ ⟨off,rfl,hoff⟩ (Nat.lt_add_one n)
    exact ⟨out,hrun⟩

/-- What a table that can be queried has to meet: as a sound index, except that an entry behind
the block that is looked up may end behind the last offset. -/
structure Consistent (r : Reader) : Prop where
  ranges : r.header.numRangeEntries ≠ 0
  entries : r.header.numBlockEntries ≠ 0
  lookup : ∀ b : ℕ, b*r.header.blockSize+1 < 2^63 → ∃ o, r.lookup b = some o ∧
    ∀ c ∈ o, b < c.1+c.2 ∧ (c.1 ≤ b → (c.1+c.2)*r.header.blockSize < 2^63)

theorem not_contains {e : Entry} {a l o : ℕ} (he : e.offset = a) (hl : e.length = l)
    (hsmall : a+l < 2^64) (h : a+l ≤ o ∨ 2^63 ≤ a+l) : e.contains o = false := by
  refine decide_eq_false fun hc => ?_
  have hlt := hc.2
  rw [he,hl,← Nat.cast_add] at hlt
  by_cases hbig : 2^63 ≤ a+l
  · have hneg : i64 ((a+l : ℕ) : ℤ) < 0 := by
      clear hlt hc
      unfold i64
      omega
    exact absurd (hlt.trans hneg) (by simp)
  · rw [i64_of_range (by omega) (by omega)] at hlt
    have := h.resolve_right hbig
    omega

/-- A read of one byte inside a block panics if the entry that the lookup finds starts at or
before the block and does not contain the byte. -/
theorem readAt_panics {off : ℕ} {e : Entry} {a : ℕ} (hoff : off < 2^63)
    (he : r.getNextEntry (off/r.header.blockSize : ℕ) = .ok (some e)) (ha : e.offset = a)
    (hlt : a < off) (hcont : e.contains off = false) : ∃ err, r.readAt 1 off = .error err := by
  have hneg : (a : ℤ)-(off : ℕ) < 0 := by omega
  have hone : (a : ℤ)-(off : ℕ) < ((1 : ℕ) : ℤ) := by omega
  have hgap : i64 ((a : ℤ)-(off : ℕ)) = (a : ℤ)-(off : ℕ) := i64_of_range (by omega) (by omega)
  have hpass : r.readPass ⟨1,off,[]⟩ = .error (.panic "slice bounds out of range") := by
    rw [readPass,if_neg one_ne_zero]
    simp only [tdiv_blockSize,he,bind,Except.bind,hcont,Bool.false_eq_true,if_false,ha,hgap]
    rw [if_pos hone,if_pos hneg]
  exact ⟨_,run_fault hpass 1⟩

theorem Safe.consistent (h : r.Safe) (hl : r.Loaded) : r.Consistent := by
  have hstats : ¬(r.header.numRangeEntries = 0 ∨ r.header.numBlockEntries = 0) := by
    intro hzero
    obtain ⟨stats,hstats⟩ := h.logLoadStats
    rw [Reader.logLoadStats,if_pos hzero] at hstats
    cases hstats
  obtain ⟨hranges,hentries⟩ := not_or.mp hstats
  refine ⟨hranges,hentries,fun b hb => ?_⟩
  have hlow := hl.low
  have hhigh := hl.high
  -- the second byte of the block
  have hdiv : (b*r.header.blockSize+1)/r.header.blockSize = b := by
    rw [Nat.mul_comm,Nat.mul_add_div (by omega),Nat.div_eq_of_lt (by omega),Nat.add_zero]
  obtain ⟨res,hres⟩ := h.nextData _ hb
  have hfinds := getNextEntry_spec (r := r) b
  rw [Reader.nextData,tdiv_blockSize,hdiv] at hres
  cases hfound : r.lookup b with
  | none =>
    rw [hfound] at hfinds
    obtain ⟨err,herr⟩ := hfinds
    rw [herr] at hres
    cases hres
  | some found =>
    rw [hfound] at hfinds
    refine ⟨found,rfl,fun c hc => ?_⟩
    obtain rfl : found = some c := hc
    obtain ⟨e,he,hblocks⟩ := hfinds
    have hc2 := hl.found_length hfound
    by_contra hbad
    have hle : c.1 ≤ b := by
      by_contra hgt
      exact hbad ⟨by omega,fun hle => absurd hle hgt⟩
    have hstart := Nat.mul_le_mul_right r.header.blockSize hle
    have hlen : c.2*r.header.blockSize ≤ 127*2^20 := Nat.mul_le_mul hc2 hhigh
    have hoff : e.offset = (c.1*r.header.blockSize : ℕ) := by
      rw [hblocks.1,← Nat.cast_mul]
      exact i64_of_range (by omega) (by omega)
    have hlength : e.length = (c.2*r.header.blockSize : ℕ) := by
      rw [hblocks.2,← Nat.cast_mul]
      exact i64_of_range (by omega) (by omega)
    have hcont : e.contains ((b*r.header.blockSize+1 : ℕ) : ℤ) = false := by
      refine not_contains hoff hlength (by omega) ?_
      rw [← Nat.add_mul]
      rcases not_and_or.mp hbad with hb' | hb'
      · have := Nat.mul_le_mul_right r.header.blockSize (not_lt.mp hb')
        exact .inl (by omega)
      · exact .inr (not_lt.mp fun hfit => hb' fun _ => hfit)
    rw [← hdiv] at he
    obtain ⟨err,herr⟩ := readAt_panics hb he hoff (by omega) hcont
    obtain ⟨out,hout⟩ := h.readAt 1 _ hb
    rw [herr] at hout
    cases hout

end Queries

end Reader

section Load

open Reader

theorem readAt_length {file : List UInt8} {off : ℤ} {n : ℕ} {buf : List UInt8}
    (h : ByteStream.readAt file off n = (buf,none)) : buf.length = n := by
  rw [ByteStream.readAt] at h
  split_ifs at h with h₁
  · cases h
  · simp only [Prod.mk.injEq] at h
    obtain ⟨rfl,herr⟩ := h
    split_ifs at herr with hshort
    have := List.length_take_le n (file.drop off.toNat)
    omega

/-- The ranges can be parsed if each has the 16 bytes of an entry in the section. -/
theorem parseRanges_returns (buf : List UInt8) (size n i c : ℕ) :
    (∃ rs, parseRanges buf size n i c = .ok rs) ↔
      n = 0 ∨ (16 ≤ size ∧ (i+n)*size ≤ buf.length) := by
  induction n generalizing i c with
  | zero => simp [parseRanges]
  | succ n ih =>
    have hmul : (i+(n+1))*size = i*size+size+n*size := by ring
    have hmul' : (i+1+n)*size = i*size+size+n*size := by ring
    rw [parseRanges]
    by_cases hshort : buf.length < i*size+size
    · refine iff_of_false ?_ ?_
      · rintro ⟨rs,hrs⟩
        rw [slice,if_pos hshort] at hrs
        cases hrs
      · rintro (hzero | ⟨_,hlen⟩)
        · cases hzero
        · omega
    · have hlen : ((buf.drop (i*size)).take size).length = size := by
        rw [List.length_take,List.length_drop]
        omega
      rw [slice,if_neg hshort]
      simp only [bind,Except.bind,RangeEntry.unmarshal,hlen]
      by_cases hsize : size < 16
      · refine iff_of_false ?_ (by omega)
        rintro ⟨rs,hrs⟩
        rw [if_pos hsize] at hrs
        cases hrs
      · rw [if_neg hsize]
        simp only
        specialize ih (i+1) (c+((buf.drop (i*size)).take size |>.getD 6 0).toNat)
        rw [hmul'] at ih
        cases hrest : parseRanges buf size n (i+1)
            (c+((buf.drop (i*size)).take size |>.getD 6 0).toNat) with
        | error e =>
          rw [hrest] at ih
          refine iff_of_false (by rintro ⟨rs,hrs⟩; cases hrs) fun hc => ?_
          obtain ⟨rs,hrs⟩ := ih.mpr (by omega)
          cases hrs
        | ok rs =>
          rw [hrest] at ih
          have := ih.mp ⟨rs,rfl⟩
          refine iff_of_true ⟨_,rfl⟩ (.inr ⟨by omega,?_⟩)
          rcases this with rfl | this <;> omega

theorem parseRanges_first {buf : List UInt8} {size n i c : ℕ} {rs : List ParsedRange}
    (h : parseRanges buf size n i c = .ok rs) : ∀ re ∈ rs.head?, re.firstEntryIndex = c := by
  cases n with
  | zero =>
    cases h
    intro re hre
    cases hre
  | succ n =>
    rw [parseRanges] at h
    obtain ⟨b,_,h⟩ := exists_bind h
    obtain ⟨re,_,h⟩ := exists_bind h
    obtain ⟨rest,_,h⟩ := exists_bind h
    cases h
    intro re' hre
    cases hre
    rfl

variable (codec : HeaderCodec) (file : List UInt8)

/-- Both sections of the index are in the file, as far as their computed sizes say. -/
def IndexInFile (headerSize : ℕ) (h : Header) : Prop :=
  ∃ rangeBuf entryBuf,
    ByteStream.readAt file (magic.length+4+headerSize : ℕ)
        (h.numRangeEntries*h.rangeEntrySize%2^32) = (rangeBuf,none) ∧
      ByteStream.readAt file
        (magic.length+4+headerSize+h.numRangeEntries*h.rangeEntrySize%2^32 : ℕ)
        (h.numBlockEntries*h.blockEntrySize%2^32) = (entryBuf,none)

/-- The range entries of an index that `Load` parses have all their fields, and their section
has a 32-bit size. -/
def RangesFit : Prop := ∀ headerSize h, readHeader codec file = .ok (headerSize,h) →
  h.numRangeEntries ≠ 0 → h.numBlockEntries ≠ 0 → IndexInFile file headerSize h →
  16 ≤ h.rangeEntrySize ∧ h.numRangeEntries*h.rangeEntrySize < 2^32

/-- `Load` after the header: the ranges are parsed if both sections are there. -/
theorem load_eq {headerSize : ℕ} {h : Header} (hh : readHeader codec file = .ok (headerSize,h)) :
    ((h.numRangeEntries = 0 ∨ h.numBlockEntries = 0) ∧
        load codec file = .ok (.ok ⟨file,h,0,[],[]⟩)) ∨
      (h.numRangeEntries ≠ 0 ∧ h.numBlockEntries ≠ 0 ∧ ¬IndexInFile file headerSize h ∧
        ∃ err, load codec file = .ok (.error err)) ∨
      (h.numRangeEntries ≠ 0 ∧ h.numBlockEntries ≠ 0 ∧ ∃ rangeBuf entryBuf dataOffset,
        rangeBuf.length = h.numRangeEntries*h.rangeEntrySize%2^32 ∧
        entryBuf.length = h.numBlockEntries*h.blockEntrySize%2^32 ∧
        IndexInFile file headerSize h ∧
        load codec file = do
          let ranges ← parseRanges rangeBuf h.rangeEntrySize h.numRangeEntries 0 0
          .ok (.ok ⟨file,h,dataOffset,ranges,entryBuf⟩)) := by
  rw [load,hh]
  simp only
  by_cases hzero : h.numRangeEntries = 0 ∨ h.numBlockEntries = 0
  · exact .inl ⟨hzero,if_pos hzero⟩
  rw [if_neg hzero]
  obtain ⟨hr,he⟩ := not_or.mp hzero
  refine .inr ?_
  rcases h₁ : ByteStream.readAt file (magic.length+4+headerSize : ℕ)
      (h.numRangeEntries*h.rangeEntrySize%2^32) with ⟨rangeBuf,err₁⟩
  cases err₁ with
  | some err =>
    refine .inl ⟨hr,he,?_,_,rfl⟩
    rintro ⟨rb,eb,hrb,_⟩
    rw [hrb] at h₁
    cases h₁
  | none =>
    rcases h₂ : ByteStream.readAt file
        (magic.length+4+headerSize+h.numRangeEntries*h.rangeEntrySize%2^32 : ℕ)
        (h.numBlockEntries*h.blockEntrySize%2^32) with ⟨entryBuf,err₂⟩
    cases err₂ with
    | some err =>
      refine .inl ⟨hr,he,?_,_,rfl⟩
      rintro ⟨rb,eb,_,heb⟩
      rw [heb] at h₂
      cases h₂
    | none =>
      exact .inr ⟨hr,he,rangeBuf,entryBuf,_,readAt_length h₁,readAt_length h₂,
        ⟨rangeBuf,entryBuf,h₁,h₂⟩,rfl⟩

theorem load_returns_iff : (∃ res, load codec file = .ok res) ↔ RangesFit codec file := by
  cases hh : readHeader codec file with
  | error e =>
    refine iff_of_true ⟨.error e,by rw [load,hh]⟩ fun headerSize h heq => ?_
    rw [hh] at heq
    cases heq
  | ok p =>
    obtain ⟨headerSize,h⟩ := p
    have hfit : RangesFit codec file ↔ (h.numRangeEntries ≠ 0 → h.numBlockEntries ≠ 0 →
        IndexInFile file headerSize h →
        16 ≤ h.rangeEntrySize ∧ h.numRangeEntries*h.rangeEntrySize < 2^32) := by
      constructor
      · exact fun hf => hf headerSize h hh
      · intro hf headerSize' h' hh'
        rw [hh] at hh'
        cases hh'
        exact hf
    rw [hfit]
    rcases load_eq codec file hh with ⟨hzero,hload⟩ | ⟨hr,he,hnot,err,hload⟩ |
      ⟨hr,he,rangeBuf,entryBuf,d,hrlen,_,hin,hload⟩
    · exact iff_of_true ⟨_,hload⟩ fun hr he => absurd hzero (not_or.mpr ⟨hr,he⟩)
    · exact iff_of_true ⟨_,hload⟩ fun _ _ hin => absurd hin hnot
    · have hparse := parseRanges_returns rangeBuf h.rangeEntrySize h.numRangeEntries 0 0
      have hok : (∃ res, load codec file = .ok res) ↔
          ∃ rs, parseRanges rangeBuf h.rangeEntrySize h.numRangeEntries 0 0 = .ok rs := by
        rw [hload]
        cases parseRanges rangeBuf h.rangeEntrySize h.numRangeEntries 0 0 with
        | error e => simp [bind,Except.bind]
        | ok rs => simp [bind,Except.bind]
      rw [hok,hparse,hrlen,Nat.zero_add]
      have hmod := Nat.mod_lt (h.numRangeEntries*h.rangeEntrySize) (show 0 < 2^32 by norm_num)
      constructor
      · rintro (hz | ⟨hsize,hle⟩)
        · exact absurd hz hr
        · exact fun _ _ _ => ⟨hsize,by omega⟩
      · intro hf
        obtain ⟨hsize,hlt⟩ := hf hr he hin
        exact .inr ⟨hsize,(Nat.mod_eq_of_lt hlt).ge⟩

theorem readHeader_blockSize {headerSize : ℕ} {h : Header}
    (hh : readHeader codec file = .ok (headerSize,h)) : 512 ≤ h.blockSize ∧ h.blockSize ≤ 2^20 := by
  rw [readHeader] at hh
  split at hh
  · cases hh
  · simp only at hh
    split_ifs at hh with h₁
    split at hh
    · cases hh
    · split at hh
      · cases hh
      · split_ifs at hh with h₂ h₃
        cases hh
        omega

theorem load_loaded {r : Reader} (hload : load codec file = .ok (.ok r)) : r.Loaded := by
  cases hh : readHeader codec file with
  | error e =>
    rw [load,hh] at hload
    cases hload
  | ok p =>
    obtain ⟨headerSize,h⟩ := p
    obtain ⟨hlow,hhigh⟩ := readHeader_blockSize codec file hh
    rcases load_eq codec file hh with ⟨_,heq⟩ | ⟨_,_,_,err,heq⟩ |
      ⟨_,_,rangeBuf,entryBuf,d,_,helen,_,heq⟩
    · rw [heq] at hload
      cases hload
      exact ⟨hlow,hhigh,fun re hre => by cases hre⟩
    · rw [heq] at hload
      cases hload
    · rw [heq] at hload
      cases hparse : parseRanges rangeBuf h.rangeEntrySize h.numRangeEntries 0 0 with
      | error e =>
        rw [hparse] at hload
        cases hload
      | ok rs =>
        rw [hparse] at hload
        cases hload
        exact ⟨hlow,hhigh,parseRanges_first hparse⟩

/-- `Load` returns, and a table that it gives is safe to query. -/
def SafeTable : Prop :=
  (∃ res, load codec file = .ok res) ∧ ∀ r, load codec file = .ok (.ok r) → r.Safe

def SoundTable : Prop := RangesFit codec file ∧ ∀ r, load codec file = .ok (.ok r) → r.Sound

def ConsistentTable : Prop :=
  RangesFit codec file ∧ ∀ r, load codec file = .ok (.ok r) → r.Consistent

/-- A sound index makes a table safe, and a table is safe only with a consistent index. -/
theorem safeTable_between :
    (SoundTable codec file → SafeTable codec file) ∧
      (SafeTable codec file → ConsistentTable codec file) := by
  constructor
  · rintro ⟨hfit,hsound⟩
    refine ⟨(load_returns_iff codec file).mpr hfit,fun r hload => ?_⟩
    exact (hsound r hload).safe (load_loaded codec file hload)
  · rintro ⟨hret,hsafe⟩
    refine ⟨(load_returns_iff codec file).mp hret,fun r hload => ?_⟩
    exact (hsafe r hload).consistent (load_loaded codec file hload)

/-- A table with an index has ranges and entries. -/
theorem counts_ne_zero {r : Reader} (hload : load codec file = .ok (.ok r)) (hr : r.ranges ≠ []) :
    r.header.numRangeEntries ≠ 0 ∧ r.header.numBlockEntries ≠ 0 := by
  cases hh : readHeader codec file with
  | error e =>
    rw [load,hh] at hload
    cases hload
  | ok p =>
    obtain ⟨headerSize,h⟩ := p
    rcases load_eq codec file hh with ⟨_,heq⟩ | ⟨_,_,_,err,heq⟩ |
      ⟨hranges,hentries,rangeBuf,entryBuf,d,_,_,_,heq⟩
    · rw [heq] at hload
      cases hload
      exact absurd rfl hr
    · rw [heq] at hload
      cases hload
    · rw [heq] at hload
      obtain ⟨rs,_,hok⟩ := exists_bind hload
      cases hok
      exact ⟨hranges,hentries⟩

end Load

section Built

namespace Reader

variable {r : Reader} {gs : List (List Run)}

theorem entryAt_of_parse {i : ℕ} {be : BlockEntry} (h : r.parseBlockEntry i = .ok be) :
    r.entryAt i = some be := by
  cases hi : r.entryAt i with
  | none =>
    obtain ⟨e,he⟩ := parseBlockEntry_outside hi
    rw [h] at he
    cases he
  | some be' =>
    rw [parseBlockEntry_eq hi] at h
    cases h
    rfl

theorem exists_of_mem_parsed {n : ℕ} {re : ParsedRange} (h : re ∈ parsed n gs) :
    ∃ pre g post, gs = pre++g::post ∧ re = ⟨rangeOf g,n+pre.flatten.length⟩ := by
  induction gs generalizing n with
  | nil => cases h
  | cons g gs ih =>
    rcases List.mem_cons.mp h with rfl | h
    · exact ⟨[],g,gs,rfl,rfl⟩
    · obtain ⟨pre,g',post,rfl,rfl⟩ := ih h
      exact ⟨g::pre,g',post,rfl,by simp [Nat.add_assoc]⟩

/-- The blocks at a spot are those of a run. -/
theorem Holds.blocksOf_spot (h : r.Holds gs) {re : ParsedRange} {i : ℕ} {be : BlockEntry}
    (hmem : (re,i) ∈ r.spots) (hbe : r.entryAt i = some be) :
    ∃ e ∈ gs.flatten, blocksOf re be = (e.off,e.len) := by
  have hre : re ∈ r.ranges ∧ ∃ j, i = re.firstEntryIndex+j ∧ (j = 0 ∨ j < re.numEntries) := by
    rcases List.mem_append.mp hmem with hmem | hmem
    · obtain ⟨re',hre',hmap⟩ := List.mem_flatMap.mp hmem
      obtain ⟨k,hk,heq⟩ := List.mem_map.mp hmap
      cases heq
      obtain ⟨j,hj,rfl⟩ := List.mem_range'.mp hk
      exact ⟨hre',j,by omega,.inr hj⟩
    · obtain ⟨re',hre',heq⟩ := List.mem_map.mp hmem
      cases heq
      exact ⟨hre',0,rfl,.inl rfl⟩
  obtain ⟨hre,j,rfl,hj⟩ := hre
  rw [h.ranges] at hre
  obtain ⟨pre,g,post,hgs,rfl⟩ := exists_of_mem_parsed hre
  have hg : g ∈ gs := by simp [hgs]
  have hpos := List.length_pos_of_ne_nil (h.wf.nonempty g hg)
  have hlt : j < g.length := hj.elim (fun hzero => hzero ▸ hpos) id
  obtain ⟨e,he⟩ : ∃ e, g[j]? = some e := ⟨_,List.getElem?_eq_getElem hlt⟩
  have hmem := List.mem_of_getElem? he
  have hentry := getElem?_blockEntries pre g post he
  rw [← hgs] at hentry
  have hparse := entryAt_of_parse (h.parseBlockEntry_eq hg hmem hentry)
  rw [Nat.zero_add,hparse] at hbe
  cases hbe
  refine ⟨e,List.mem_flatten.mpr ⟨g,hg,hmem⟩,?_⟩
  have hle := h.wf.start_le hg hmem
  simp only [blocksOf,rangeOf,entryOf,BlockEntry.length,Prod.mk.injEq]
  omega

/-- The index of a built table is sound. -/
theorem Table.sound {data : List UInt8} (h : r.Table gs data) (hl : r.Loaded)
    (hr : r.header.numRangeEntries ≠ 0) (he : r.header.numBlockEntries ≠ 0) : r.Sound := by
  refine ⟨hr,he,fun b _ => ?_⟩
  have hfinds := getNextEntry_spec (r := r) b
  rw [h.toHolds.getNextEntry_eq] at hfinds
  cases hfound : r.lookup b with
  | none =>
    rw [hfound] at hfinds
    obtain ⟨err,herr⟩ := hfinds
    cases herr
  | some found =>
    refine ⟨found,rfl,fun c hc => ?_⟩
    obtain rfl : found = some c := hc
    rw [hfound] at hfinds
    obtain ⟨entry,hentry,hblocks⟩ := hfinds
    obtain ⟨e,hfind,rfl⟩ := Option.map_eq_some_iff.mp (Except.ok.inj hentry)
    obtain ⟨re,i,be,hspot,hbe,rfl⟩ := hl.mem_spots hfound
    obtain ⟨e',he',heq⟩ := h.blocksOf_spot hspot hbe
    rw [heq] at hblocks ⊢
    have hend : (e'.off+e'.len)*r.header.blockSize < 2^63 := h.short e' he'
    have hend' : (e.off+e.len)*r.header.blockSize < 2^63 := h.short e (List.mem_of_find?_eq_some hfind)
    -- neither run wraps, so both are at the same blocks
    obtain ⟨hoff,hlen⟩ := hblocks.nat hend
    obtain ⟨hoff',hlen'⟩ := HasBlocks.nat (r := r) (e := toEntry r.header.blockSize e)
      (c := (e.off,e.len)) ⟨by simp [toEntry],by simp [toEntry]⟩ hend'
    have hbs := h.blockSize_pos
    have h₁ : e'.off = e.off := by
      have : e'.off*r.header.blockSize = e.off*r.header.blockSize := by
        exact_mod_cast hoff.symm.trans hoff'
      exact Nat.eq_of_mul_eq_mul_right hbs this
    have h₂ : e'.len = e.len := by
      have : e'.len*r.header.blockSize = e.len*r.header.blockSize := by
        exact_mod_cast hlen.symm.trans hlen'
      exact Nat.eq_of_mul_eq_mul_right hbs this
    have hbehind : (b : ℤ) < (e.off+e.len : ℕ) := by simpa using List.find?_some hfind
    rw [h₁,h₂] at hend ⊢
    exact ⟨by omega,hend⟩

end Reader

variable (codec : HeaderCodec) {bs : ℕ} {calls : List IndexEntry} {b : Builder}

/-- What the builder writes is sound, as long as the last block ends within `int64`. -/
theorem soundTable_of_build (hlow : 512 ≤ bs) (hhigh : bs ≤ 2^20)
    (hadd : (Builder.new bs).addAll calls = .ok b)
    (hcalls : ∀ c ∈ calls, c.offset+c.length ≤ 2^48) (hne : ∃ c ∈ calls, c.length ≠ 0)
    (hindex : b.writeIndex.length < 2^32) (hend : endOf bs calls < 2^63) {file : List UInt8}
    (hbuild : b.build codec = .ok file) : SoundTable codec file := by
  obtain ⟨r,gs,hload,hholds,htable⟩ := load_build codec hlow hhigh hadd hcalls hne hindex hbuild
  obtain ⟨⟨data,ht⟩,_⟩ := htable hend
  refine ⟨(load_returns_iff codec file).mp ⟨_,hload⟩,fun r' hr' => ?_⟩
  rw [hload] at hr'
  cases hr'
  have hranges : r.ranges ≠ [] := by
    rw [hholds.ranges]
    intro hnil
    exact hholds.nonempty (List.length_eq_zero_iff.mp (by rw [← length_parsed 0 gs,hnil]; rfl))
  obtain ⟨hr,he⟩ := counts_ne_zero codec file hload hranges
  exact ht.sound (load_loaded codec file hload) hr he

theorem safeTable_two_calls : ∃ b file r,
    (Builder.new 512).addAll (twoCalls (List.replicate 512 1) (List.replicate (130*512) 2)) = .ok b ∧
    b.build wireCodec = .ok file ∧ load wireCodec file = .ok (.ok r) ∧ SafeTable wireCodec file := by
  have hlen : (List.replicate 512 (1 : UInt8)).length = 512 := List.length_replicate
  have hlen' : (List.replicate (130*512) (2 : UInt8)).length = 130*512 := List.length_replicate
  generalize List.replicate 512 (1 : UInt8) = data at *
  generalize List.replicate (130*512) (2 : UInt8) = data' at *
  obtain ⟨b,hadd⟩ := addAll_twoCalls data data' 512
  obtain ⟨file,hbuild⟩ := build_twoCalls wireCodec hadd hlen hlen'
  have hcalls := twoCalls_le data data'
  have hne : ∃ c ∈ twoCalls data data', c.length ≠ 0 := by simp [twoCalls]
  have hindex : b.writeIndex.length < 2^32 := by
    rw [length_writeIndex_twoCalls hadd]
    norm_num
  have hsound := soundTable_of_build wireCodec (le_refl 512) (by norm_num) hadd hcalls hne hindex
    (by simp [endOf,Builder.nonempty,twoCalls]) hbuild
  obtain ⟨r,_,hload,_⟩ := load_build wireCodec (le_refl 512) (by norm_num) hadd hcalls hne hindex
    hbuild
  exact ⟨b,file,r,hadd,hbuild,hload,(safeTable_between wireCodec file).1 hsound⟩

end Built

/-- The table that `Build` writes without any block is loaded, and each query of it panics. -/
theorem not_safeTable_empty : ∃ file r, (Builder.new 512).build wireCodec = .ok file ∧
    load wireCodec file = .ok (.ok r) ∧
    r.logLoadStats = .error (.panic "integer divide by zero") ∧
    r.nextData 0 = .error (.panic "index out of range") ∧ ¬SafeTable wireCodec file := by
  have hbuild : (Builder.new 512).build wireCodec = .ok ((Builder.new 512).front wireCodec) :=
    (Builder.build_eq_ok wireCodec).mpr ⟨[],rfl,(List.append_nil _).symm⟩
  have hhead := readHeader_eq wireCodec (Builder.Holds.new 512).fits rfl (Builder.new 512).writeIndex
  rw [if_neg (by decide)] at hhead
  rcases load_eq wireCodec ((Builder.new 512).front wireCodec) hhead with
    ⟨_,hload⟩ | ⟨hr,_⟩ | ⟨hr,_⟩
  · refine ⟨_,_,hbuild,hload,rfl,rfl,fun hsafe => ?_⟩
    obtain ⟨stats,hstats⟩ := (hsafe.2 _ hload).logLoadStats
    cases hstats
  · exact absurd rfl hr
  · exact absurd rfl hr

end Sparse
end Logblock
