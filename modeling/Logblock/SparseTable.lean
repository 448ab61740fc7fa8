import Logblock.SparseSizes

/-! The round trip of a sparse table: what is added to the builder is what the reader of the file
serves, as long as the last block ends within `int64`. -/
namespace Logblock
namespace Sparse

open Loop Bytes Runs Builder

section Calls

variable (bs : ℕ)

def IndexEntry.covers (c : IndexEntry) (x : ℕ) : Bool :=
  c.offset*bs ≤ x ∧ x < (c.offset+c.length)*bs

/-- The byte `x` was added by one of the calls. -/
def AddedBy (calls : List IndexEntry) (x : ℕ) : Prop := ∃ c ∈ calls, c.covers bs x

/-- The byte `x` as it was added, zero in a gap. -/
def byteOf (calls : List IndexEntry) (x : ℕ) : UInt8 :=
  ((calls.find? fun c => c.covers bs x).map fun c => c.data.getD (x-c.offset*bs) 0).getD 0

/-- The end of the last added block, in bytes. -/
def endOf (calls : List IndexEntry) : ℕ :=
  ((nonempty calls).map fun c => (c.offset+c.length)*bs).foldr max 0

variable {bs}

theorem IndexEntry.covers_iff {c : IndexEntry} {x : ℕ} :
    c.covers bs x = true ↔ c.offset*bs ≤ x ∧ x < (c.offset+c.length)*bs := by
  rw [covers,decide_eq_true_eq]

theorem IndexEntry.length_ne_zero_of_covers {c : IndexEntry} {x : ℕ} (h : c.covers bs x) :
    c.length ≠ 0 := by
  rw [covers_iff] at h
  rintro hzero
  rw [hzero,Nat.add_zero] at h
  omega

theorem addedBy_nonempty {calls : List IndexEntry} {x : ℕ} :
    AddedBy bs (nonempty calls) x ↔ AddedBy bs calls x := by
  constructor
  · rintro ⟨c,hc,hx⟩
    exact ⟨c,List.mem_of_mem_filter hc,hx⟩
  · rintro ⟨c,hc,hx⟩
    exact ⟨c,List.mem_filter.mpr ⟨hc,by simpa using IndexEntry.length_ne_zero_of_covers hx⟩,hx⟩

theorem byteOf_nonempty (calls : List IndexEntry) (x : ℕ) :
    byteOf bs (nonempty calls) x = byteOf bs calls x := by
  have hfind : (nonempty calls).find? (fun c => c.covers bs x) =
      calls.find? fun c => c.covers bs x := by
    rw [nonempty,List.find?_filter]
    refine List.find?_congr fun c _ => ?_
    cases hc : c.covers bs x with
    | false => simp
    | true => simpa using IndexEntry.length_ne_zero_of_covers hc
  rw [byteOf,byteOf,hfind]

/-- The last added byte stands right before the end. -/
theorem endOf_spec (hbs : 0 < bs) {calls : List IndexEntry} (hne : ∃ c ∈ calls, c.length ≠ 0) :
    0 < endOf bs calls ∧ AddedBy bs calls (endOf bs calls-1) ∧
      ∀ x, AddedBy bs calls x → x < endOf bs calls := by
  obtain ⟨c₀,hc₀,hlen₀⟩ := hne
  have hmem₀ : c₀ ∈ nonempty calls := List.mem_filter.mpr ⟨hc₀,by simpa using hlen₀⟩
  have hlist : (nonempty calls).map (fun c => (c.offset+c.length)*bs) ≠ [] := by
    intro hnil
    rw [List.map_eq_nil_iff] at hnil
    rw [hnil] at hmem₀
    cases hmem₀
  obtain ⟨c,hc,heq⟩ := List.mem_map.mp
    (List.maximum_mem (List.foldr_max_of_ne_nil hlist).symm)
  change (c.offset+c.length)*bs = endOf bs calls at heq
  obtain ⟨hcmem,hclen⟩ := List.mem_filter.mp hc
  have hpos : 0 < c.length*bs := Nat.mul_pos (Nat.pos_of_ne_zero (by simpa using hclen)) hbs
  have hsplit : (c.offset+c.length)*bs = c.offset*bs+c.length*bs := Nat.add_mul _ _ _
  refine ⟨by omega,⟨c,hcmem,IndexEntry.covers_iff.mpr (by omega)⟩,fun x hx => ?_⟩
  obtain ⟨c',hc',hx'⟩ := addedBy_nonempty.mpr hx
  have hle : (c'.offset+c'.length)*bs ≤ endOf bs calls :=
    List.le_max_of_le (List.mem_map.mpr ⟨c',hc',rfl⟩) le_rfl
  have := (IndexEntry.covers_iff.mp hx').2
  omega

end Calls

section Layout

variable {bs : ℕ}

theorem Tiles.added_iff {o : ℕ} {es : List Run} (h : Tiles o es) {x : ℕ} :
    Added bs es x ↔ o*bs ≤ x ∧ x < (o+totalLen es)*bs := by
  induction es generalizing o with
  | nil =>
    simp only [Added,totalLen_nil,Nat.add_zero]
    constructor
    · rintro ⟨e,he,_⟩
      cases he
    · intro hx
      omega
  | cons e es ih =>
    obtain ⟨rfl,hrest⟩ := h
    have hstep : Added bs (e::es) x ↔ (e.lo bs ≤ x ∧ x < e.hi bs) ∨ Added bs es x := by
      simp [Added]
    have h₁ : (e.off+e.len)*bs = e.off*bs+e.len*bs := Nat.add_mul _ _ _
    have h₂ : (e.off+e.len+totalLen es)*bs = (e.off+e.len)*bs+totalLen es*bs := Nat.add_mul _ _ _
    rw [hstep,ih hrest,totalLen_cons,← Nat.add_assoc]
    simp only [Run.lo,Run.hi]
    omega

/-- Runs that tile blocks have their data in the same order. -/
theorem Tiles.data_eq {o d : ℕ} {es : List Run} (h : Tiles o es) (hp : Packed d es) {e : Run}
    (he : e ∈ es) : o ≤ e.off ∧ e.data+o = d+e.off := by
  induction es generalizing o d with
  | nil => cases he
  | cons a es ih =>
    obtain ⟨rfl,hrest⟩ := h
    obtain ⟨rfl,hprest⟩ := hp
    rcases List.mem_cons.mp he with rfl | he
    · exact ⟨le_rfl,rfl⟩
    · have := ih hrest hprest he
      omega

theorem Builder.Layout.added_iff {cs : List IndexEntry} {es : List Run} (h : Layout cs es) {x : ℕ} :
    Added bs es x ↔ AddedBy bs cs x := by
  induction cs generalizing es with
  | nil =>
    cases h
    simp [Added,AddedBy]
  | cons c cs ih =>
    obtain ⟨es₁,es₂,rfl,ht,hlen,hrest⟩ := h
    have hstep : Added bs (es₁++es₂) x ↔ Added bs es₁ x ∨ Added bs es₂ x := by
      simp only [Added,List.mem_append,or_and_right,exists_or]
    rw [hstep,ht.added_iff,ih hrest,hlen,AddedBy,AddedBy]
    simp only [List.mem_cons,exists_eq_or_imp,IndexEntry.covers_iff]

/-- The data section: the data of the calls, one after the other. -/
def dataOf (bs : ℕ) (cs : List IndexEntry) : List UInt8 :=
  cs.flatMap fun c => c.data.take (c.length*bs)

theorem Builder.Layout.length_dataOf {cs : List IndexEntry} {es : List Run} (h : Layout cs es)
    (hfull : ∀ c ∈ cs, c.length*bs ≤ c.data.length) :
    (dataOf bs cs).length = totalLen es*bs := by
  induction cs generalizing es with
  | nil =>
    cases h
    simp [dataOf]
  | cons c cs ih =>
    obtain ⟨es₁,es₂,rfl,_,hlen,hrest⟩ := h
    have hc := hfull c List.mem_cons_self
    have := ih hrest fun c' hc' => hfull c' (List.mem_cons_of_mem c hc')
    rw [dataOf] at this
    rw [dataOf,List.flatMap_cons,List.length_append,this,List.length_take,Nat.min_eq_left hc,
      totalLen_append,hlen,Nat.add_mul]

/-- The reader finds a byte where its call has put it. -/
theorem Builder.Layout.cell_eq {cs : List IndexEntry} {es : List Run} (h : Layout cs es)
    (hp : Packed 0 es) (hasc : es.Pairwise fun a b => a.off+a.len ≤ b.off)
    (hfull : ∀ c ∈ cs, c.length*bs ≤ c.data.length) (x : ℕ) :
    (cell bs es (dataOf bs cs) x).getD 0 = byteOf bs cs x := by
  cases hf : cs.find? fun c => c.covers bs x with
  | none =>
    have hnot : ¬AddedBy bs cs x := fun ⟨c,hc,hx⟩ => List.find?_eq_none.mp hf c hc hx
    rw [cell_eq_none.mpr fun hx => hnot (h.added_iff.mp hx),byteOf,hf]
    rfl
  | some c =>
    obtain ⟨hx,pre,post,rfl,_⟩ := List.find?_eq_some_iff_append.mp hf
    have hcov := IndexEntry.covers_iff.mp hx
    obtain ⟨es₀,_,rfl,h₀,es₁,es₂,rfl,ht,hlen,_⟩ := layout_append.mp h
    rw [packed_append,packed_append,Nat.zero_add] at hp
    have hadded : Added bs es₁ x := ht.added_iff.mpr (by rw [hlen]; exact hcov)
    obtain ⟨e,he,hlo,hhi⟩ := hadded
    obtain ⟨hle,hdata⟩ := ht.data_eq hp.2.1 he
    have hc : c.length*bs ≤ c.data.length := hfull c (by simp)
    have hlen₀ := h₀.length_dataOf fun c' hc' => hfull c' (by simp [hc'])
    have hplace : e.data*bs+(x-e.lo bs) = (dataOf bs pre).length+(x-c.offset*bs) := by
      have hmul : e.data*bs+c.offset*bs = totalLen es₀*bs+e.off*bs := by
        rw [← Nat.add_mul,← Nat.add_mul,hdata]
      have hmul' : c.offset*bs ≤ e.off*bs := Nat.mul_le_mul_right bs hle
      rw [hlen₀]
      simp only [Run.lo] at hlo ⊢
      omega
    have hsplit : dataOf bs (pre++c::post) =
        dataOf bs pre++(c.data.take (c.length*bs)++dataOf bs post) := by
      simp [dataOf]
    have hin : x-c.offset*bs < c.length*bs := by
      have : (c.offset+c.length)*bs = c.offset*bs+c.length*bs := Nat.add_mul _ _ _
      omega
    rw [cell_of_mem hasc (show e ∈ es₀++(es₁++es₂) by simp [he]) hlo hhi,Option.getD_some,hplace,
      hsplit,byteOf,hf,Option.map_some,Option.getD_some,
      List.getD_append_right _ _ _ _ (Nat.le_add_right _ _),Nat.add_sub_cancel_left,
      List.getD_append _ _ _ _ (by rw [List.length_take]; omega),List.getD_eq_getElem?_getD,
      List.getElem?_take_of_lt hin,List.getD_eq_getElem?_getD]

theorem copyData_eq {cs : List IndexEntry} {data : List UInt8}
    (hsmall : ∀ c ∈ cs, c.length*bs < 2^63) (h : copyData bs cs = .ok data) :
    data = dataOf bs cs ∧ ∀ c ∈ cs, c.length*bs ≤ c.data.length := by
  induction cs generalizing data with
  | nil =>
    cases h
    exact ⟨rfl,fun c hc => by cases hc⟩
  | cons c cs ih =>
    have hc := hsmall c List.mem_cons_self
    have hi : i64 ((c.length : ℤ)*bs) = (c.length*bs : ℕ) := by
      rw [← Nat.cast_mul]
      exact i64_of_range (by omega) (by omega)
    rw [copyData] at h
    simp only [hi,Int.toNat_natCast] at h
    by_cases hshort : ((c.data.take (c.length*bs)).length : ℤ) ≠ (c.length*bs : ℕ)
    · rw [if_pos hshort] at h
      cases h
    · rw [if_neg hshort] at h
      cases hrest : copyData bs cs with
      | error e =>
        rw [hrest] at h
        cases h
      | ok rest =>
        rw [hrest] at h
        cases h
        obtain ⟨rfl,hfull⟩ := ih (fun c' hc' => hsmall c' (List.mem_cons_of_mem c hc')) hrest
        refine ⟨by simp [dataOf],fun c' hc' => ?_⟩
        rcases List.mem_cons.mp hc' with rfl | hc'
        · rw [List.length_take] at hshort
          omega
        · exact hfull c' hc'

end Layout

namespace Reader

/-- The answers of the searches are `int64` values. -/
theorem Holds.nextData_lt {r : Reader} {gs : List (List Run)} (h : r.Holds gs) {off y : ℤ}
    {err : Option Error} (hoff : off < 2^63) (hnext : r.nextData off = .ok (y,err)) : y < 2^63 := by
  rw [nextData,h.getNextEntry_eq] at hnext
  generalize gs.flatten.find? _ = o at hnext
  cases o with
  | none =>
    cases hnext
    norm_num
  | some e =>
    simp only [bind,Except.bind,Option.map_some,Except.ok.injEq,Prod.mk.injEq] at hnext
    rw [← hnext.1]
    split_ifs
    · exact hoff
    · exact i64_lt _

theorem Holds.nextHole_lt {r : Reader} {gs : List (List Run)} (h : r.Holds gs) {off y : ℤ}
    {err : Option Error} (hoff : off < 2^63) (hnext : r.nextHole off = .ok (y,err)) : y < 2^63 := by
  rw [nextHole] at hnext
  cases hrun : run r.nextHolePass ((r.ranges.map (·.numEntries)).sum+r.ranges.length+1) off with
  | error e =>
    rw [hrun] at hnext
    cases hnext
  | ok z =>
    rw [hrun] at hnext
    cases hnext
    have hpass : ∀ s out, s < 2^63 → r.nextHolePass s = .ok out →
        (∃ s', out = .inl s' ∧ s' < 2^63) ∨ out = .inr s := by
      intro s out hs hout
      rw [nextHolePass,h.getNextEntry_eq] at hout
      generalize gs.flatten.find? _ = o at hout
      cases o with
      | none =>
        cases hout
        exact .inr rfl
      | some e =>
        simp only [bind,Except.bind,Option.map_some,Except.ok.injEq] at hout
        rw [← hout]
        split_ifs
        · exact .inl ⟨_,rfl,i64_lt _⟩
        · exact .inr rfl
    refine run_partial (· < 2^63) (· < 2^63) ?_ ?_ hoff hrun
    · intro s s' hs hout
      obtain ⟨_,heq,hlt⟩ | heq := hpass s _ hs hout
      · cases heq
        exact hlt
      · cases heq
    · intro s z hs hout
      obtain ⟨_,heq,hlt⟩ | heq := hpass s _ hs hout
      · cases heq
      · cases heq
        exact hs

end Reader

/-- The reader serves what the calls added. -/
structure RoundTrips (bs : ℕ) (calls : List IndexEntry) (r : Reader) : Prop where
  nextData : ∀ off : ℕ, off < 2^63 → ∃ o, LeastFrom (AddedBy bs calls) off o ∧
    r.nextData off = .ok (match o with | some y => ((y : ℤ),none) | none => (0,some .eof))
  nextHole : ∀ off : ℕ, off < 2^63 → ∃ y, LeastFrom (fun x => ¬AddedBy bs calls x) off (some y) ∧
    r.nextHole off = .ok ((y : ℤ),none)
  readAt : ∀ off n : ℕ, off < 2^63 → r.readAt n off =
    .ok ((List.range' off (min n (endOf bs calls-off))).map (byteOf bs calls),
      if min n (endOf bs calls-off) < n then some .eof else none)

section Built

variable {bs : ℕ} {calls : List IndexEntry} {b : Builder} {gs : List (List Run)}

/-- The last added byte has no `int64` offset behind it. -/
theorem Reader.Holds.endOf_lt {r : Reader} (h : r.Holds gs) (hbs : 0 < bs)
    (hne : ∃ c ∈ calls, c.length ≠ 0) (hrt : RoundTrips bs calls r) : endOf bs calls < 2^63 := by
  by_contra hge
  obtain ⟨hpos,hlast,_⟩ := endOf_spec hbs hne
  by_cases hadded : AddedBy bs calls (2^63-1)
  · obtain ⟨y,⟨hy,hnot,_⟩,hnext⟩ := hrt.nextHole (2^63-1) (by norm_num)
    have hlt := h.nextHole_lt (by norm_num) hnext
    have hy' : y = 2^63-1 := by omega
    exact hnot (hy' ▸ hadded)
  · obtain ⟨o,ho,hnext⟩ := hrt.nextData (2^63-1) (by norm_num)
    cases o with
    | none => exact ho (endOf bs calls-1) (by omega) hlast
    | some y =>
      have hlt := h.nextData_lt (by norm_num) hnext
      have hy' : y = 2^63-1 := by
        have := ho.1
        omega
      exact hadded (hy' ▸ ho.2.1)

/-- A call has at most the blocks of the table. -/
theorem Builder.Layout.length_le {cs : List IndexEntry} {es : List Run} (h : Layout cs es)
    {c : IndexEntry} (hc : c ∈ cs) : c.length ≤ totalLen es := by
  induction cs generalizing es with
  | nil => cases hc
  | cons c' cs ih =>
    obtain ⟨es₁,es₂,rfl,_,hlen,hrest⟩ := h
    rw [totalLen_append]
    rcases List.mem_cons.mp hc with rfl | hc
    · omega
    · have := ih hrest hc
      omega

theorem totalLen_le {es : List Run} (h : ∀ e ∈ es, e.len ≤ 127) : totalLen es ≤ 127*es.length := by
  induction es with
  | nil => exact le_rfl
  | cons e es ih =>
    have he := h e List.mem_cons_self
    have := ih fun e' he' => h e' (List.mem_cons_of_mem e he')
    rw [List.length_cons,totalLen_cons]
    omega

/-- A table with less than `2^32` bytes of index is a file that can be addressed. -/
theorem Builder.Holds.length_file_lt (h : b.Holds gs) (codec : HeaderCodec)
    (hbs : b.blockSize ≤ 2^20) (hindex : b.writeIndex.length < 2^32) {file : List UInt8}
    (hbuild : b.build codec = .ok file) : file.length < 2^63 := by
  have hbuf := h.length_buf
  have hlen : b.writeIndex.length = 16*b.ranges.length+b.blockEntryBuf.length := by
    rw [writeIndex,List.length_append,length_marshalRanges]
  have htotal := totalLen_le fun e he => (h.wf.len e he).2
  have hblocks : totalLen gs.flatten ≤ 2^38 := by omega
  have hdata : totalLen gs.flatten*b.blockSize ≤ 2^38*2^20 := Nat.mul_le_mul hblocks hbs
  obtain ⟨bytes,hcopy,rfl⟩ := (build_eq_ok codec).mp hbuild
  obtain ⟨rfl,hfull⟩ := copyData_eq (fun c hc => by
    have := Nat.mul_le_mul_right b.blockSize (h.layout.length_le hc)
    omega) hcopy
  have hheader := codec.length_le b.header
  rw [List.length_append,front,h.layout.length_dataOf hfull]
  simp only [List.length_append,length_leBytes,show magic.length = 16 from rfl]
  omega

/-- The file of a builder, and its data section. -/
theorem Builder.Holds.table (h : b.Holds gs) (hbs : 0 < b.blockSize) (hbs' : b.blockSize ≤ 2^20)
    (hentries : b.entries = nonempty calls) (hne : gs ≠ [])
    (he : 3*gs.flatten.length < 2^32) (hend : endOf b.blockSize calls < 2^63) {pre : List UInt8}
    {data : List UInt8} (hcopy : copyData b.blockSize b.entries = .ok data)
    (hfile : (pre++data).length < 2^63) :
    Reader.Table ⟨pre++data,b.header,pre.length,parsed 0 gs,b.blockEntryBuf⟩ gs data ∧
      data = dataOf b.blockSize b.entries ∧
      ∀ c ∈ b.entries, c.length*b.blockSize ≤ c.data.length := by
  have hsize : b.header.blockSize = b.blockSize := Nat.mod_eq_of_lt (by omega)
  have hsmall : ∀ c ∈ b.entries, c.length*b.blockSize < 2^63 := by
    intro c hc
    rw [hentries] at hc
    have hle : (c.offset+c.length)*b.blockSize ≤ endOf b.blockSize calls :=
      List.le_max_of_le (List.mem_map.mpr ⟨c,hc,rfl⟩) le_rfl
    rw [Nat.add_mul] at hle
    omega
  obtain ⟨hdata,hfull⟩ := copyData_eq hsmall hcopy
  refine ⟨?_,hdata,hfull⟩
  refine ⟨⟨h.wf,hne,rfl,by omega,h.buf,rfl⟩,?_,⟨pre,rfl,rfl⟩,hfile,?_,?_⟩
  · simp only [hsize,hbs]
  · rw [hdata,hsize,h.layout.length_dataOf hfull]
  · intro e hmem
    simp only [hsize]
    have hpos : 0 < e.len*b.blockSize := Nat.mul_pos (h.wf.len e hmem).1 hbs
    have hhi := e.hi_eq b.blockSize
    have hadded : Added b.blockSize gs.flatten (e.hi b.blockSize-1) := ⟨e,hmem,by omega,by omega⟩
    rw [h.layout.added_iff,hentries,addedBy_nonempty] at hadded
    obtain ⟨c,hc,_⟩ := hadded
    have hlt := (endOf_spec hbs ⟨c,hc,IndexEntry.length_ne_zero_of_covers ‹_›⟩).2.2
      (e.hi b.blockSize-1) ⟨c,hc,‹_›⟩
    omega

/-- The queries of the table, in terms of the calls. -/
theorem Builder.Holds.roundTrips (h : b.Holds gs) (hbs : 0 < b.blockSize)
    (hbs' : b.blockSize ≤ 2^20) (hentries : b.entries = nonempty calls)
    (hcalls : ∃ c ∈ calls, c.length ≠ 0) (hne : gs ≠ []) (he : 3*gs.flatten.length < 2^32)
    (hend : endOf b.blockSize calls < 2^63) {pre : List UInt8} {data : List UInt8}
    (hcopy : copyData b.blockSize b.entries = .ok data) (hfile : (pre++data).length < 2^63) :
    RoundTrips b.blockSize calls
      ⟨pre++data,b.header,pre.length,parsed 0 gs,b.blockEntryBuf⟩ := by
  obtain ⟨ht,hdata,hfull⟩ := h.table hbs hbs' hentries hne he hend hcopy hfile
  have hsize : b.header.blockSize = b.blockSize := Nat.mod_eq_of_lt (by omega)
  have hadded : ∀ x, Added b.blockSize gs.flatten x ↔ AddedBy b.blockSize calls x := fun x => by
    rw [h.layout.added_iff,hentries,addedBy_nonempty]
  have hbyte : ∀ x, (cell b.blockSize gs.flatten data x).getD 0 = byteOf b.blockSize calls x :=
    fun x => by
      rw [hdata,h.layout.cell_eq h.wf.packed h.wf.ascending hfull,hentries,byteOf_nonempty]
  obtain ⟨hpos,hlast,hall⟩ := endOf_spec hbs hcalls
  have hstop : IsEnd b.blockSize gs.flatten (endOf b.blockSize calls) := by
    have hle : ∀ e ∈ gs.flatten, e.hi b.blockSize ≤ endOf b.blockSize calls := by
      intro e hmem
      have hlen : 0 < e.len*b.blockSize := Nat.mul_pos (h.wf.len e hmem).1 hbs
      have hhi := e.hi_eq b.blockSize
      have := hall (e.hi b.blockSize-1) ((hadded _).mp ⟨e,hmem,by omega,by omega⟩)
      omega
    obtain ⟨e,hmem,_,hhi⟩ := (hadded _).mpr hlast
    have := hle e hmem
    exact ⟨hle,e,hmem,by omega⟩
  refine ⟨fun off _ => ?_,fun off _ => ?_,fun off n _ => ?_⟩
  · obtain ⟨o,ho,hnext⟩ := ht.nextData_eq off
    simp only [hsize] at ho
    exact ⟨o,ho.congr hadded,hnext⟩
  · obtain ⟨y,hy,hnext⟩ := ht.nextHole_eq off
    simp only [hsize] at hy
    exact ⟨y,hy.congr fun x => not_congr (hadded x),hnext⟩
  · rw [← hsize] at hstop
    rw [ht.readAt_eq hstop n off]
    simp only [Reader.Table.bytes,hsize,hbyte]

variable (codec : HeaderCodec)

/-- `Load` of a built table, whose index is small enough. -/
theorem load_build (hlow : 512 ≤ bs) (hhigh : bs ≤ 2^20)
    (hadd : (Builder.new bs).addAll calls = .ok b)
    (hcalls : ∀ c ∈ calls, c.offset+c.length ≤ 2^48) (hne : ∃ c ∈ calls, c.length ≠ 0)
    (hindex : b.writeIndex.length < 2^32) {file : List UInt8} (hbuild : b.build codec = .ok file) :
    ∃ r gs, load codec file = .ok (.ok r) ∧ r.Holds gs ∧
      (endOf bs calls < 2^63 → (∃ data, r.Table gs data) ∧ RoundTrips bs calls r) := by
  obtain ⟨gs,h,hsize,hentries⟩ := (Holds.new bs).addAll_eq hcalls hadd
  rw [show (Builder.new bs).blockSize = bs from rfl] at hsize
  rw [show (Builder.new bs).entries = [] from rfl,List.nil_append] at hentries
  have hfile := h.length_file_lt codec (by omega) hindex hbuild
  obtain ⟨data,hcopy,rfl⟩ := (build_eq_ok codec).mp hbuild
  have hgs : gs ≠ [] := by
    rintro rfl
    obtain ⟨c,hc,hlen⟩ := hne
    have hlayout := h.layout
    rw [hentries] at hlayout
    have hmem : c ∈ nonempty calls := List.mem_filter.mpr ⟨hc,by simpa using hlen⟩
    have hcov : AddedBy 1 (nonempty calls) c.offset :=
      ⟨c,hmem,IndexEntry.covers_iff.mpr (by omega)⟩
    obtain ⟨e,he,_⟩ := hlayout.added_iff.mpr hcov
    cases he
  have hlens : b.writeIndex.length = 16*gs.length+3*gs.flatten.length := by
    rw [writeIndex,List.length_append,length_marshalRanges,h.length_buf,h.ranges,List.length_map]
  have hmod : b.header.blockSize = b.blockSize := Nat.mod_eq_of_lt (by omega)
  have hload := h.load_eq codec hgs (by omega) (by omega) (by omega) (by omega) data
  refine ⟨_,gs,hload,⟨h.wf,hgs,rfl,by omega,h.buf,rfl⟩,fun hend => ?_⟩
  rw [← hsize] at hend ⊢
  obtain ⟨htable,_⟩ := h.table (by omega) (by omega) hentries hgs (by omega) hend hcopy hfile
  exact ⟨⟨data,htable⟩,
    h.roundTrips (by omega) (by omega) hentries hne hgs (by omega) hend hcopy hfile⟩

/-- The round trip is right for exactly those tables whose last block ends within `int64`. -/
theorem roundTrips_iff (hlow : 512 ≤ bs) (hhigh : bs ≤ 2^20)
    (hadd : (Builder.new bs).addAll calls = .ok b)
    (hcalls : ∀ c ∈ calls, c.offset+c.length ≤ 2^48) (hne : ∃ c ∈ calls, c.length ≠ 0)
    (hindex : b.writeIndex.length < 2^32) {file : List UInt8} (hbuild : b.build codec = .ok file) :
    ∃ r, load codec file = .ok (.ok r) ∧ (RoundTrips bs calls r ↔ endOf bs calls < 2^63) := by
  obtain ⟨r,gs,hload,h,hrt⟩ := load_build codec hlow hhigh hadd hcalls hne hindex hbuild
  exact ⟨r,hload,fun h' => h.endOf_lt (by omega) hne h',fun hend => (hrt hend).2⟩

end Built

theorem roundTrips_two_calls : ∃ b file r,
    (Builder.new 512).addAll (twoCalls (List.replicate 512 1) (List.replicate (130*512) 2)) = .ok b ∧
    b.build wireCodec = .ok file ∧ load wireCodec file = .ok (.ok r) ∧
    RoundTrips 512 (twoCalls (List.replicate 512 1) (List.replicate (130*512) 2)) r := by
  have hlen : (List.replicate 512 (1 : UInt8)).length = 512 := List.length_replicate
  have hlen' : (List.replicate (130*512) (2 : UInt8)).length = 130*512 := List.length_replicate
  generalize List.replicate 512 (1 : UInt8) = data at *
  generalize List.replicate (130*512) (2 : UInt8) = data' at *
  obtain ⟨b,hadd⟩ := addAll_twoCalls data data' 512
  obtain ⟨file,hbuild⟩ := build_twoCalls wireCodec hadd hlen hlen'
  obtain ⟨r,hload,hiff⟩ := roundTrips_iff wireCodec (le_refl 512) (by norm_num) hadd
    (twoCalls_le data data') (by simp [twoCalls])
    (by rw [length_writeIndex_twoCalls hadd]; norm_num) hbuild
  exact ⟨b,file,r,hadd,hbuild,hload,hiff.mpr (by simp [endOf,nonempty,twoCalls])⟩

section OneBlock

/-- A table of one block. -/
def oneBlock (bs o : ℕ) (data : List UInt8) : Builder where
  blockSize := bs
  entries := [⟨o,1,data⟩]
  dataOffset := 1
  ranges := [⟨o,0,1⟩]
  blockEntryBuf := [0,0,2]
  totalBlocks := 1
  totalDataBlocks := 1
  prevEnd := o+1

theorem addAll_oneBlock (bs o : ℕ) (data : List UInt8) :
    (Builder.new bs).addAll [⟨o,1,data⟩] = .ok (oneBlock bs o data) := by
  have hneg : ¬((o : ℤ) < 0 ∨ ((1 : ℕ) : ℤ) < 0) := by omega
  simp only [addAll,List.foldlM_cons,List.foldlM_nil,addBlocks,if_neg hneg,Int.toNat_natCast]
  simp [Builder.new,maxBlocks,addEntries,addEntry,maxRangeEntries,maxEntryLength,lengthType,
    BlockEntry.marshal,leBytes,oneBlock,bind,Except.bind,pure,Except.pure]

theorem length_writeIndex_oneBlock (bs o : ℕ) (data : List UInt8) :
    (oneBlock bs o data).writeIndex.length = 19 := by
  simp [writeIndex,oneBlock,RangeEntry.length_marshal]

theorem build_oneBlock (codec : HeaderCodec) {bs o : ℕ} {data : List UInt8} (hlen : data.length = bs)
    (hbs : bs ≤ 2^20) : ∃ file, (oneBlock bs o data).build codec = .ok file := by
  refine build_ok codec ?_ ?_
  · simp only [oneBlock,List.mem_singleton,forall_eq]
    omega
  · simp only [oneBlock,List.mem_singleton,forall_eq]
    omega

/-- The last block that may be added, with blocks of 32 KiB, ends at `2^63`. -/
theorem not_roundTrips_last_block : ∃ b file,
    (Builder.new (2^15)).addAll [⟨2^48-1,1,List.replicate (2^15) 0⟩] = .ok b ∧
    b.writeIndex.length < 2^32 ∧ b.build wireCodec = .ok file ∧ file.length < 2^63 ∧
    ∀ r, load wireCodec file = .ok (.ok r) →
      ¬RoundTrips (2^15) [⟨2^48-1,1,List.replicate (2^15) 0⟩] r := by
  have hlen : (List.replicate (2^15) (0 : UInt8)).length = 2^15 := List.length_replicate
  generalize List.replicate (2^15) (0 : UInt8) = data at hlen
  obtain ⟨file,hbuild⟩ := build_oneBlock wireCodec (o := 2^48-1) hlen (by norm_num)
  have hadd := addAll_oneBlock (2^15) (2^48-1) data
  have hindex : (oneBlock (2^15) (2^48-1) data).writeIndex.length < 2^32 := by
    rw [length_writeIndex_oneBlock]
    norm_num
  have hne : ∃ c ∈ [IndexEntry.mk (2^48-1) 1 data], c.length ≠ 0 := by simp
  obtain ⟨gs,hholds,_⟩ := (Holds.new (2^15)).addAll_eq (by simp) hadd
  have hfile := hholds.length_file_lt wireCodec (by simp [oneBlock]) hindex hbuild
  refine ⟨_,file,hadd,hindex,hbuild,hfile,fun r hr hrt => ?_⟩
  obtain ⟨r',gs,hload,h,_⟩ := load_build wireCodec (by norm_num) (by norm_num) hadd (by simp) hne
    hindex hbuild
  rw [hload] at hr
  cases hr
  have hlt := h.endOf_lt (by norm_num) hne hrt
  simp [endOf,nonempty] at hlt

end OneBlock

end Sparse
end Logblock
