import Logblock.Adaptor
import Logblock.BlockLog
import Logblock.BuildFromReader

/-! A table from a reader of blocks and back. `adaptor.HoleReader` gives the builder the bytes of
the blocks, and a `DataFile` reads the blocks from the bytes of the table. The blocks that come out
are the ones that went in. -/
namespace Logblock
namespace TableFile

open Loop Bytes Runs BlockHoleReader Sparse Builder

/-- A search of `adaptor.HoleReader`, with the search for blocks that it uses. Where the source
panics, the answer is an error, on which the builder panics. -/
def search (blockSize : ℕ) (next : ℕ → ℕ × Option Error) (off : ℤ) : ℤ × Option Error :=
  if off < 0 then (0,some (.new "off < 0"))
  else
    let blockOff := off.tdiv blockSize
    let (nextBlock,err) := next blockOff.toNat
    if nextBlock = blockOff then (off,err) else (i64 (nextBlock*blockSize),err)

/-- `adaptor.HoleReader`. -/
def holeReader (blockSize : ℕ) (h : BlockHoleReader (List UInt8)) : Sparse.HoleReaderAt where
  nextData := search blockSize h.nextBlockData
  nextHole := search blockSize h.nextBlockHole
  readAt n off :=
    match Adaptor.readAt (fun k start => h.readBlocks k start.toNat) blockSize n off with
    | .ok out => out
    | .error e => ([],some (.new (reprStr e)))

/-- `DataFile`: the searches are those of the table, and the reads go through `tr`, the
`truncatedreader` of the table. -/
def dataFile (blockSize : ℕ) (sf : Sparse.Reader)
    (tr : ℕ → ℤ → Exec (List UInt8 × Option Error)) : BlockHoleReader (List UInt8) :=
  BlockLog.HoleReaderAt.blocks ⟨tr,sf.nextData,sf.nextHole⟩ blockSize

/-- What is assumed of `truncatedreader`: a read that the table fills, in front of `size`, is the
table's. -/
def Truncates (sf : Sparse.Reader) (size : ℕ) (tr : ℕ → ℤ → Exec (List UInt8 × Option Error)) :
    Prop :=
  ∀ n off : ℕ, off+n ≤ size → ∀ buf, sf.readAt n off = .ok (buf,none) → tr n off = .ok (buf,none)

/-- Blocks of `blockSize` bytes on a device of `numBlocks` blocks. -/
structure OnDevice (blockSize numBlocks : ℕ) (data : ℕ → Option (List UInt8)) : Prop where
  size : ∀ x v, data x = some v → v.length = blockSize
  bounded : ∀ x, numBlocks ≤ x → data x = none

/-- The byte `x` of the blocks. -/
def content (blockSize : ℕ) (data : ℕ → Option (List UInt8)) (x : ℕ) : UInt8 :=
  ((data (x/blockSize)).getD []).getD (x%blockSize) 0

theorem OnDevice.lt {blockSize numBlocks : ℕ} {data : ℕ → Option (List UInt8)}
    (hd : OnDevice blockSize numBlocks data) (k : ℕ) (hk : data k ≠ none) : k < numBlocks := by
  by_contra hge
  exact hk (hd.bounded k (not_lt.mp hge))

section Source

variable {blockSize numBlocks : ℕ} {data : ℕ → Option (List UInt8)}
  {h : BlockHoleReader (List UInt8)}

/-- The bytes of one block. -/
theorem OnDevice.block_eq (hd : OnDevice blockSize numBlocks data) (hbs : 0 < blockSize) {k : ℕ}
    {v : List UInt8} (hv : data k = some v) :
    v = (List.range' (k*blockSize) blockSize).map (content blockSize data) := by
  have hlen := hd.size k v hv
  refine List.ext_getElem (by simp [hlen]) fun i hi hi' => ?_
  have hlt : i < blockSize := by omega
  have hdiv : (k*blockSize+i)/blockSize = k := by
    rw [Nat.add_comm,Nat.add_mul_div_right _ _ hbs,Nat.div_eq_of_lt hlt,Nat.zero_add]
  have hmod : (k*blockSize+i)%blockSize = i := by
    rw [Nat.add_comm,Nat.add_mul_mod_self_right,Nat.mod_eq_of_lt hlt]
  rw [List.getElem_map,List.getElem_range',Nat.one_mul,content,hdiv,hmod,hv,Option.getD_some,
    List.getD_eq_getElem _ _ hi]

theorem OnDevice.flatten_blocks (hd : OnDevice blockSize numBlocks data) (hbs : 0 < blockSize)
    {bs : List (List UInt8)} {off n : ℕ} (h : bs.map some = blocks data off n) :
    bs.flatten = (List.range' (off*blockSize) (n*blockSize)).map (content blockSize data) := by
  induction n generalizing bs off with
  | zero =>
    have hnil : bs = [] := by simpa [blocks] using h
    simp [hnil]
  | succ n ih =>
    rw [blocks_succ] at h
    cases bs with
    | nil => cases h
    | cons v bs =>
      obtain ⟨hv,hrest⟩ := List.cons.inj h
      rw [List.flatten_cons,ih hrest,hd.block_eq hbs hv.symm,← List.map_append,Nat.add_mul off,
        Nat.one_mul,List.range'_append_1,Nat.add_mul,Nat.one_mul,Nat.add_comm blockSize]

/-- The next byte of a set of whole blocks, from the next block. -/
theorem leastFrom_bytes {P : ℕ → Prop} (hbs : 0 < blockSize) {off k : ℕ}
    (hk : LeastFrom P (off/blockSize) (some k)) :
    LeastFrom (fun x => P (x/blockSize)) off
      (some (if k = off/blockSize then off else k*blockSize)) := by
  obtain ⟨hle,hP,hleast⟩ := hk
  split_ifs with he
  · subst he
    refine ⟨le_rfl,hP,fun z h₁ h₂ => ?_⟩
    omega
  · have hlt : off/blockSize < k := by omega
    have hoff : off < k*blockSize := (Nat.div_lt_iff_lt_mul hbs).mp hlt
    refine ⟨hoff.le,?_,fun z h₁ h₂ => ?_⟩
    · show P (k*blockSize/blockSize)
      rwa [Nat.mul_div_cancel k hbs]
    · exact hleast _ (Nat.div_le_div_right h₁) ((Nat.div_lt_iff_lt_mul hbs).mpr h₂)

theorem leastFrom_bytes_none {P : ℕ → Prop} {off : ℕ} (hk : LeastFrom P (off/blockSize) none) :
    LeastFrom (fun x => P (x/blockSize)) off none :=
  fun _ hz => hk _ (Nat.div_le_div_right hz)

theorem i64_block (hsmall : numBlocks*blockSize < 2^63) {k : ℕ} (hk : k ≤ numBlocks) :
    i64 ((k : ℤ)*blockSize) = (k*blockSize : ℕ) := (BlockLog.i64_offset hsmall hk).1

/-- The answer of a search, in bytes. -/
theorem search_eq (hsmall : numBlocks*blockSize < 2^63) {next : ℕ → ℕ × Option Error} {off k : ℕ}
    (hk : k ≤ numBlocks) {err : Option Error} (hcall : next (off/blockSize) = (k,err)) :
    search blockSize next off =
      (((if k = off/blockSize then off else k*blockSize : ℕ) : ℤ),err) := by
  rw [search,if_neg (by omega)]
  simp only [← Int.ofNat_tdiv,Int.toNat_natCast,hcall,Nat.cast_inj,i64_block hsmall hk]
  split_ifs <;> rfl

theorem search_eof {next : ℕ → ℕ × Option Error} {off k : ℕ}
    (hcall : next (off/blockSize) = (k,some .eof)) :
    ∃ y, search blockSize next off = (y,some .eof) := by
  rw [search,if_neg (by omega)]
  simp only [← Int.ofNat_tdiv,Int.toNat_natCast,hcall]
  split_ifs
  · exact ⟨_,rfl⟩
  · exact ⟨_,rfl⟩

/-- A read of whole blocks. -/
theorem holeReader_readAt (hclean : h.Clean data) (hd : OnDevice blockSize numBlocks data)
    (hbs : 0 < blockSize) {n off : ℕ} (hn : n%blockSize = 0) (hoff : off%blockSize = 0)
    (hin : ∀ x, off ≤ x → x < off+n → data (x/blockSize) ≠ none) :
    (holeReader blockSize h).readAt n off = ((List.range' off n).map (content blockSize data),none) := by
  obtain ⟨a,rfl⟩ := Nat.dvd_of_mod_eq_zero hoff
  obtain ⟨m,rfl⟩ := Nat.dvd_of_mod_eq_zero hn
  rw [Nat.mul_comm blockSize a,Nat.mul_comm blockSize m] at *
  have hblocks : ∀ x, a ≤ x → x < a+m → data x ≠ none := by
    intro x h₁ h₂
    have h₃ := Nat.mul_le_mul_right blockSize h₁
    have h₄ := Nat.mul_lt_mul_of_pos_right h₂ hbs
    rw [Nat.add_mul] at h₄
    have := hin (x*blockSize) h₃ h₄
    rwa [Nat.mul_div_cancel x hbs] at this
  obtain ⟨bs,hread,hmap⟩ := hclean.readBlocks_eq hblocks
  have heq : Adaptor.readAt (fun k start => h.readBlocks k start.toNat) blockSize (m*blockSize)
      (a*blockSize : ℕ) = .ok (bs.flatten,none) := by
    rw [Adaptor.readAt,if_neg (by omega),if_neg (by omega),if_neg (by simp),
      ← Int.ofNat_tdiv,Nat.mul_div_cancel a hbs,Nat.mul_div_cancel m hbs,Int.toNat_natCast,hread]
  simp only [holeReader,heq,hd.flatten_blocks hbs hmap]

/-- The source as the builder uses it, which reads whole blocks only. -/
def wholeReads (blockSize : ℕ) (data : ℕ → Option (List UInt8)) (src : Sparse.HoleReaderAt) :
    Sparse.HoleReaderAt :=
  {src with readAt := fun n off =>
    if n%blockSize = 0 ∧ off.tmod blockSize = 0 then src.readAt n off
    else ((List.range' off.toNat n).map (content blockSize data),none)}

theorem holeReader_serves (hclean : h.Clean data) (hd : OnDevice blockSize numBlocks data)
    (hbs : 0 < blockSize) (hsmall : numBlocks*blockSize < 2^63) :
    (wholeReads blockSize data (holeReader blockSize h)).Serves blockSize (fun k => data k ≠ none)
      (content blockSize data) where
  small := by
    intro k hk
    exact (Nat.mul_le_mul_right blockSize (hd.lt k hk)).trans_lt hsmall
  nextData := by
    intro off
    rcases hclean.nextBlockData_eq (off/blockSize) with ⟨k,hcall,hk⟩ | ⟨k,hcall,hk⟩
    · exact .inl ⟨_,search_eq hsmall (hd.lt k hk.2.1).le hcall,leastFrom_bytes hbs hk⟩
    · obtain ⟨y,hy⟩ := search_eof hcall
      exact .inr ⟨y,hy,leastFrom_bytes_none hk⟩
  nextHole := by
    intro off hoff
    obtain ⟨k,hcall,hk⟩ := hclean.nextBlockHole_eq (off/blockSize)
    have hle : k ≤ numBlocks := by
      by_contra hgt
      exact hk.2.2 numBlocks (hd.lt _ hoff).le (not_le.mp hgt) (hd.bounded _ le_rfl)
    exact ⟨_,search_eq hsmall hle hcall,(leastFrom_bytes hbs hk).congr fun x => not_not.symm⟩
  readAt := by
    intro n off hin
    refine ⟨none,?_,.inl rfl⟩
    simp only [wholeReads]
    split_ifs with hif
    · refine holeReader_readAt hclean hd hbs hif.1 ?_ hin
      have := hif.2
      rw [← Int.ofNat_tmod] at this
      exact_mod_cast this
    · rw [Int.toNat_natCast]

end Source

section Build

variable {src : Sparse.HoleReaderAt} {bs numBlocks : ℕ} {data : ℕ → Option (List UInt8)}

/-- The builder reads whole blocks. -/
theorem addRun_wholeReads (s : BuildState) (startOffset endOffset length : ℤ) :
    addRun (wholeReads bs data src) bs s startOffset endOffset length =
      addRun src bs s startOffset endOffset length := by
  rw [addRun,addRun]
  split_ifs with hzero hmod
  · rfl
  · rfl
  · obtain ⟨hstart,hlength⟩ := not_or.mp hmod
    have hnat : length.toNat%bs = 0 := by
      have hdvd := Int.dvd_of_tmod_eq_zero (not_not.mp hlength)
      rcases le_total 0 length with hpos | hneg
      · rw [← Int.toNat_of_nonneg hpos] at hdvd
        exact Nat.mod_eq_zero_of_dvd (Int.natCast_dvd_natCast.mp hdvd)
      · rw [Int.toNat_of_nonpos hneg,Nat.zero_mod]
    have hread : (wholeReads bs data src).readAt length.toNat startOffset =
        src.readAt length.toNat startOffset := if_pos ⟨hnat,not_not.mp hstart⟩
    rw [hread]

theorem buildPass_wholeReads (max : ℤ) :
    buildPass (wholeReads bs data src) bs max = buildPass src bs max := by
  funext s
  simp only [buildPass,addRun_wholeReads]
  rfl

theorem buildFromReader_wholeReads (data : ℕ → Option (List UInt8)) (codec : HeaderCodec)
    (opts : Option ℤ) :
    buildFromReader (wholeReads bs data src) bs codec opts = buildFromReader src bs codec opts := by
  rw [buildFromReader,buildFromReader,buildPass_wholeReads]

theorem length_le_totalLen {es : List Run} (h : ∀ e ∈ es, 0 < e.len) :
    es.length ≤ totalLen es := by
  induction es with
  | nil => exact le_rfl
  | cons e es ih =>
    have he := h e List.mem_cons_self
    have := ih fun e' he' => h e' (List.mem_cons_of_mem e he')
    rw [List.length_cons,totalLen_cons]
    omega

theorem length_le_flatten {gs : List (List Run)} (h : ∀ g ∈ gs, g ≠ []) :
    gs.length ≤ gs.flatten.length := by
  induction gs with
  | nil => exact le_rfl
  | cons g gs ih =>
    have hg := List.length_pos_of_ne_nil (h g List.mem_cons_self)
    have := ih fun g' hg' => h g' (List.mem_cons_of_mem g hg')
    rw [List.length_cons,List.flatten_cons,List.length_append]
    omega

/-- An index has at most 19 bytes for each block. -/
theorem length_writeIndex_le {b : Builder} {gs : List (List Run)} (h : b.Holds gs) :
    b.writeIndex.length ≤ 19*b.dataOffset := by
  have hranges := length_le_flatten h.wf.nonempty
  have hruns := length_le_totalLen fun e he => (h.wf.len e he).1
  rw [writeIndex,List.length_append,length_marshalRanges,h.length_buf,h.ranges,List.length_map,
    h.dataOffset]
  omega

variable {B : ℕ → Prop} [DecidablePred B] {bytes : ℕ → UInt8}

theorem count_le_of_forall_lt (hnum : ∀ k, B k → k < numBlocks) (o : ℕ) :
    Nat.count B o ≤ numBlocks := by
  induction o with
  | zero => exact Nat.zero_le numBlocks
  | succ o ih =>
    rw [Nat.count_succ]
    split_ifs with ho
    · have hcount := Nat.count_le (p := B) (n := o)
      have := hnum o ho
      omega
    · exact ih

/-- Without a limit, the loop adds every block of the source. -/
theorem exists_built (hsrc : src.Serves bs B bytes) (hbs : 0 < bs) (hnum : ∀ k, B k → k < numBlocks)
    (hblocks : numBlocks ≤ 2^48) :
    ∃ s o calls, run (buildPass src bs (2^63-1 : ℕ)) (2^63-1+1) ⟨.new bs,0,0,0⟩ = .ok (.ok s) ∧
      Built bs B bytes (2^63-1) s o calls ∧ ∀ k, B k → k < o := by
  -- there is room for one block more than there are
  have hroom : ∀ k, B k → k+1 ≤ (2^63-1)/bs := fun k hk =>
    (Nat.le_div_iff_mul_le hbs).mpr (Nat.le_sub_one_of_lt (hsrc.small k hk))
  rcases run_buildPass hsrc hbs (show 2^63-1 < 2^63 by omega) with ⟨r,hrun,hr⟩ | ⟨_,hnot⟩
  · cases r with
    | error err =>
      obtain ⟨_,k,_,hk',hcount⟩ := hr
      have hle := Nat.count_le (p := B) (n := k+1)
      have := hroom (k+1) hk'
      omega
    | ok s =>
      obtain ⟨o,calls,hbuilt,hall⟩ := hr
      refine ⟨s,o,calls,hrun,hbuilt,fun k hk => hall k hk ?_⟩
      have hle := Nat.count_le (p := B) (n := k)
      have := hroom k hk
      omega
  · refine absurd (fun k hk _ => ?_) hnot
    have hle := Nat.count_le (p := B) (n := k)
    have := hnum k hk
    omega

theorem buildFromReader_of_run (codec : HeaderCodec) {s : BuildState}
    (hrun : run (buildPass src bs (2^63-1 : ℕ)) (2^63-1+1) ⟨.new bs,0,0,0⟩ = .ok (.ok s)) :
    buildFromReader src bs codec none =
      if s.count = 0 then .error (.panic "integer divide by zero") else .ok (s.b.build codec) := by
  have hmax : buildFromReader src bs codec none =
      buildFromReader src bs codec (some ((2^63-1 : ℕ) : ℤ)) := rfl
  rw [hmax,buildFromReader_eq src bs codec (by decide),hrun]

/-- A table is built of one block at least. -/
theorem exists_block_of_built {codec : HeaderCodec} (hsrc : src.Serves bs B bytes) (hbs : 0 < bs)
    (hnum : ∀ k, B k → k < numBlocks) (hblocks : numBlocks ≤ 2^48) {file : List UInt8}
    (hfile : buildFromReader src bs codec none = .ok (.ok file)) : ∃ k, B k := by
  obtain ⟨s,o,calls,hrun,h,_⟩ := exists_built hsrc hbs hnum hblocks
  rw [buildFromReader_of_run codec hrun,h.count] at hfile
  split_ifs at hfile with hcount
  obtain ⟨c,hc⟩ := List.exists_mem_of_ne_nil calls (by rwa [List.length_eq_zero_iff] at hcount)
  have hpos := h.nonempty c hc
  exact ⟨c.offset,((h.has c.offset).mp ⟨c,hc,le_rfl,by omega⟩).1⟩

/-- A source of up to `2^27` blocks becomes a table that loads and has these blocks. -/
theorem exists_table (codec : HeaderCodec) (hsrc : src.Serves bs B bytes) (hlow : 512 ≤ bs)
    (hhigh : bs ≤ 2^20) (hB : ∃ k, B k) (hnum : ∀ k, B k → k < numBlocks)
    (hblocks : numBlocks ≤ 2^27) :
    ∃ calls file sf, buildFromReader src bs codec none = .ok (.ok file) ∧
      load codec file = .ok (.ok sf) ∧ RoundTrips bs calls sf ∧
      (∀ x, AddedBy bs calls x ↔ B (x/bs)) ∧ ∀ x, AddedBy bs calls x → byteOf bs calls x = bytes x := by
  have hbs : 0 < bs := by omega
  obtain ⟨s,o,calls,hrun,h,hall⟩ := exists_built hsrc hbs hnum (hblocks.trans (by decide))
  have hcomplete : Complete B ((2^63-1)/bs) o := fun k hk _ => hall k hk
  have hfirst := h.holdsFirst hbs hcomplete
  have hne : calls ≠ [] := by
    refine h.ne_nil hbs ?_ hcomplete hB
    exact hhigh.trans (by decide)
  have hadded : ∀ x, AddedBy bs calls x ↔ B (x/bs) := by
    intro x
    rw [addedBy_iff_has hbs,h.has]
    exact ⟨fun hx => hx.1,fun hx => ⟨hx,hall _ hx⟩⟩
  have hcalls : ∀ c ∈ calls, c.offset+c.length ≤ 2^48 := by
    intro c hc
    have hpos := h.nonempty c hc
    have hlast := ((h.has (c.offset+c.length-1)).mp ⟨c,hc,by omega,by omega⟩).1
    have := hnum _ hlast
    omega
  have htotal : s.b.dataOffset ≤ 2^27 := by
    rw [h.dataOffset]
    exact (count_le_of_forall_lt hnum o).trans hblocks
  obtain ⟨gs,hholds,_,_⟩ := (Holds.new bs).addAll_eq hcalls h.added
  have hindex := length_writeIndex_le hholds
  obtain ⟨file,hfile⟩ := h.build_ok hsrc codec
  obtain ⟨c,hc⟩ := List.exists_mem_of_ne_nil calls hne
  obtain ⟨sf,_,hload,_,hrt⟩ := load_build codec hlow hhigh h.added hcalls
    ⟨c,hc,h.nonempty c hc⟩ (by omega) hfile
  refine ⟨calls,file,sf,?_,hload,(hrt (h.endOf_lt hsrc hbs hne)).2,hadded,hfirst.bytes⟩
  have hcounted : s.count ≠ 0 := by
    rw [h.count]
    exact fun hzero => hne (List.length_eq_zero_iff.mp hzero)
  rw [buildFromReader_of_run codec hrun,if_neg hcounted,hfile]

end Build

section Load

variable {bs numBlocks : ℕ} {data : ℕ → Option (List UInt8)} {calls : List IndexEntry}
  {sf : Sparse.Reader} {tr : ℕ → ℤ → Exec (List UInt8 × Option Error)}

/-- The bytes of the blocks, none in a hole. -/
def cells (bs : ℕ) (data : ℕ → Option (List UInt8)) (x : ℕ) : Option UInt8 :=
  if data (x/bs) = none then none else some (content bs data x)

theorem cells_eq_none {x : ℕ} : cells bs data x = none ↔ data (x/bs) = none := by
  rw [cells]
  split_ifs with h
  · simp [h]
  · simp [h]

theorem wholeBlocks_cells (hbs : 0 < bs) : BlockLog.WholeBlocks bs (cells bs data) := by
  intro x
  rw [cells_eq_none,cells_eq_none,Nat.mul_div_cancel _ hbs]

theorem blockAt_cells (hd : OnDevice bs numBlocks data) (hbs : 0 < bs) :
    BlockLog.blockAt bs (cells bs data) = data := by
  funext k
  cases hk : data k with
  | none =>
    rw [BlockLog.blockAt_eq_none,cells_eq_none,Nat.mul_div_cancel k hbs,hk]
  | some v =>
    have hne : cells bs data (k*bs) ≠ none := by
      rw [ne_eq,cells_eq_none,Nat.mul_div_cancel k hbs,hk]
      exact Option.some_ne_none v
    rw [BlockLog.blockAt,if_neg hne,hd.block_eq hbs hk]
    refine congrArg some (List.map_congr_left fun x hx => ?_)
    obtain ⟨h₁,h₂⟩ := List.mem_range'_1.mp hx
    have hdiv : x/bs = k := by
      refine Nat.div_eq_of_lt_le h₁ ?_
      rw [Nat.succ_mul]
      exact h₂
    rw [cells,if_neg (by rw [hdiv,hk]; exact Option.some_ne_none v),Option.getD_some]

/-- The table serves the bytes of the blocks. -/
theorem table_serves (hrt : RoundTrips bs calls sf) (hbs : 0 < bs)
    (hadded : ∀ x, AddedBy bs calls x ↔ data (x/bs) ≠ none)
    (hbyte : ∀ x, AddedBy bs calls x → byteOf bs calls x = content bs data x)
    (hne : ∃ c ∈ calls, c.length ≠ 0) :
    BlockLog.HoleReaderAt.Serves ⟨sf.readAt,sf.nextData,sf.nextHole⟩ (cells bs data)
      (endOf bs calls) where
  readAt := by
    intro n off hoff
    refine (hrt.readAt off n hoff).trans ?_
    rw [Wal.readResult]
    refine congrArg (fun l => Except.ok (l,_)) (List.map_congr_left fun x _ => ?_)
    by_cases hx : AddedBy bs calls x
    · rw [hbyte x hx,cells,if_neg ((hadded x).mp hx),Option.getD_some]
    · rw [cells_eq_none.mpr (not_not.mp (mt (hadded x).mpr hx)),byteOf,
        List.find?_eq_none.mpr fun c hc hcov => hx ⟨c,hc,hcov⟩]
      rfl
  nextData := by
    intro off hoff
    obtain ⟨o,ho,hcall⟩ := hrt.nextData off hoff
    refine ⟨o,ho.congr fun x => (hadded x).trans (not_congr cells_eq_none).symm,hcall.trans ?_⟩
    cases o <;> rfl
  nextHole := by
    intro off hoff
    obtain ⟨y,hy,hcall⟩ := hrt.nextHole off hoff
    refine ⟨y,hy.congr fun x => ?_,hcall⟩
    rw [hadded,not_not,cells_eq_none]
  ends := by
    intro x hx
    by_contra hcell
    have := (endOf_spec hbs hne).2.2 x ((hadded x).mpr (mt cells_eq_none.mpr hcell))
    omega

/-- The table ends after its blocks. -/
theorem end_le_endOf (hserves : BlockLog.HoleReaderAt.Serves
      ⟨sf.readAt,sf.nextData,sf.nextHole⟩ (cells bs data) (endOf bs calls)) (hbs : 0 < bs)
    {n off : ℕ} (hin : ∀ x, off ≤ x → x < off+n → data x ≠ none) :
    n = 0 ∨ off*bs+n*bs ≤ endOf bs calls := by
  cases n with
  | zero => exact .inl rfl
  | succ n =>
    refine .inr ?_
    have hend : off*bs+(n+1)*bs = (off+n)*bs+bs := by
      rw [← Nat.add_mul,← Nat.add_assoc,Nat.succ_mul]
    have hlast : ((off+n)*bs+(bs-1))/bs = off+n := by
      rw [Nat.add_comm,Nat.add_mul_div_right _ _ hbs,Nat.div_eq_of_lt (by omega),Nat.zero_add]
    by_contra hlt
    have hcell := hserves.ends ((off+n)*bs+(bs-1)) (by omega)
    rw [cells_eq_none,hlast] at hcell
    exact hin (off+n) (by omega) (by omega) hcell

/-- A read of blocks that the table has goes through the truncating reader. -/
theorem dataFile_readBlocks (hserves : BlockLog.HoleReaderAt.Serves
      ⟨sf.readAt,sf.nextData,sf.nextHole⟩ (cells bs data) (endOf bs calls)) (hbs : 0 < bs)
    (hd : OnDevice bs numBlocks data) (hsmall : numBlocks*bs < 2^63)
    (htr : Truncates sf (numBlocks*bs) tr) {n off : ℕ} (hoff : off ≤ numBlocks)
    (hin : ∀ x, off ≤ x → x < off+n → data x ≠ none) :
    (dataFile bs sf tr).readBlocks n off =
      (BlockLog.HoleReaderAt.blocks ⟨sf.readAt,sf.nextData,sf.nextHole⟩ bs).readBlocks n off := by
  obtain ⟨hi,hlt⟩ := BlockLog.i64_offset hsmall hoff
  have hend : off*bs+n*bs ≤ numBlocks*bs := by
    rw [← Nat.add_mul]
    refine Nat.mul_le_mul_right bs ?_
    by_contra hgt
    exact hin numBlocks hoff (by omega) (hd.bounded numBlocks le_rfl)
  have hfull : min (n*bs) (endOf bs calls-off*bs) = n*bs := by
    rcases end_le_endOf hserves hbs hin with rfl | hle
    · rw [Nat.zero_mul,Nat.zero_min]
    · exact min_eq_left (Nat.le_sub_of_add_le' hle)
  have hread := hserves.readAt (n*bs) (off*bs) hlt
  rw [Wal.readResult,hfull,if_neg (lt_irrefl _)] at hread
  have htrunc := htr (n*bs) (off*bs) hend _ hread
  have hcalls : BlockLog.HoleReaderAt.readBlocks ⟨tr,sf.nextData,sf.nextHole⟩ bs (n*bs) off =
      BlockLog.HoleReaderAt.readBlocks ⟨sf.readAt,sf.nextData,sf.nextHole⟩ bs (n*bs) off := by
    rw [BlockLog.HoleReaderAt.readBlocks,BlockLog.HoleReaderAt.readBlocks]
    simp only [hi]
    rw [htrunc,show sf.readAt (n*bs) ((off*bs : ℕ) : ℤ) = _ from hread]
  simp only [dataFile,BlockLog.HoleReaderAt.blocks,hcalls]

theorem dataFile_clean (hserves : BlockLog.HoleReaderAt.Serves
      ⟨sf.readAt,sf.nextData,sf.nextHole⟩ (cells bs data) (endOf bs calls)) (hbs : 0 < bs)
    (hd : OnDevice bs numBlocks data) (hsmall : numBlocks*bs < 2^63)
    (htr : Truncates sf (numBlocks*bs) tr) : ((dataFile bs sf tr).upTo numBlocks).Clean data := by
  have hin : ∀ x, numBlocks*bs ≤ x → cells bs data x = none := fun x hx =>
    cells_eq_none.mpr (hd.bounded _ ((Nat.le_div_iff_mul_le hbs).mpr hx))
  have hclean := hserves.clean hbs (wholeBlocks_cells hbs) hsmall hin
  rw [blockAt_cells hd hbs] at hclean
  refine hclean.congr_reads rfl rfl fun n off hdata => ?_
  by_cases hoff : off ≤ numBlocks
  · rw [upTo_readBlocks _ hoff,upTo_readBlocks _ hoff]
    exact dataFile_readBlocks hserves hbs hd hsmall htr hoff hdata
  · simp only [upTo,if_neg hoff]

end Load

section RoundTrip

variable {bs numBlocks : ℕ} {data : ℕ → Option (List UInt8)} {h : BlockHoleReader (List UInt8)}
  (codec : HeaderCodec) (hclean : h.Clean data) (hd : OnDevice bs numBlocks data) (hlow : 512 ≤ bs)
  (hhigh : bs ≤ 2^20) (hblocks : numBlocks ≤ 2^27)

include hclean hd hlow hhigh hblocks

/-- A table that is built from a reader and loaded again has the blocks of the reader. -/
theorem exists_dataFile (hdata : ∃ k, data k ≠ none) :
    ∃ file sf, buildFromReader (holeReader bs h) bs codec none = .ok (.ok file) ∧
      load codec file = .ok (.ok sf) ∧ ∀ tr, Truncates sf (numBlocks*bs) tr →
        ((dataFile bs sf tr).upTo numBlocks).Clean data := by
  have hbs : 0 < bs := by omega
  have hsmall : numBlocks*bs < 2^63 := (Nat.mul_le_mul hblocks hhigh).trans_lt (by decide)
  obtain ⟨calls,file,sf,hbuild,hload,hrt,hadded,hbyte⟩ := exists_table codec
    (holeReader_serves hclean hd hbs hsmall) hlow hhigh hdata hd.lt hblocks
  rw [buildFromReader_wholeReads] at hbuild
  have hne : ∃ c ∈ calls, c.length ≠ 0 := by
    obtain ⟨k,hk⟩ := hdata
    obtain ⟨c,hc,hcov⟩ := (hadded (k*bs)).mpr (by rwa [Nat.mul_div_cancel k hbs])
    exact ⟨c,hc,IndexEntry.length_ne_zero_of_covers hcov⟩
  exact ⟨file,sf,hbuild,hload,fun tr htr =>
    dataFile_clean (table_serves hrt hbs hadded hbyte hne) hbs hd hsmall htr⟩

/-- A table that was built and loaded has the blocks of the reader. -/
theorem clean_of_built {file : List UInt8} {sf : Sparse.Reader}
    (hfile : buildFromReader (holeReader bs h) bs codec none = .ok (.ok file))
    (hload : load codec file = .ok (.ok sf)) {tr : ℕ → ℤ → Exec (List UInt8 × Option Error)}
    (htr : Truncates sf (numBlocks*bs) tr) : ((dataFile bs sf tr).upTo numBlocks).Clean data := by
  have hbs : 0 < bs := by omega
  have hsmall : numBlocks*bs < 2^63 := (Nat.mul_le_mul hblocks hhigh).trans_lt (by decide)
  have hdata : ∃ k, data k ≠ none := by
    rw [← buildFromReader_wholeReads data] at hfile
    exact exists_block_of_built (holeReader_serves hclean hd hbs hsmall) hbs hd.lt
      (hblocks.trans (by decide)) hfile
  obtain ⟨file',sf',hfile',hload',hback⟩ := exists_dataFile codec hclean hd hlow hhigh hblocks hdata
  rw [hfile] at hfile'
  cases hfile'
  rw [hload] at hload'
  cases hload'
  exact hback tr htr

end RoundTrip

end TableFile
end Logblock
