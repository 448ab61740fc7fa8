import Logblock.SparseTable

/-! `BuildFromReader`: a table of the data of a source, up to a limit on its bytes. Where the
limit falls into a run of the source, the run is cut there. -/
namespace Logblock
namespace Sparse

open Loop Bytes Runs Builder

/-- `t.HoleReaderAt`. -/
structure HoleReaderAt where
  nextData : ℤ → ℤ × Option Error
  nextHole : ℤ → ℤ × Option Error
  readAt : ℕ → ℤ → List UInt8 × Option Error

/-- The variables of the loop. -/
structure BuildState where
  b : Builder
  offset : ℤ
  dataBytes : ℤ
  count : ℕ

/-- `BuildOptions.MaxDataSize`, if there are options. -/
def maxDataSize (opts : Option ℤ) : ℤ :=
  match opts with
  | some m => if 0 < m then m else 2^63-1
  | none => 2^63-1

section Model

variable (src : HoleReaderAt) (blockSize : ℕ)

/-- The end of a pass. The section reader of the run delivers what `ReadAt` finds there. -/
def addRun (s : BuildState) (startOffset endOffset length : ℤ) :
    Exec (BuildState ⊕ Except Error BuildState) :=
  if blockSize = 0 then .error (.panic "integer divide by zero")
  else if startOffset.tmod blockSize ≠ 0 ∨ length.tmod blockSize ≠ 0 then
    .ok (.inr (.error (.new
      s!"(offset {startOffset}, length {length}) not a multiple of blockSize {blockSize}")))
  else do
    let b ← s.b.addBlocks (startOffset.tdiv blockSize) (length.tdiv blockSize)
      (src.readAt length.toNat startOffset).1
    .ok (.inl ⟨b,endOffset,i64 (s.dataBytes+length),s.count+1⟩)

def buildPass (maxDataSize : ℤ) (s : BuildState) :
    Exec (BuildState ⊕ Except Error BuildState) :=
  if s.dataBytes < maxDataSize then
    match src.nextData s.offset with
    | (_,some .eof) => .ok (.inr (.ok s))
    | (_,some err) => .error (.panic (reprStr err))
    | (startOffset,none) =>
      match src.nextHole startOffset with
      | (_,some err) => .error (.panic (reprStr err))
      | (endOffset,none) =>
        let length := i64 (endOffset-startOffset)
        if maxDataSize < i64 (s.dataBytes+length) then
          let length := i64 (maxDataSize-s.dataBytes)
          let endOffset := i64 (startOffset+length)
          if length < blockSize then .ok (.inr (.ok s))
          else addRun src blockSize s startOffset endOffset length
        else addRun src blockSize s startOffset endOffset length
  else .ok (.inr (.ok s))

/-- The bytes of the table. The message at the end divides by the number of runs. -/
def buildFromReader (codec : HeaderCodec) (opts : Option ℤ) : Exec (Except Error (List UInt8)) :=
  match run (buildPass src blockSize (maxDataSize opts)) ((maxDataSize opts).toNat+1)
      ⟨.new blockSize,0,0,0⟩ with
  | .error e => .error e
  | .ok (.error err) => .ok (.error err)
  | .ok (.ok s) =>
    if s.count = 0 then .error (.panic "integer divide by zero") else .ok (s.b.build codec)

end Model

/-- A source of whole blocks: those with `B`, whose bytes are those of `content`. -/
structure HoleReaderAt.Serves (src : HoleReaderAt) (bs : ℕ) (B : ℕ → Prop)
    (content : ℕ → UInt8) : Prop where
  small : ∀ k, B k → (k+1)*bs < 2^63
  nextData : ∀ off : ℕ,
    (∃ y : ℕ, src.nextData off = ((y : ℤ),none) ∧ LeastFrom (fun x => B (x/bs)) off (some y)) ∨
      ∃ y, src.nextData off = (y,some .eof) ∧ LeastFrom (fun x => B (x/bs)) off none
  nextHole : ∀ off : ℕ, B (off/bs) → ∃ y : ℕ, src.nextHole off = ((y : ℤ),none) ∧
    LeastFrom (fun x => ¬B (x/bs)) off (some y)
  readAt : ∀ n off : ℕ, (∀ x, off ≤ x → x < off+n → B (x/bs)) →
    ∃ err, src.readAt n off = ((List.range' off n).map content,err) ∧
      (err = none ∨ err = some .eof)

/-- The run of the source from `o` on. -/
theorem HoleReaderAt.Serves.nextRun {src : HoleReaderAt} {bs : ℕ} {B : ℕ → Prop}
    {content : ℕ → UInt8} (hsrc : src.Serves bs B content) (hbs : 0 < bs) (o : ℕ) :
    (∃ y, src.nextData (o*bs : ℕ) = (y,some .eof) ∧ ∀ k, o ≤ k → ¬B k) ∨
      ∃ a e : ℕ, src.nextData (o*bs : ℕ) = (((a*bs : ℕ) : ℤ),none) ∧
        src.nextHole (a*bs : ℕ) = (((e*bs : ℕ) : ℤ),none) ∧ o ≤ a ∧ a < e ∧
        (∀ k, o ≤ k → k < a → ¬B k) ∧ (∀ k, a ≤ k → k < e → B k) ∧ ¬B e ∧ e*bs < 2^63 := by
  rcases hsrc.nextData (o*bs) with ⟨y,hnext,hleast⟩ | ⟨y,hnext,hnone⟩
  · obtain ⟨a,rfl,hoa,ha,hgap⟩ := hleast.of_blocks hbs
    obtain ⟨z,hhole,hleast'⟩ := hsrc.nextHole (a*bs) (by rwa [Nat.mul_div_cancel a hbs])
    obtain ⟨e,rfl,hae,he,hrun⟩ := LeastFrom.of_blocks (P := fun k => ¬B k) hbs hleast'
    have hlt : a < e := lt_of_le_of_ne hae fun hne => he (hne ▸ ha)
    have hrun' : ∀ k, a ≤ k → k < e → B k := fun k hk hke => not_not.mp (hrun k hk hke)
    have hsmall := hsrc.small (e-1) (hrun' (e-1) (by omega) (by omega))
    rw [Nat.sub_add_cancel (by omega)] at hsmall
    exact .inr ⟨a,e,hnext,hhole,hoa,hlt,hgap,hrun',he,hsmall⟩
  · exact .inl ⟨y,hnext,LeastFrom.of_blocks_none hbs hnone⟩

theorem Builder.addBlocks_full {b : Builder} {o n : ℕ} (hfit : 2^48 < b.dataOffset+n)
    (data : List UInt8) : ∃ e, b.addBlocks o n data = .error e := by
  have hmax : maxBlocks = 2^48 := rfl
  simp only [addBlocks,Int.toNat_natCast]
  rw [if_neg (by omega)]
  by_cases hbig : maxBlocks < n
  · exact ⟨_,if_pos hbig⟩
  · rw [if_neg hbig,if_pos (by omega)]
    exact ⟨_,rfl⟩

/-- The block `k` belongs to one of the calls. -/
def Has (calls : List IndexEntry) (k : ℕ) : Prop :=
  ∃ c ∈ calls, c.offset ≤ k ∧ k < c.offset+c.length

theorem has_snoc {calls : List IndexEntry} {c : IndexEntry} {k : ℕ} :
    Has (calls++[c]) k ↔ Has calls k ∨ (c.offset ≤ k ∧ k < c.offset+c.length) := by
  simp only [Has,List.mem_append,List.mem_singleton,or_and_right,exists_or,exists_eq_left]

section Run

variable {src : HoleReaderAt} {bs : ℕ} {B : ℕ → Prop} [DecidablePred B] {content : ℕ → UInt8}
  {max : ℕ}

/-- The loop has added the blocks before `o`. It stopped there because the limit is reached
or because the block `o` is a hole. -/
structure Built (bs : ℕ) (B : ℕ → Prop) [DecidablePred B] (content : ℕ → UInt8) (max : ℕ)
    (s : BuildState) (o : ℕ) (calls : List IndexEntry) : Prop where
  offset : s.offset = (o*bs : ℕ)
  dataBytes : s.dataBytes = (Nat.count B o*bs : ℕ)
  within : Nat.count B o*bs ≤ max
  stop : Nat.count B o*bs = max ∨ o = 0 ∨ ¬B o
  added : (Builder.new bs).addAll calls = .ok s.b
  blockSize : s.b.blockSize = bs
  entries : s.b.entries = calls
  count : s.count = calls.length
  prevEnd : s.b.prevEnd ≤ o
  dataOffset : s.b.dataOffset = Nat.count B o
  fits : Nat.count B o ≤ 2^48
  has : ∀ k, Has calls k ↔ B k ∧ k < o
  ends : ∀ c ∈ calls, c.offset+c.length ≤ o
  ascending : calls.Pairwise fun c c' => c.offset+c.length ≤ c'.offset
  nonempty : ∀ c ∈ calls, c.length ≠ 0
  data : ∀ c ∈ calls, c.data = (List.range' (c.offset*bs) (c.length*bs)).map content

theorem Built.new : Built bs B content max ⟨.new bs,0,0,0⟩ 0 [] := by
  constructor <;> simp [Has,Builder.new,Builder.addAll,pure,Except.pure]

variable {s : BuildState} {o : ℕ} {calls : List IndexEntry}

/-- A run of `n` blocks from `a` on, behind a gap, is added if its blocks can be counted. -/
theorem Built.addRun_spec (h : Built bs B content max s o calls) (hsrc : src.Serves bs B content)
    (hbs : 0 < bs) {a n : ℕ} (hoa : o ≤ a) (hgap : ∀ k, o ≤ k → k < a → ¬B k) (hn : n ≠ 0)
    (hrun : ∀ k, a ≤ k → k < a+n → B k) (hmax : max < 2^63)
    (hwithin : (Nat.count B o+n)*bs ≤ max)
    (hstop : (Nat.count B o+n)*bs = max ∨ ¬B (a+n)) :
    (Nat.count B o+n ≤ 2^48 ∧ ∃ s' calls',
      addRun src bs s (a*bs : ℕ) ((a+n)*bs : ℕ) (n*bs : ℕ) = .ok (.inl s') ∧
        Built bs B content max s' (a+n) calls') ∨
      (2^48 < Nat.count B o+n ∧
        ∃ e, addRun src bs s (a*bs : ℕ) ((a+n)*bs : ℕ) (n*bs : ℕ) = .error e) := by
  have hcount : Nat.count B (a+n) = Nat.count B o+n := by
    rw [count_run (Nat.le_add_right a n) hrun,count_gap hoa hgap,Nat.add_sub_cancel_left]
  obtain ⟨err,hread,_⟩ := hsrc.readAt (n*bs) (a*bs) fun x hx hlt => by
    refine hrun _ ((Nat.le_div_iff_mul_le hbs).mpr hx) (Nat.div_lt_of_lt_mul ?_)
    rw [Nat.mul_comm,Nat.add_mul]
    exact hlt
  have hmod : ¬(((a*bs : ℕ) : ℤ).tmod bs ≠ 0 ∨ ((n*bs : ℕ) : ℤ).tmod bs ≠ 0) := by
    rw [← Int.ofNat_tmod,← Int.ofNat_tmod,Nat.mul_mod_left,Nat.mul_mod_left]
    simp
  simp only [addRun,if_neg hbs.ne',if_neg hmod,← Int.ofNat_tdiv,Nat.mul_div_cancel _ hbs,
    Int.toNat_natCast,hread]
  by_cases hfit : Nat.count B o+n ≤ 2^48
  · refine .inl ⟨hfit,?_⟩
    have hend := h.prevEnd
    obtain ⟨b',hadd,hdata',hend',hsize',hentries'⟩ := addBlocks_ok (b := s.b) (o := a) hn
      (by rw [h.dataOffset]; exact hfit) (by omega) ((List.range' (a*bs) (n*bs)).map content)
    rw [hadd]
    refine ⟨_,calls++[⟨a,n,(List.range' (a*bs) (n*bs)).map content⟩],rfl,?_⟩
    have hbytes : i64 (s.dataBytes+(n*bs : ℕ)) = ((Nat.count B o+n)*bs : ℕ) := by
      rw [h.dataBytes,← Nat.cast_add,← Nat.add_mul]
      exact i64_of_range (by omega) (by omega)
    refine ⟨rfl,?_,?_,?_,?_,hsize'.trans h.blockSize,?_,?_,?_,?_,?_,?_,?_,?_,?_,?_⟩
    · rw [hcount]
      exact hbytes
    · rw [hcount]
      exact hwithin
    · rw [hcount]
      exact hstop.imp_right .inr
    · rw [addAll_snoc h.added]
      exact hadd
    · rw [hentries',h.entries]
    · simp [h.count]
    · exact hend'.le
    · rw [hcount,← h.dataOffset]
      exact hdata'
    · rw [hcount]
      exact hfit
    · intro k
      rw [has_snoc,h.has]
      constructor
      · rintro (⟨hk,hlt⟩ | ⟨hle,hlt⟩)
        · exact ⟨hk,by omega⟩
        · exact ⟨hrun k hle hlt,hlt⟩
      · rintro ⟨hk,hlt⟩
        by_cases hko : k < o
        · exact .inl ⟨hk,hko⟩
        · exact .inr ⟨not_lt.mp fun hka => hgap k (by omega) hka hk,hlt⟩
    · intro c hc
      rcases List.mem_append.mp hc with hc | hc
      · have := h.ends c hc
        omega
      · rw [List.mem_singleton.mp hc]
    · refine List.pairwise_append.mpr ⟨h.ascending,List.pairwise_singleton _ _,fun c hc c' hc' => ?_⟩
      rw [List.mem_singleton.mp hc']
      exact (h.ends c hc).trans hoa
    · intro c hc
      rcases List.mem_append.mp hc with hc | hc
      · exact h.nonempty c hc
      · rw [List.mem_singleton.mp hc]
        exact hn
    · intro c hc
      rcases List.mem_append.mp hc with hc | hc
      · exact h.data c hc
      · rw [List.mem_singleton.mp hc]
  · refine .inr ⟨by omega,?_⟩
    obtain ⟨e,he⟩ := addBlocks_full (b := s.b) (o := a) (n := n)
      (by rw [h.dataOffset]; omega) ((List.range' (a*bs) (n*bs)).map content)
    rw [he]
    exact ⟨e,rfl⟩

/-- The limit of `q` blocks falls between two neighbouring blocks of the source. -/
def CutsRun (B : ℕ → Prop) [DecidablePred B] (q : ℕ) : Prop :=
  ∃ k, B k ∧ B (k+1) ∧ Nat.count B (k+1) = q

/-- The loop has added all it is to add. -/
def Complete (B : ℕ → Prop) [DecidablePred B] (q o : ℕ) : Prop :=
  ∀ k, B k → Nat.count B k < q → k < o

theorem complete_of_count {q o : ℕ} (h : q ≤ Nat.count B o) : Complete B q o := by
  intro k _ hk
  by_contra hok
  have := Nat.count_monotone B (not_lt.mp hok)
  omega

/-- The last block that is to be added can be counted in 48 bits. -/
def Countable (B : ℕ → Prop) [DecidablePred B] (q : ℕ) : Prop :=
  ∀ k, B k → Nat.count B k < q → Nat.count B k < 2^48

/-- Too many blocks in a run that is to be added. -/
theorem not_countable {a n c q : ℕ} (hrun : ∀ k, a ≤ k → k < a+n → B k)
    (hc : Nat.count B a = c) (hfits : c ≤ 2^48) (hbig : 2^48 < c+n) (hq : c+n ≤ q) :
    ¬Countable B q := by
  intro h
  have hcount : Nat.count B (a+(2^48-c)) = 2^48 := by
    rw [count_run (Nat.le_add_right a _) fun k hk hlt => hrun k hk (by omega),hc]
    omega
  have := h (a+(2^48-c)) (hrun _ (by omega) (by omega)) (by omega)
  omega

theorem addRun_unaligned (src : HoleReaderAt) (s : BuildState) (hbs : 0 < bs) {length : ℕ}
    (hmod : length%bs ≠ 0) (startOffset endOffset : ℤ) :
    ∃ err, addRun src bs s startOffset endOffset length = .ok (.inr (.error err)) := by
  have hne : (length : ℤ).tmod bs ≠ 0 := by
    rw [← Int.ofNat_tmod]
    exact_mod_cast hmod
  exact ⟨_,by rw [addRun,if_neg hbs.ne',if_pos (.inr hne)]⟩

/-- A pass that finds the run of the blocks from `a` to `e`, after `c` blocks. -/
theorem buildPass_eq (src : HoleReaderAt) (s : BuildState) {c a e : ℕ}
    (hdata : s.dataBytes = (c*bs : ℕ)) (hlim : c*bs < max)
    (hnext : src.nextData s.offset = (((a*bs : ℕ) : ℤ),none))
    (hhole : src.nextHole (a*bs : ℕ) = (((e*bs : ℕ) : ℤ),none)) (hae : a < e)
    (hsmall : e*bs < 2^63) (hmax : max < 2^63) (hce : c+(e-a) ≤ e) :
    buildPass src bs max s =
      if max < (c+(e-a))*bs then
        if max-c*bs < bs then .ok (.inr (.ok s))
        else addRun src bs s (a*bs : ℕ) (i64 ((a*bs : ℕ)+(max-c*bs : ℕ))) (max-c*bs : ℕ)
      else addRun src bs s (a*bs : ℕ) (e*bs : ℕ) ((e-a)*bs : ℕ) := by
  have hle : a*bs ≤ e*bs := Nat.mul_le_mul_right bs hae.le
  have hlen : i64 (((e*bs : ℕ) : ℤ)-(a*bs : ℕ)) = ((e-a)*bs : ℕ) := by
    rw [← Nat.cast_sub hle,← Nat.sub_mul]
    have := Nat.mul_le_mul_right bs (show e-a ≤ e by omega)
    exact i64_of_range (by omega) (by omega)
  have hsum : i64 (((c*bs : ℕ) : ℤ)+((e-a)*bs : ℕ)) = ((c+(e-a))*bs : ℕ) := by
    rw [← Nat.cast_add,← Nat.add_mul]
    have := Nat.mul_le_mul_right bs hce
    exact i64_of_range (by omega) (by omega)
  have hcut : i64 ((max : ℤ)-(c*bs : ℕ)) = (max-c*bs : ℕ) := by
    rw [← Nat.cast_sub hlim.le]
    exact i64_of_range (by omega) (by omega)
  rw [buildPass,if_pos (by rw [hdata]; omega),hnext]
  simp only [hhole,hlen,hdata,hsum,hcut,Nat.cast_lt]

/-- The outcome of the loop. -/
def Outcome (bs : ℕ) (B : ℕ → Prop) [DecidablePred B] (content : ℕ → UInt8) (max : ℕ) :
    Except Error BuildState → Prop
  | .ok s => ∃ o calls, Built bs B content max s o calls ∧ Complete B (max/bs) o
  | .error _ => max%bs ≠ 0 ∧ CutsRun B (max/bs)

/-- One pass adds a run or a part of it, or ends the loop. -/
theorem Built.buildPass_spec (h : Built bs B content max s o calls)
    (hsrc : src.Serves bs B content) (hbs : 0 < bs) (hmax : max < 2^63) :
    (∃ s' o' calls', buildPass src bs max s = .ok (.inl s') ∧
        Built bs B content max s' o' calls' ∧ s.dataBytes < s'.dataBytes) ∨
      (∃ r, buildPass src bs max s = .ok (.inr r) ∧ Outcome bs B content max r) ∨
      (∃ e, buildPass src bs max s = .error e) ∧ ¬Countable B (max/bs) := by
  have hwithin := h.within
  have hq := Nat.div_add_mod max bs
  have hr := Nat.mod_lt max hbs
  rw [Nat.mul_comm] at hq
  have hiff : ∀ x, x ≤ max/bs ↔ x*bs ≤ max := fun x => Nat.le_div_iff_mul_le hbs
  generalize hqd : max/bs = q at *
  generalize hrd : max%bs = r at *
  generalize hcd : Nat.count B o = c at *
  have hcq : c ≤ q := (hiff c).mpr hwithin
  by_cases hlim : c*bs < max
  swap
  · -- the limit is reached
    have hqc : q ≤ c := by
      have := Nat.add_mul c 1 bs
      have := hiff (c+1)
      omega
    refine .inr (.inl ⟨.ok s,?_,o,calls,h,?_⟩)
    · rw [buildPass,if_neg (by rw [h.dataBytes,hcd]; omega)]
    · rw [hqd]
      exact complete_of_count (by omega)
  rcases hsrc.nextRun hbs o with ⟨y,hnext,hnone⟩ | ⟨a,e,hnext,hhole,hoa,hae,hgap,hrun,he,hsmall⟩
  · refine .inr (.inl ⟨.ok s,?_,o,calls,h,fun k hk _ => not_le.mp fun hok => hnone k hok hk⟩)
    rw [buildPass,if_pos (by rw [h.dataBytes,hcd]; omega),h.offset,hnext]
  · have hca : Nat.count B a = c := by rw [count_gap hoa hgap,hcd]
    have hce : Nat.count B e = c+(e-a) := by rw [count_run hae.le hrun,hca]
    have hle : Nat.count B e ≤ e := Nat.count_le B
    have hpass := buildPass_eq src s (by rw [h.dataBytes,hcd]) hlim
      (by rw [h.offset]; exact hnext) hhole hae hsmall hmax (hce ▸ hle)
    rw [hpass]
    have hstep : ∀ n, n ≠ 0 → a+n ≤ e → (c+n)*bs ≤ max → ((c+n)*bs = max ∨ ¬B (a+n)) →
        (∃ s' o' calls', addRun src bs s (a*bs : ℕ) ((a+n)*bs : ℕ) (n*bs : ℕ) = .ok (.inl s') ∧
            Built bs B content max s' o' calls' ∧ s.dataBytes < s'.dataBytes) ∨
          (∃ e, addRun src bs s (a*bs : ℕ) ((a+n)*bs : ℕ) (n*bs : ℕ) = .error e) ∧
            ¬Countable B q := by
      intro n hn hne hw hs
      have hrun' : ∀ k, a ≤ k → k < a+n → B k := fun k hk hlt => hrun k hk (by omega)
      rcases h.addRun_spec hsrc hbs hoa hgap hn hrun' hmax (by rw [hcd]; exact hw)
        (by rw [hcd]; exact hs) with ⟨_,s',calls',hadd,hs'⟩ | ⟨hbig,herr⟩
      · refine .inl ⟨s',a+n,calls',hadd,hs',?_⟩
        rw [h.dataBytes,hs'.dataBytes,count_run (Nat.le_add_right a n) hrun',hca,hcd]
        have hpos : 0 < n*bs := Nat.mul_pos (Nat.pos_of_ne_zero hn) hbs
        rw [Nat.add_sub_cancel_left,Nat.add_mul]
        omega
      · have hcn : c+n ≤ q := (hiff (c+n)).mpr hw
        exact .inr ⟨herr,not_countable hrun' hca (by rw [← hcd]; exact h.fits) (by omega) hcn⟩
    by_cases hover : max < (c+(e-a))*bs
    swap
    · rw [if_neg hover]
      have hea : a+(e-a) = e := by omega
      have := hstep (e-a) (by omega) (by omega) (by omega) (.inr (by rwa [hea]))
      rw [hea] at this
      exact this.imp_right .inr
    rw [if_pos hover]
    by_cases hshort : max-c*bs < bs
    · -- less than a block is left
      rw [if_pos hshort]
      have hqc : q ≤ c := by
        have := Nat.add_mul c 1 bs
        have := hiff (c+1)
        omega
      refine .inr (.inl ⟨.ok s,rfl,o,calls,h,?_⟩)
      rw [hqd]
      exact complete_of_count (by omega)
    rw [if_neg hshort]
    have hcq' : c < q := by
      refine (hiff (c+1)).mpr ?_
      rw [Nat.add_mul,Nat.one_mul]
      omega
    have hqe : q < c+(e-a) := not_le.mp fun hlt => absurd ((hiff _).mp hlt) (by omega)
    have hleft : max-c*bs = (q-c)*bs+r := by
      rw [Nat.sub_mul]
      have := Nat.mul_le_mul_right bs hcq
      omega
    by_cases hzero : r = 0
    · -- the limit is a number of blocks
      have hend : i64 (((a*bs : ℕ) : ℤ)+(max-c*bs : ℕ)) = ((a+(q-c))*bs : ℕ) := by
        rw [hleft,hzero,Nat.add_zero,← Nat.cast_add,← Nat.add_mul]
        have := Nat.mul_le_mul_right bs (show a+(q-c) ≤ e by omega)
        exact i64_of_range (by omega) (by omega)
      rw [hend,hleft,hzero,Nat.add_zero]
      have hall : (c+(q-c))*bs = max := by
        rw [show c+(q-c) = q by omega]
        omega
      have := hstep (q-c) (by omega) (by omega) hall.le (.inl hall)
      exact this.imp_right .inr
    · -- the cut leaves a part of a block
      have hmod : (max-c*bs)%bs ≠ 0 := by
        rwa [hleft,Nat.mul_comm,Nat.mul_add_mod,Nat.mod_eq_of_lt hr]
      obtain ⟨err,hadd⟩ := addRun_unaligned src s hbs hmod (a*bs : ℕ)
        (i64 ((a*bs : ℕ)+(max-c*bs : ℕ)))
      refine .inr (.inl ⟨_,hadd,by rw [hrd]; exact hzero,a+(q-c)-1,hrun _ (by omega) (by omega),?_,?_⟩)
      · exact hrun _ (by omega) (by omega)
      · rw [hqd,show a+(q-c)-1+1 = a+(q-c) by omega,
          count_run (Nat.le_add_right a _) fun k hk hlt => hrun k hk (by omega),hca]
        omega

theorem Built.le_max (h : Built bs B content max s o calls) : s.dataBytes ≤ max := by
  rw [h.dataBytes]
  exact_mod_cast h.within

theorem run_buildPass (hsrc : src.Serves bs B content) (hbs : 0 < bs) (hmax : max < 2^63) :
    (∃ r, run (buildPass src bs max) (max+1) ⟨.new bs,0,0,0⟩ = .ok r ∧
        Outcome bs B content max r) ∨
      (∃ e, run (buildPass src bs max) (max+1) ⟨.new bs,0,0,0⟩ = .error e) ∧
        ¬Countable B (max/bs) := by
  refine run_total_or_fault _ (fun s => ∃ o calls, Built bs B content max s o calls) _ _
    (fun s => (max-s.dataBytes).toNat) (fun s hs => ?_) _ _ ⟨0,[],.new⟩ (by simp)
  obtain ⟨o,calls,h⟩ := hs
  rcases h.buildPass_spec hsrc hbs hmax with ⟨s',o',calls',hpass,h',hlt⟩ | hdone
  · have := h'.le_max
    exact .inl ⟨s',hpass,⟨o',calls',h'⟩,by omega⟩
  · exact .inr hdone

/-- The calls hold the first `q` blocks of the source and nothing else. -/
structure HoldsFirst (bs : ℕ) (B : ℕ → Prop) [DecidablePred B] (content : ℕ → UInt8) (q : ℕ)
    (calls : List IndexEntry) : Prop where
  ascending : calls.Pairwise fun c c' => c.offset+c.length ≤ c'.offset
  blocks : ∀ x, AddedBy bs calls x ↔ B (x/bs) ∧ Nat.count B (x/bs) < q
  bytes : ∀ x, AddedBy bs calls x → byteOf bs calls x = content x

/-- The build succeeds, and the reader of the file that it writes serves the first blocks of the
source, as many as the limit allows, and nothing else. -/
def BuildsPrefix (codec : HeaderCodec) (src : HoleReaderAt) (bs : ℕ) (B : ℕ → Prop)
    [DecidablePred B] (content : ℕ → UInt8) (max : ℕ) : Prop :=
  ∃ file r calls, buildFromReader src bs codec (some max) = .ok (.ok file) ∧
    load codec file = .ok (.ok r) ∧ RoundTrips bs calls r ∧ HoldsFirst bs B content (max/bs) calls

/-- The number of bytes in the index of the table that the loop ends with. -/
def indexSize (src : HoleReaderAt) (bs max : ℕ) : ℕ :=
  match run (buildPass src bs max) (max+1) ⟨.new bs,0,0,0⟩ with
  | .ok (.ok s) => s.b.writeIndex.length
  | _ => 0

/-- The limits of the format, which neither `AddBlocks` nor `Build` checks. -/
structure WithinFormat (src : HoleReaderAt) (bs : ℕ) (B : ℕ → Prop) [DecidablePred B]
    (max : ℕ) : Prop where
  low : 512 ≤ bs
  high : bs ≤ 2^20
  blocks : ∀ k, B k → Nat.count B k < max/bs → k < 2^48
  index : indexSize src bs max < 2^32

theorem WithinFormat.countable (h : WithinFormat src bs B max) : Countable B (max/bs) :=
  fun k hk hlt => lt_of_le_of_lt (Nat.count_le B) (h.blocks k hk hlt)

theorem addedBy_iff_has (hbs : 0 < bs) {x : ℕ} : AddedBy bs calls x ↔ Has calls (x/bs) := by
  simp only [AddedBy,Has,IndexEntry.covers_iff,Nat.le_div_iff_mul_le hbs,Nat.div_lt_iff_lt_mul hbs]

theorem Built.count_le (h : Built bs B content max s o calls) (hbs : 0 < bs) :
    Nat.count B o ≤ max/bs := (Nat.le_div_iff_mul_le hbs).mpr h.within

/-- What the loop has added is a prefix of the source. -/
theorem Built.holdsFirst (h : Built bs B content max s o calls) (hbs : 0 < bs)
    (hall : Complete B (max/bs) o) : HoldsFirst bs B content (max/bs) calls where
  ascending := h.ascending
  blocks x := by
    rw [addedBy_iff_has hbs,h.has]
    refine and_congr_right fun hx => ⟨fun hlt => ?_,hall _ hx⟩
    exact (Nat.count_strict_mono hx hlt).trans_le (h.count_le hbs)
  bytes x hx := by
    obtain ⟨c,hc,hcov⟩ := hx
    cases hf : calls.find? fun c => c.covers bs x with
    | none => exact absurd hcov (List.find?_eq_none.mp hf c hc)
    | some c' =>
      have hcov' : c'.offset*bs ≤ x ∧ x < (c'.offset+c'.length)*bs := by
        simpa only [IndexEntry.covers_iff] using List.find?_some hf
      have hlen : x-c'.offset*bs < c'.length*bs := by
        have := Nat.add_mul c'.offset c'.length bs
        omega
      rw [byteOf,hf,Option.map_some,Option.getD_some,h.data c' (List.mem_of_find?_eq_some hf),
        List.getD_eq_getElem?_getD,List.getElem?_map,List.getElem?_range' hlen]
      simp only [Option.map_some,Option.getD_some]
      congr 1
      omega

/-- The blocks of a call are blocks of the source. -/
theorem Built.end_lt (h : Built bs B content max s o calls) (hsrc : src.Serves bs B content)
    {c : IndexEntry} (hc : c ∈ calls) : (c.offset+c.length)*bs < 2^63 := by
  have hne := h.nonempty c hc
  have hB := ((h.has (c.offset+c.length-1)).mp ⟨c,hc,by omega,by omega⟩).1
  have := hsrc.small _ hB
  rwa [show c.offset+c.length-1+1 = c.offset+c.length by omega] at this

theorem Built.build_ok (h : Built bs B content max s o calls) (hsrc : src.Serves bs B content)
    (codec : HeaderCodec) : ∃ file, s.b.build codec = .ok file := by
  refine Builder.build_ok codec (fun c hc => ?_) fun c hc => ?_
  · rw [h.entries] at hc
    have := h.end_lt hsrc hc
    rw [Nat.add_mul] at this
    rw [h.blockSize]
    omega
  · rw [h.entries] at hc
    rw [h.data c hc,List.length_map,List.length_range',h.blockSize]

theorem Built.endOf_lt (h : Built bs B content max s o calls) (hsrc : src.Serves bs B content)
    (hbs : 0 < bs) (hne : calls ≠ []) : endOf bs calls < 2^63 := by
  obtain ⟨c,cs,rfl⟩ := List.exists_cons_of_ne_nil hne
  obtain ⟨hpos,⟨c',hc',hcov⟩,_⟩ := endOf_spec hbs
    (show ∃ c' ∈ c::cs, c'.length ≠ 0 from
      ⟨c,List.mem_cons_self,h.nonempty c List.mem_cons_self⟩)
  have := (IndexEntry.covers_iff.mp hcov).2
  have := h.end_lt hsrc hc'
  omega

/-- A source with a block and a limit of at least a block add a run. -/
theorem Built.ne_nil (h : Built bs B content max s o calls) (hbs : 0 < bs) (hle : bs ≤ max)
    (hall : Complete B (max/bs) o) (hB : ∃ k, B k) : calls ≠ [] := by
  rintro rfl
  classical
  have hfirst : Nat.count B (Nat.find hB) = 0 :=
    Nat.count_iff_forall_not.mpr fun k hk => Nat.find_min hB hk
  have hlt := hall _ (Nat.find_spec hB) (by rw [hfirst]; exact Nat.div_pos hle hbs)
  obtain ⟨c,hc,_⟩ := (h.has _).mpr ⟨Nat.find_spec hB,hlt⟩
  cases hc

theorem buildFromReader_eq (src : HoleReaderAt) (bs : ℕ) (codec : HeaderCodec) (hpos : 0 < max) :
    buildFromReader src bs codec (some max) =
      match run (buildPass src bs max) (max+1) ⟨.new bs,0,0,0⟩ with
      | .error e => .error e
      | .ok (.error err) => .ok (.error err)
      | .ok (.ok s) =>
        if s.count = 0 then .error (.panic "integer divide by zero") else .ok (s.b.build codec) := by
  have hmax : maxDataSize (some (max : ℤ)) = max := if_pos (by omega)
  rw [buildFromReader,hmax,Int.toNat_natCast]

/-- Where the loop stops, the limit is a number of blocks or falls between two runs. -/
theorem Built.not_cut (h : Built bs B content max s o calls) (hbs : 0 < bs)
    (hall : Complete B (max/bs) o) : max%bs = 0 ∨ ¬CutsRun B (max/bs) := by
  by_contra hcut
  obtain ⟨hmod,hcut⟩ := not_or.mp hcut
  obtain ⟨k,hk,hk',hkq⟩ := not_not.mp hcut
  have hko : k < o := hall k hk (by
    have := Nat.count_strict_mono hk (Nat.lt_add_one k)
    omega)
  have hok : o ≤ k+1 := by
    by_contra hlt
    have := Nat.count_strict_mono hk' (not_le.mp hlt)
    have := h.count_le hbs
    omega
  obtain rfl : o = k+1 := by omega
  rcases h.stop with hstop | hzero | hnot
  · rw [hkq] at hstop
    exact hmod (by rw [← hstop]; exact Nat.mul_mod_left _ _)
  · cases hzero
  · exact hnot hk'

/-- Within the limits of the format, the table of what the loop has added loads. -/
theorem Built.load_ok (h : Built bs B content max s o calls) (hsrc : src.Serves bs B content)
    (hne : calls ≠ []) (hf : WithinFormat src bs B max) (hindex : s.b.writeIndex.length < 2^32)
    (codec : HeaderCodec) {file : List UInt8} (hfile : s.b.build codec = .ok file) :
    ∃ r, load codec file = .ok (.ok r) ∧ RoundTrips bs calls r := by
  have hbs : 0 < bs := by
    have := hf.low
    omega
  have hcalls : ∀ c ∈ calls, c.offset+c.length ≤ 2^48 := by
    intro c hc
    have hpos := h.nonempty c hc
    obtain ⟨hB,hlt⟩ := (h.has (c.offset+c.length-1)).mp ⟨c,hc,by omega,by omega⟩
    have := hf.blocks _ hB ((Nat.count_strict_mono hB hlt).trans_le (h.count_le hbs))
    omega
  obtain ⟨c,hc⟩ := List.exists_mem_of_ne_nil calls hne
  obtain ⟨r,_,hload,_,hrt⟩ := load_build codec hf.low hf.high h.added hcalls
    ⟨c,hc,h.nonempty c hc⟩ hindex hfile
  exact ⟨r,hload,(hrt (h.endOf_lt hsrc hbs hne)).2⟩

end Run

section OneRun

/-- A source with the `n` blocks from `a` on, all zero. -/
def oneRun (bs a n : ℕ) : HoleReaderAt where
  nextData off :=
    if off < (a*bs : ℕ) then ((a*bs : ℕ),none)
    else if off < ((a+n)*bs : ℕ) then (off,none) else (0,some .eof)
  nextHole off :=
    if off < (a*bs : ℕ) then (off,none)
    else if off < ((a+n)*bs : ℕ) then (((a+n)*bs : ℕ),none) else (off,none)
  readAt len _ := (List.replicate len 0,none)

theorem oneRun_serves {bs a n : ℕ} (hbs : 0 < bs) (hn : 0 < n) (hsmall : (a+n)*bs < 2^63) :
    (oneRun bs a n).Serves bs (fun k => a ≤ k ∧ k < a+n) fun _ => 0 where
  small k hk := (Nat.mul_le_mul_right bs hk.2).trans_lt hsmall
  nextData off := by
    simp only [oneRun,Nat.cast_lt,Nat.le_div_iff_mul_le hbs,Nat.div_lt_iff_lt_mul hbs]
    have hpos : a*bs < (a+n)*bs := Nat.mul_lt_mul_of_pos_right (by omega) hbs
    split_ifs with h₁ h₂
    · exact .inl ⟨a*bs,rfl,h₁.le,⟨le_rfl,hpos⟩,fun z _ hlt hz => by omega⟩
    · exact .inl ⟨off,rfl,le_rfl,⟨by omega,h₂⟩,fun z hz hlt => by omega⟩
    · exact .inr ⟨0,rfl,fun z hz hlt => by omega⟩
  nextHole off hoff := by
    rw [Nat.le_div_iff_mul_le hbs,Nat.div_lt_iff_lt_mul hbs] at hoff
    simp only [oneRun,Nat.cast_lt,Nat.le_div_iff_mul_le hbs,Nat.div_lt_iff_lt_mul hbs]
    rw [if_neg (by omega),if_pos hoff.2]
    exact ⟨(a+n)*bs,rfl,hoff.2.le,by omega,fun z hz hlt => by omega⟩
  readAt len off _ := ⟨none,by simp [oneRun,List.map_const'],.inl rfl⟩

end OneRun

end Sparse
end Logblock
