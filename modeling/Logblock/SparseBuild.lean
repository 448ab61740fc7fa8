import Logblock.SparseRead

/-! The builder of a sparse table: the index it keeps is well-formed, its runs tile the blocks of
the calls, and `Load` gets it back from the file. -/
namespace Logblock
namespace Sparse

open Loop Bytes

/-- The runs cover the blocks from `o` on without gaps. -/
def Tiles : ℕ → List Run → Prop
  | _, [] => True
  | o, e::es => e.off = o ∧ Tiles (o+e.len) es

theorem WellFormed.nil : WellFormed [] := by
  constructor <;> simp [Packed]

/-- Another run behind all others. -/
theorem WellFormed.snoc {gs gs' : List (List Run)} (h : WellFormed gs) {o n : ℕ}
    (hflat : gs'.flatten = gs.flatten++[⟨o,n,totalLen gs.flatten⟩])
    (hbehind : ∀ e ∈ gs.flatten, e.off+e.len ≤ o) (hpos : 0 < n) (hn : n ≤ 127)
    (hbound : o+n ≤ 2^48) (htotal : totalLen gs.flatten+n ≤ 2^48)
    (hne : ∀ g ∈ gs', g ≠ []) (hspan : ∀ g ∈ gs', ∀ e ∈ g, e.off < start g+2^16)
    (hcount : ∀ g ∈ gs', g.length ≤ 64) : WellFormed gs' where
  nonempty := hne
  span := hspan
  count := hcount
  ascending := by
    rw [hflat,List.pairwise_append]
    exact ⟨h.ascending,List.pairwise_singleton _ _,fun a ha b hb => by
      rw [List.mem_singleton.mp hb]
      exact hbehind a ha⟩
  len := by
    rw [hflat]
    intro e he
    rcases List.mem_append.mp he with he | he
    · exact h.len e he
    · rw [List.mem_singleton.mp he]
      exact ⟨hpos,hn⟩
  bound := by
    rw [hflat]
    intro e he
    rcases List.mem_append.mp he with he | he
    · exact h.bound e he
    · rw [List.mem_singleton.mp he]
      exact hbound
  packed := by
    rw [hflat,packed_append]
    exact ⟨h.packed,(Nat.zero_add _).symm,trivial⟩
  total := by
    rw [hflat]
    simpa using htotal

/-- A run opens a group of its own. -/
theorem WellFormed.snoc_group {gs : List (List Run)} (h : WellFormed gs) {o n : ℕ}
    (hbehind : ∀ e ∈ gs.flatten, e.off+e.len ≤ o) (hpos : 0 < n) (hn : n ≤ 127)
    (hbound : o+n ≤ 2^48) (htotal : totalLen gs.flatten+n ≤ 2^48) :
    WellFormed (gs++[[⟨o,n,totalLen gs.flatten⟩]]) := by
  refine h.snoc (by simp) hbehind hpos hn hbound htotal (fun g hg => ?_) (fun g hg => ?_)
    (fun g hg => ?_)
  all_goals rcases List.mem_append.mp hg with hg | hg
  · exact h.nonempty g hg
  · simp [List.mem_singleton.mp hg]
  · exact h.span g hg
  · simp [List.mem_singleton.mp hg,start]
  · exact h.count g hg
  · simp [List.mem_singleton.mp hg]

theorem start_append {g : List Run} (hg : g ≠ []) (es : List Run) : start (g++es) = start g := by
  obtain ⟨a,as,rfl⟩ := List.exists_cons_of_ne_nil hg
  rfl

theorem rangeOf_append {g : List Run} (hg : g ≠ []) (e : Run) :
    rangeOf (g++[e]) = {rangeOf g with numEntries := g.length+1} := by
  obtain ⟨a,as,rfl⟩ := List.exists_cons_of_ne_nil hg
  simp [rangeOf,start]

/-- A run goes to the last group. -/
theorem WellFormed.snoc_run {gs : List (List Run)} {g : List Run} (h : WellFormed (gs++[g]))
    {o n : ℕ} (hbehind : ∀ e ∈ (gs++[g]).flatten, e.off+e.len ≤ o) (hpos : 0 < n) (hn : n ≤ 127)
    (hbound : o+n ≤ 2^48) (htotal : totalLen (gs++[g]).flatten+n ≤ 2^48) (hlen : g.length < 64)
    (hspan : o < start g+2^16) :
    WellFormed (gs++[g++[⟨o,n,totalLen (gs++[g]).flatten⟩]]) := by
  have hg : g ≠ [] := h.nonempty g (by simp)
  refine h.snoc (by simp) hbehind hpos hn hbound htotal (fun g' hg' => ?_) (fun g' hg' => ?_)
    (fun g' hg' => ?_)
  all_goals rcases List.mem_append.mp hg' with hg' | hg'
  · exact h.nonempty g' (by simp [hg'])
  · simp [List.mem_singleton.mp hg']
  · exact h.span g' (by simp [hg'])
  · rw [List.mem_singleton.mp hg',start_append hg]
    intro e he
    rcases List.mem_append.mp he with he | he
    · exact h.span g (by simp) e he
    · rw [List.mem_singleton.mp he]
      exact hspan
  · exact h.count g' (by simp [hg'])
  · simpa [List.mem_singleton.mp hg'] using hlen

theorem blockEntries_snoc_run (gs : List (List Run)) {g : List Run} (hg : g ≠ []) (e : Run) :
    blockEntries (gs++[g++[e]]) = blockEntries (gs++[g])++[entryOf (start g) e] := by
  simp [blockEntries,start_append hg]

namespace Builder

/-- The loop of `AddBlocks` before the block `next`: the ranges and entries are those of `gs`, and
if there are none yet, the first range is open at `next`. -/
structure Indexed (s : IndexState) (gs : List (List Run)) (next : ℕ) : Prop where
  wf : WellFormed gs
  behind : ∀ e ∈ gs.flatten, e.off+e.len ≤ next
  dataOffset : s.dataOffset = totalLen gs.flatten
  buf : s.blockEntryBuf = (blockEntries gs).flatMap BlockEntry.marshal
  ranges : (gs = [] ∧ s.ranges = [] ∧ s.currRange = ⟨next,0,0⟩) ∨
    (gs ≠ [] ∧ s.ranges++[s.currRange] = gs.map rangeOf)

variable {s : IndexState} {gs : List (List Run)} {next : ℕ}

theorem lengthType_eq {n : ℕ} (hn : n ≤ 127) : lengthType n = .ok (n*2) := by
  rw [lengthType,if_neg (by simp only [maxEntryLength]; omega),Nat.mod_eq_of_lt (by omega)]

theorem Indexed.behind_snoc (h : Indexed s gs next) {gs' : List (List Run)} {n d : ℕ}
    (hflat : gs'.flatten = gs.flatten++[⟨next,n,d⟩]) :
    ∀ e ∈ gs'.flatten, e.off+e.len ≤ next+n := by
  rw [hflat]
  intro e he
  rcases List.mem_append.mp he with he | he
  · exact (h.behind e he).trans (Nat.le_add_right _ _)
  · rw [List.mem_singleton.mp he]

theorem Indexed.dataOffset_snoc (h : Indexed s gs next) {gs' : List (List Run)} {n d : ℕ}
    (hflat : gs'.flatten = gs.flatten++[⟨next,n,d⟩]) :
    s.dataOffset+n = totalLen gs'.flatten := by
  rw [hflat,h.dataOffset]
  simp

/-- The entry goes to the open range. -/
theorem Indexed.addEntry_open (h : Indexed s gs next) {pre : List (List Run)} {g : List Run}
    (hgs : gs = pre++[g]) (hcount : g.length < 64) (hspan : next < start g+2^16) {n : ℕ}
    (hpos : 0 < n) (hn : n ≤ 127) (hbound : next+n ≤ 2^48)
    (htotal : totalLen gs.flatten+n ≤ 2^48) :
    ∃ s', addEntry s next n = .ok s' ∧
      Indexed s' (pre++[g++[⟨next,n,totalLen gs.flatten⟩]]) (next+n) := by
  subst hgs
  have hg : g ≠ [] := h.wf.nonempty g (by simp)
  rcases h.ranges with ⟨hnil,_⟩ | ⟨_,hranges⟩
  · simp at hnil
  rw [List.map_append,List.map_singleton] at hranges
  obtain ⟨hpre,hcurr⟩ := List.append_inj' hranges rfl
  have hcurr' : s.currRange = rangeOf g := by simpa using hcurr
  have hcond : ¬(maxRangeEntries ≤ s.currRange.numEntries ∨
      65535 < next-s.currRange.startOffset) := by
    simp only [hcurr',maxRangeEntries,rangeOf]
    omega
  refine ⟨{s with
    currRange := {s.currRange with numEntries := s.currRange.numEntries+1}
    blockEntryBuf := s.blockEntryBuf++
      BlockEntry.marshal ⟨(next-s.currRange.startOffset)%2^16,n*2⟩
    dataOffset := s.dataOffset+n},?_,?_⟩
  · rw [addEntry,if_neg hcond,lengthType_eq hn]
    rfl
  · have hflat : (pre++[g++[Run.mk next n (totalLen (pre++[g]).flatten)]]).flatten =
        (pre++[g]).flatten++[⟨next,n,totalLen (pre++[g]).flatten⟩] := by simp
    refine ⟨h.wf.snoc_run h.behind hpos hn hbound htotal hcount hspan,
      h.behind_snoc hflat,h.dataOffset_snoc hflat,?_,?_⟩
    · rw [blockEntries_snoc_run pre hg,List.flatMap_append,← h.buf]
      simp only [hcurr',rangeOf,entryOf,List.flatMap_cons,List.flatMap_nil,List.append_nil]
      rw [Nat.mod_eq_of_lt (by omega)]
    · refine .inr ⟨by simp,?_⟩
      simp only [hpre,hcurr',List.map_append,List.map_singleton,rangeOf_append hg]
      rfl

/-- The entry opens a range. -/
theorem Indexed.addEntry_new (h : Indexed s gs next) (hnew : gs ≠ [] → maxRangeEntries ≤
    s.currRange.numEntries ∨ 65535 < next-s.currRange.startOffset) {n : ℕ}
    (hpos : 0 < n) (hn : n ≤ 127) (hbound : next+n ≤ 2^48)
    (htotal : totalLen gs.flatten+n ≤ 2^48) :
    ∃ s', addEntry s next n = .ok s' ∧
      Indexed s' (gs++[[⟨next,n,totalLen gs.flatten⟩]]) (next+n) := by
  have hwf := h.wf.snoc_group h.behind hpos hn hbound htotal
  have hentries : (blockEntries (gs++[[⟨next,n,totalLen gs.flatten⟩]])).flatMap BlockEntry.marshal =
      s.blockEntryBuf++BlockEntry.marshal ⟨(next-next)%2^16,n*2⟩ := by
    rw [blockEntries_append,List.flatMap_append,← h.buf]
    simp [blockEntries,entryOf,start]
  have hflat : (gs++[[Run.mk next n (totalLen gs.flatten)]]).flatten =
      gs.flatten++[⟨next,n,totalLen gs.flatten⟩] := by simp
  rcases h.ranges with ⟨hnil,hranges,hcurr⟩ | ⟨hne,hranges⟩
  · refine ⟨⟨[],⟨next,0,1⟩,s.blockEntryBuf++BlockEntry.marshal ⟨(next-next)%2^16,n*2⟩,
      s.dataOffset+n⟩,?_,hwf,h.behind_snoc hflat,h.dataOffset_snoc hflat,hentries.symm,.inr ⟨by simp,?_⟩⟩
    · rw [addEntry,if_neg (by rw [hcurr]; simp [maxRangeEntries]),lengthType_eq hn]
      simp only [bind,Except.bind,hranges,hcurr]
    · simp [hnil,rangeOf,start]
  · refine ⟨⟨gs.map rangeOf,⟨next,s.dataOffset,1⟩,
      s.blockEntryBuf++BlockEntry.marshal ⟨(next-next)%2^16,n*2⟩,s.dataOffset+n⟩,?_,hwf,
      h.behind_snoc hflat,h.dataOffset_snoc hflat,hentries.symm,.inr ⟨by simp,?_⟩⟩
    · rw [addEntry,if_pos (hnew hne),lengthType_eq hn]
      simp only [bind,Except.bind,hranges]
    · simp [h.dataOffset,rangeOf,start]

theorem Indexed.addEntry_eq (h : Indexed s gs next) {n : ℕ} (hpos : 0 < n) (hn : n ≤ 127)
    (hbound : next+n ≤ 2^48) (htotal : totalLen gs.flatten+n ≤ 2^48) :
    ∃ s' gs', addEntry s next n = .ok s' ∧
      gs'.flatten = gs.flatten++[⟨next,n,totalLen gs.flatten⟩] ∧ Indexed s' gs' (next+n) := by
  by_cases hopen : gs ≠ [] ∧ ¬(maxRangeEntries ≤ s.currRange.numEntries ∨
      65535 < next-s.currRange.startOffset)
  · obtain ⟨hne,hcond⟩ := hopen
    obtain ⟨pre,g,hgs⟩ := (List.eq_nil_or_concat gs).resolve_left hne
    rw [List.concat_eq_append] at hgs
    have hcurr : s.currRange = rangeOf g := by
      rcases h.ranges with ⟨hnil,_⟩ | ⟨_,hranges⟩
      · exact absurd hnil hne
      · rw [hgs,List.map_append,List.map_singleton] at hranges
        simpa using (List.append_inj' hranges rfl).2
    rw [hcurr] at hcond
    simp only [maxRangeEntries,rangeOf] at hcond
    obtain ⟨s',hadd,hs'⟩ := h.addEntry_open hgs (by omega) (by omega) hpos hn hbound htotal
    exact ⟨s',_,hadd,by simp [hgs],hs'⟩
  · obtain ⟨s',hadd,hs'⟩ := h.addEntry_new (fun hne => not_not.mp fun hc => hopen ⟨hne,hc⟩) hpos hn
      hbound htotal
    exact ⟨s',_,hadd,by simp,hs'⟩

/-- The loop of `AddBlocks` adds runs that tile the `left` blocks from `next` on. -/
theorem Indexed.addEntries_eq (h : Indexed s gs next) {left fuel : ℕ} (hfuel : left ≤ fuel)
    (hbound : next+left ≤ 2^48) (htotal : totalLen gs.flatten+left ≤ 2^48) :
    ∃ s' gs' es, addEntries fuel s next left = .ok s' ∧ gs'.flatten = gs.flatten++es ∧
      Tiles next es ∧ totalLen es = left ∧ Indexed s' gs' (next+left) := by
  induction fuel generalizing s gs next left with
  | zero =>
    obtain rfl : left = 0 := by omega
    exact ⟨s,gs,[],rfl,by simp,trivial,rfl,h⟩
  | succ fuel ih =>
    by_cases hleft : left = 0
    · subst hleft
      exact ⟨s,gs,[],by rw [addEntries,if_pos rfl],by simp,trivial,rfl,h⟩
    · have hmin : maxEntryLength = 127 := rfl
      generalize hn : min left maxEntryLength = n
      obtain ⟨s₁,gs₁,hadd,hflat,h₁⟩ := h.addEntry_eq (n := n) (by omega) (by omega) (by omega)
        (by omega)
      have htotal₁ : totalLen gs₁.flatten = totalLen gs.flatten+n := by
        rw [hflat]
        simp
      have hless : left-n ≤ fuel := by omega
      obtain ⟨s',gs',es,hrest,hflat',htiles,hlen,h'⟩ := ih h₁ hless (by omega) (by omega)
      refine ⟨s',gs',⟨next,n,totalLen gs.flatten⟩::es,?_,?_,⟨rfl,htiles⟩,?_,?_⟩
      · rw [addEntries,if_neg hleft,hn,hadd]
        exact hrest
      · rw [hflat',hflat,List.append_assoc]
        rfl
      · rw [totalLen_cons,hlen]
        simp only
        omega
      · rw [show next+left = next+n+(left-n) by omega]
        exact h'

/-- The runs of the calls: each call's tile its blocks. -/
def Layout : List IndexEntry → List Run → Prop
  | [], es => es = []
  | c::cs, es => ∃ es₁ es₂, es = es₁++es₂ ∧ Tiles c.offset es₁ ∧ totalLen es₁ = c.length ∧
      Layout cs es₂

theorem layout_append {cs cs' : List IndexEntry} {es : List Run} :
    Layout (cs++cs') es ↔ ∃ es₁ es₂, es = es₁++es₂ ∧ Layout cs es₁ ∧ Layout cs' es₂ := by
  induction cs generalizing es with
  | nil => simp [Layout]
  | cons c cs ih =>
    constructor
    · rintro ⟨es₁,es₂,rfl,ht,hl,hrest⟩
      obtain ⟨es₃,es₄,rfl,h₃,h₄⟩ := ih.mp hrest
      exact ⟨es₁++es₃,es₄,by simp,⟨es₁,es₃,rfl,ht,hl,h₃⟩,h₄⟩
    · rintro ⟨_,es₄,rfl,⟨es₁,es₃,rfl,ht,hl,h₃⟩,h₄⟩
      exact ⟨es₁,es₃++es₄,by simp,ht,hl,ih.mpr ⟨es₃,es₄,rfl,h₃,h₄⟩⟩

/-- The builder between two calls. -/
structure Holds (b : Builder) (gs : List (List Run)) : Prop where
  wf : WellFormed gs
  behind : ∀ e ∈ gs.flatten, e.off+e.len ≤ b.prevEnd
  prevEnd : b.prevEnd ≤ 2^48
  dataOffset : b.dataOffset = totalLen gs.flatten
  totalBlocks : b.totalBlocks = totalLen gs.flatten
  totalDataBlocks : b.totalDataBlocks = totalLen gs.flatten
  buf : b.blockEntryBuf = (blockEntries gs).flatMap BlockEntry.marshal
  ranges : b.ranges = gs.map rangeOf
  layout : Layout b.entries gs.flatten

theorem Holds.new (bs : ℕ) : (Builder.new bs).Holds [] := by
  refine ⟨.nil,?_,?_,?_,?_,?_,?_,?_,?_⟩ <;> simp [Builder.new,blockEntries,Layout]

variable {b b' : Builder}

/-- What a call that is accepted does. -/
theorem Holds.addBlocks_eq (h : b.Holds gs) {c : IndexEntry} (hc : c.offset+c.length ≤ 2^48)
    (hadd : b.addBlocks c.offset c.length c.data = .ok b') :
    ∃ gs', b'.Holds gs' ∧ b'.blockSize = b.blockSize ∧
      b'.entries = b.entries++(if c.length = 0 then [] else [c]) := by
  simp only [addBlocks,Int.toNat_natCast] at hadd
  split_ifs at hadd with h₁ h₂ h₃ h₄ h₅
  · cases hadd
    exact ⟨gs,h,rfl,by simp [h₅]⟩
  have hdata := h.dataOffset
  have hmax : maxBlocks = 2^48 := rfl
  generalize hs : IndexState.mk b.ranges.dropLast (b.ranges.getLastD ⟨c.offset,0,0⟩)
    b.blockEntryBuf b.dataOffset = s at hadd
  have hidx : Indexed s gs c.offset := by
    subst hs
    refine ⟨h.wf,fun e he => (h.behind e he).trans (by omega),h.dataOffset,h.buf,?_⟩
    rcases List.eq_nil_or_concat gs with rfl | ⟨pre,g,rfl⟩
    · exact .inl ⟨rfl,by simp [h.ranges],by simp [h.ranges]⟩
    · exact .inr ⟨by simp,by simp [h.ranges]⟩
  obtain ⟨s',gs',es,hrun,hflat,htiles,hlen,hidx'⟩ := hidx.addEntries_eq (le_refl c.length) hc
    (by omega)
  rw [hrun] at hadd
  cases hadd
  have htotal : totalLen gs'.flatten = totalLen gs.flatten+c.length := by
    rw [hflat,totalLen_append,hlen]
  refine ⟨gs',⟨hidx'.wf,hidx'.behind,hc,hidx'.dataOffset,?_,?_,hidx'.buf,?_,?_⟩,rfl,by simp [h₅]⟩
  · simp only [h.totalBlocks,htotal]
  · simp only [h.totalDataBlocks,htotal]
  · rcases hidx'.ranges with ⟨rfl,_⟩ | ⟨_,hranges⟩
    · simp at htotal
      omega
    · exact hranges
  · rw [hflat]
    exact layout_append.mpr ⟨_,es,rfl,h.layout,es,[],by simp,htiles,hlen,rfl⟩

/-- A sequence of calls. -/
def addAll (b : Builder) (calls : List IndexEntry) : Exec Builder :=
  calls.foldlM (fun b c => b.addBlocks c.offset c.length c.data) b

/-- The calls that add blocks. -/
def nonempty (calls : List IndexEntry) : List IndexEntry := calls.filter fun c => c.length ≠ 0

theorem Holds.addAll_eq (h : b.Holds gs) {calls : List IndexEntry}
    (hcalls : ∀ c ∈ calls, c.offset+c.length ≤ 2^48) (hadd : b.addAll calls = .ok b') :
    ∃ gs', b'.Holds gs' ∧ b'.blockSize = b.blockSize ∧ b'.entries = b.entries++nonempty calls := by
  induction calls generalizing b gs with
  | nil =>
    cases hadd
    exact ⟨gs,h,rfl,by simp [nonempty]⟩
  | cons c calls ih =>
    rw [addAll,List.foldlM_cons] at hadd
    cases hone : b.addBlocks c.offset c.length c.data with
    | error e =>
      rw [hone] at hadd
      cases hadd
    | ok b₁ =>
      rw [hone] at hadd
      obtain ⟨gs₁,h₁,hsize₁,hentries₁⟩ := h.addBlocks_eq (hcalls c List.mem_cons_self) hone
      obtain ⟨gs',h',hsize,hentries⟩ := ih h₁ (fun c' hc' => hcalls c' (List.mem_cons_of_mem c hc'))
        hadd
      refine ⟨gs',h',hsize.trans hsize₁,?_⟩
      rw [hentries,hentries₁,List.append_assoc]
      by_cases hzero : c.length = 0
      · simp [nonempty,hzero]
      · simp [nonempty,hzero]

theorem addEntry_ok (s : IndexState) (o : ℕ) {n : ℕ} (hn : n ≤ 127) :
    ∃ s', addEntry s o n = .ok s' ∧ s'.dataOffset = s.dataOffset+n := by
  rw [addEntry,lengthType_eq hn]
  split <;> exact ⟨_,rfl,rfl⟩

theorem addEntries_ok {fuel left : ℕ} (hfuel : left ≤ fuel) (s : IndexState) (o : ℕ) :
    ∃ s', addEntries fuel s o left = .ok s' ∧ s'.dataOffset = s.dataOffset+left := by
  induction fuel generalizing s o left with
  | zero =>
    obtain rfl : left = 0 := by omega
    exact ⟨s,rfl,rfl⟩
  | succ fuel ih =>
    by_cases hleft : left = 0
    · subst hleft
      exact ⟨s,by rw [addEntries,if_pos rfl],rfl⟩
    · have hmin : maxEntryLength = 127 := rfl
      generalize hn : min left maxEntryLength = n
      obtain ⟨s₁,hone,hdata₁⟩ := addEntry_ok s o (show n ≤ 127 by omega)
      obtain ⟨s',hrest,hdata⟩ := ih (show left-n ≤ fuel by omega) s₁ (o+n)
      refine ⟨s',?_,by omega⟩
      rw [addEntries,if_neg hleft,hn,hone]
      exact hrest

/-- Blocks behind all others are accepted as long as they can be counted. -/
theorem addBlocks_ok {o n : ℕ} (hn : n ≠ 0) (hfit : b.dataOffset+n ≤ 2^48) (hend : b.prevEnd ≤ o)
    (data : List UInt8) : ∃ b', b.addBlocks o n data = .ok b' ∧
      b'.dataOffset = b.dataOffset+n ∧ b'.prevEnd = o+n ∧ b'.blockSize = b.blockSize ∧
      b'.entries = b.entries++[⟨o,n,data⟩] := by
  have hmax : maxBlocks = 2^48 := rfl
  simp only [addBlocks,Int.toNat_natCast]
  rw [if_neg (by omega),if_neg (by omega),if_neg (by omega),if_neg (by omega),if_neg hn]
  obtain ⟨s',hadd,hdata⟩ := addEntries_ok (le_refl n)
    ⟨b.ranges.dropLast,b.ranges.getLastD ⟨o,0,0⟩,b.blockEntryBuf,b.dataOffset⟩ o
  rw [hadd]
  exact ⟨_,rfl,hdata,rfl,rfl,rfl⟩

theorem addAll_snoc {calls : List IndexEntry} (h : b.addAll calls = .ok b')
    (c : IndexEntry) :
    b.addAll (calls++[c]) = b'.addBlocks c.offset c.length c.data := by
  rw [addAll] at h
  rw [addAll,List.foldlM_append,h]
  simp only [bind,Except.bind,List.foldlM_cons,List.foldlM_nil,pure,Except.pure]
  cases b'.addBlocks c.offset c.length c.data <;> rfl

end Builder

section Load

variable {gs : List (List Run)}

theorem WellFormed.rangeOf_lt (h : WellFormed gs) {g : List Run} (hg : g ∈ gs) :
    (rangeOf g).startOffset < 2^48 ∧ (rangeOf g).dataOffset < 2^48 ∧ (rangeOf g).numEntries < 256 := by
  obtain ⟨e,es,rfl⟩ := List.exists_cons_of_ne_nil (h.nonempty g hg)
  have hmem : e ∈ gs.flatten := List.mem_flatten.mpr ⟨_,hg,List.mem_cons_self⟩
  have hpos := (h.len e hmem).1
  have hbound := h.bound e hmem
  have hdata := h.packed.data_le hmem
  have htotal := h.total
  have hcount := h.count _ hg
  simp only [rangeOf,start,List.headD_cons] at *
  omega

/-- `readIndex` parses the ranges behind those of `pre`. -/
theorem WellFormed.parseRanges_eq (h : WellFormed gs) {pre post : List (List Run)}
    (hgs : gs = pre++post) :
    parseRanges ((gs.map rangeOf).flatMap RangeEntry.marshal) 16 post.length pre.length
      pre.flatten.length = .ok (parsed pre.flatten.length post) := by
  induction post generalizing pre with
  | nil => rfl
  | cons g post ih =>
    have hget : (gs.map rangeOf)[pre.length]? = some (rangeOf g) := by
      rw [hgs,List.getElem?_map,List.getElem?_append_right le_rfl]
      simp
    obtain ⟨hs,hd,hn⟩ := h.rangeOf_lt (show g ∈ gs by simp [hgs])
    have hrest := ih (show gs = (pre++[g])++post by simp [hgs])
    simp only [List.length_append,List.length_singleton,List.flatten_append,List.flatten_singleton]
      at hrest
    rw [List.length_cons,parseRanges,
      slice_flatMap RangeEntry.marshal RangeEntry.length_marshal _ hget]
    simp only [bind,Except.bind]
    rw [RangeEntry.unmarshal_marshal hs hd hn]
    simp only
    rw [show (rangeOf g).numEntries = g.length from rfl,hrest]
    rfl

variable (codec : HeaderCodec)

/-- The header is found again. -/
theorem readHeader_eq {h : Header} (hfits : h.Fits) (hversion : h.version = 1)
    (rest : List UInt8) :
    readHeader codec (magic++leBytes 4 (codec.marshal h).length++codec.marshal h++rest) =
      if h.blockSize < 512 ∨ 1024*1024 < h.blockSize then
        .error (.new s!"sparseblock/Reader: invalid block size: {h.blockSize}")
      else .ok ((codec.marshal h).length,h) := by
  have hlen := codec.length_le h
  have hfirst : ByteStream.readAt (magic++leBytes 4 (codec.marshal h).length++codec.marshal h++rest)
      0 (magic.length+4) = (magic++leBytes 4 (codec.marshal h).length,none) := by
    have := ByteStream.readAt_section [] (magic++leBytes 4 (codec.marshal h).length)
      (codec.marshal h++rest)
    simpa using this
  have hsecond : ByteStream.readAt
      (magic++leBytes 4 (codec.marshal h).length++codec.marshal h++rest)
      (magic.length+4 : ℕ) (codec.marshal h).length = (codec.marshal h,none) := by
    have := ByteStream.readAt_section (magic++leBytes 4 (codec.marshal h).length)
      (codec.marshal h) rest
    simpa using this
  rw [readHeader,hfirst]
  simp only [List.take_left' rfl,List.drop_left' rfl,ne_eq,not_true,if_false,
    leNat_leBytes (show (codec.marshal h).length < 256^4 by omega)]
  rw [hsecond]
  simp only [codec.roundTrip h hfits,hversion,not_true,if_false]

namespace Builder

variable {b : Builder}

/-- The bytes in front of the data section. -/
def front (codec : HeaderCodec) (b : Builder) : List UInt8 :=
  magic++leBytes 4 (codec.marshal b.header).length++codec.marshal b.header++b.writeIndex

theorem build_eq_ok {file : List UInt8} : b.build codec = .ok file ↔
    ∃ data, copyData b.blockSize b.entries = .ok data ∧ file = b.front codec++data := by
  rw [build]
  cases copyData b.blockSize b.entries with
  | error e => simp [bind,Except.bind]
  | ok data => simp [bind,Except.bind,front,eq_comm]

theorem copyData_ok {bs : ℕ} {cs : List IndexEntry} (hsmall : ∀ c ∈ cs, c.length*bs < 2^63)
    (hfull : ∀ c ∈ cs, c.data.length = c.length*bs) : ∃ data, copyData bs cs = .ok data := by
  induction cs with
  | nil => exact ⟨[],rfl⟩
  | cons c cs ih =>
    obtain ⟨rest,hrest⟩ := ih (fun c' hc' => hsmall c' (List.mem_cons_of_mem c hc'))
      fun c' hc' => hfull c' (List.mem_cons_of_mem c hc')
    have hc := hsmall c List.mem_cons_self
    have hi : i64 ((c.length : ℤ)*bs) = (c.length*bs : ℕ) := by
      rw [← Nat.cast_mul]
      exact i64_of_range (by omega) (by omega)
    refine ⟨c.data.take (c.length*bs)++rest,?_⟩
    rw [copyData]
    simp only [hi,Int.toNat_natCast,hrest]
    rw [if_neg (by rw [List.length_take,hfull c List.mem_cons_self]; simp)]
    rfl

/-- `Build` succeeds if the readers of all calls deliver their bytes. -/
theorem build_ok (hsmall : ∀ c ∈ b.entries, c.length*b.blockSize < 2^63)
    (hfull : ∀ c ∈ b.entries, c.data.length = c.length*b.blockSize) :
    ∃ file, b.build codec = .ok file := by
  obtain ⟨data,hdata⟩ := copyData_ok hsmall hfull
  exact ⟨_,(build_eq_ok codec).mpr ⟨data,hdata,rfl⟩⟩

theorem Holds.length_buf (h : b.Holds gs) : b.blockEntryBuf.length = 3*gs.flatten.length := by
  rw [h.buf,List.length_flatMap]
  simp [BlockEntry.length_marshal,Nat.mul_comm]

theorem length_marshalRanges (rs : List RangeEntry) :
    (rs.flatMap RangeEntry.marshal).length = 16*rs.length := by
  simp [List.length_flatMap,RangeEntry.length_marshal,Nat.mul_comm]

theorem Holds.fits (h : b.Holds gs) : b.header.Fits := by
  have hend := h.prevEnd
  have htotal := h.wf.total
  have h₁ := h.totalBlocks
  have h₂ := h.totalDataBlocks
  constructor
  all_goals simp only [header,Sparse.rangeEntrySize,Sparse.blockEntrySize]
  all_goals omega

/-- The 32-bit counts and lengths are the true ones. -/
theorem Holds.load_eq (h : b.Holds gs) (hne : gs ≠ []) (hlow : 512 ≤ b.header.blockSize)
    (hhigh : b.header.blockSize ≤ 2^20) (hr : 16*gs.length < 2^32) (he : 3*gs.flatten.length < 2^32)
    (data : List UInt8) :
    load codec (b.front codec++data) = .ok (.ok ⟨b.front codec++data,b.header,
      ((b.front codec).length : ℕ),parsed 0 gs,b.blockEntryBuf⟩) := by
  have hbuf := h.length_buf
  have hranges := length_marshalRanges b.ranges
  have hlenr : b.ranges.length = gs.length := by rw [h.ranges,List.length_map]
  have hnr : b.header.numRangeEntries = gs.length := by
    simp only [header,hlenr]
    omega
  have hnb : b.header.numBlockEntries = gs.flatten.length := by
    simp only [header,hbuf,Sparse.blockEntrySize]
    omega
  have hhead : readHeader codec (b.front codec++data) =
      .ok ((codec.marshal b.header).length,b.header) := by
    have := readHeader_eq codec h.fits rfl (b.writeIndex++data)
    rw [if_neg (by omega)] at this
    simpa only [front,List.append_assoc] using this
  obtain ⟨g,gs',hgs⟩ := List.exists_cons_of_ne_nil hne
  have hpos : 0 < g.length := List.length_pos_of_ne_nil (h.wf.nonempty g (by simp [hgs]))
  have hnonzero : ¬(gs.length = 0 ∨ gs.flatten.length = 0) := by
    rw [hgs]
    simp only [List.length_cons,List.flatten_cons,List.length_append]
    omega
  generalize hfile : b.front codec++data = file at hhead ⊢
  have hsec₁ : ByteStream.readAt file (magic.length+4+(codec.marshal b.header).length : ℕ)
      (16*gs.length) = (b.ranges.flatMap RangeEntry.marshal,none) := by
    have := ByteStream.readAt_section
      (magic++leBytes 4 (codec.marshal b.header).length++codec.marshal b.header)
      (b.ranges.flatMap RangeEntry.marshal) (b.blockEntryBuf++data)
    rw [hranges,hlenr] at this
    simpa only [← hfile,front,writeIndex,List.append_assoc,List.length_append,length_leBytes,
      Nat.add_assoc] using this
  have hsec₂ : ByteStream.readAt file
      (magic.length+4+(codec.marshal b.header).length+16*gs.length : ℕ)
      (3*gs.flatten.length) = (b.blockEntryBuf,none) := by
    have := ByteStream.readAt_section
      (magic++leBytes 4 (codec.marshal b.header).length++codec.marshal b.header++
        b.ranges.flatMap RangeEntry.marshal) b.blockEntryBuf data
    rw [hbuf] at this
    simpa only [← hfile,front,writeIndex,List.append_assoc,List.length_append,length_leBytes,
      Nat.add_assoc,hranges,hlenr] using this
  have hparse := h.wf.parseRanges_eq (show gs = []++gs from rfl)
  rw [← h.ranges] at hparse
  have hrl : gs.length*16%2^32 = 16*gs.length := by omega
  have hel : gs.flatten.length*3%2^32 = 3*gs.flatten.length := by omega
  rw [load,hhead]
  simp only [hnr,hnb,if_neg hnonzero]
  rw [show b.header.rangeEntrySize = 16 from rfl,show b.header.blockEntrySize = 3 from rfl,hrl,hel,
    hsec₁]
  simp only
  rw [hsec₂]
  simp only [List.flatten_nil,List.length_nil] at hparse
  simp only [bind,Except.bind,hparse]
  have hlen : (b.front codec).length =
      magic.length+4+(codec.marshal b.header).length+16*gs.length+3*gs.flatten.length := by
    rw [front,writeIndex]
    simp only [List.length_append,length_leBytes,hranges,hlenr,hbuf]
    omega
  rw [hlen]

end Builder

end Load

end Sparse
end Logblock
