import Logblock.SparseFormat

/-! The index of a sparse table as a list of groups of runs, what its two sections look like in
the file, and the lookup: `getNextEntry` finds the first run that ends behind the block. -/
namespace Logblock
namespace Sparse

open Loop Bytes

/-- Blocks `off` up to `off+len`, with their data from the block `data` of the data section on. -/
structure Run where
  off : ℕ
  len : ℕ
  data : ℕ
  deriving DecidableEq

/-- The data of the runs follows without gaps from the block `d` on. -/
def Packed : ℕ → List Run → Prop
  | _, [] => True
  | d, e::es => e.data = d ∧ Packed (d+e.len) es

def totalLen (es : List Run) : ℕ := (es.map Run.len).sum

@[simp] theorem totalLen_nil : totalLen [] = 0 := rfl

@[simp] theorem totalLen_cons (e : Run) (es : List Run) : totalLen (e::es) = e.len+totalLen es := by
  simp [totalLen]

@[simp] theorem totalLen_append (es es' : List Run) :
    totalLen (es++es') = totalLen es+totalLen es' := by
  simp [totalLen]

theorem packed_append {d : ℕ} {es es' : List Run} :
    Packed d (es++es') ↔ Packed d es ∧ Packed (d+totalLen es) es' := by
  induction es generalizing d with
  | nil => simp [Packed]
  | cons e es ih => simp [Packed,ih,Nat.add_assoc,and_assoc]

theorem Packed.data_le {d : ℕ} {es : List Run} (h : Packed d es) {e : Run} (he : e ∈ es) :
    e.data+e.len ≤ d+totalLen es := by
  obtain ⟨pre,post,rfl⟩ := List.append_of_mem he
  rw [packed_append] at h
  rw [h.2.1]
  simp only [totalLen_append,totalLen_cons]
  omega

/-- The first block of a group. -/
def start (g : List Run) : ℕ := (g.headD ⟨0,0,0⟩).off

def rangeOf (g : List Run) : RangeEntry := ⟨start g,(g.headD ⟨0,0,0⟩).data,g.length⟩

/-- The entry of a run in a group that starts at `a`. -/
def entryOf (a : ℕ) (e : Run) : BlockEntry := ⟨e.off-a,e.len*2⟩

def blockEntries (gs : List (List Run)) : List BlockEntry :=
  gs.flatMap fun g => g.map (entryOf (start g))

/-- The runs are in ascending order, and the groups fit the format. -/
structure WellFormed (gs : List (List Run)) : Prop where
  nonempty : ∀ g ∈ gs, g ≠ []
  ascending : gs.flatten.Pairwise fun a b => a.off+a.len ≤ b.off
  len : ∀ e ∈ gs.flatten, 0 < e.len ∧ e.len ≤ 127
  span : ∀ g ∈ gs, ∀ e ∈ g, e.off < start g+2^16
  count : ∀ g ∈ gs, g.length ≤ 64
  bound : ∀ e ∈ gs.flatten, e.off+e.len ≤ 2^48
  packed : Packed 0 gs.flatten
  total : totalLen gs.flatten ≤ 2^48

section Marshal

theorem RangeEntry.length_marshal (e : RangeEntry) : e.marshal.length = 16 := by
  simp [RangeEntry.marshal]

theorem RangeEntry.unmarshal_marshal {e : RangeEntry} (hs : e.startOffset < 2^48)
    (hd : e.dataOffset < 2^48) (hn : e.numEntries < 256) :
    RangeEntry.unmarshal e.marshal = .ok e := by
  have hbytes : e.marshal = leBytes 6 e.startOffset++[UInt8.ofNat e.numEntries,0]++
      leBytes 8 e.dataOffset := by
    rw [RangeEntry.marshal,Nat.mod_eq_of_lt hs,Nat.mod_eq_of_lt hd,
      show leBytes 8 e.startOffset = leBytes 6 e.startOffset++leBytes 2 (e.startOffset/256^6) from
        leBytes_append 6 2 _,Nat.div_eq_of_lt (show e.startOffset < 256^6 by omega),
      List.append_assoc,List.set_append_right 6 _ (by simp)]
    simp [leBytes]
  have hlow : leNat (leBytes 6 e.startOffset++[UInt8.ofNat e.numEntries,0])%2^48 =
      e.startOffset := by
    have hsplit : ∀ (bs bs' : List UInt8), leNat (bs++bs') = leNat bs+256^bs.length*leNat bs' := by
      intro bs bs'
      induction bs with
      | nil => simp [leNat]
      | cons b bs ih =>
        rw [List.cons_append,leNat,leNat,ih,List.length_cons,pow_succ]
        ring
    rw [hsplit,leNat_leBytes (show e.startOffset < 256^6 by omega),length_leBytes,
      show (256 : ℕ)^6 = 2^48 by norm_num,Nat.add_mul_mod_self_left,Nat.mod_eq_of_lt hs]
  have htake : e.marshal.take 8 = leBytes 6 e.startOffset++[UInt8.ofNat e.numEntries,0] := by
    rw [hbytes,List.take_left' (by simp)]
  have hdrop : (e.marshal.drop 8).take 8 = leBytes 8 e.dataOffset := by
    rw [hbytes,List.drop_left' (by simp),List.take_of_length_le (by simp)]
  have hget : e.marshal.getD 6 0 = UInt8.ofNat e.numEntries := by
    rw [hbytes,List.append_assoc,List.getD_append_right _ _ _ _ (by simp)]
    simp
  rw [RangeEntry.unmarshal,if_neg (by rw [RangeEntry.length_marshal]; omega),htake,hdrop,hget,hlow,
    leNat_leBytes (by omega),Nat.mod_eq_of_lt hd,UInt8.toNat_ofNat',Nat.mod_eq_of_lt hn]

theorem BlockEntry.length_marshal (e : BlockEntry) : e.marshal.length = 3 := by
  simp [BlockEntry.marshal]

theorem BlockEntry.unmarshal_marshal {e : BlockEntry} (ho : e.offset < 2^16)
    (hl : e.lengthType < 2^8) : BlockEntry.unmarshal e.marshal = .ok e := by
  rw [BlockEntry.unmarshal,if_neg (by rw [BlockEntry.length_marshal]; omega)]
  simp only [BlockEntry.marshal,leBytes,List.nil_append,List.cons_append,List.getD_cons_zero,
    List.getD_cons_succ,UInt8.toNat_ofNat']
  rw [Nat.mod_eq_of_lt hl,show e.offset%2^8+256*(e.offset/256%2^8) = e.offset by omega]

/-- An element of a section of equally long elements. -/
theorem slice_flatMap {α : Type} (f : α → List UInt8) {n : ℕ} (hf : ∀ a, (f a).length = n)
    (as : List α) {i : ℕ} {a : α} (ha : as[i]? = some a) :
    slice (as.flatMap f) (i*n) n = .ok (f a) := by
  induction as generalizing i with
  | nil => simp at ha
  | cons b as ih =>
    cases i with
    | zero =>
      cases ha
      rw [slice,if_neg (by simp [hf]),Nat.zero_mul,List.drop_zero,List.flatMap_cons,
        List.take_left' (hf _)]
    | succ i =>
      have h := ih (by simpa using ha)
      have hdrop : ((b::as).flatMap f).drop ((i+1)*n) = (as.flatMap f).drop (i*n) := by
        rw [List.flatMap_cons,Nat.add_mul,Nat.one_mul,Nat.add_comm,← List.drop_drop,
          List.drop_left' (hf b)]
      rw [slice] at h ⊢
      rw [hdrop]
      have hlen : ((b::as).flatMap f).length = n+(as.flatMap f).length := by
        simp [hf]
      rw [hlen]
      split_ifs at h with hshort
      rw [if_neg (by rw [Nat.add_mul]; omega)]
      exact h

end Marshal

/-- The ranges as `readIndex` parses them, `n` being the number of entries before. -/
def parsed : ℕ → List (List Run) → List ParsedRange
  | _, [] => []
  | n, g::gs => ⟨rangeOf g,n⟩::parsed (n+g.length) gs

theorem parsed_append (n : ℕ) (gs gs' : List (List Run)) :
    parsed n (gs++gs') = parsed n gs++parsed (n+gs.flatten.length) gs' := by
  induction gs generalizing n with
  | nil => simp [parsed]
  | cons g gs ih => simp [parsed,ih,Nat.add_assoc]

@[simp] theorem length_parsed (n : ℕ) (gs : List (List Run)) : (parsed n gs).length = gs.length := by
  induction gs generalizing n with
  | nil => rfl
  | cons g gs ih => simp [parsed,ih]

theorem map_startOffset_parsed (n : ℕ) (gs : List (List Run)) :
    (parsed n gs).map (·.startOffset) = gs.map start := by
  induction gs generalizing n with
  | nil => rfl
  | cons g gs ih => simp [parsed,ih,rangeOf]

theorem sum_numEntries_parsed (n : ℕ) (gs : List (List Run)) :
    ((parsed n gs).map (·.numEntries)).sum = gs.flatten.length := by
  induction gs generalizing n with
  | nil => rfl
  | cons g gs ih => simp [parsed,ih,rangeOf]

theorem blockEntries_append (gs gs' : List (List Run)) :
    blockEntries (gs++gs') = blockEntries gs++blockEntries gs' := by
  simp [blockEntries]

@[simp] theorem length_blockEntries (gs : List (List Run)) :
    (blockEntries gs).length = gs.flatten.length := by
  simp [blockEntries,List.length_flatMap,List.length_flatten]

/-- The entry of a run, found by its place in the group and the runs before the group. -/
theorem getElem?_blockEntries (pre : List (List Run)) (g : List Run) (post : List (List Run))
    {j : ℕ} {e : Run} (he : g[j]? = some e) :
    (blockEntries (pre++g::post))[pre.flatten.length+j]? = some (entryOf (start g) e) := by
  obtain ⟨hj,_⟩ := List.getElem?_eq_some_iff.mp he
  rw [blockEntries_append,List.getElem?_append_right (by simp),length_blockEntries,
    Nat.add_sub_cancel_left,show blockEntries (g::post) = g.map (entryOf (start g))++
      blockEntries post by simp [blockEntries],List.getElem?_append_left (by simpa using hj),
    List.getElem?_map,he]
  rfl

namespace WellFormed

variable {gs : List (List Run)}

theorem start_le (h : WellFormed gs) {g : List Run} (hg : g ∈ gs) {e : Run} (he : e ∈ g) :
    start g ≤ e.off := by
  obtain ⟨a,as,rfl⟩ := List.exists_cons_of_ne_nil (h.nonempty g hg)
  have hasc := (List.pairwise_flatten.mp h.ascending).1 _ hg
  rcases List.mem_cons.mp he with rfl | he
  · exact le_refl _
  · have := List.rel_of_pairwise_cons hasc he
    simp only [start,List.headD_cons]
    omega

/-- A run of an earlier group ends before a later group starts. -/
theorem end_le_start {pre post : List (List Run)} {g : List Run} (h : WellFormed (pre++g::post))
    {e : Run} (he : e ∈ pre.flatten) : e.off+e.len ≤ start g := by
  obtain ⟨a,as,rfl⟩ := List.exists_cons_of_ne_nil (h.nonempty g (by simp))
  have hasc := h.ascending
  rw [List.flatten_append,List.pairwise_append] at hasc
  exact hasc.2.2 e he a (by simp)

theorem start_lt_start {pre post : List (List Run)} {g g' : List Run}
    (h : WellFormed (pre++g::post)) (hg : g' ∈ pre) : start g' < start g := by
  obtain ⟨a,as,rfl⟩ := List.exists_cons_of_ne_nil (h.nonempty g' (by simp [hg]))
  have hmem : a ∈ pre.flatten := List.mem_flatten.mpr ⟨_,hg,List.mem_cons_self⟩
  have hle := h.end_le_start hmem
  have hpos := (h.len a (by simp [hmem])).1
  simp only [start,List.headD_cons] at hle ⊢
  omega

end WellFormed

/-- The reader of a table with the index `gs`. -/
structure Reader.Holds (r : Reader) (gs : List (List Run)) : Prop where
  wf : WellFormed gs
  nonempty : gs ≠ []
  blockEntrySize : r.header.blockEntrySize = 3
  entries_lt : 3*gs.flatten.length < 2^63
  entryBuf : r.entryBuf = (blockEntries gs).flatMap BlockEntry.marshal
  ranges : r.ranges = parsed 0 gs

/-- The entry that the reader makes of a run. -/
def toEntry (blockSize : ℕ) (e : Run) : Reader.Entry where
  offset := i64 (e.off*blockSize : ℕ)
  length := i64 (e.len*blockSize : ℕ)
  dataOffset := i64 (e.data*blockSize : ℕ)

namespace Reader

variable {r : Reader} {gs : List (List Run)}

theorem toU64_offset {i size : ℕ} (h : i*size < 2^63) : toU64 ((i : ℤ)*size) = i*size := by
  rw [← Nat.cast_mul]
  exact toU64_natCast (by omega)

theorem Holds.index_small (h : r.Holds gs) {i : ℕ} {be : BlockEntry}
    (hi : (blockEntries gs)[i]? = some be) : i*r.header.blockEntrySize < 2^63 := by
  have hlt := (List.getElem?_eq_some_iff.mp hi).1
  have hentries := h.entries_lt
  rw [length_blockEntries] at hlt
  rw [h.blockEntrySize]
  omega

theorem Holds.parseBlockEntry_eq (h : r.Holds gs) {g : List Run} (hg : g ∈ gs) {e : Run}
    (he : e ∈ g) {i : ℕ} (hi : (blockEntries gs)[i]? = some (entryOf (start g) e)) :
    r.parseBlockEntry i = .ok (entryOf (start g) e) := by
  have hspan := h.wf.span g hg e he
  have hlen := (h.wf.len e (List.mem_flatten.mpr ⟨g,hg,he⟩)).2
  rw [parseBlockEntry,toU64_offset (h.index_small hi),h.entryBuf,
    h.blockEntrySize,slice_flatMap BlockEntry.marshal BlockEntry.length_marshal _ hi]
  exact BlockEntry.unmarshal_marshal (by simp only [entryOf]; omega) (by simp only [entryOf]; omega)

theorem Holds.fillEntry_eq (h : r.Holds gs) {g : List Run} (hg : g ∈ gs) {e : Run} (he : e ∈ g)
    (re : ParsedRange) (hre : re.startOffset = start g) :
    r.fillEntry re (entryOf (start g) e) e.data = toEntry r.header.blockSize e := by
  have hle := h.wf.start_le hg he
  simp only [fillEntry,toEntry,entryOf,BlockEntry.length,hre,Nat.mul_div_cancel e.len two_pos]
  push_cast [hle]
  rw [add_sub_cancel]

theorem Holds.scanEntries_eq (h : r.Holds gs) {g : List Run} (hg : g ∈ gs) (re : ParsedRange)
    (hre : re.startOffset = start g) (off : ℤ) (es : List Run) (hes : ∀ e ∈ es, e ∈ g) (ei d : ℕ)
    (hidx : ∀ j e, es[j]? = some e → (blockEntries gs)[ei+j]? = some (entryOf (start g) e))
    (hd : Packed d es) :
    r.scanEntries re off es.length ei d =
      .ok ((es.find? fun e => off < (e.off+e.len : ℕ)).map (toEntry r.header.blockSize)) := by
  induction es generalizing ei d with
  | nil => rfl
  | cons e es ih =>
    obtain ⟨rfl,hpacked⟩ := hd
    have he := hes e List.mem_cons_self
    have hle := h.wf.start_le hg he
    have hpos := (h.wf.len e (List.mem_flatten.mpr ⟨g,hg,he⟩)).1
    have hlen : (entryOf (start g) e).length = e.len := by
      simp [entryOf,BlockEntry.length]
    rw [List.length_cons,scanEntries,
      show r.parseBlockEntry ei = _ from h.parseBlockEntry_eq hg he (hidx 0 e rfl)]
    simp only [bind,Except.bind,hlen]
    have hoff : (re.startOffset : ℤ)+(entryOf (start g) e).offset = e.off := by
      rw [hre]
      simp only [entryOf]
      omega
    rw [hoff]
    by_cases hlt : off < (e.off+e.len : ℕ)
    · rw [if_pos (by omega),h.fillEntry_eq hg he re hre,List.find?_cons_of_pos (by simpa using hlt)]
      rfl
    · rw [if_neg (by omega),List.find?_cons_of_neg (by simpa using hlt)]
      refine ih (fun e' he' => hes e' (List.mem_cons_of_mem e he')) (ei+1) _ (fun j e' he' => ?_)
        hpacked
      rw [Nat.add_assoc,Nat.add_comm 1 j]
      exact hidx (j+1) e' he'

theorem rangeAt_eq (h : r.Holds gs) {pre post : List (List Run)} {g : List Run}
    (hgs : gs = pre++g::post) :
    r.rangeAt pre.length = .ok ⟨rangeOf g,pre.flatten.length⟩ := by
  have hget : r.ranges[pre.length]? = some ⟨rangeOf g,pre.flatten.length⟩ := by
    rw [h.ranges,hgs,parsed_append,List.getElem?_append_right (by simp)]
    simp [parsed]
  rw [rangeAt,hget]

/-- The binary search splits the groups at the block. -/
theorem Holds.search_eq (h : r.Holds gs) (off : ℤ) :
    ∃ pre post, gs = pre++post ∧ sortSearch r.ranges.length
        (fun i => off < ((r.ranges.map (·.startOffset)).getD i 0 : ℕ)) = pre.length ∧
      (∀ g ∈ pre, (start g : ℤ) ≤ off) ∧ ∀ g ∈ post, off < start g := by
  rw [h.ranges,length_parsed,map_startOffset_parsed]
  have hget : ∀ {i : ℕ} (hi : i < gs.length), (gs.map start).getD i 0 = start gs[i] := by
    intro i hi
    simp [List.getD_eq_getElem?_getD,hi]
  have hmono : ∀ a b, a ≤ b → b < gs.length → decide (off < ((gs.map start).getD a 0 : ℕ)) →
      decide (off < ((gs.map start).getD b 0 : ℕ)) := by
    intro a b hab hb
    rw [hget (hab.trans_lt hb),hget hb,decide_eq_true_eq,decide_eq_true_eq]
    intro hlt
    rcases Nat.eq_or_lt_of_le hab with rfl | hab
    · exact hlt
    · have hsplit : gs = gs.take b++gs[b]::gs.drop (b+1) := by
        rw [← List.drop_eq_getElem_cons hb,List.take_append_drop]
      have := WellFormed.start_lt_start (hsplit ▸ h.wf)
        (List.mem_take_iff_getElem.mpr ⟨a,by omega,rfl⟩)
      omega
  obtain ⟨hle,hlow,hhigh⟩ := sortSearch_spec hmono
  generalize sortSearch gs.length _ = ri at hle hlow hhigh ⊢
  refine ⟨gs.take ri,gs.drop ri,(List.take_append_drop ri gs).symm,?_,fun g hg => ?_,
    fun g hg => ?_⟩
  · rw [List.length_take]
    omega
  · obtain ⟨i,hi,rfl⟩ := List.mem_take_iff_getElem.mp hg
    have := hlow i (by omega)
    rw [hget (by omega),decide_eq_false_iff_not] at this
    omega
  · obtain ⟨i,hi,rfl⟩ := List.mem_drop_iff_getElem.mp hg
    have := hhigh (ri+i) (by omega) (by omega)
    rwa [hget (by omega),decide_eq_true_eq] at this

/-- The first entry of a range that starts behind the block. -/
theorem Holds.firstEntry_eq (h : r.Holds gs) {pre post : List (List Run)} {g : List Run}
    (hgs : gs = pre++g::post) {off : ℤ} (hoff : off < start g) :
    ∃ e ∈ g, e.data = totalLen pre.flatten ∧
      (g::post).flatten.find? (fun e => off < (e.off+e.len : ℕ)) = some e ∧
      r.parseBlockEntry pre.flatten.length = .ok (entryOf (start g) e) ∧
      (rangeOf g).dataOffset = e.data := by
  have hmem : g ∈ gs := by simp [hgs]
  obtain ⟨e,es,rfl⟩ := List.exists_cons_of_ne_nil (h.wf.nonempty g hmem)
  refine ⟨e,List.mem_cons_self,?_,?_,?_,rfl⟩
  · have := h.wf.packed
    rw [hgs,List.flatten_append,packed_append,Nat.zero_add] at this
    exact this.2.1
  · rw [List.flatten_cons,List.cons_append,List.find?_cons_of_pos]
    simp only [start,List.headD_cons] at hoff
    simp only [decide_eq_true_eq]
    omega
  · refine h.parseBlockEntry_eq hmem List.mem_cons_self ?_
    rw [hgs]
    exact getElem?_blockEntries pre (e::es) post (j := 0) rfl

theorem WellFormed.packed_group {pre post : List (List Run)} {g : List Run}
    (h : WellFormed (pre++g::post)) : Packed (rangeOf g).dataOffset g := by
  have hpacked := h.packed
  rw [List.flatten_append,packed_append,List.flatten_cons,packed_append] at hpacked
  obtain ⟨e,es,rfl⟩ := List.exists_cons_of_ne_nil (h.nonempty g (by simp))
  rw [rangeOf,List.headD_cons,hpacked.2.1.1]
  exact hpacked.2.1

/-- No range before one that starts at the block or before it has a run that ends behind it. -/
theorem WellFormed.find_of_start {pre post : List (List Run)} {g : List Run}
    (h : WellFormed (pre++g::post)) {off : ℤ} (hstart : (start g : ℤ) ≤ off) :
    (pre++g::post).flatten.find? (fun e => off < (e.off+e.len : ℕ)) =
      (g.find? fun e => off < (e.off+e.len : ℕ)).or
        (post.flatten.find? fun e => off < (e.off+e.len : ℕ)) := by
  have hnone : pre.flatten.find? (fun e => off < (e.off+e.len : ℕ)) = none := by
    refine List.find?_eq_none.mpr fun e he => ?_
    have := h.end_le_start he
    simp only [decide_eq_true_eq]
    omega
  rw [List.flatten_append,List.find?_append,hnone,Option.none_or,List.flatten_cons,
    List.find?_append]

/-- `getNextEntry` gives the first run that ends behind the block. -/
theorem Holds.getNextEntry_eq (h : r.Holds gs) (off : ℤ) :
    r.getNextEntry off = .ok
      ((gs.flatten.find? fun e => off < (e.off+e.len : ℕ)).map (toEntry r.header.blockSize)) := by
  obtain ⟨pre,post,hgs,hri,hpre,hpost⟩ := h.search_eq off
  have hlen : r.ranges.length = pre.length+post.length := by
    rw [h.ranges,length_parsed,hgs,List.length_append]
  rw [getNextEntry,hri]
  rcases List.eq_nil_or_concat pre with rfl | ⟨pre,g,rfl⟩
  · -- every range starts behind the block
    rw [List.nil_append] at hgs
    obtain ⟨g,post,rfl⟩ := List.exists_cons_of_ne_nil (hgs ▸ h.nonempty)
    have hgs' : gs = []++g::post := hgs
    obtain ⟨e,he,hdata,hfind,hparse,_⟩ := h.firstEntry_eq hgs' (hpost g List.mem_cons_self)
    have hfill := h.fillEntry_eq (show g ∈ gs by simp [hgs]) he
      ⟨rangeOf g,([] : List (List Run)).flatten.length⟩ rfl
    rw [hdata] at hfill
    rw [List.length_nil,if_pos rfl,hgs,hfind,show r.rangeAt 0 = _ from rangeAt_eq h hgs']
    rw [List.flatten_nil,List.length_nil] at hparse
    simp only [bind,Except.bind,hparse]
    rw [show r.fillEntry _ _ 0 = _ from hfill]
    rfl
  · rw [List.concat_eq_append] at hgs hri hlen hpre ⊢
    have hsplit : gs = pre++g::post := by rw [hgs]; simp
    have hmem : g ∈ gs := by simp [hsplit]
    have hscan := h.scanEntries_eq hmem ⟨rangeOf g,pre.flatten.length⟩ rfl off g
      (fun _ he => he) pre.flatten.length (rangeOf g).dataOffset (fun j e he => by
        rw [hsplit]
        exact getElem?_blockEntries pre g post he) (WellFormed.packed_group (hsplit ▸ h.wf))
    have hfind := WellFormed.find_of_start (hsplit ▸ h.wf) (hpre g (by simp))
    rw [← hsplit] at hfind
    rw [List.length_append,List.length_singleton,if_neg (Nat.succ_ne_zero _),Nat.add_sub_cancel,
      hfind,rangeAt_eq h hsplit]
    simp only [bind,Except.bind]
    rw [show (rangeOf g).numEntries = g.length from rfl,hscan]
    cases hgf : g.find? fun e => off < (e.off+e.len : ℕ) with
    | some e => rfl
    | none =>
      -- the next range is the first one that starts behind the block
      simp only [Option.map_none,Option.none_or]
      rw [List.length_append,List.length_singleton] at hlen
      cases post with
      | nil =>
        rw [if_neg (by rw [hlen,List.length_nil]; omega)]
        rfl
      | cons g' post =>
        have hsplit' : gs = (pre++[g])++g'::post := hgs
        obtain ⟨e,he,hdata,hfind',hparse,hrange⟩ := h.firstEntry_eq hsplit'
          (hpost g' List.mem_cons_self)
        have hra := rangeAt_eq h hsplit'
        rw [List.length_append,List.length_singleton] at hra
        rw [if_pos (by rw [hlen,List.length_cons]; omega),hfind',hra]
        simp only
        rw [hparse]
        simp only
        rw [hrange,h.fillEntry_eq (by simp [hgs]) he ⟨rangeOf g',(pre++[g]).flatten.length⟩ rfl]
        rfl

end Reader

end Sparse
end Logblock
