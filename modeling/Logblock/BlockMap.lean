import Logblock.BitmapRangeMap
import Logblock.BlockReader

/-! The block map `blockmap.Reader`: every block is owned by the reader that was pushed last
among those that hold it. Readers are named by 16-bit indexes in the range map; a removed
reader's index is handed out again. `Owned` says that the map stands for a function from blocks
to their owners, and every operation is described by what it does to that function. -/
namespace Logblock
namespace BlockMap

open Loop Runs BlockHoleReader

/-- `blockmap.Reader` over readers with identities in `ρ`. -/
structure Reader (ρ : Type) where
  blockSize : ℕ
  numBlocks : ℕ
  rangeMap : BitmapRangeMap ℕ
  valueMap : ℕ → Option ρ
  indexMap : ρ → Option ℕ
  freeSet : BitSet
  rs : List ρ

namespace Reader

variable {ρ β : Type}

section Methods

variable [DecidableEq ρ]

def new (blockSize numBlocks : ℕ) : Reader ρ where
  blockSize := blockSize
  numBlocks := numBlocks
  rangeMap := .empty
  valueMap _ := none
  indexMap _ := none
  freeSet := (BitSet.new (2^16)).setAll.clear 0
  rs := []

def nextBlockData (r : Reader ρ) (off : ℕ) : Exec (ℕ × Option Error) := do
  match ← r.rangeMap.nextKey off with
  | none => .ok (0,some .eof)
  | some next => .ok (next,none)

def nextBlockHole (r : Reader ρ) (off : ℕ) : Exec (ℕ × Option Error) := do
  .ok (← r.rangeMap.nextEmpty off,none)

/-- The index `iv` is taken for `br`. -/
def assign (r : Reader ρ) (br : ρ) (iv : ℕ) : Reader ρ :=
  {r with
    freeSet := r.freeSet.clear iv
    valueMap := Function.update r.valueMap iv (some br)
    indexMap := Function.update r.indexMap br (some iv)}

def fetchOrAddValueIndex (r : Reader ρ) (br : ρ) : Exec (Reader ρ × ℕ) :=
  match r.indexMap br with
  | some iv => .ok (r,iv)
  | none =>
    match r.freeSet.nextSet 1 with
    | none => .error (.panic "Index full")
    | some nv => .ok (r.assign br (nv%2^16),nv%2^16)

/-- The first critical section of `PushReader`. -/
def register (r : Reader ρ) (br : ρ) : Exec (Reader ρ × ℕ) :=
  if br ∈ r.rs then .error (.panic "Appending reader already in index")
  else fetchOrAddValueIndex {r with rs := r.rs++[br]} br

/-- The critical section `doAdd`. -/
def addRanges (r : Reader ρ) (iv : ℕ) (rl : List Range) : Reader ρ :=
  {r with rangeMap := rl.foldl (fun m rg => m.add rg.offset rg.length iv) r.rangeMap}

/-- The variables of the loop of `PushReader`: the next offset and the ranges that are not
added yet. -/
structure PushState (ρ : Type) where
  map : Reader ρ
  offset : ℕ
  rl : List Range

/-- One extent of the reader; the deferred `doAdd` runs when there is no further one. -/
def pushPass (br : BlockHoleReader β) (iv : ℕ) (s : PushState ρ) :
    Exec (PushState ρ ⊕ Reader ρ) :=
  match br.nextBlockData s.offset with
  | (startOffset,none) =>
    match br.nextBlockHole startOffset with
    | (endOffset,none) =>
      let rl := s.rl++[⟨startOffset,endOffset-startOffset⟩]
      if 4096 ≤ rl.length then .ok (.inl ⟨s.map.addRanges iv rl,endOffset,[]⟩)
      else .ok (.inl ⟨s.map,endOffset,rl⟩)
    | (_,some e) => .error (.panic (reprStr e))
  | (_,some .eof) => .ok (.inr (s.map.addRanges iv s.rl))
  | (_,some e) => .error (.panic (reprStr e))

/-- Each pass moves the `int64` offset on, so there are less than `2^63` of them. -/
def pushReader (env : ρ → BlockHoleReader β) (r : Reader ρ) (br : ρ) : Exec (Reader ρ) := do
  let (r,iv) ← r.register br
  run (pushPass (env br) iv) (2^63) ⟨r,0,[]⟩

/-- The reader `br` leaves the list and its index `iv` is free again. -/
def release (r : Reader ρ) (br : ρ) (iv : ℕ) : Reader ρ :=
  {r with
    rs := r.rs.erase br
    indexMap := Function.update r.indexMap br none
    valueMap := Function.update r.valueMap iv none
    freeSet := r.freeSet.set iv}

def removeTable (r : Reader ρ) (br : ρ) : Exec (Reader ρ) :=
  let iv := (r.indexMap br).getD 0
  if iv = 0 then .error (.panic "iv == 0")
  else .ok (r.release br iv)

def liveBlocks (r : Reader ρ) : Exec ℕ :=
  r.rangeMap.iterate 0 (fun count rg => (count+rg.length,true)) 0

/-- A Go map with `nil` among the possible keys. -/
abbrev LiveMap (ρ : Type) := AList fun _ : Option ρ => ℕ

/-- The callback that counts the blocks of each index. -/
def bump (m : AList fun _ : ℕ => ℕ) (rg : RangeValue ℕ) : AList fun _ : ℕ => ℕ :=
  m.insert rg.value ((m.lookup rg.value).getD 0+rg.length)

def getLiveBlocks (r : Reader ρ) : Exec (LiveMap ρ) := do
  let blockCount ← r.rangeMap.iterate 0 (fun m rg => (bump m rg,true)) ∅
  let listed : LiveMap ρ := r.rs.foldl (fun m br => m.insert (some br) 0) ∅
  .ok (blockCount.entries.foldl (fun m e => m.insert (r.valueMap e.1) e.2) listed)

/-- The loop over the readers of `ReaderForLiveBytes`. -/
def shareIndexes (r : Reader ρ) : List ρ → Reader ρ → Exec (Reader ρ)
  | [], new => .ok new
  | br::rs, new =>
    match r.indexMap br with
    | none => .error (.panic "reader not present")
    | some iv => shareIndexes r rs (new.assign br iv)

def readerForLiveBytes (r : Reader ρ) (rs : List ρ) : Exec (Reader ρ) := do
  let new ← r.shareIndexes rs {Reader.new r.blockSize r.numBlocks with rs := rs}
  let m ← r.rangeMap.iterate 0
    (fun m rg => (if (rs.map r.indexMap).contains (some rg.value)
      then m.add rg.offset rg.length rg.value else m,true)) new.rangeMap
  .ok {new with rangeMap := m}

def find (r : Reader ρ) (off : ℕ) : Option ρ :=
  match r.rangeMap.get off with
  | none => none
  | some iv => r.valueMap iv

/-- The inner loop of `ReadBlocks`: how many of the `rem` blocks from `off` on belong to `br`. -/
def sameReader (r : Reader ρ) (br : ρ) (off : ℕ) : ℕ → ℕ
  | 0 => 0
  | rem+1 => if r.find off = some br then sameReader r br (off+1) rem+1 else 0

/-- The variables of the loop of `ReadBlocks`. -/
structure ReadState (β : Type) where
  left : ℕ
  off : ℕ
  n : ℕ
  out : List β

def readPass (env : ρ → BlockHoleReader β) (zero : β) (r : Reader ρ) (s : ReadState β) :
    Exec (ReadState β ⊕ ReadResult β) :=
  if s.left = 0 then .ok (.inr ⟨s.out,s.n,none⟩)
  else
    match r.find s.off with
    | none => .ok (.inl ⟨s.left-1,s.off+1,s.n+1,s.out++[zero]⟩)
    | some br =>
      let (bs,err) := (env br).readBlocks (1+r.sameReader br (s.off+1) (s.left-1)) s.off
      match err with
      | some e => .ok (.inr ⟨s.out++bs,s.n+bs.length,some e⟩)
      | none => .ok (.inl ⟨s.left-bs.length,s.off+bs.length,s.n+bs.length,s.out++bs⟩)

def readBlocks (env : ρ → BlockHoleReader β) (zero : β) (r : Reader ρ) (len off : ℕ) :
    Exec (ReadResult β) :=
  if len % r.blockSize ≠ 0 then
    .ok ⟨[],0,some (.new s!"blockmap.Reader: invalid read size {len}, block size {r.blockSize}")⟩
  else run (readPass env zero r) (len/r.blockSize+1) ⟨len/r.blockSize,off,0,[]⟩

end Methods

/-- The range map stands for the owner function `own`, through indexes that name the listed
readers one to one. -/
structure Owned (r : Reader ρ) (own : ℕ → Option ρ) : Prop where
  wf : r.rangeMap.WF
  get : ∀ x, r.rangeMap.get x = (own x).bind r.indexMap
  listed : ∀ x br, own x = some br → br ∈ r.rs
  index : ∀ br, br ∈ r.rs ↔ r.indexMap br ≠ none
  value : ∀ br iv, r.indexMap br = some iv ↔ r.valueMap iv = some br
  used : ∀ iv, r.valueMap iv ≠ none → 0 < iv ∧ iv < 2^16 ∧ r.freeSet.bits iv = false
  free : ∀ iv, 0 < iv → iv < 2^16 → r.valueMap iv = none → r.freeSet.bits iv = true
  unset : ∀ iv, r.freeSet.bits iv = true → 0 < iv ∧ iv < 2^16
  nodup : r.rs.Nodup
  small : ∀ x, 2^63-1 ≤ x → own x = none

theorem new_freeSet (blockSize numBlocks iv : ℕ) :
    (new blockSize numBlocks : Reader ρ).freeSet.bits iv = true ↔ 0 < iv ∧ iv < 2^16 := by
  simp only [new,BitSet.clear_bits,BitSet.setAll_bits,BitSet.len_new]
  split_ifs with h
  · simp [h]
  · exact ⟨fun hlt => ⟨Nat.pos_of_ne_zero h,of_decide_eq_true hlt⟩,fun hlt => decide_eq_true hlt.2⟩

theorem new_owned (blockSize numBlocks : ℕ) :
    (new blockSize numBlocks : Reader ρ).Owned fun _ => none :=
  ⟨BitmapRangeMap.empty_wf,fun _ => rfl,by simp,by simp [new],by simp [new],by simp [new],
    fun iv h₁ h₂ _ => (new_freeSet blockSize numBlocks iv).mpr ⟨h₁,h₂⟩,
    fun iv h => (new_freeSet blockSize numBlocks iv).mp h,by simp [new],by simp⟩

namespace Owned

variable {r : Reader ρ} {own : ℕ → Option ρ}

theorem congr (h : r.Owned own) {own' : ℕ → Option ρ} (he : ∀ x, own x = own' x) :
    r.Owned own' := by
  cases funext he
  exact h

theorem exists_index (h : r.Owned own) {x : ℕ} {br : ρ} (hx : own x = some br) :
    ∃ iv, r.indexMap br = some iv ∧ r.rangeMap.get x = some iv := by
  obtain ⟨iv,hiv⟩ := Option.ne_none_iff_exists'.mp ((h.index br).mp (h.listed x br hx))
  exact ⟨iv,hiv,by rw [h.get,hx,Option.bind_some,hiv]⟩

theorem get_eq_none (h : r.Owned own) (x : ℕ) : r.rangeMap.get x = none ↔ own x = none := by
  cases hx : own x with
  | none => simp [h.get,hx]
  | some br =>
    obtain ⟨iv,_,hget⟩ := h.exists_index hx
    simp [hget]

theorem get_eq_some (h : r.Owned own) {br : ρ} {iv : ℕ} (hiv : r.indexMap br = some iv) (x : ℕ) :
    r.rangeMap.get x = some iv ↔ own x = some br := by
  constructor
  · intro hget
    cases hx : own x with
    | none =>
      rw [h.get,hx] at hget
      cases hget
    | some br' =>
      obtain ⟨iv',hiv',hget'⟩ := h.exists_index hx
      rw [hget] at hget'
      cases hget'
      have h₁ := (h.value br iv).mp hiv
      rw [(h.value br' iv).mp hiv'] at h₁
      exact h₁
  · intro hx
    rw [h.get,hx,Option.bind_some,hiv]

theorem find_eq (h : r.Owned own) (x : ℕ) : r.find x = own x := by
  rw [find]
  cases hx : own x with
  | none => rw [(h.get_eq_none x).mpr hx]
  | some br =>
    obtain ⟨iv,hiv,hget⟩ := h.exists_index hx
    rw [hget]
    exact (h.value br iv).mp hiv

theorem nextBlockData_eq (h : r.Owned own) (off : ℕ) :
    ∃ o, LeastFrom (fun x => own x ≠ none) off o ∧
      r.nextBlockData off = .ok (match o with | some y => (y,none) | none => (0,some .eof)) := by
  obtain ⟨o,hnk,hleast⟩ := BitmapRangeMap.nextKey_spec h.wf off
  refine ⟨o,hleast.congr fun x => not_congr (h.get_eq_none x),?_⟩
  rw [nextBlockData,hnk]
  cases o <;> rfl

theorem nextBlockHole_eq (h : r.Owned own) (off : ℕ) :
    ∃ y, LeastFrom (fun x => own x = none) off (some y) ∧ r.nextBlockHole off = .ok (y,none) := by
  obtain ⟨y,hne,hleast⟩ := BitmapRangeMap.nextEmpty_spec h.wf off
  refine ⟨y,hleast.congr h.get_eq_none,?_⟩
  rw [nextBlockHole,hne]
  rfl

/-- One range of a listed reader is painted over. -/
theorem addRange (h : r.Owned own) {br : ρ} {iv : ℕ} (hiv : r.indexMap br = some iv) {a n : ℕ}
    (hend : a+n ≤ 2^63-1) :
    (r.addRanges iv [⟨a,n⟩]).Owned fun x => if a ≤ x ∧ x < a+n then some br else own x := by
  obtain ⟨hwf,hget⟩ := BitmapRangeMap.add_spec h.wf (a := a) (n := n) (by omega) iv
  refine ⟨hwf,fun x => ?_,fun x br' hx => ?_,h.index,h.value,h.used,h.free,h.unset,h.nodup,
    fun x hx => ?_⟩
  · show (r.rangeMap.add a n iv).get x = _
    rw [hget]
    by_cases hx : a ≤ x ∧ x < a+n
    · rw [if_pos hx]
      exact (if_pos hx).trans hiv.symm
    · rw [if_neg hx]
      exact (if_neg hx).trans (h.get x)
  · split_ifs at hx with hin
    · cases hx
      exact (h.index br).mpr (by simp [hiv])
    · exact h.listed x br' hx
  · rw [if_neg (by omega)]
    exact h.small x hx

variable [DecidableEq ρ]

omit [DecidableEq ρ] in
theorem free_of_nextSet (h : r.Owned own) {nv : ℕ} (hn : r.freeSet.nextSet 1 = some nv) :
    0 < nv ∧ nv < 2^16 ∧ r.valueMap nv = none := by
  obtain ⟨_,hset,_⟩ := BitSet.nextSet_eq_some hn
  obtain ⟨h₁,h₂⟩ := h.unset nv hset
  refine ⟨h₁,h₂,?_⟩
  by_contra hv
  have := (h.used nv hv).2.2
  rw [hset] at this
  cases this

/-- As long as not all the indexes are taken, one is free. -/
theorem exists_free (h : r.Owned own) (hlen : r.rs.length < 65535) :
    ∃ nv, r.freeSet.nextSet 1 = some nv ∧ 0 < nv ∧ nv < 2^16 ∧ r.valueMap nv = none := by
  cases hn : r.freeSet.nextSet 1 with
  | some nv => exact ⟨nv,rfl,h.free_of_nextSet hn⟩
  | none =>
    -- every index names a listed reader, and no two of them the same one
    exfalso
    have hval : ∀ iv ∈ Finset.Ico 1 (2^16), ∃ br ∈ r.rs, r.valueMap iv = some br := by
      intro iv hiv
      rw [Finset.mem_Ico] at hiv
      have hv : r.valueMap iv ≠ none := by
        intro hv
        have := BitSet.nextSet_eq_none hn iv hiv.1
        rw [h.free iv hiv.1 hiv.2 hv] at this
        cases this
      obtain ⟨br,hbr⟩ := Option.ne_none_iff_exists'.mp hv
      refine ⟨br,(h.index br).mpr ?_,hbr⟩
      rw [(h.value br iv).mpr hbr]
      simp
    have hcard : (Finset.Ico 1 (2^16)).card ≤ (r.rs.map some).toFinset.card := by
      refine Finset.card_le_card_of_injOn r.valueMap (fun iv hiv => ?_) fun i hi j hj hij => ?_
      · obtain ⟨br,hbr,hv⟩ := hval iv hiv
        simpa [hv] using hbr
      · obtain ⟨br,_,hv⟩ := hval i hi
        have hj' := (h.value br j).mpr (hij ▸ hv)
        rw [(h.value br i).mpr hv] at hj'
        exact Option.some.inj hj'
    have hle := (r.rs.map some).toFinset_card_le
    simp only [Nat.card_Ico,List.length_map] at hcard hle
    omega

/-- A reader that is not listed yet gets an index that is not in use. -/
theorem assign (h : r.Owned own) {br : ρ} (hbr : br ∉ r.rs) {iv : ℕ} (hpos : 0 < iv)
    (hlt : iv < 2^16) (hval : r.valueMap iv = none) :
    ({r with rs := r.rs++[br]}.assign br iv : Reader ρ).Owned own := by
  have hidx : r.indexMap br = none := not_not.mp fun hne => hbr ((h.index br).mpr hne)
  have hother : ∀ {br' j}, r.indexMap br' = some j → br' ≠ br ∧ j ≠ iv := by
    intro br' j hj
    constructor
    · rintro rfl
      rw [hidx] at hj
      cases hj
    · rintro rfl
      rw [(h.value br' j).mp hj] at hval
      cases hval
  refine ⟨h.wf,fun x => ?_,fun x br' hx => ?_,fun br' => ?_,fun br' j => ?_,fun j hv => ?_,
    fun j h₁ h₂ hv => ?_,fun j hset => ?_,?_,h.small⟩
  · show r.rangeMap.get x = _
    rw [h.get]
    cases hx : own x with
    | none => rfl
    | some br' =>
      have hne : br' ≠ br := by
        rintro rfl
        exact hbr (h.listed x br' hx)
      simp [Reader.assign,hne]
  · exact List.mem_append_left _ (h.listed x br' hx)
  · by_cases hb : br' = br
    · simp [Reader.assign,hb]
    · simp [Reader.assign,hb,h.index]
  · simp only [Reader.assign]
    by_cases hb : br' = br
    · subst hb
      by_cases hj : j = iv
      · simp [hj]
      · simp only [Function.update_self,Option.some.injEq,Function.update_of_ne hj]
        exact iff_of_false (fun he => hj he.symm) fun he =>
          (hother ((h.value br' j).mpr he)).1 rfl
    · by_cases hj : j = iv
      · subst hj
        simp only [Function.update_of_ne hb,Function.update_self,Option.some.injEq]
        exact iff_of_false (fun he => (hother he).2 rfl) fun he => hb he.symm
      · simp only [Function.update_of_ne hb,Function.update_of_ne hj]
        exact h.value br' j
  · by_cases hj : j = iv
    · subst hj
      exact ⟨hpos,hlt,by simp [Reader.assign]⟩
    · simp only [Reader.assign,Function.update_of_ne hj] at hv
      obtain ⟨h₁,h₂,h₃⟩ := h.used j hv
      exact ⟨h₁,h₂,by simp [Reader.assign,hj,h₃]⟩
  · by_cases hj : j = iv
    · simp [Reader.assign,hj] at hv
    · simp only [Reader.assign,Function.update_of_ne hj] at hv
      simp [Reader.assign,hj,h.free j h₁ h₂ hv]
  · simp only [Reader.assign,BitSet.clear_bits] at hset
    split_ifs at hset
    exact h.unset j hset
  · refine List.nodup_append.mpr ⟨h.nodup,by simp,fun a ha b hb he => hbr ?_⟩
    rwa [← List.mem_singleton.mp hb,← he]

theorem register_eq (h : r.Owned own) {br : ρ} (hbr : br ∉ r.rs) (hlen : r.rs.length < 65535) :
    ∃ iv, r.register br = .ok ({r with rs := r.rs++[br]}.assign br iv,iv) ∧
      ({r with rs := r.rs++[br]}.assign br iv : Reader ρ).Owned own := by
  obtain ⟨nv,hnv,hpos,hlt,hval⟩ := h.exists_free hlen
  have hidx : r.indexMap br = none := not_not.mp fun hne => hbr ((h.index br).mpr hne)
  refine ⟨nv,?_,h.assign hbr hpos hlt hval⟩
  simp only [register,if_neg hbr,fetchOrAddValueIndex,hidx,hnv,Nat.mod_eq_of_lt hlt]

/-- A call that returns has found a free index. -/
theorem register_ok (h : r.Owned own) {br : ρ} {iv : ℕ} {r' : Reader ρ}
    (hreg : r.register br = .ok (r',iv)) :
    br ∉ r.rs ∧ r' = {r with rs := r.rs++[br]}.assign br iv ∧ r'.Owned own := by
  rw [register] at hreg
  split_ifs at hreg with hbr
  have hidx : r.indexMap br = none := not_not.mp fun hne => hbr ((h.index br).mpr hne)
  simp only [fetchOrAddValueIndex,hidx] at hreg
  cases hn : r.freeSet.nextSet 1 with
  | none =>
    rw [hn] at hreg
    cases hreg
  | some nv =>
    obtain ⟨hpos,hlt,hval⟩ := h.free_of_nextSet hn
    rw [hn] at hreg
    simp only [Nat.mod_eq_of_lt hlt,Except.ok.injEq,Prod.mk.injEq] at hreg
    obtain ⟨rfl,rfl⟩ := hreg
    exact ⟨hbr,rfl,h.assign hbr hpos hlt hval⟩

theorem removeTable_eq (h : r.Owned own) {br : ρ} (hbr : br ∈ r.rs) (hdead : ∀ x, own x ≠ some br) :
    ∃ iv, r.removeTable br = .ok (r.release br iv) ∧ (r.release br iv).Owned own := by
  obtain ⟨iv,hiv⟩ := Option.ne_none_iff_exists'.mp ((h.index br).mp hbr)
  obtain ⟨hpos,hlt,_⟩ := h.used iv (by rw [(h.value br iv).mp hiv]; simp)
  refine ⟨iv,by simp only [removeTable,hiv,Option.getD_some,if_neg (show ¬iv = 0 by omega)],?_⟩
  have hother : ∀ {br' j}, r.indexMap br' = some j → (br' = br ↔ j = iv) := by
    intro br' j hj
    constructor
    · rintro rfl
      rw [hiv] at hj
      exact (Option.some.inj hj).symm
    · rintro rfl
      have := (h.value br' j).mp hj
      rw [(h.value br j).mp hiv] at this
      exact (Option.some.inj this).symm
  refine ⟨h.wf,fun x => ?_,fun x br' hx => ?_,fun br' => ?_,fun br' j => ?_,fun j hv => ?_,
    fun j h₁ h₂ hv => ?_,fun j hset => ?_,h.nodup.erase br,h.small⟩
  · show r.rangeMap.get x = _
    rw [h.get]
    cases hx : own x with
    | none => rfl
    | some br' =>
      have hne : br' ≠ br := by
        rintro rfl
        exact hdead x hx
      simp [release,hne]
  · have hne : br' ≠ br := by
      rintro rfl
      exact hdead x hx
    exact (List.mem_erase_of_ne hne).mpr (h.listed x br' hx)
  · by_cases hb : br' = br
    · simp [release,hb,h.nodup.not_mem_erase]
    · simp [release,hb,List.mem_erase_of_ne hb,h.index]
  · simp only [release]
    by_cases hb : br' = br
    · subst hb
      by_cases hj : j = iv
      · simp [hj]
      · simp only [Function.update_self,Function.update_of_ne hj]
        refine iff_of_false (by simp) fun he => hj ?_
        exact ((hother ((h.value br' j).mpr he)).mp rfl)
    · by_cases hj : j = iv
      · subst hj
        simp only [Function.update_of_ne hb,Function.update_self]
        exact iff_of_false (fun he => hb ((hother he).mpr rfl)) (by simp)
      · simp only [Function.update_of_ne hb,Function.update_of_ne hj]
        exact h.value br' j
  · by_cases hj : j = iv
    · simp [release,hj] at hv
    · simp only [release,Function.update_of_ne hj] at hv
      obtain ⟨h₁,h₂,h₃⟩ := h.used j hv
      exact ⟨h₁,h₂,by simp [release,hj,h₃]⟩
  · by_cases hj : j = iv
    · simp [release,hj]
    · simp only [release,Function.update_of_ne hj] at hv
      simp [release,hj,h.free j h₁ h₂ hv]
  · by_cases hj : j = iv
    · subst hj
      exact ⟨hpos,hlt⟩
    · simp only [release,BitSet.set_bits,if_neg hj] at hset
      exact h.unset j hset

end Owned

/-- The owners after `br`, a reader of the blocks `data`, was pushed over `own`. -/
def overlay (br : ρ) (data : ℕ → Option β) (own : ℕ → Option ρ) (x : ℕ) : Option ρ :=
  if (data x).isSome then some br else own x

theorem addRanges_snoc (r : Reader ρ) (iv : ℕ) (rl : List Range) (rg : Range) :
    r.addRanges iv (rl++[rg]) = (r.addRanges iv rl).addRanges iv [rg] := by
  simp [addRanges,List.foldl_append]

/-- The loop of `PushReader`, with the blocks below `offset` painted once the collected ranges
are added. -/
structure Pushing (r : Reader ρ) (own : ℕ → Option ρ) (br : ρ) (iv : ℕ) (data : ℕ → Option β)
    (s : PushState ρ) : Prop where
  same : ∃ m, s.map = {r with rangeMap := m}
  offset_le : s.offset ≤ 2^63-1
  owned : (s.map.addRanges iv s.rl).Owned fun x =>
    if x < s.offset ∧ (data x).isSome then some br else own x

theorem pushPass_spec {r : Reader ρ} {own : ℕ → Option ρ} {br : ρ} {iv : ℕ}
    {reader : BlockHoleReader β} {data : ℕ → Option β} (hiv : r.indexMap br = some iv)
    (hbounded : reader.Bounded data) {s : PushState ρ} (h : Pushing r own br iv data s) :
    (∃ s', pushPass reader iv s = .ok (.inl s') ∧ Pushing r own br iv data s' ∧
      2^63-1-s'.offset < 2^63-1-s.offset) ∨
    ∃ r', pushPass reader iv s = .ok (.inr r') ∧ r'.Owned (overlay br data own) ∧
      ∃ m, r' = {r with rangeMap := m} := by
  obtain ⟨m,hm⟩ := h.same
  have hle := h.offset_le
  rcases hbounded.nextBlockData_eq s.offset with ⟨start,hnd,h₁,hstart,hgap⟩ | ⟨y,hnd,hend⟩
  · obtain ⟨stop,hnh,h₂,hstop,hrun⟩ := hbounded.nextBlockHole_eq start
    have hlt : start < stop := by
      rcases Nat.lt_or_eq_of_le h₂ with hlt | rfl
      · exact hlt
      · exact absurd hstop hstart
    have hstop' : stop ≤ 2^63-1 := by
      by_contra hgt
      have hbelow : start < 2^63-1 := by
        by_contra hge
        exact hstart (hbounded.small start (by omega))
      exact hrun (2^63-1) (by omega) (by omega) (hbounded.small _ (le_refl _))
    have hidx : (s.map.addRanges iv s.rl).indexMap br = some iv := by
      rw [hm]
      exact hiv
    generalize hrl : s.rl++[(⟨start,stop-start⟩ : Range)] = rl
    have hadd : (s.map.addRanges iv rl).Owned fun x =>
        if x < stop ∧ (data x).isSome then some br else own x := by
      rw [← hrl,addRanges_snoc]
      refine (h.owned.addRange hidx (by omega)).congr fun x => ?_
      by_cases hin : start ≤ x ∧ x < start+(stop-start)
      · have := Option.isSome_iff_ne_none.mpr (hrun x (by omega) (by omega))
        rw [if_pos hin,if_pos ⟨by omega,this⟩]
      · rw [if_neg hin]
        by_cases hd : (data x).isSome
        · refine if_congr (and_congr_left fun _ => ?_) rfl rfl
          have hx : ¬(s.offset ≤ x ∧ x < start) := fun hx =>
            hgap x hx.1 hx.2 (Option.isSome_iff_ne_none.mp hd)
          omega
        · rw [if_neg fun hx => hd hx.2,if_neg fun hx => hd hx.2]
    by_cases hfull : 4096 ≤ rl.length
    · refine .inl ⟨⟨s.map.addRanges iv rl,stop,[]⟩,?_,⟨⟨_,by rw [hm]; rfl⟩,hstop',hadd⟩,
        by simp only; omega⟩
      simp only [pushPass,hnd,hnh,hrl,if_pos hfull]
    · refine .inl ⟨⟨s.map,stop,rl⟩,?_,⟨⟨m,hm⟩,hstop',hadd⟩,by simp only; omega⟩
      simp only [pushPass,hnd,hnh,hrl,if_neg hfull]
  · refine .inr ⟨s.map.addRanges iv s.rl,by simp only [pushPass,hnd],h.owned.congr fun x => ?_,
      ⟨_,by rw [hm]; rfl⟩⟩
    refine if_congr (and_iff_right_of_imp fun hd => ?_) rfl rfl
    by_contra hge
    exact hend x (by omega) (Option.isSome_iff_ne_none.mp hd)

/-- A pass adds all the ranges that were collected, or none of them. -/
theorem pushPass_map {reader : BlockHoleReader β} {iv : ℕ} {s s' : PushState ρ}
    (h : pushPass reader iv s = .ok (.inl s')) : s'.map = s.map ∨ s'.rl = [] := by
  rw [pushPass] at h
  split at h
  · split at h
    · simp only at h
      split_ifs at h
      · cases h
        exact .inr rfl
      · cases h
        exact .inl rfl
    · cases h
  · cases h
  · cases h

variable [DecidableEq ρ]

omit [DecidableEq ρ] in
theorem run_pushPass {r : Reader ρ} {own : ℕ → Option ρ} (h : r.Owned own) {br : ρ} {iv : ℕ}
    (hiv : r.indexMap br = some iv) {reader : BlockHoleReader β} {data : ℕ → Option β}
    (hbounded : reader.Bounded data) {fuel : ℕ} (hfuel : 2^63 ≤ fuel) :
    ∃ r', run (pushPass reader iv) fuel ⟨r,0,[]⟩ = .ok r' ∧ r'.Owned (overlay br data own) ∧
      ∃ m, r' = {r with rangeMap := m} :=
  run_total (pushPass reader iv) (Pushing r own br iv data) _ (fun s => 2^63-1-s.offset)
    (fun _ hs => pushPass_spec hiv hbounded hs) fuel _
    ⟨⟨_,rfl⟩,Nat.zero_le _,h.congr fun x => by simp⟩ (by simp only; omega)

/-- `PushReader` takes over every block the new reader holds. -/
theorem Owned.pushReader_eq {r : Reader ρ} {own : ℕ → Option ρ} (h : r.Owned own)
    {env : ρ → BlockHoleReader β} {br : ρ} {data : ℕ → Option β} (hbounded : (env br).Bounded data)
    (hbr : br ∉ r.rs) (hlen : r.rs.length < 65535) :
    ∃ r', r.pushReader env br = .ok r' ∧ r'.Owned (overlay br data own) ∧
      r'.rs = r.rs++[br] ∧ r'.blockSize = r.blockSize := by
  obtain ⟨iv,hreg,hown⟩ := h.register_eq hbr hlen
  unfold pushReader
  generalize hfuel : (2^63 : ℕ) = fuel
  obtain ⟨r',hrun,hown',m,rfl⟩ := run_pushPass hown
    (show ({r with rs := r.rs++[br]}.assign br iv).indexMap br = some iv by simp [Reader.assign])
    hbounded hfuel.le
  refine ⟨_,?_,hown',rfl,rfl⟩
  rw [hreg]
  exact hrun

/-- The same of a call that is known to return. -/
theorem Owned.pushReader_ok {r r' : Reader ρ} {own : ℕ → Option ρ} (h : r.Owned own)
    {env : ρ → BlockHoleReader β} {br : ρ} {data : ℕ → Option β} (hbounded : (env br).Bounded data)
    (hr : r.pushReader env br = .ok r') : r'.Owned (overlay br data own) ∧
      r'.rs = r.rs++[br] ∧ r'.blockSize = r.blockSize := by
  obtain ⟨⟨r₁,iv⟩,hreg,hrun⟩ := exists_bind hr
  obtain ⟨_,rfl,hown⟩ := h.register_ok hreg
  simp only at hrun
  generalize hfuel : (2^63 : ℕ) = fuel at hrun
  obtain ⟨r₂,hrun',hown',m,rfl⟩ := run_pushPass hown
    (show ({r with rs := r.rs++[br]}.assign br iv).indexMap br = some iv by simp [Reader.assign])
    hbounded hfuel.le
  rw [hrun] at hrun'
  cases hrun'
  exact ⟨hown',rfl,rfl⟩

/-- The number of blocks that `br` owns. -/
noncomputable def ownedBlocks (own : ℕ → Option ρ) (br : ρ) : ℕ := {x | own x = some br}.ncard

section Counts

omit [DecidableEq ρ]

variable {r : Reader ρ} {own : ℕ → Option ρ}

theorem Owned.exists_runs (h : r.Owned own) :
    ∃ runs, IsRuns r.rangeMap.get 0 runs ∧ ∀ {σ : Type} (g : σ → RangeValue ℕ → σ) (s : σ),
      r.rangeMap.iterate 0 (fun s rg => (g s rg,true)) s = .ok (runs.foldl g s) :=
  BitmapRangeMap.iterate_fold h.wf fun x hx => (h.get_eq_none x).mpr (h.small x (by omega))

theorem Owned.finite (h : r.Owned own) (br : ρ) : {x | own x = some br}.Finite := by
  refine (Set.finite_Iio (2^63-1)).subset fun x hx => ?_
  by_contra hge
  rw [Set.mem_ofPred_eq,h.small x (by simpa using hge)] at hx
  cases hx

theorem Owned.ownedBlocks_eq_zero (h : r.Owned own) {br : ρ} :
    ownedBlocks own br = 0 ↔ ∀ x, own x ≠ some br := by
  rw [ownedBlocks,Set.ncard_eq_zero (h.finite br)]
  exact Set.eq_empty_iff_forall_notMem

/-- The blocks owned by some reader of a list without repetitions are counted reader by
reader. -/
theorem Owned.sum_ownedBlocks (h : r.Owned own) {l : List ρ} (hl : l.Nodup) :
    {x | ∃ br ∈ l, own x = some br}.Finite ∧
      {x | ∃ br ∈ l, own x = some br}.ncard = (l.map (ownedBlocks own)).sum := by
  induction l with
  | nil => simp
  | cons br l ih =>
    obtain ⟨hfin,hcard⟩ := ih hl.of_cons
    have hset : {x | ∃ b ∈ br::l, own x = some b} =
        {x | own x = some br} ∪ {x | ∃ b ∈ l, own x = some b} := by
      ext x
      simp
    have hdisj : Disjoint {x | own x = some br} {x | ∃ b ∈ l, own x = some b} := by
      rw [Set.disjoint_left]
      rintro x hx ⟨b,hb,hxb⟩
      rw [Set.mem_ofPred_eq] at hx
      rw [hx] at hxb
      cases hxb
      exact (List.nodup_cons.mp hl).1 hb
    rw [hset]
    refine ⟨(h.finite br).union hfin,?_⟩
    rw [Set.ncard_union_eq hdisj (h.finite br) hfin,hcard,List.map_cons,List.sum_cons]
    rfl

theorem foldl_length (runs : List (RangeValue ℕ)) (n : ℕ) :
    runs.foldl (fun c rg => c+rg.length) n = n+(runs.map (·.length)).sum := by
  induction runs generalizing n with
  | nil => simp
  | cons rg runs ih =>
    rw [List.foldl_cons,ih]
    simp
    omega

theorem Owned.liveBlocks_eq (h : r.Owned own) :
    r.liveBlocks = .ok (r.rs.map (ownedBlocks own)).sum := by
  obtain ⟨runs,hruns,hiter⟩ := h.exists_runs
  rw [liveBlocks,hiter,foldl_length,Nat.zero_add,hruns.sum_length_all,
    ← (h.sum_ownedBlocks h.nodup).2]
  congr 2
  ext x
  simp only [Set.mem_ofPred_eq,ne_eq,h.get_eq_none]
  constructor
  · intro hx
    obtain ⟨br,hbr⟩ := Option.ne_none_iff_exists'.mp hx
    exact ⟨br,h.listed x br hbr,hbr⟩
  · rintro ⟨br,_,hbr⟩
    simp [hbr]

end Counts

theorem lookup_bump (runs : List (RangeValue ℕ)) (m : AList fun _ : ℕ => ℕ) (v : ℕ) :
    ((runs.foldl bump m).lookup v).getD 0 =
      (m.lookup v).getD 0+((runs.filter fun rg => rg.value = v).map (·.length)).sum := by
  induction runs generalizing m with
  | nil => simp
  | cons rg runs ih =>
    rw [List.foldl_cons,ih]
    by_cases hv : rg.value = v
    · subst hv
      simp [bump,Nat.add_assoc]
    · simp [bump,AList.lookup_insert_ne (Ne.symm hv),hv]

theorem mem_bump (runs : List (RangeValue ℕ)) (m : AList fun _ : ℕ => ℕ) (v : ℕ) :
    v ∈ runs.foldl bump m ↔ v ∈ m ∨ ∃ rg ∈ runs, rg.value = v := by
  induction runs generalizing m with
  | nil => simp
  | cons rg runs ih =>
    rw [List.foldl_cons,ih,bump,AList.mem_insert]
    simp only [List.mem_cons,exists_eq_or_imp]
    tauto

/-- Inserting entries under keys that differ keeps each of them. -/
theorem lookup_foldl_insert {κ : Type} [DecidableEq κ] (f : ℕ → κ)
    (es : List (Σ _ : ℕ, ℕ)) (m : AList fun _ : κ => ℕ)
    (hf : es.Pairwise fun a b => f a.1 ≠ f b.1) (k : κ) :
    (∀ e ∈ es, f e.1 = k →
      (es.foldl (fun m e => m.insert (f e.1) e.2) m).lookup k = some e.2) ∧
    ((∀ e ∈ es, f e.1 ≠ k) →
      (es.foldl (fun m e => m.insert (f e.1) e.2) m).lookup k = m.lookup k) := by
  induction es generalizing m with
  | nil => simp
  | cons e es ih =>
    obtain ⟨hhead,htail⟩ := List.pairwise_cons.mp hf
    obtain ⟨ih₁,ih₂⟩ := ih (m.insert (f e.1) e.2) htail
    rw [List.foldl_cons]
    constructor
    · intro e' he' hk
      rcases List.mem_cons.mp he' with rfl | he'
      · rw [ih₂ fun q hq hqk => hhead q hq (hk.trans hqk.symm),← hk,AList.lookup_insert]
      · exact ih₁ e' he' hk
    · intro hne
      rw [ih₂ fun q hq => hne q (List.mem_cons_of_mem e hq),
        AList.lookup_insert_ne fun hk => hne e (List.mem_cons_self) hk.symm]

theorem lookup_listed (rs : List ρ) (m : LiveMap ρ) (k : Option ρ) :
    (rs.foldl (fun m br => m.insert (some br) 0) m).lookup k =
      if ∃ br ∈ rs, k = some br then some 0 else m.lookup k := by
  induction rs generalizing m with
  | nil => simp
  | cons br rs ih =>
    rw [List.foldl_cons,ih]
    by_cases h₁ : ∃ b ∈ rs, k = some b
    · rw [if_pos h₁]
      obtain ⟨b,hb,hk⟩ := h₁
      rw [if_pos ⟨b,List.mem_cons_of_mem br hb,hk⟩]
    · rw [if_neg h₁]
      by_cases hk : k = some br
      · rw [hk,AList.lookup_insert,if_pos ⟨br,List.mem_cons_self,rfl⟩]
      · rw [AList.lookup_insert_ne hk,if_neg]
        rintro ⟨b,hb,hkb⟩
        rcases List.mem_cons.mp hb with rfl | hb
        · exact hk hkb
        · exact h₁ ⟨b,hb,hkb⟩

/-- `GetLiveBlocks` lists every reader with the number of blocks it owns, and nothing else. -/
theorem Owned.getLiveBlocks_eq {r : Reader ρ} {own : ℕ → Option ρ} (h : r.Owned own) :
    ∃ live, r.getLiveBlocks = .ok live ∧
      (∀ br ∈ r.rs, live.lookup (some br) = some (ownedBlocks own br)) ∧
      ∀ k, (∀ br ∈ r.rs, k ≠ some br) → live.lookup k = none := by
  obtain ⟨runs,hruns,hiter⟩ := h.exists_runs
  refine ⟨_,by rw [getLiveBlocks,hiter]; rfl,?_⟩
  -- a counted index is that of the owner of some block
  have hkey : ∀ iv ∈ runs.foldl bump ∅, ∃ br ∈ r.rs, r.valueMap iv = some br := by
    intro iv hiv
    rcases (mem_bump runs ∅ iv).mp hiv with hiv | ⟨rg,hrg,rfl⟩
    · cases hiv
    · have hget := hruns.valued rg hrg rg.offset ⟨le_refl _,by
        have := hruns.nonempty rg hrg
        omega⟩
      cases hx : own rg.offset with
      | none =>
        rw [(h.get_eq_none _).mpr hx] at hget
        cases hget
      | some br =>
        obtain ⟨iv',hiv',hget'⟩ := h.exists_index hx
        rw [hget] at hget'
        cases hget'
        exact ⟨br,h.listed _ br hx,(h.value br rg.value).mp hiv'⟩
  have hdistinct : (runs.foldl bump ∅).entries.Pairwise fun a b =>
      r.valueMap a.1 ≠ r.valueMap b.1 := by
    have hnd := (runs.foldl bump ∅).nodupKeys
    rw [List.nodupKeys_iff_pairwise] at hnd
    refine hnd.imp_of_mem fun {a b} ha hb hne heq => hne ?_
    obtain ⟨br,_,hbr⟩ := hkey a.1 (AList.mem_keys.mpr (List.mem_map_of_mem ha))
    have h₁ := (h.value br a.1).mpr hbr
    rw [(h.value br b.1).mpr (heq ▸ hbr)] at h₁
    exact (Option.some.inj h₁).symm
  have hspec := lookup_foldl_insert r.valueMap (runs.foldl bump ∅).entries
    (r.rs.foldl (fun m br => m.insert (some br) 0) ∅) hdistinct
  constructor
  · intro br hbr
    obtain ⟨iv,hiv⟩ := Option.ne_none_iff_exists'.mp ((h.index br).mp hbr)
    have hcount : ((runs.foldl bump ∅).lookup iv).getD 0 = ownedBlocks own br := by
      rw [lookup_bump,AList.lookup_empty,Option.getD_none,Nat.zero_add,hruns.sum_length]
      exact congrArg Set.ncard (Set.ext fun x => h.get_eq_some hiv x)
    cases hl : (runs.foldl bump ∅).lookup iv with
    | some c =>
      rw [hl,Option.getD_some] at hcount
      rw [← hcount]
      exact (hspec (some br)).1 ⟨iv,c⟩ (AList.mem_lookup_iff.mp hl) ((h.value br iv).mp hiv)
    | none =>
      rw [hl,Option.getD_none] at hcount
      rw [← hcount,(hspec (some br)).2,lookup_listed,if_pos ⟨br,hbr,rfl⟩]
      intro e he hv
      have hiv' := (h.value br e.1).mpr hv
      rw [hiv] at hiv'
      have hmem : iv ∈ runs.foldl bump ∅ := by
        rw [Option.some.inj hiv']
        exact AList.mem_keys.mpr (List.mem_map_of_mem he)
      rw [AList.lookup_eq_none] at hl
      exact hl hmem
  · intro k hk
    rw [(hspec k).2,lookup_listed,if_neg,AList.lookup_empty]
    · rintro ⟨br,hbr,hkb⟩
      exact hk br hbr hkb
    · intro e he hv
      obtain ⟨br,hbr,hval⟩ := hkey e.1 (AList.mem_keys.mpr (List.mem_map_of_mem he))
      exact hk br hbr (hv.symm.trans hval)

/-- The content of the block `x`: that of its owner, or zeros. -/
def served (zero : β) (data : ρ → ℕ → Option β) (own : ℕ → Option ρ) (x : ℕ) : β :=
  ((own x).bind fun br => data br x).getD zero

theorem Owned.sameReader_spec {r : Reader ρ} {own : ℕ → Option ρ} (h : r.Owned own) (br : ρ)
    (off rem : ℕ) : r.sameReader br off rem ≤ rem ∧
      (∀ x, off ≤ x → x < off+r.sameReader br off rem → own x = some br) ∧
      (r.sameReader br off rem < rem → own (off+r.sameReader br off rem) ≠ some br) := by
  induction rem generalizing off with
  | zero => exact ⟨le_refl 0,fun x h₁ h₂ => by simp only [sameReader] at h₂; omega,
      fun hlt => absurd hlt (lt_irrefl 0)⟩
  | succ rem ih =>
    rw [sameReader]
    obtain ⟨hle,hown,hstop⟩ := ih (off+1)
    split_ifs with hf
    · refine ⟨by omega,fun x h₁ h₂ => ?_,fun hlt => ?_⟩
      · rcases Nat.eq_or_lt_of_le h₁ with rfl | hlt
        · rwa [h.find_eq] at hf
        · exact hown x hlt (by omega)
      · rw [Nat.add_comm _ 1,← Nat.add_assoc]
        exact hstop (by omega)
    · refine ⟨by omega,fun x h₁ h₂ => by omega,fun _ => ?_⟩
      rwa [h.find_eq] at hf

/-- The loop of `ReadBlocks`: what is filled so far is right. -/
structure Reading (zero : β) (data : ρ → ℕ → Option β) (own : ℕ → Option ρ) (off k : ℕ)
    (s : ReadState β) : Prop where
  out : s.out = (List.range' off s.n).map (served zero data own)
  off_eq : s.off = off+s.n
  left_add : s.left+s.n = k

/-- The blocks from `a` on that a pass of `ReadBlocks` asks `br` for at once, of a buffer that ends
at `stop`. -/
structure RunOf (own : ℕ → Option ρ) (br : ρ) (a m stop : ℕ) : Prop where
  pos : 0 < m
  le : a+m ≤ stop
  owned : ∀ x, a ≤ x → x < a+m → own x = some br
  last : a+m < stop → own (a+m) ≠ some br

/-- How `ReadBlocks` ends: with the buffer filled, or with the first `io.EOF` that a reader gives. -/
inductive Ends (env : ρ → BlockHoleReader β) (zero : β) (data : ρ → ℕ → Option β)
    (own : ℕ → Option ρ) (off k : ℕ) : ReadResult β → Prop
  | full : Ends env zero data own off k ⟨(List.range' off k).map (served zero data own),k,none⟩
  | eof {br : ρ} {a m n : ℕ} (hrun : RunOf own br a m (off+k)) (hn : a+m = off+n)
      (heof : ((env br).readBlocks m a).2 = some .eof) :
      Ends env zero data own off k ⟨(List.range' off n).map (served zero data own),n,some .eof⟩

omit [DecidableEq ρ] in
/-- The right blocks are added to what was read. -/
theorem Reading.extend {zero : β} {data : ρ → ℕ → Option β} {own : ℕ → Option ρ} {off k m : ℕ}
    {s : ReadState β} (h : Reading zero data own off k s) {bs : List β}
    (hbs : bs = (List.range' s.off m).map (served zero data own)) (hm : m ≤ s.left) :
    Reading zero data own off k ⟨s.left-m,s.off+m,s.n+m,s.out++bs⟩ := by
  have hoff := h.off_eq
  have hadd := h.left_add
  refine ⟨?_,by simp only; omega,by simp only; omega⟩
  rw [h.out,hbs,hoff,← List.map_append,List.range'_append_1]

omit [DecidableEq ρ] in
/-- The blocks of a run are served by its owner. -/
theorem RunOf.served_eq {zero : β} {data : ρ → ℕ → Option β} {own : ℕ → Option ρ} {br : ρ}
    {a m stop : ℕ} (h : RunOf own br a m stop)
    (hheld : ∀ x br, own x = some br → data br x ≠ none) {bs : List β}
    (hbs : bs.map some = blocks (data br) a m) :
    bs = (List.range' a m).map (served zero data own) := by
  have hmap : ((List.range' a m).map (served zero data own)).map some =
      blocks (data br) a m := by
    rw [List.map_map]
    refine List.map_congr_left fun x hin => ?_
    obtain ⟨h₁,h₂⟩ := List.mem_range'_1.mp hin
    obtain ⟨b,hb⟩ := Option.ne_none_iff_exists'.mp (hheld x br (h.owned x h₁ h₂))
    simp [served,h.owned x h₁ h₂,hb]
  exact List.map_injective_iff.mpr (Option.some_injective β) (hbs.trans hmap.symm)

theorem readPass_spec {r : Reader ρ} {own : ℕ → Option ρ} (h : r.Owned own)
    {env : ρ → BlockHoleReader β} {data : ρ → ℕ → Option β}
    (hmeets : ∀ br ∈ r.rs, (env br).Meets (data br))
    (hheld : ∀ x br, own x = some br → data br x ≠ none) (zero : β) {off k : ℕ}
    {s : ReadState β} (hs : Reading zero data own off k s) :
    (∃ s', readPass env zero r s = .ok (.inl s') ∧ Reading zero data own off k s' ∧
      s'.left < s.left) ∨
    ∃ res, readPass env zero r s = .ok (.inr res) ∧ Ends env zero data own off k res := by
  have hoff := hs.off_eq
  have hadd := hs.left_add
  by_cases hzero : s.left = 0
  · refine .inr ⟨⟨s.out,s.n,none⟩,by rw [readPass,if_pos hzero],?_⟩
    have hn : s.n = k := by omega
    rw [hs.out,hn]
    exact .full
  cases hx : own s.off with
  | none =>
    have hserved : [zero] = (List.range' s.off 1).map (served zero data own) := by
      simp [served,hx]
    refine .inl ⟨_,?_,hs.extend hserved (by omega),?_⟩
    · simp only [readPass,if_neg hzero,h.find_eq,hx]
    · simp only
      omega
  | some br =>
    obtain ⟨hle,hsame,hstop⟩ := h.sameReader_spec br (s.off+1) (s.left-1)
    generalize hm : r.sameReader br (s.off+1) (s.left-1) = m at hle hsame hstop
    have hrun : RunOf own br s.off (1+m) (off+k) := by
      refine ⟨by omega,by omega,fun x h₁ h₂ => ?_,fun hlt => ?_⟩
      · rcases Nat.eq_or_lt_of_le h₁ with rfl | hlt
        · exact hx
        · exact hsame x hlt (by omega)
      · rw [← Nat.add_assoc]
        exact hstop (by omega)
    obtain ⟨bs,err,hread,hbs,herr⟩ := (hmeets br (h.listed _ br hx)).readBlocks_eq
      fun x h₁ h₂ => hheld x br (hrun.owned x h₁ h₂)
    have hserved : bs = (List.range' s.off (1+m)).map (served zero data own) :=
      hrun.served_eq hheld hbs
    have hlen : bs.length = 1+m := by simp [hserved]
    have hext := hs.extend hserved (by omega)
    rcases herr with rfl | rfl
    · refine .inl ⟨_,?_,hext,?_⟩
      · simp only [readPass,if_neg hzero,h.find_eq,hx,hm,hread,hlen]
      · simp only
        omega
    · refine .inr ⟨⟨s.out++bs,s.n+(1+m),some .eof⟩,?_,?_⟩
      · simp only [readPass,if_neg hzero,h.find_eq,hx,hm,hread,hlen]
      · have hout := hext.out
        simp only at hout
        rw [hout]
        exact .eof hrun (by omega) (by rw [hread])

/-- `ReadBlocks` fills the blocks from their owners, or with zeros, up to the first `io.EOF`. -/
theorem Owned.readBlocks_ends {r : Reader ρ} {own : ℕ → Option ρ} (h : r.Owned own)
    {env : ρ → BlockHoleReader β} {data : ρ → ℕ → Option β}
    (hmeets : ∀ br ∈ r.rs, (env br).Meets (data br))
    (hheld : ∀ x br, own x = some br → data br x ≠ none) (hb : 0 < r.blockSize) (zero : β)
    (k off : ℕ) : ∃ res, r.readBlocks env zero (k*r.blockSize) off = .ok res ∧
      Ends env zero data own off k res := by
  rw [readBlocks,if_neg (by simp),Nat.mul_div_cancel k hb]
  exact run_total (readPass env zero r) (Reading zero data own off k) _
    ReadState.left (fun s hs => readPass_spec h hmeets hheld zero hs) (k+1) ⟨k,off,0,[]⟩
    ⟨rfl,rfl,rfl⟩ (Nat.lt_succ_self k)

/-- Every buffer is filled exactly if no read up to the end of an owner's run gives `io.EOF`. -/
theorem Owned.readBlocks_full_iff {r : Reader ρ} {own : ℕ → Option ρ} (h : r.Owned own)
    {env : ρ → BlockHoleReader β} {data : ρ → ℕ → Option β}
    (hmeets : ∀ br ∈ r.rs, (env br).Meets (data br))
    (hheld : ∀ x br, own x = some br → data br x ≠ none) (hb : 0 < r.blockSize) :
    (∀ zero k off, ∃ err, r.readBlocks env zero (k*r.blockSize) off =
      .ok ⟨(List.range' off k).map (served zero data own),k,err⟩) ↔
    ∀ br a m, RunOf own br a m (a+m+1) → ((env br).readBlocks m a).2 = none := by
  constructor
  · intro hfull br a m hrun
    have hown := hrun.owned a le_rfl (by have := hrun.pos; omega)
    obtain ⟨b,-⟩ := Option.ne_none_iff_exists'.mp (hheld a br hown)
    obtain ⟨err,heq⟩ := hfull b (m+1) a
    -- the first pass stops the read if it gives an error
    obtain ⟨hle,hsame,hstop⟩ := h.sameReader_spec br (a+1) m
    have hpos := hrun.pos
    have hm : 1+r.sameReader br (a+1) m = m := by
      have h₁ : ¬1+r.sameReader br (a+1) m < m := by
        intro hlt
        refine hstop (by omega) (hrun.owned _ (by omega) (by omega))
      have h₂ : r.sameReader br (a+1) m ≠ m := by
        intro he
        exact hrun.last (by omega) (hsame (a+m) (by omega) (by omega))
      omega
    obtain ⟨bs,err',hread,hbs,herr⟩ := (hmeets br (h.listed a br hown)).readBlocks_eq
      fun x h₁ h₂ => hheld x br (hrun.owned x h₁ h₂)
    have hlen : bs.length = m := by
      rw [← List.length_map (f := some),hbs,length_blocks]
    rcases herr with rfl | rfl
    · rw [hread]
    · exfalso
      have hpass : readPass env b r ⟨m+1,a,0,[]⟩ = .ok (.inr ⟨bs,m,some .eof⟩) := by
        simp only [readPass,if_neg (Nat.succ_ne_zero m),h.find_eq,hown,Nat.add_sub_cancel,hm,hread,
          hlen,List.nil_append,Nat.zero_add]
      rw [readBlocks,if_neg (by simp),Nat.mul_div_cancel _ hb,run,hpass] at heq
      have hcount := congrArg ReadResult.count (Except.ok.inj heq)
      simp only at hcount
      omega
  · intro hnone zero k off
    obtain ⟨res,hres,hends⟩ := h.readBlocks_ends hmeets hheld hb zero k off
    cases hends with
    | full => exact ⟨none,hres⟩
    | @eof br a m n hrun hn heof =>
      by_cases hk : n = k
      · subst hk
        exact ⟨_,hres⟩
      · have hle := hrun.le
        have := hnone br a m ⟨hrun.pos,by omega,hrun.owned,fun _ => hrun.last (by omega)⟩
        rw [heof] at this
        cases this

/-- Without an `io.EOF` inside the data `ReadBlocks` fills every block. -/
theorem Owned.readBlocks_eq {r : Reader ρ} {own : ℕ → Option ρ} (h : r.Owned own)
    {env : ρ → BlockHoleReader β} {data : ρ → ℕ → Option β}
    (hclean : ∀ br ∈ r.rs, (env br).Clean (data br))
    (hheld : ∀ x br, own x = some br → data br x ≠ none) (hb : 0 < r.blockSize) (zero : β)
    (k off : ℕ) : r.readBlocks env zero (k*r.blockSize) off =
      .ok ⟨(List.range' off k).map (served zero data own),k,none⟩ := by
  obtain ⟨res,hres,hends⟩ := h.readBlocks_ends (fun br hbr => (hclean br hbr).toMeets) hheld hb
    zero k off
  cases hends with
  | full => exact hres
  | @eof br a m n hrun hn heof =>
    have hlisted := h.listed a br (hrun.owned a le_rfl (by have := hrun.pos; omega))
    rw [(hclean br hlisted).noEOF m a fun x h₁ h₂ => hheld x br (hrun.owned x h₁ h₂)] at heof
    cases heof

section UpTo

variable {numBlocks : ℕ} {data : ρ → ℕ → Option β} {env : ρ → BlockHoleReader β}

omit [DecidableEq ρ] in
/-- A pass stays below the end of the reader's blocks. -/
theorem pushPass_offset {reader : BlockHoleReader β} {blocks : ℕ → Option β}
    (hbounded : reader.Bounded blocks) (hend : ∀ x, numBlocks ≤ x → blocks x = none) {iv : ℕ}
    {s s' : PushState ρ} (h : pushPass reader iv s = .ok (.inl s')) : s'.offset ≤ numBlocks := by
  rcases hbounded.nextBlockData_eq s.offset with ⟨start,hnd,h₁,hstart,hgap⟩ | ⟨y,hnd,_⟩
  · have hlt : start < numBlocks := by
      by_contra hge
      exact hstart (hend start (by omega))
    obtain ⟨stop,hnh,h₂,hstop,hrun⟩ := hbounded.nextBlockHole_eq start
    have hle : stop ≤ numBlocks := by
      by_contra hgt
      exact hrun numBlocks (by omega) (by omega) (hend _ le_rfl)
    simp only [pushPass,hnd,hnh] at h
    split_ifs at h
    · cases h
      exact hle
    · cases h
      exact hle
  · simp only [pushPass,hnd] at h
    cases h

omit [DecidableEq ρ] in
/-- A push asks no reader beyond the end of the device. -/
theorem pushPass_upTo {reader : BlockHoleReader β} {blocks : ℕ → Option β}
    (hbounded : (reader.upTo numBlocks).Bounded blocks) (hend : ∀ x, numBlocks ≤ x → blocks x = none)
    (iv : ℕ) {s : PushState ρ} (hs : s.offset ≤ numBlocks) :
    pushPass reader iv s = pushPass (reader.upTo numBlocks) iv s := by
  have hdata := upTo_nextBlockData reader hs
  rcases hbounded.nextBlockData_eq s.offset with ⟨start,hnd,h₁,hstart,hgap⟩ | ⟨y,hnd,_⟩
  · have hle : start ≤ numBlocks := by
      by_contra hgt
      exact hstart (hend start (by omega))
    simp only [pushPass,hnd,hdata.symm.trans hnd,upTo_nextBlockHole reader hle]
  · simp only [pushPass,hnd,hdata.symm.trans hnd]

theorem pushReader_upTo {br : ρ} {blocks : ℕ → Option β}
    (hbounded : ((env br).upTo numBlocks).Bounded blocks) (hend : ∀ x, numBlocks ≤ x → blocks x = none)
    (r : Reader ρ) :
    r.pushReader env br = r.pushReader (fun br => (env br).upTo numBlocks) br := by
  have heq : ∀ iv (s : PushState ρ), s.offset ≤ numBlocks →
      pushPass (env br) iv s = pushPass ((env br).upTo numBlocks) iv s :=
    fun iv s hs => pushPass_upTo hbounded hend iv hs
  refine congrArg _ (funext fun p => ?_)
  refine run_congr (fun s => s.offset ≤ numBlocks) (heq p.2) (fun s s' hs h => ?_) _
    (Nat.zero_le numBlocks)
  exact pushPass_offset hbounded hend (heq p.2 s hs ▸ h)

/-- A read asks no reader there either. -/
theorem Owned.readBlocks_upTo {r : Reader ρ} {own : ℕ → Option ρ} (h : r.Owned own)
    (hend : ∀ x, numBlocks ≤ x → own x = none) (zero : β) (len off : ℕ) :
    r.readBlocks env zero len off = r.readBlocks (fun br => (env br).upTo numBlocks) zero len off := by
  have hpass : readPass env zero r = readPass (fun br => (env br).upTo numBlocks) zero r := by
    funext s
    rw [readPass,readPass]
    split_ifs
    · rfl
    · cases hfind : r.find s.off with
      | none => rfl
      | some br =>
        have hle : s.off ≤ numBlocks := by
          by_contra hgt
          rw [h.find_eq,hend s.off (by omega)] at hfind
          cases hfind
        simp only [upTo_readBlocks _ hle]
  rw [readBlocks,readBlocks,hpass]

/-- The map as a reader of the stack. A fault is no answer at all. -/
def blocks (env : ρ → BlockHoleReader β) (zero : β) (r : Reader ρ) : BlockHoleReader β where
  readBlocks n off :=
    match r.readBlocks env zero (n*r.blockSize) off with
    | .ok res => (res.filled,res.err)
    | .error e => ([],some (.new (reprStr e)))
  nextBlockData off :=
    match r.nextBlockData off with
    | .ok res => res
    | .error e => (0,some (.new (reprStr e)))
  nextBlockHole off :=
    match r.nextBlockHole off with
    | .ok res => res
    | .error e => (0,some (.new (reprStr e)))

/-- The map holds the blocks that have an owner, each with its owner's content. -/
theorem Owned.blocks_clean {r : Reader ρ} {own : ℕ → Option ρ} (h : r.Owned own)
    (hclean : ∀ br ∈ r.rs, ((env br).upTo numBlocks).Clean (data br))
    (hend : ∀ br ∈ r.rs, ∀ x, numBlocks ≤ x → data br x = none)
    (hheld : ∀ x br, own x = some br → data br x ≠ none) (hb : 0 < r.blockSize) (zero : β) :
    (r.blocks env zero).Clean fun x => (own x).bind fun br => data br x := by
  have hnone : ∀ x, own x = none ↔ ((own x).bind fun br => data br x) = none := by
    intro x
    cases hx : own x with
    | none => simp
    | some br => simpa using hheld x br hx
  have hown : ∀ x, numBlocks ≤ x → own x = none := by
    intro x hx
    by_contra hne
    obtain ⟨br,hbr⟩ := Option.ne_none_iff_exists'.mp hne
    exact hheld x br hbr (hend br (h.listed x br hbr) x hx)
  refine Clean.of_answers (fun off => ?_) (fun off => ?_) (fun n off hd => ?_) fun x hx => ?_
  · obtain ⟨y,hy,heq⟩ := h.nextBlockHole_eq off
    exact ⟨y,hy.congr hnone,by simp only [blocks,heq]⟩
  · obtain ⟨o,ho,heq⟩ := h.nextBlockData_eq off
    have ho' := ho.congr fun x => not_congr (hnone x)
    cases o with
    | some y => exact .inl ⟨y,ho',by simp only [blocks,heq]⟩
    | none => exact .inr ⟨0,ho',by simp only [blocks,heq]⟩
  · refine ⟨(List.range' off n).map (served zero data own),?_,?_⟩
    · have heq := (h.readBlocks_upTo hown zero _ off).trans
        (h.readBlocks_eq hclean hheld hb zero n off)
      simp only [blocks,heq]
    · rw [List.map_map]
      refine List.map_congr_left fun x hx => ?_
      obtain ⟨h₁,h₂⟩ := List.mem_range'_1.mp hx
      obtain ⟨b,hbx⟩ := Option.ne_none_iff_exists'.mp (hd x h₁ h₂)
      simp [served,hbx]
  · rw [h.small x hx]
    rfl

omit [DecidableEq ρ] in
/-- The map has no block behind the last one of its readers. -/
theorem Owned.blocks_end {r : Reader ρ} {own : ℕ → Option ρ} (h : r.Owned own)
    (hend : ∀ br ∈ r.rs, ∀ x, numBlocks ≤ x → data br x = none) (x : ℕ) (hx : numBlocks ≤ x) :
    ((own x).bind fun br => data br x) = none := by
  cases ho : own x with
  | none => rfl
  | some br => exact hend br (h.listed x br ho) x hx

end UpTo

/-- The readers of `l` keep the indexes they have in `r`. -/
theorem shareIndexes_spec {r : Reader ρ} {own : ℕ → Option ρ} (h : r.Owned own) (l : List ρ)
    (hsub : ∀ br ∈ l, br ∈ r.rs) {new : Reader ρ} (hnew : new.Owned fun _ => none)
    (hshare : ∀ br ∈ new.rs, new.indexMap br = r.indexMap br) (hnd : (new.rs++l).Nodup) :
    ∃ m : Reader ρ, m.Owned (fun _ => none) ∧ m.rs = new.rs++l ∧
      (∀ br ∈ m.rs, m.indexMap br = r.indexMap br) ∧ m.rangeMap = new.rangeMap ∧
      m.blockSize = new.blockSize ∧
      ∀ R, r.shareIndexes l {new with rs := R} = .ok {m with rs := R} := by
  induction l generalizing new with
  | nil => exact ⟨new,hnew,by simp,hshare,rfl,rfl,fun R => rfl⟩
  | cons br l ih =>
    have hbr : br ∉ new.rs := fun hmem =>
      (List.disjoint_of_nodup_append hnd) hmem List.mem_cons_self
    obtain ⟨iv,hiv⟩ := Option.ne_none_iff_exists'.mp
      ((h.index br).mp (hsub br List.mem_cons_self))
    obtain ⟨hpos,hlt,_⟩ := h.used iv (by rw [(h.value br iv).mp hiv]; simp)
    have hval : new.valueMap iv = none := by
      by_contra hne
      obtain ⟨br',hbr'⟩ := Option.ne_none_iff_exists'.mp hne
      have hidx := (hnew.value br' iv).mpr hbr'
      have hmem := (hnew.index br').mpr (by simp [hidx])
      rw [hshare br' hmem] at hidx
      have h₁ := (h.value br' iv).mp hidx
      rw [(h.value br iv).mp hiv] at h₁
      cases h₁
      exact hbr hmem
    obtain ⟨m,hown,hrs,hidx,hmap,hsize,hok⟩ := ih
      (fun b hb => hsub b (List.mem_cons_of_mem br hb)) (hnew.assign hbr hpos hlt hval)
      (fun b hb => by
        by_cases he : b = br
        · simp [Reader.assign,he,hiv]
        · simp only [Reader.assign,List.mem_append,List.mem_singleton,he,or_false] at hb
          simp [Reader.assign,he,hshare b hb])
      (by simpa [Reader.assign] using hnd)
    refine ⟨m,hown,by simpa [Reader.assign] using hrs,hidx,hmap,hsize,fun R => ?_⟩
    rw [shareIndexes,hiv]
    exact hok R

omit [DecidableEq ρ] in
/-- The runs of the chosen indexes, added to an empty map. -/
theorem foldl_add_spec {r : Reader ρ} {own : ℕ → Option ρ} (h : r.Owned own)
    {runs : List (RangeValue ℕ)} (hruns : IsRuns r.rangeMap.get 0 runs) (p : ℕ → Bool) :
    ∃ m, runs.foldl (fun m rg => if p rg.value then m.add rg.offset rg.length rg.value else m)
        (.empty : BitmapRangeMap ℕ) = m ∧ m.WF ∧
      ∀ x, m.get x = (r.rangeMap.get x).filter p := by
  have hfold : ∀ (l : List (RangeValue ℕ)) (m : BitmapRangeMap ℕ),
      l.foldl (fun m rg => if p rg.value then m.add rg.offset rg.length rg.value else m) m =
        m.addAll (l.filter fun rg => p rg.value) := by
    intro l
    induction l with
    | nil => exact fun m => rfl
    | cons rg l ih =>
      intro m
      rw [List.foldl_cons,ih]
      by_cases hp : p rg.value
      · simp [hp,BitmapRangeMap.addAll]
      · simp [hp]
  have hbound : ∀ rg ∈ runs.filter fun rg => p rg.value, rg.offset+rg.length < 2^64 := by
    intro rg hrg
    have hmem := (List.mem_filter.mp hrg).1
    have hpos := hruns.nonempty rg hmem
    by_contra hge
    have hget := hruns.valued rg hmem (rg.offset+rg.length-1) ⟨by omega,by omega⟩
    rw [(h.get_eq_none _).mpr (h.small _ (by omega))] at hget
    cases hget
  obtain ⟨hwf,hget⟩ := BitmapRangeMap.addAll_spec _ .empty BitmapRangeMap.empty_wf hbound
  refine ⟨_,rfl,by rwa [hfold],fun x => ?_⟩
  rw [hfold,hget]
  have hasc := hruns.ascending.filter fun rg => p rg.value
  show paintAll (fun _ => none) _ x = _
  cases hx : r.rangeMap.get x with
  | none =>
    by_contra hne
    obtain ⟨v,hv⟩ := Option.ne_none_iff_exists'.mp hne
    rcases paintAll_eq_some hv with ⟨rg,hrg,hin,_⟩ | hv
    · have := hruns.valued rg (List.mem_filter.mp hrg).1 x hin
      rw [hx] at this
      cases this
    · cases hv
  | some iv =>
    obtain ⟨rg,hrg,hin⟩ := hruns.covers x (Nat.zero_le x) (by simp [hx])
    have hval := hruns.valued rg hrg x hin
    rw [hx] at hval
    cases hval
    by_cases hp : p rg.value
    · rw [Option.filter_some_pos hp]
      exact paintAll_of_ascending hasc (List.mem_filter.mpr ⟨hrg,hp⟩) hin
    · rw [Option.filter_some_neg (by simpa using hp)]
      by_contra hne
      obtain ⟨v,hv⟩ := Option.ne_none_iff_exists'.mp hne
      rcases paintAll_eq_some hv with ⟨q,hq,hqin,_⟩ | hv
      · obtain ⟨hq,hqp⟩ := List.mem_filter.mp hq
        have := hruns.valued q hq x hqin
        rw [hx] at this
        rw [← Option.some.inj this] at hqp
        exact hp hqp
      · cases hv

/-- The restricted view has the same owners, as far as they are among the chosen readers. -/
theorem Owned.readerForLiveBytes_eq {r : Reader ρ} {own : ℕ → Option ρ} (h : r.Owned own)
    {l : List ρ} (hsub : ∀ br ∈ l, br ∈ r.rs) (hnd : l.Nodup) :
    ∃ r', r.readerForLiveBytes l = .ok r' ∧ r'.Owned (fun x => (own x).filter (· ∈ l)) ∧
      r'.rs = l ∧ r'.blockSize = r.blockSize := by
  obtain ⟨n,hown,hrs,hidx,hmap,hsize,hok⟩ := shareIndexes_spec h l hsub
    (new_owned r.blockSize r.numBlocks) (by simp [new]) (by simpa [new] using hnd)
  obtain ⟨runs,hruns,hiter⟩ := h.exists_runs
  obtain ⟨m,hm,hwf,hget⟩ := foldl_add_spec h hruns fun iv => (l.map r.indexMap).contains (some iv)
  have hempty : n.rangeMap = .empty := hmap
  have hrs' : n.rs = l := hrs
  refine ⟨{n with rangeMap := m},?_,?_,hrs',hsize⟩
  · rw [readerForLiveBytes,hok l]
    simp only [bind,Except.bind,hempty,hiter,hm]
    cases n
    cases hrs'
    rfl
  · have hchosen : ∀ {br iv}, r.indexMap br = some iv →
        ((l.map r.indexMap).contains (some iv) = true ↔ br ∈ l) := by
      intro br iv hiv
      rw [List.contains_iff_mem,List.mem_map]
      constructor
      · rintro ⟨b,hb,hbi⟩
        have h₁ := (h.value b iv).mp hbi
        rw [(h.value br iv).mp hiv] at h₁
        cases h₁
        exact hb
      · exact fun hmem => ⟨br,hmem,hiv⟩
    refine ⟨hwf,fun x => ?_,fun x br hx => ?_,hown.index,hown.value,hown.used,hown.free,hown.unset,
      hown.nodup,fun x hx => by rw [h.small x hx]; rfl⟩
    · show m.get x = _
      rw [hget]
      cases hx : own x with
      | none =>
        rw [(h.get_eq_none x).mpr hx]
        rfl
      | some br =>
        obtain ⟨iv,hiv,hgx⟩ := h.exists_index hx
        rw [hgx]
        by_cases hmem : br ∈ l
        · simp only [Option.filter_some,(hchosen hiv).mpr hmem,if_true,decide_eq_true hmem,
            Option.bind_some,hidx br (hrs' ▸ hmem),hiv]
        · simp only [Option.filter_some,Bool.eq_false_iff.mpr (mt (hchosen hiv).mp hmem),
            decide_eq_false hmem]
          rfl
    · have hmem := (Option.filter_eq_some_iff.mp hx).2
      rw [hrs']
      simpa using hmem

end Reader
end BlockMap
end Logblock
