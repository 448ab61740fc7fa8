import Logblock.BlockMap
import Logblock.Layers

/-! Histories of a block map: readers are pushed one after the other, and those that own no
block any more are removed. The owner of a block is always the reader pushed last among those
that hold it, whatever indexes were handed out again in between. -/
namespace Logblock
namespace BlockMap

open Loop Runs BlockHoleReader Reader Layers

variable {ρ β : Type} [DecidableEq ρ]

/-- The reader that was pushed last among those that hold the block `x`; `pushed` has the last
one first. -/
def owner (data : ρ → ℕ → Option β) (pushed : List ρ) (x : ℕ) : Option ρ :=
  pushed.find? fun br => (data br x).isSome

omit [DecidableEq ρ] in
theorem owner_cons (data : ρ → ℕ → Option β) (br : ρ) (pushed : List ρ) :
    owner data (br::pushed) = overlay br (data br) (owner data pushed) := by
  funext x
  by_cases hx : (data br x).isSome <;> simp [owner,overlay,hx]

omit [DecidableEq ρ] in
/-- The owner of a block was pushed and holds it. -/
theorem of_owner {data : ρ → ℕ → Option β} {pushed : List ρ} {x : ℕ} {br : ρ}
    (h : owner data pushed x = some br) : br ∈ pushed ∧ data br x ≠ none :=
  ⟨List.mem_of_find?_eq_some h,Option.isSome_iff_ne_none.mp (by simpa using List.find?_some h)⟩

omit [DecidableEq ρ] in
/-- The owner's content is the newest one. -/
theorem owner_bind (data : ρ → ℕ → Option β) (pushed : List ρ) (x : ℕ) :
    ((owner data pushed x).bind fun r => data r x) = newest data pushed x := by
  induction pushed with
  | nil => rfl
  | cons r pushed ih =>
    rw [owner_cons,overlay]
    cases hr : data r x with
    | none =>
      rw [newest_cons_of_none hr,← ih]
      rfl
    | some b =>
      rw [newest_cons_of_some hr]
      exact hr

/-- To take out a reader that owns no block changes no owner. -/
theorem owner_erase {data : ρ → ℕ → Option β} {br : ρ} {pushed : List ρ} {x : ℕ}
    (h : owner data pushed x ≠ some br) : owner data (pushed.erase br) x = owner data pushed x := by
  induction pushed with
  | nil => rfl
  | cons r pushed ih =>
    rw [owner_cons,overlay] at h
    rw [owner_cons,overlay]
    by_cases hr : r = br
    · subst hr
      rw [List.erase_cons_head]
      split_ifs at h ⊢ with hx
      · exact absurd rfl h
      · rfl
    · rw [List.erase_cons_tail (by simpa using hr),owner_cons,overlay]
      split_ifs at h ⊢ with hx
      · rfl
      · exact ih h

/-- Readers of a device that are pushed one after the other. -/
theorem Reader.Owned.foldlM_pushReader {ι : Type} (f : ι → ρ) {env : ρ → BlockHoleReader β}
    {data : ρ → ℕ → Option β} {numBlocks : ℕ} {l : List ι} {pushed : List ρ} {r r' : Reader ρ}
    (h : r.Owned (owner data pushed))
    (hbounded : ∀ i ∈ l, ((env (f i)).upTo numBlocks).Bounded (data (f i)))
    (hend : ∀ i ∈ l, ∀ x, numBlocks ≤ x → data (f i) x = none)
    (hr : l.foldlM (fun r i => r.pushReader env (f i)) r = .ok r') :
    r'.Owned (owner data ((l.map f).reverse++pushed)) ∧ r'.rs = r.rs++l.map f ∧
      r'.blockSize = r.blockSize := by
  induction l generalizing r pushed with
  | nil =>
    cases hr
    exact ⟨h,by simp,rfl⟩
  | cons i l ih =>
    rw [List.foldlM_cons] at hr
    obtain ⟨r₁,hr₁,hr⟩ := exists_bind hr
    rw [pushReader_upTo (hbounded i List.mem_cons_self) (hend i List.mem_cons_self)] at hr₁
    obtain ⟨hown,hrs,hsize⟩ := h.pushReader_ok (hbounded i List.mem_cons_self) hr₁
    rw [← owner_cons] at hown
    obtain ⟨hown',hrs',hsize'⟩ := ih hown (fun j hj => hbounded j (List.mem_cons_of_mem i hj))
      (fun j hj => hend j (List.mem_cons_of_mem i hj)) hr
    refine ⟨?_,?_,hsize'.trans hsize⟩
    · simpa using hown'
    · rw [hrs',hrs]
      simp

/-- The maps that come from calls of `PushReader` with new readers and calls of `RemoveTable` for
readers whose live count is 0. -/
inductive History (env : ρ → BlockHoleReader β) (blockSize numBlocks : ℕ) :
    List ρ → Reader ρ → Prop
  | new : History env blockSize numBlocks [] (.new blockSize numBlocks)
  | push {pushed : List ρ} {r r' : Reader ρ} {br : ρ} (h : History env blockSize numBlocks pushed r)
      (hbr : br ∉ pushed) (hlen : r.rs.length < 65535) (hr : r.pushReader env br = .ok r') :
      History env blockSize numBlocks (br::pushed) r'
  | remove {pushed : List ρ} {r r' : Reader ρ} {br : ρ} {live : LiveMap ρ}
      (h : History env blockSize numBlocks pushed r) (hbr : br ∈ r.rs)
      (hlive : r.getLiveBlocks = .ok live) (hzero : live.lookup (some br) = some 0)
      (hr : r.removeTable br = .ok r') : History env blockSize numBlocks pushed r'

/-- A reader whose live count is 0 owns no block. -/
theorem dead_of_live {r : Reader ρ} {own : ℕ → Option ρ} (h : r.Owned own) {br : ρ}
    (hbr : br ∈ r.rs) {live : LiveMap ρ} (hlive : r.getLiveBlocks = .ok live)
    (hzero : live.lookup (some br) = some 0) (x : ℕ) : own x ≠ some br := by
  obtain ⟨live',hlive',hcount,_⟩ := h.getLiveBlocks_eq
  rw [hlive] at hlive'
  cases hlive'
  have hnum : ownedBlocks own br = 0 := by
    have := hcount br hbr
    rw [hzero] at this
    exact (Option.some.inj this).symm
  exact h.ownedBlocks_eq_zero.mp hnum x

namespace History

variable {env : ρ → BlockHoleReader β} {data : ρ → ℕ → Option β} {blockSize numBlocks : ℕ}
  {pushed : List ρ} {r : Reader ρ}

/-- What every history keeps: the owners are those of the pushes alone. -/
theorem owned (hbounded : ∀ br, (env br).Bounded (data br))
    (h : History env blockSize numBlocks pushed r) :
    r.Owned (owner data pushed) ∧ (∀ br ∈ r.rs, br ∈ pushed) ∧ r.blockSize = blockSize := by
  induction h with
  | new => exact ⟨new_owned blockSize numBlocks,by simp [Reader.new],rfl⟩
  | push h hbr hlen hr ih =>
    obtain ⟨hown,hsub,hsize⟩ := ih
    obtain ⟨r'',hr'',hown',hrs,hsize'⟩ := hown.pushReader_eq (hbounded _) (fun hm => hbr (hsub _ hm))
      hlen
    rw [hr] at hr''
    cases hr''
    refine ⟨by rwa [owner_cons],fun b hb => ?_,hsize'.trans hsize⟩
    rw [hrs,List.mem_append,List.mem_singleton] at hb
    rcases hb with hb | rfl
    · exact List.mem_cons_of_mem _ (hsub b hb)
    · exact List.mem_cons_self
  | remove h hbr hlive hzero hr ih =>
    obtain ⟨hown,hsub,hsize⟩ := ih
    obtain ⟨iv,hr'',hown'⟩ := hown.removeTable_eq hbr (dead_of_live hown hbr hlive hzero)
    rw [hr] at hr''
    cases hr''
    exact ⟨hown',fun b hb => hsub b (List.mem_of_mem_erase hb),hsize⟩

theorem can_push (hbounded : ∀ br, (env br).Bounded (data br))
    (h : History env blockSize numBlocks pushed r) {br : ρ} (hbr : br ∉ pushed)
    (hlen : r.rs.length < 65535) :
    ∃ r', r.pushReader env br = .ok r' ∧ History env blockSize numBlocks (br::pushed) r' ∧
      r'.rs = r.rs++[br] := by
  obtain ⟨hown,hsub,_⟩ := h.owned hbounded
  obtain ⟨r',hr,_,hrs,_⟩ := hown.pushReader_eq (hbounded br) (fun hm => hbr (hsub br hm)) hlen
  exact ⟨r',hr,h.push hbr hlen hr,hrs⟩

/-- New readers are pushed one after the other. -/
theorem exists_foldlM (hbounded : ∀ br, (env br).Bounded (data br)) {l : List ρ}
    (h : History env blockSize numBlocks pushed r) (hnodup : (l.reverse++pushed).Nodup)
    (hlen : r.rs.length+l.length ≤ 65535) :
    ∃ r', l.foldlM (fun r br => r.pushReader env br) r = .ok r' ∧
      History env blockSize numBlocks (l.reverse++pushed) r' := by
  induction l generalizing pushed r with
  | nil => exact ⟨r,rfl,h⟩
  | cons br l ih =>
    rw [List.reverse_cons,List.append_assoc,List.singleton_append] at hnodup ⊢
    rw [List.length_cons] at hlen
    have hbr : br ∉ pushed := (List.nodup_cons.mp (List.nodup_append.mp hnodup).2.1).1
    obtain ⟨r₁,hr₁,h₁,hrs⟩ := h.can_push hbounded hbr (by omega)
    obtain ⟨r',hr',h'⟩ := ih h₁ hnodup (by rw [hrs,List.length_append,List.length_singleton]; omega)
    refine ⟨r',?_,h'⟩
    rw [List.foldlM_cons,hr₁]
    exact hr'

theorem can_remove (hbounded : ∀ br, (env br).Bounded (data br))
    (h : History env blockSize numBlocks pushed r) {br : ρ} (hbr : br ∈ r.rs)
    (hdead : ∀ x, owner data pushed x ≠ some br) :
    ∃ r', r.removeTable br = .ok r' ∧ History env blockSize numBlocks pushed r' ∧
      r'.rs = r.rs.erase br := by
  obtain ⟨hown,_,_⟩ := h.owned hbounded
  obtain ⟨live,hlive,hcount,_⟩ := hown.getLiveBlocks_eq
  obtain ⟨iv,hr,_⟩ := hown.removeTable_eq hbr hdead
  have hzero : live.lookup (some br) = some 0 := by
    rw [hcount br hbr,hown.ownedBlocks_eq_zero.mpr hdead]
  exact ⟨_,hr,h.remove hbr hlive hzero hr,rfl⟩

/-- In every history the lookups, the counts and the searches agree with the owner function of the
pushes, and no further push or removal panics. A read fills the blocks from their owners, or with
zeros, as far as no reader gives `io.EOF`; it fills all of them, for every buffer, exactly if no
read up to the end of an owner's run gives it. -/
theorem ownership (hb : 0 < blockSize) (hbounded : ∀ br, (env br).Bounded (data br))
    (h : History env blockSize numBlocks pushed r) :
    (∀ x, r.find x = owner data pushed x) ∧ (∀ x br, r.find x = some br → br ∈ r.rs) ∧
    (∃ live, r.getLiveBlocks = .ok live ∧
      (∀ br ∈ r.rs, live.lookup (some br) = some (ownedBlocks (owner data pushed) br)) ∧
      ∀ k, (∀ br ∈ r.rs, k ≠ some br) → live.lookup k = none) ∧
    r.liveBlocks = .ok (r.rs.map (ownedBlocks (owner data pushed))).sum ∧
    (∀ off, ∃ o, LeastFrom (fun x => owner data pushed x ≠ none) off o ∧
      r.nextBlockData off = .ok (match o with | some y => (y,none) | none => (0,some .eof))) ∧
    (∀ off, ∃ y, LeastFrom (fun x => owner data pushed x = none) off (some y) ∧
      r.nextBlockHole off = .ok (y,none)) ∧
    (∀ zero k off, ∃ res, r.readBlocks env zero (k*blockSize) off = .ok res ∧
      Ends env zero data (owner data pushed) off k res) ∧
    ((∀ zero k off, ∃ err, r.readBlocks env zero (k*blockSize) off =
        .ok ⟨(List.range' off k).map (served zero data (owner data pushed)),k,err⟩) ↔
      ∀ br a m, RunOf (owner data pushed) br a m (a+m+1) → ((env br).readBlocks m a).2 = none) ∧
    (∀ br, br ∉ pushed → r.rs.length < 65535 → ∃ r', r.pushReader env br = .ok r') ∧
    ∀ br ∈ r.rs, ownedBlocks (owner data pushed) br = 0 → ∃ r', r.removeTable br = .ok r' := by
  obtain ⟨hown,hsub,rfl⟩ := h.owned hbounded
  have hmeets : ∀ br ∈ r.rs, (env br).Meets (data br) := fun br _ => (hbounded br).toMeets
  have hheld : ∀ x br, owner data pushed x = some br → data br x ≠ none := 
    fun x br hx => (of_owner hx).2
  refine ⟨hown.find_eq,fun x br hx => ?_,hown.getLiveBlocks_eq,hown.liveBlocks_eq,
    hown.nextBlockData_eq,hown.nextBlockHole_eq,hown.readBlocks_ends hmeets hheld hb,
    hown.readBlocks_full_iff hmeets hheld hb,fun br hbr hlen => ?_,fun br hbr hzero => ?_⟩
  · exact hown.listed x br (hown.find_eq x ▸ hx)
  · obtain ⟨r',hr,_⟩ := h.can_push hbounded hbr hlen
    exact ⟨r',hr⟩
  · obtain ⟨r',hr,_⟩ := h.can_remove hbounded hbr (hown.ownedBlocks_eq_zero.mp hzero)
    exact ⟨r',hr⟩

/-- Two readers of the blocks 0 and 1, and further ones of the block 2. -/
def sampleBlocks : ℕ → List (Option ℕ)
  | 0 => [some 1,some 2]
  | 1 => [some 3,some 4]
  | n+2 => [none,none,some n]

/-- The first reader is removed, and the third one gets its index. -/
theorem ownership_of_reused_index : ∃ r : Reader ℕ,
    History (fun br => ofList (sampleBlocks br)) 512 8 [2,1,0] r ∧ r.rs = [1,2] ∧
    r.find 0 = some 1 ∧ r.find 2 = some 2 ∧
    ∃ err, r.readBlocks (fun br => ofList (sampleBlocks br)) 9 (4*512) 0 =
      .ok ⟨[3,4,0,9],4,err⟩ := by
  have hbounded : ∀ br, (ofList (sampleBlocks br)).Bounded
      fun x => (sampleBlocks br)[x]?.getD none := by
    intro br
    refine (ofList_clean _ ?_).toBounded
    match br with
    | 0 => decide
    | 1 => decide
    | n+2 => simp [sampleBlocks]
  obtain ⟨r₁,_,h₁,hrs₁⟩ := can_push hbounded (.new : History _ 512 8 [] _) (show 0 ∉ [] by simp)
    (by simp [Reader.new])
  obtain ⟨r₂,_,h₂,hrs₂⟩ := can_push hbounded h₁ (show 1 ∉ [0] by simp) (by simp [hrs₁,Reader.new])
  obtain ⟨r₃,_,h₃,hrs₃⟩ := can_remove hbounded h₂ (show 0 ∈ r₂.rs by simp [hrs₂,hrs₁,Reader.new])
    (by
      intro x
      match x with
      | 0 => decide
      | 1 => decide
      | x+2 => simp [owner,sampleBlocks])
  obtain ⟨r₄,_,h₄,hrs₄⟩ := can_push hbounded h₃ (show 2 ∉ [1,0] by simp)
    (by simp [hrs₃,hrs₂,hrs₁,Reader.new])
  obtain ⟨hfind,_,_,_,_,_,_,hread,_⟩ := ownership (by norm_num) hbounded h₄
  refine ⟨r₄,h₄,by simp [hrs₄,hrs₃,hrs₂,hrs₁,Reader.new],?_,?_,?_⟩
  · rw [hfind]
    decide
  · rw [hfind]
    decide
  · obtain ⟨err,heq⟩ := hread.mpr (fun _ _ _ _ => rfl) 9 4 0
    refine ⟨err,heq.trans ?_⟩
    rw [show (List.range' 0 4).map (served 9 (fun br x => (sampleBlocks br)[x]?.getD none)
      (owner (fun br x => (sampleBlocks br)[x]?.getD none) [2,1,0])) = [3,4,0,9] by decide]

/-- One block, the read of which says that it is the last one. -/
def lastBlock : BlockHoleReader ℕ := (ofList [some 1]).withEOF fun n off => decide (1 ≤ off+n)

/-- The hole behind the block is not cleared, and is missing in the count. -/
theorem not_full_of_eof : ∃ r : Reader ℕ, History (fun _ => lastBlock) 512 8 [0] r ∧
    lastBlock.Bounded (fun x => ([some 1] : List (Option ℕ))[x]?.getD none) ∧
    r.readBlocks (fun _ => lastBlock) 9 (2*512) 0 = .ok ⟨[1],1,some .eof⟩ := by
  have hbounded : lastBlock.Bounded fun x => ([some 1] : List (Option ℕ))[x]?.getD none :=
    (ofList_clean _ (by decide)).withEOF _
  obtain ⟨r,_,h,hrs⟩ := can_push (fun _ => hbounded) (.new : History (fun _ => lastBlock) 512 8 [] _)
    (show 0 ∉ [] by simp) (by simp [Reader.new])
  obtain ⟨hown,-,hsize⟩ := h.owned fun _ => hbounded
  refine ⟨r,h,hbounded,?_⟩
  have hfind₀ : r.find 0 = some 0 := by
    rw [hown.find_eq]
    decide
  have hfind₁ : r.find 1 = none := by
    rw [hown.find_eq]
    decide
  rw [Reader.readBlocks,hsize,if_neg (by decide),show 2*512/512 = 2 from rfl,run]
  simp only [readPass,hfind₀,sameReader,hfind₁]
  rfl

end History

end BlockMap
end Logblock
