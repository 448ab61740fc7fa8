import Logblock.BlockMapHistory

/-! A compaction of the write logs. `BuildCompactionReader` looks for tables of low utilisation,
takes those with the least live data first and stops once it has more than the limit. The logs are
laid over the live blocks of these tables, and the new table is built from that. -/
namespace Logblock
namespace Compaction

open Loop Layers BlockMap BlockHoleReader

variable {ρ : Type}

/-- `compactInfo`; its `utilisation` is read by nothing. -/
structure CompactInfo (ρ : Type) where
  df : ρ
  liveBytes : ℕ

/-- What `BuildCompactionReader` knows of the readers. The quotient of two `float64` is compared
with `minUtilisation` by `overUtilised`, for a table with its live bytes. -/
structure Options (ρ : Type) where
  blockSize : ℕ
  isTable : ρ → Bool
  overUtilised : ρ → ℕ → Bool
  maxCompactionBytes : ℤ

variable (o : Options ρ)

/-- The loop over `LiveBlocks`, whose entries come in any order. -/
def Options.compactInfos : List (Sigma fun _ : Option ρ => ℕ) → List (CompactInfo ρ)
  | [] => []
  | ⟨none,_⟩::es => compactInfos es
  | ⟨some r,blocks⟩::es =>
    let live := blocks*o.blockSize
    if ¬o.isTable r then compactInfos es
    else if o.overUtilised r live then compactInfos es
    else if blocks = 0 then compactInfos es
    else ⟨r,live⟩::compactInfos es

/-- The loop over the sorted tables, with `chosenTablesBytes`. -/
def Options.chooseTables : ℕ → List (CompactInfo ρ) → List ρ
  | _, [] => []
  | chosenTablesBytes, info::cis =>
    let chosenTablesBytes := chosenTablesBytes+info.liveBytes
    info.df::if chosenTablesBytes > o.maxCompactionBytes then []
      else chooseTables chosenTablesBytes cis

/-- The sort by live bytes. A stable sort of entries in any order gives every order in which
`sort.Slice` may leave them. -/
def sortInfos (cis : List (CompactInfo ρ)) : List (CompactInfo ρ) :=
  cis.insertionSort fun a b => a.liveBytes ≤ b.liveBytes

/-- The readers whose live blocks `BuildCompactionReader` returns. -/
def Options.buildCompactionReader (entries : List (Sigma fun _ : Option ρ => ℕ)) : List ρ :=
  o.chooseTables 0 (sortInfos (o.compactInfos entries))

/-- A table that may be chosen, with its live blocks. -/
structure Options.Candidate (live : ρ → ℕ) (rs : List ρ) (t : ρ) : Prop where
  mem : t ∈ rs
  table : o.isTable t = true
  utilised : o.overUtilised t (live t*o.blockSize) = false
  nonempty : live t ≠ 0

/-- The choice: as few of the emptiest candidates as exceed the limit, or all of them. -/
structure Options.Choice (live : ρ → ℕ) (rs chosen : List ρ) : Prop where
  nodup : chosen.Nodup
  candidate : ∀ t ∈ chosen, o.Candidate live rs t
  bounded : chosen.dropLast ≠ [] →
    ((chosen.dropLast.map fun t => live t*o.blockSize).sum : ℤ) ≤ o.maxCompactionBytes
  others : ∀ t, o.Candidate live rs t → t ∉ chosen →
    o.maxCompactionBytes < (chosen.map fun t => live t*o.blockSize).sum ∧
      ∀ t' ∈ chosen, live t' ≤ live t

variable {o}

/-- The entry of a table that may be chosen. -/
def Options.Listed (o : Options ρ) (e : Sigma fun _ : Option ρ => ℕ) (info : CompactInfo ρ) : Prop :=
  e.1 = some info.df ∧ o.isTable info.df = true ∧
    o.overUtilised info.df (e.2*o.blockSize) = false ∧ e.2 ≠ 0 ∧ info.liveBytes = e.2*o.blockSize

theorem compactInfos_cons (e : Sigma fun _ : Option ρ => ℕ)
    (es : List (Sigma fun _ : Option ρ => ℕ)) :
    (o.compactInfos (e::es) = o.compactInfos es ∧ ∀ info, ¬o.Listed e info) ∨
      ∃ info, o.compactInfos (e::es) = info::o.compactInfos es ∧
        ∀ info', o.Listed e info' ↔ info' = info := by
  obtain ⟨_ | r,blocks⟩ := e
  · exact .inl ⟨rfl,fun info h => by cases h.1⟩
  rw [Options.compactInfos]
  split_ifs with htable hover hzero
  · refine .inl ⟨rfl,fun info h => ?_⟩
    cases h.1
    rw [h.2.2.1] at hover
    cases hover
  · exact .inl ⟨rfl,fun info h => h.2.2.2.1 hzero⟩
  · refine .inr ⟨_,rfl,fun info => ⟨fun h => ?_,?_⟩⟩
    · obtain ⟨df,liveBytes⟩ := info
      obtain ⟨hdf,_,_,_,hlive⟩ := h
      cases hdf
      exact congrArg (CompactInfo.mk df) hlive
    · rintro rfl
      exact ⟨rfl,htable,Bool.eq_false_iff.mpr hover,hzero,rfl⟩
  · refine .inl ⟨rfl,fun info h => ?_⟩
    cases h.1
    exact htable h.2.1

theorem mem_compactInfos {entries : List (Sigma fun _ : Option ρ => ℕ)} {info : CompactInfo ρ} :
    info ∈ o.compactInfos entries ↔ ∃ e ∈ entries, o.Listed e info := by
  induction entries with
  | nil => simp [Options.compactInfos]
  | cons e es ih =>
    rw [List.exists_mem_cons_iff,← ih]
    rcases compactInfos_cons e es with ⟨heq,hnot⟩ | ⟨info',heq,hiff⟩
    · rw [heq,or_iff_right (hnot info)]
    · rw [heq,List.mem_cons,hiff]

theorem nodup_compactInfos {entries : List (Sigma fun _ : Option ρ => ℕ)}
    (h : entries.NodupKeys) : ((o.compactInfos entries).map CompactInfo.df).Nodup := by
  induction entries with
  | nil => exact List.nodup_nil
  | cons e es ih =>
    rw [List.nodupKeys_cons] at h
    rcases compactInfos_cons e es with ⟨heq,_⟩ | ⟨info,heq,hiff⟩
    · rw [heq]
      exact ih h.2
    · rw [heq,List.map_cons,List.nodup_cons]
      refine ⟨fun hmem => ?_,ih h.2⟩
      obtain ⟨info',hinfo',hdf⟩ := List.mem_map.mp hmem
      obtain ⟨e',he',hlisted⟩ := mem_compactInfos.mp hinfo'
      have hkey : e.1 = e'.1 := by
        rw [((hiff info).mpr rfl).1,hlisted.1,hdf]
      exact h.1 (hkey ▸ List.mem_keys_of_mem he')

theorem perm_sortInfos (cis : List (CompactInfo ρ)) : (sortInfos cis).Perm cis :=
  List.perm_insertionSort ..

theorem pairwise_sortInfos (cis : List (CompactInfo ρ)) :
    (sortInfos cis).Pairwise fun a b => a.liveBytes ≤ b.liveBytes := by
  have : Std.Total fun a b : CompactInfo ρ => a.liveBytes ≤ b.liveBytes :=
    ⟨fun a b => le_total a.liveBytes b.liveBytes⟩
  have : IsTrans (CompactInfo ρ) fun a b => a.liveBytes ≤ b.liveBytes :=
    ⟨fun _ _ _ => le_trans⟩
  exact List.pairwise_insertionSort ..

/-- The loop takes a first part of the tables. -/
theorem chooseTables_spec (cis : List (CompactInfo ρ)) (acc : ℕ) : ∃ front back,
    cis = front++back ∧ o.chooseTables acc cis = front.map CompactInfo.df ∧
      (front.dropLast ≠ [] →
        (acc+(front.dropLast.map CompactInfo.liveBytes).sum : ℕ) ≤ o.maxCompactionBytes) ∧
      (back ≠ [] → o.maxCompactionBytes < (acc+(front.map CompactInfo.liveBytes).sum : ℕ)) := by
  induction cis generalizing acc with
  | nil => exact ⟨[],[],rfl,rfl,fun h => absurd rfl h,fun h => absurd rfl h⟩
  | cons info cis ih =>
    rw [Options.chooseTables]
    split_ifs with hmax
    · refine ⟨[info],cis,rfl,rfl,fun h => absurd rfl h,fun _ => ?_⟩
      simpa using hmax
    · obtain ⟨front,back,rfl,heq,hbound,hrest⟩ := ih (acc+info.liveBytes)
      refine ⟨info::front,back,rfl,by rw [heq,List.map_cons],fun hne => ?_,fun hback => ?_⟩
      · cases front with
        | nil => exact absurd rfl hne
        | cons a as =>
          rw [List.dropLast_cons_cons,List.map_cons,List.sum_cons,← Nat.add_assoc]
          by_cases hnil : (a::as).dropLast = []
          · rw [hnil]
            simpa using hmax
          · exact hbound hnil
      · rw [List.map_cons,List.sum_cons,← Nat.add_assoc]
        exact hrest hback

section Spec

variable {live : ρ → ℕ} {rs : List ρ} {entries : List (Sigma fun _ : Option ρ => ℕ)}

/-- The tables of the loop are the candidates. -/
theorem mem_compactInfos_iff (hlive : ∀ r n, ⟨some r,n⟩ ∈ entries ↔ r ∈ rs ∧ n = live r)
    {info : CompactInfo ρ} : info ∈ o.compactInfos entries ↔
      o.Candidate live rs info.df ∧ info.liveBytes = live info.df*o.blockSize := by
  rw [mem_compactInfos]
  constructor
  · rintro ⟨⟨_,n⟩,he,rfl,htable,hover,hne,hbytes⟩
    obtain ⟨hmem,rfl⟩ := (hlive _ _).mp he
    exact ⟨⟨hmem,htable,hover,hne⟩,hbytes⟩
  · rintro ⟨hc,hbytes⟩
    exact ⟨_,(hlive info.df _).mpr ⟨hc.mem,rfl⟩,rfl,hc.table,hc.utilised,hc.nonempty,hbytes⟩

/-- The choice that is made when the entries are the live blocks of the readers `rs`. -/
theorem choice_of_entries (hbs : 0 < o.blockSize) (hnodup : entries.NodupKeys)
    (hlive : ∀ r n, ⟨some r,n⟩ ∈ entries ↔ r ∈ rs ∧ n = live r) :
    o.Choice live rs (o.buildCompactionReader entries) := by
  rw [Options.buildCompactionReader]
  have hperm := perm_sortInfos (o.compactInfos entries)
  have hsorted := pairwise_sortInfos (o.compactInfos entries)
  generalize sortInfos (o.compactInfos entries) = cis at hperm hsorted ⊢
  have hmem : ∀ info ∈ cis,
      o.Candidate live rs info.df ∧ info.liveBytes = live info.df*o.blockSize :=
    fun info hinfo => (mem_compactInfos_iff hlive).mp (hperm.mem_iff.mp hinfo)
  obtain ⟨front,back,rfl,heq,hbound,hrest⟩ := chooseTables_spec (o := o) cis 0
  have hfront : ∀ info ∈ front, info ∈ front++back := fun info => List.mem_append_left back
  have hbytes : ∀ l : List (CompactInfo ρ), (∀ info ∈ l, info ∈ front) →
      (l.map CompactInfo.df).map (fun t => live t*o.blockSize) = l.map CompactInfo.liveBytes := by
    intro l hl
    rw [List.map_map]
    exact List.map_congr_left fun info hinfo => (hmem info (hfront info (hl info hinfo))).2.symm
  rw [heq]
  refine ⟨?_,fun t ht => ?_,fun hne => ?_,fun t hc ht => ?_⟩
  · have := (hperm.map CompactInfo.df).nodup_iff.mpr (nodup_compactInfos hnodup)
    rw [List.map_append] at this
    exact this.of_append_left
  · obtain ⟨info,hinfo,rfl⟩ := List.mem_map.mp ht
    exact (hmem info (hfront info hinfo)).1
  · rw [← List.map_dropLast] at hne ⊢
    rw [hbytes _ fun info => List.mem_of_mem_dropLast]
    have := hbound fun hnil => hne (by rw [hnil,List.map_nil])
    rwa [Nat.zero_add] at this
  · -- a candidate that is not chosen stands behind those that are
    have hin : ⟨t,live t*o.blockSize⟩ ∈ back := by
      have : ⟨t,live t*o.blockSize⟩ ∈ front++back :=
        hperm.mem_iff.mpr ((mem_compactInfos_iff hlive).mpr ⟨hc,rfl⟩)
      refine (List.mem_append.mp this).resolve_left fun hf => ht ?_
      exact List.mem_map.mpr ⟨_,hf,rfl⟩
    constructor
    · rw [hbytes front fun _ h => h]
      have := hrest (List.ne_nil_of_mem hin)
      rwa [Nat.zero_add] at this
    · intro t' ht'
      obtain ⟨info,hinfo,rfl⟩ := List.mem_map.mp ht'
      have hle := (List.pairwise_append.mp hsorted).2.2 info hinfo _ hin
      rw [(hmem info (hfront info hinfo)).2] at hle
      exact Nat.le_of_mul_le_mul_right hle hbs

end Spec

section IndexReader

variable {β : Type} [DecidableEq ρ] (env : ρ → BlockHoleReader β) (zero : β)
  (blockSize numBlocks : ℕ)

/-- The readers of the block map that is compacted: the live blocks of the chosen tables, and the
logs. -/
def compactionEnv (live : Reader ρ) : Option ρ → BlockHoleReader β
  | none => live.blocks env zero
  | some r => env r

/-- The result of `BuildCompactionReader`; without a chosen table it is `nil`. -/
def compactionReader (primaryIndex : Reader ρ) (chosen : List ρ) : Exec (Reader ρ) :=
  if chosen = [] then .ok (.new blockSize numBlocks)
  else primaryIndex.readerForLiveBytes chosen

/-- The new block map with the reader of the chosen tables. -/
def pushChosen (chosen : List ρ) (live : Reader ρ) : Exec (Reader (Option ρ)) :=
  if chosen = [] then .ok (.new blockSize numBlocks)
  else (Reader.new blockSize numBlocks).pushReader (compactionEnv env zero live) none

/-- The reader of which `compactPendingWriters` builds the table. -/
def indexReader (primaryIndex : Reader ρ) (chosen logs : List ρ) : Exec (BlockHoleReader β) := do
  let live ← compactionReader blockSize numBlocks primaryIndex chosen
  let index ← pushChosen env zero blockSize numBlocks chosen live
  let index ← logs.foldlM
    (fun index r => index.pushReader (compactionEnv env zero live) (some r)) index
  .ok (index.blocks (compactionEnv env zero live) zero)

/-- The blocks of the readers that are compacted. -/
def compactionData (live : ℕ → Option β) (data : ρ → ℕ → Option β) : Option ρ → ℕ → Option β
  | none => live
  | some r => data r

/-- The live blocks of the chosen tables. -/
def chosenBlocks (data : ρ → ℕ → Option β) (registered chosen : List ρ) (x : ℕ) : Option β :=
  ((owner data registered x).filter (· ∈ chosen)).bind fun r => data r x

/-- The blocks that are compacted: those of the logs, the last of which is the newest, laid over
those of the chosen tables. -/
def compactedBlocks (data : ρ → ℕ → Option β) (registered chosen logs : List ρ) (x : ℕ) :
    Option β :=
  (newest data logs.reverse x).or (chosenBlocks data registered chosen x)

variable {env zero blockSize numBlocks} {data : ρ → ℕ → Option β} {registered chosen logs : List ρ}

theorem newest_of_chosenBlocks {x : ℕ} {v : β} (h : chosenBlocks data registered chosen x = some v) :
    newest data registered x = some v := by
  obtain ⟨r,ho,hr⟩ := Option.bind_eq_some_iff.mp h
  rw [← owner_bind,(Option.filter_eq_some_iff.mp ho).1]
  exact hr

theorem chosenBlocks_nil (x : ℕ) : chosenBlocks data registered [] x = none := by
  rw [chosenBlocks,Option.filter_eq_none_iff.mpr (by simp)]
  rfl

variable {primaryIndex : Reader ρ}

/-- The index of the chosen tables, which have the blocks they own in the whole index. -/
theorem exists_compactionReader (numBlocks : ℕ) (hown : primaryIndex.Owned (owner data registered))
    (hsize : primaryIndex.blockSize = blockSize) (hnodup : chosen.Nodup)
    (hchosen : ∀ t ∈ chosen, t ∈ primaryIndex.rs) :
    ∃ live, compactionReader blockSize numBlocks primaryIndex chosen = .ok live ∧
      live.Owned (fun x => (owner data registered x).filter (· ∈ chosen)) ∧ live.rs = chosen ∧
      live.blockSize = blockSize := by
  rw [compactionReader]
  split_ifs with hnil
  · have hnone : (fun x => (owner data registered x).filter (· ∈ chosen)) = fun _ => none := by
      funext x
      rw [hnil]
      exact Option.filter_eq_none_iff.mpr (by simp)
    rw [hnone]
    exact ⟨_,rfl,Reader.new_owned blockSize numBlocks,hnil.symm,rfl⟩
  · obtain ⟨live,hlive,hown',hrs,hsize'⟩ := hown.readerForLiveBytes_eq hchosen hnodup
    exact ⟨live,hlive,hown',hrs,hsize'.trans hsize⟩

/-- The reader of the chosen tables has their live blocks. -/
theorem compactionReader_clean {live : Reader ρ}
    (hown : live.Owned fun x => (owner data registered x).filter (· ∈ chosen))
    (hrs : live.rs = chosen) (hbs : 0 < live.blockSize)
    (hclean : ∀ r ∈ chosen, ((env r).upTo numBlocks).Clean (data r) ∧
      ∀ x, numBlocks ≤ x → data r x = none) :
    (live.blocks env zero).Clean (chosenBlocks data registered chosen) ∧
      ∀ x, numBlocks ≤ x → chosenBlocks data registered chosen x = none := by
  have hend : ∀ r ∈ live.rs, ∀ x, numBlocks ≤ x → data r x = none :=
    fun r hr => (hclean r (hrs ▸ hr)).2
  exact ⟨hown.blocks_clean (fun r hr => (hclean r (hrs ▸ hr)).1) hend
    (fun x r hr => (of_owner (Option.filter_eq_some_iff.mp hr).1).2) hbs _,hown.blocks_end hend⟩

/-- The new block map starts with the live blocks of the chosen tables. -/
theorem pushChosen_ok {live : Reader ρ} {blocks : ℕ → Option β} {index : Reader (Option ρ)}
    (hclean : (live.blocks env zero).Clean blocks) (hnil : chosen = [] → ∀ x, blocks x = none)
    (hindex : pushChosen env zero blockSize numBlocks chosen live = .ok index) :
    ∃ pushed, (∀ j ∈ pushed, j = none) ∧
      (∀ x, newest (compactionData blocks data) pushed x = blocks x) ∧ index.rs = pushed ∧
      index.blockSize = blockSize ∧ index.Owned (owner (compactionData blocks data) pushed) := by
  rw [pushChosen] at hindex
  split_ifs at hindex with hempty
  · cases hindex
    refine ⟨[],fun j hj => (by cases hj),fun x => ?_,rfl,rfl,Reader.new_owned blockSize numBlocks⟩
    rw [hnil hempty,newest_nil]
  · obtain ⟨hown,hrs,hsize⟩ := (Reader.new_owned blockSize numBlocks).pushReader_ok
      (show (compactionEnv env zero live none).Bounded blocks from hclean.toBounded) hindex
    refine ⟨[none],fun j hj => List.mem_singleton.mp hj,fun x => ?_,hrs,hsize,?_⟩
    · rw [newest_cons,newest_nil,Option.or_none]
      rfl
    · rw [owner_cons]
      exact hown

/-- The compacted blocks, each with its owner among the readers that are pushed. -/
theorem compactedBlocks_eq {pushed : List (Option ρ)}
    (hpushed : ∀ x, newest (compactionData (chosenBlocks data registered chosen) data) pushed x =
      chosenBlocks data registered chosen x) :
    compactedBlocks data registered chosen logs = fun x =>
      (owner (compactionData (chosenBlocks data registered chosen) data)
        ((logs.map some).reverse++pushed) x).bind
        fun j => compactionData (chosenBlocks data registered chosen) data j x := by
  funext x
  rw [owner_bind,← List.map_reverse,newest_append,newest_map,hpushed]
  rfl

/-- The reader of which the table is built has the blocks that are compacted. -/
theorem indexReader_blocks (hown : primaryIndex.Owned (owner data registered))
    (hsize : primaryIndex.blockSize = blockSize) (hbs : 0 < blockSize) (hnodup : chosen.Nodup)
    (hchosen : ∀ t ∈ chosen, t ∈ primaryIndex.rs)
    (hclean : ∀ r, r ∈ chosen ∨ r ∈ logs → ((env r).upTo numBlocks).Clean (data r) ∧
      ∀ x, numBlocks ≤ x → data r x = none) {reader : BlockHoleReader β}
    (hr : indexReader env zero blockSize numBlocks primaryIndex chosen logs = .ok reader) :
    reader.Clean (compactedBlocks data registered chosen logs) ∧
      ∀ x, numBlocks ≤ x → compactedBlocks data registered chosen logs x = none := by
  obtain ⟨live,hlive,hr⟩ := exists_bind hr
  obtain ⟨index,hindex,hr⟩ := exists_bind hr
  obtain ⟨index',hfold,hr⟩ := exists_bind hr
  cases hr
  obtain ⟨live',hlive',hown',hrs',hsize'⟩ :=
    exists_compactionReader numBlocks hown hsize hnodup hchosen
  rw [hlive] at hlive'
  cases hlive'
  obtain ⟨hblocks,hend⟩ := compactionReader_clean hown' hrs' (hsize' ▸ hbs)
    fun r hr => hclean r (.inl hr)
  obtain ⟨pushed,hnone,hpushed,hrs,hsize₀,hown₀⟩ := pushChosen_ok hblocks
    (by rintro rfl; exact chosenBlocks_nil) hindex
  have hlog : ∀ r ∈ logs, ((compactionEnv env zero live (some r)).upTo numBlocks).Clean
      (compactionData (chosenBlocks data registered chosen) data (some r)) ∧
      ∀ x, numBlocks ≤ x → compactionData (chosenBlocks data registered chosen) data (some r) x =
        none := fun r hr => hclean r (.inr hr)
  obtain ⟨hown₁,hrs₁,hsize₁⟩ := hown₀.foldlM_pushReader some (fun r hr => (hlog r hr).1.toBounded)
    (fun r hr => (hlog r hr).2) hfold
  have hall : ∀ j ∈ index'.rs, ((compactionEnv env zero live j).upTo numBlocks).Clean
      (compactionData (chosenBlocks data registered chosen) data j) ∧
      ∀ x, numBlocks ≤ x → compactionData (chosenBlocks data registered chosen) data j x =
        none := by
    intro j hj
    rw [hrs₁,hrs,List.mem_append] at hj
    rcases hj with hj | hj
    · rw [hnone j hj]
      exact ⟨hblocks.upTo hend,hend⟩
    · obtain ⟨r,hr,rfl⟩ := List.mem_map.mp hj
      exact hlog r hr
  rw [compactedBlocks_eq hpushed]
  exact ⟨hown₁.blocks_clean (fun j hj => (hall j hj).1) (fun j hj => (hall j hj).2)
    (fun x j hj => (of_owner hj).2) (by rw [hsize₁,hsize₀]; exact hbs) _,
    hown₁.blocks_end fun j hj => (hall j hj).2⟩

/-- The map can be started without a panic. -/
theorem exists_pushChosen {live : Reader ρ} {blocks : Option ρ → ℕ → Option β} (chosen : List ρ)
    (blockSize numBlocks : ℕ)
    (hbounded : ∀ j, (compactionEnv env zero live j).Bounded (blocks j)) :
    ∃ index pushed, pushChosen env zero blockSize numBlocks chosen live = .ok index ∧
      History (compactionEnv env zero live) blockSize numBlocks pushed index ∧
      (∀ j ∈ pushed, j = none) ∧ pushed.Nodup ∧ index.rs.length ≤ 1 := by
  rw [pushChosen]
  split_ifs with hnil
  · exact ⟨_,[],rfl,.new,by simp,List.nodup_nil,by simp [Reader.new]⟩
  · obtain ⟨index,hindex,hhistory,hrs⟩ := History.can_push hbounded
      (.new : History _ blockSize numBlocks [] _) (List.not_mem_nil (a := none))
      (by simp [Reader.new])
    exact ⟨index,[none],hindex,hhistory,by simp,List.nodup_singleton none,
      by simp [hrs,Reader.new]⟩

/-- The pushes into the new block map do not panic. -/
theorem exists_indexReader (zero : β) (hown : primaryIndex.Owned (owner data registered))
    (hsize : primaryIndex.blockSize = blockSize) (hbs : 0 < blockSize) (hnodup : chosen.Nodup)
    (hchosen : ∀ t ∈ chosen, t ∈ primaryIndex.rs) (hclean : ∀ r, (env r).Clean (data r))
    (hend : ∀ r x, numBlocks ≤ x → data r x = none) (hlogs : logs.Nodup)
    (hlen : logs.length < 65535) : ∃ reader,
      indexReader env zero blockSize numBlocks primaryIndex chosen logs = .ok reader := by
  obtain ⟨live,hlive,hown',hrs',hsize'⟩ :=
    exists_compactionReader numBlocks hown hsize hnodup hchosen
  obtain ⟨hblocks,-⟩ := compactionReader_clean hown' hrs' (hsize' ▸ hbs)
    fun r _ => ⟨(hclean r).upTo (hend r),hend r⟩
  have hbounded : ∀ j, (compactionEnv env zero live j).Bounded
      (compactionData (chosenBlocks data registered chosen) data j) := by
    intro j
    cases j with
    | none => exact hblocks.toBounded
    | some r => exact (hclean r).toBounded
  obtain ⟨index,pushed,hindex,hhistory,hnone,hpushed,hone⟩ :=
    exists_pushChosen chosen blockSize numBlocks hbounded
  have hdistinct : ((logs.map some).reverse++pushed).Nodup := by
    refine List.nodup_append.mpr ⟨List.nodup_reverse.mpr
      (hlogs.map (Option.some_injective ρ)),hpushed,?_⟩
    rintro j hj j' hj' rfl
    rw [hnone j hj'] at hj
    simp at hj
  obtain ⟨index',hfold,-⟩ := hhistory.exists_foldlM hbounded hdistinct
    (by rw [List.length_map]; omega)
  rw [List.foldlM_map] at hfold
  refine ⟨index'.blocks (compactionEnv env zero live) zero,?_⟩
  simp only [indexReader,hlive,hindex,hfold,bind,Except.bind]

end IndexReader

end Compaction
end Logblock
