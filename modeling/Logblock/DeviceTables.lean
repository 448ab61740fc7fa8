import Logblock.Compaction
import Logblock.DeviceContent
import Logblock.TableFile

/-! The device down to the bytes of its tables. A compaction chooses its tables with
`BuildCompactionReader`, writes the bytes of `BuildFromReader` and opens what `Load` makes of them.
Nothing is assumed of the table that comes out: that it reads back what went in is proved. -/
namespace Logblock

open Loop Transition BlockHoleReader BlockMap Tracker Layers BlockLog Readers

variable {σ : Type}

/-- How a device makes its tables: the encoding of their headers, the external `truncatedreader`,
and the options of the choice of tables. -/
structure TableOptions where
  codec : Sparse.HeaderCodec
  truncated : Sparse.Reader → ℕ → ℕ → ℤ → Exec (List UInt8 × Option Error)
  truncates : ∀ sf size, TableFile.Truncates sf size (truncated sf size)
  overUtilised : ℕ → ℕ → Bool
  targetTableSize : ℤ

/-- The blocks of a log have the size of the device's. -/
def Backend.Sized (b : Backend σ) (Holds : σ → (ℕ → Option (List UInt8)) → Prop) : Prop :=
  ∀ s data, Holds s data → ∀ x v, data x = some v → v.length = b.blockSize

theorem walBackend_sized {codec : Wal.Codec} {rf : Option ℕ} {blockSize numBlocks : ℕ} :
    (walBackend codec rf blockSize numBlocks).Sized
      (LogHolds codec blockSize numBlocks Wal.ReadsLike) := by
  rintro l data ⟨ops,-,-,rfl⟩ x v hv
  rw [blockAt] at hv
  split_ifs at hv
  cases hv
  simp [walBackend]

namespace Device

section Methods

variable (b : Backend σ) (t : TableOptions) (d : Device σ)

/-- The type switch of `BuildCompactionReader`. -/
def isTable (i : ℕ) : Bool :=
  match d.files i with
  | .log _ => false
  | .table _ => true

def compactionOptions : Compaction.Options ℕ where
  blockSize := b.blockSize
  isTable := d.isTable
  overUtilised := t.overUtilised
  maxCompactionBytes := t.targetTableSize

/-- The tables that `BuildCompactionReader` chooses, in some order of the entries of the map. -/
def Chooses (chosen : List ℕ) : Prop :=
  ∃ live entries, d.tracker.reader.primaryIndex.getLiveBlocks = .ok live ∧
    entries.Perm live.entries ∧ chosen = (d.compactionOptions b t).buildCompactionReader entries

/-- The bytes of the file that `compactToFile` writes. -/
def compactToFile (chosen : List ℕ) : Exec (Except Error (List UInt8)) := do
  let reader ← d.indexReader b chosen
  Sparse.buildFromReader (TableFile.holeReader b.blockSize reader) b.blockSize t.codec none

/-- `NewSparseBlockFromReader` on a file with these bytes. -/
def openTableFile (file : List UInt8) : Exec (Except Error (BlockHoleReader (List UInt8))) := do
  match ← Sparse.load t.codec file with
  | .error e => .ok (.error e)
  | .ok sf => .ok (.ok (TableFile.dataFile b.blockSize sf
      (t.truncated sf (b.numBlocks*b.blockSize))))

/-- What the goroutine of `compactWriter` does; it opens the file that it has written. -/
def Performs : DeviceAction → Prop
  | .build chosen r => d.Chooses b t chosen ∧ ∃ file,
    d.compactToFile b t chosen = .ok (.ok file) ∧ openTableFile b t file = .ok (.ok r)
  | _ => True

end Methods

/-- The device is reached with tables that it has made itself. -/
inductive Runs (b : Backend σ) (t : TableOptions) : List BlockWrite → Device σ → Prop
  | new : Runs b t [] (.new b)
  | write {ws : List BlockWrite} {d d' : Device σ} (w : BlockWrite) {n : ℕ} {err : Option Error} :
      Runs b t ws d → w.InRange b → d.writeBlocks b w.buf w.index = .ok (d',n,err) →
      Runs b t (if err = none then w::ws else ws) d'
  | step {ws : List BlockWrite} {d d' : Device σ} (a : DeviceAction) :
      Runs b t ws d → d.Performs b t a → d.step b a = .ok (some d') → Runs b t ws d'

/-- The tables have blocks of the size of the device's. -/
def TablesSized (b : Backend σ) (d : Device σ) : Prop :=
  ∀ i < d.created, ∀ r, d.files i = .table r → ∀ data, (r.upTo b.numBlocks).Clean data →
    ∀ x v, data x = some v → v.length = b.blockSize

section Choice

variable {b : Backend σ} {InUse Holds : σ → (ℕ → Option (List UInt8)) → Prop}
  {data : ℕ → ℕ → Option (List UInt8)} {ws : List BlockWrite} {d : Device σ} {t : TableOptions}

theorem isTable_eq_true {i : ℕ} : d.isTable i = true ↔ ∃ r, d.files i = .table r := by
  rw [isTable]
  cases d.files i <;> simp

theorem Inv.choice (h : Inv b InUse Holds data ws d) (hbs : 0 < b.blockSize) {i : ℕ}
    (hp : d.phase = .compacting i) {chosen : List ℕ} (hc : d.Chooses b t chosen) :
    (d.compactionOptions b t).Choice
      (BlockMap.Reader.ownedBlocks d.tracker.reader.primaryIndex.find)
      d.tracker.reader.primaryIndex.rs chosen := by
  obtain ⟨live,entries,hlive,hperm,rfl⟩ := hc
  have hown := h.owned_compacting hp
  obtain ⟨live',hlive',hcount,hother⟩ := hown.getLiveBlocks_eq
  rw [hlive] at hlive'
  cases hlive'
  have hfind : d.tracker.reader.primaryIndex.find = owner data d.tracker.registered :=
    funext hown.find_eq
  have hnodup : entries.NodupKeys := by
    rw [List.perm_nodupKeys hperm]
    exact live.nodupKeys
  refine Compaction.choice_of_entries hbs hnodup fun r n => ?_
  rw [hperm.mem_iff,← AList.mem_lookup_iff,hfind,Option.mem_def]
  by_cases hr : r ∈ d.tracker.reader.primaryIndex.rs
  · rw [hcount r hr,Option.some_inj]
    exact ⟨fun h => ⟨hr,h.symm⟩,fun h => h.2.symm⟩
  · rw [hother (some r) fun br hbr he => hr (Option.some.inj he ▸ hbr)]
    simp [hr]

end Choice

section Steps

variable {b : Backend σ} {InUse Holds : σ → (ℕ → Option (List UInt8)) → Prop}
  {data : ℕ → ℕ → Option (List UInt8)} {ws : List BlockWrite} {d d' : Device σ} {t : TableOptions}

/-- Every block that the index shows has the size of the device's. -/
theorem Inv.sized (h : Inv b InUse Holds data ws d) (hsized : b.Sized Holds)
    (htables : TablesSized b d) {i : ℕ} (hi : i < d.created) {x : ℕ} {v : List UInt8}
    (hv : data i x = some v) : v.length = b.blockSize := by
  have hfile := h.files i hi
  cases hf : d.files i with
  | log s =>
    rw [hf] at hfile
    exact hsized s _ hfile x v hv
  | table r =>
    rw [hf] at hfile
    exact htables i hi r hf _ hfile.1 x v hv

/-- The blocks that are compacted. -/
theorem Inv.exists_blocks (h : Inv b InUse Holds data ws d) (hkeeps : b.Keeps InUse Holds)
    (hsized : b.Sized Holds) (htables : TablesSized b d) (hbs : 0 < b.blockSize) {i : ℕ}
    (hp : d.phase = .compacting i) {chosen : List ℕ} (hc : d.Chooses b t chosen)
    {reader : BlockHoleReader (List UInt8)} (hr : d.indexReader b chosen = .ok reader) :
    ∃ blocks, reader.Clean blocks ∧ TableFile.OnDevice b.blockSize b.numBlocks blocks := by
  have hchoice := h.choice hbs hp hc
  obtain ⟨hclean,hend⟩ := h.indexReader_blocks hkeeps hbs (h.owned_compacting hp) hchoice.nodup
    (fun k hk => (hchoice.candidate k hk).mem) hr
  refine ⟨_,hclean,fun x v hv => ?_,hend⟩
  obtain ⟨j,hj,hv⟩ := List.exists_of_findSome?_eq_some (h.newest_of_compactedBlocks hp hv)
  exact h.sized hsized htables (h.registered_lt hj) hv

theorem openTableFile_eq_ok {file : List UInt8} {r : BlockHoleReader (List UInt8)}
    (h : openTableFile b t file = .ok (.ok r)) : ∃ sf, Sparse.load t.codec file = .ok (.ok sf) ∧
      r = TableFile.dataFile b.blockSize sf (t.truncated sf (b.numBlocks*b.blockSize)) := by
  obtain ⟨o,hload,h⟩ := exists_bind h
  cases o with
  | error e => cases h
  | ok sf =>
    cases h
    exact ⟨sf,hload,rfl⟩

/-- The table that is opened has the blocks that were compacted. -/
theorem Inv.opened_clean (h : Inv b InUse Holds data ws d) (hkeeps : b.Keeps InUse Holds)
    (hsized : b.Sized Holds) (htables : TablesSized b d) (hlow : 512 ≤ b.blockSize)
    (hhigh : b.blockSize ≤ 2^20) (hblocks : b.numBlocks ≤ 2^27) {i : ℕ}
    (hp : d.phase = .compacting i) {chosen : List ℕ} {r reader : BlockHoleReader (List UInt8)}
    (hperforms : d.Performs b t (.build chosen r)) (hr : d.indexReader b chosen = .ok reader) :
    ∃ blocks, reader.Clean blocks ∧ TableFile.OnDevice b.blockSize b.numBlocks blocks ∧
      (r.upTo b.numBlocks).Clean blocks := by
  obtain ⟨hc,file,hfile,hopen⟩ := hperforms
  obtain ⟨sf,hload,rfl⟩ := openTableFile_eq_ok hopen
  obtain ⟨blocks,hclean,hd⟩ := h.exists_blocks hkeeps hsized htables (by omega) hp hc hr
  rw [compactToFile,hr] at hfile
  exact ⟨blocks,hclean,hd,TableFile.clean_of_built t.codec hclean hd hlow hhigh hblocks hfile hload
    (t.truncates sf _)⟩

/-- A new file is the last one. -/
theorem files_addFile_eq_table {f : DataFile σ} {i : ℕ} (hi : i < d.created+1)
    {r : BlockHoleReader (List UInt8)} (hf : (d.addFile f).files i = .table r) :
    (i < d.created ∧ d.files i = .table r) ∨ f = .table r := by
  rcases eq_or_ne i d.created with rfl | hne
  · have hself : (d.addFile f).files d.created = f := Function.update_self ..
    exact .inr (hself.symm.trans hf)
  · exact .inl ⟨by omega,(Function.update_of_ne hne ..).symm.trans hf⟩

/-- A step keeps the tables, and a compaction adds one. -/
theorem Moves.tables {a : DeviceAction} (hmoves : d.Moves b a d') {i : ℕ} (hi : i < d'.created)
    {r : BlockHoleReader (List UInt8)} (hf : d'.files i = .table r) :
    (i < d.created ∧ d.files i = .table r) ∨ ∃ chosen, a = .build chosen r := by
  cases hmoves with
  | pushWriter hp =>
    rcases files_addFile_eq_table hi hf with h | h
    · exact .inl h
    · cases h
  | pushNewLog hp => exact .inl ⟨hi,hf⟩
  | @closeWriter j fault s hlog hj =>
    rcases eq_or_ne i j with rfl | hne
    · cases (Function.update_self ..).symm.trans hf
    · exact .inl ⟨hi,(Function.update_of_ne hne ..).symm.trans hf⟩
  | build hp hr =>
    rcases files_addFile_eq_table hi hf with h | h
    · exact .inl h
    · cases h
      exact .inr ⟨_,rfl⟩
  | removePending hp _ => exact .inl ⟨hi,hf⟩
  | track hnext hs => exact .inl ⟨hi,hf⟩

theorem TablesSized.write (h : TablesSized b d) {buf : List UInt8} {index n : ℕ}
    {err : Option Error} (hcall : d.writeBlocks b buf index = .ok (d',n,err)) :
    TablesSized b d' := by
  rw [writeBlocks] at hcall
  split at hcall
  · next s hs =>
    obtain ⟨⟨s',n',err'⟩,_,hcall⟩ := exists_bind hcall
    cases hcall
    intro i hi r hf
    rcases eq_or_ne i d.activeWriter with rfl | hne
    · cases (Function.update_self ..).symm.trans hf
    · exact h i hi r ((Function.update_of_ne hne ..).symm.trans hf)
  · cases hcall

end Steps

section Run

variable {b : Backend σ} {InUse Holds : σ → (ℕ → Option (List UInt8)) → Prop}
  {ws : List BlockWrite} {d d' : Device σ} {t : TableOptions}

/-- A device that makes its own tables keeps to what was assumed of compacted tables. -/
theorem Runs.reached (hkeeps : b.Keeps InUse Holds) (hsized : b.Sized Holds)
    (hlow : 512 ≤ b.blockSize) (hhigh : b.blockSize ≤ 2^20) (hblocks : b.numBlocks ≤ 2^27)
    (h : Runs b t ws d) : Reached b ws d ∧ TablesSized b d := by
  have hbs : 0 < b.blockSize := by omega
  induction h with
  | new => exact ⟨.new,fun i _ r hf => by cases hf⟩
  | write w _ hw hcall ih => exact ⟨ih.1.write w hw hcall,ih.2.write hcall⟩
  | @step ws d d' a _ hperforms hs ih =>
    obtain ⟨hreached,htables⟩ := ih
    obtain ⟨data,hinv⟩ := Inv.of_reached hkeeps hbs hreached
    have hmoves := step_moves hs
    -- the table that is opened has the blocks of the reader it was built from
    have hback : ∀ chosen r, a = .build chosen r → ∃ i, d.phase = .compacting i ∧
        ∃ reader blocks, d.indexReader b chosen = .ok reader ∧ reader.Clean blocks ∧
          TableFile.OnDevice b.blockSize b.numBlocks blocks ∧ (r.upTo b.numBlocks).Clean blocks := by
      rintro chosen r rfl
      cases hmoves with
      | @build _ _ reader i hp hr =>
        obtain ⟨blocks,hblocks⟩ := hinv.opened_clean hkeeps hsized htables hlow hhigh hblocks hp
          hperforms hr
        exact ⟨i,hp,reader,blocks,hr,hblocks⟩
    refine ⟨hreached.step a ?_ hs,fun i hi r hf blocks' hclean' => ?_⟩
    · cases a with
      | build chosen r =>
        obtain ⟨i,hp,reader,blocks,hr,hclean,_,hclean'⟩ := hback chosen r rfl
        have hchoice := hinv.choice hbs hp hperforms.1
        refine ⟨hchoice.nodup,fun k hk => ?_,fun reader' hr' => ?_⟩
        · exact ⟨(hchoice.candidate k hk).mem,isTable_eq_true.mp (hchoice.candidate k hk).table⟩
        · rw [hr] at hr'
          cases hr'
          exact ⟨blocks,hclean,hclean'⟩
      | _ => trivial
    · rcases hmoves.tables hi hf with ⟨hlt,hold⟩ | ⟨chosen,rfl⟩
      · exact htables i hlt r hold blocks' hclean'
      · obtain ⟨_,_,_,blocks,_,_,hd,hclean⟩ := hback chosen r rfl
        rw [hclean'.unique hclean]
        exact hd.size

end Run

/-- Tables with the header of the wire format, which are read without truncation. Every table with a
live block may be chosen. -/
def wireTables : TableOptions where
  codec := Sparse.wireCodec
  truncated sf _ := sf.readAt
  truncates _ _ _ _ _ _ h := h
  overUtilised _ _ := false
  targetTableSize := 0

section Sample

variable (b : Backend σ) (t : TableOptions)

/-- The log 0 is replaced by the log 1, merged into the index and closed. -/
def rotation : List DeviceAction :=
  [.pushWriter,.pushNewLog,.track (.pushReader 0),.track .copyPending,.track .mergeNext,
    .track .mergePass,.track (.removeWriter 0),.track .mergePass,.track .removeMerged,.track .drained,
    .closeWriter 0 none,.track .startCompaction]

/-- The table 2 takes the place of the log 0. -/
def replacement : List DeviceAction :=
  [.track (.pushCompacted 0 2),.track (.compactedPass 0),.track (.compactedPass 0),.removePending,
    .track (.countLive 0),.track (.removeUnused 0 0),.track (.done 0)]

/-- The table is built and opened, with the entries of the map in their own order. -/
def buildTable (d : Device σ) : Exec (Option (Device σ)) := do
  let live ← d.tracker.reader.primaryIndex.getLiveBlocks
  let chosen := (d.compactionOptions b t).buildCompactionReader live.entries
  match ← d.compactToFile b t chosen with
  | .error _ => .ok none
  | .ok file =>
    match ← openTableFile b t file with
    | .error _ => .ok none
    | .ok r => d.step b (.build chosen r)

/-- A run through one rotation and one compaction, with a write before it and one after it. -/
def compactionRun (w w' : BlockWrite) :
    Exec (Option (Device σ × Option Error × Option Error)) := do
  let (d,_,err) ← (new b).writeBlocks b w.buf w.index
  match ← after (step b) d rotation with
  | none => .ok none
  | some d =>
    match ← d.buildTable b t with
    | none => .ok none
    | some d =>
      match ← after (step b) d replacement with
      | none => .ok none
      | some d =>
        let (d,_,err') ← d.writeBlocks b w'.buf w'.index
        .ok (some (d,err,err'))

variable {b t} {ws : List BlockWrite} {d d' : Device σ}

/-- Steps other than the building of a table. -/
theorem Runs.after (h : Runs b t ws d) {as : List DeviceAction}
    (has : ∀ chosen r, .build chosen r ∉ as)
    (hs : Transition.after (Device.step b) d as = .ok (some d')) : Runs b t ws d' := by
  refine invariant_after (Q := Runs b t ws) (fun a ha _ _ h hstep => h.step a ?_ hstep) h hs
  cases a with
  | build chosen r => exact absurd ha (has chosen r)
  | _ => trivial

theorem Runs.buildTable (h : Runs b t ws d) (hs : d.buildTable b t = .ok (some d')) :
    Runs b t ws d' := by
  obtain ⟨live,hlive,hs⟩ := exists_bind hs
  obtain ⟨o,hfile,hs⟩ := exists_bind hs
  cases o with
  | error e => cases hs
  | ok file =>
    obtain ⟨o,hopen,hs⟩ := exists_bind hs
    cases o with
    | error e => cases hs
    | ok r =>
      exact h.step (.build _ r) ⟨⟨live,live.entries,hlive,List.Perm.refl _,rfl⟩,file,hfile,hopen⟩ hs

theorem runs_compactionRun {w w' : BlockWrite} (hw : w.InRange b) (hw' : w'.InRange b)
    (h : compactionRun b t w w' = .ok (some (d,none,none))) : Runs b t [w',w] d := by
  obtain ⟨⟨d₁,n₁,err₁⟩,h₁,h⟩ := exists_bind h
  obtain ⟨o₂,h₂,h⟩ := exists_bind h
  cases o₂ with
  | none => cases h
  | some d₂ =>
    obtain ⟨o₃,h₃,h⟩ := exists_bind h
    cases o₃ with
    | none => cases h
    | some d₃ =>
      obtain ⟨o₄,h₄,h⟩ := exists_bind h
      cases o₄ with
      | none => cases h
      | some d₄ =>
        obtain ⟨⟨d₅,n₅,err₅⟩,h₅,h⟩ := exists_bind h
        cases h
        have hrotated : Runs b t [w] d₂ :=
          (Runs.new.write w hw h₁).after (by simp [rotation]) h₂
        exact ((hrotated.buildTable h₃).after (by simp [replacement]) h₄).write w' hw' h₅

end Sample

/-- Such a run of a device with write-ahead logs. -/
theorem exists_compacted : ∃ d,
    Runs (walBackend Wal.wireCodec none 512 4) wireTables [.fill 512 9 2,.fill 512 7 1] d ∧
    Reached (walBackend Wal.wireCodec none 512 4) [.fill 512 9 2,.fill 512 7 1] d ∧
    d.created = 3 := by
  have hrun : (compactionRun (walBackend Wal.wireCodec none 512 4) wireTables (.fill 512 7 1)
      (.fill 512 9 2)).map (fun o => o.map fun p => (p.1.created,p.2)) =
        .ok (some (3,none,none)) := by
    decide +kernel
  obtain ⟨o,ho,hf⟩ := exists_of_map hrun
  obtain ⟨⟨d,err,err'⟩,rfl,hd⟩ := Option.map_eq_some_iff.mp hf
  simp only [Prod.mk.injEq] at hd
  obtain ⟨hcreated,rfl,rfl⟩ := hd
  have hruns := runs_compactionRun (BlockWrite.fill_inRange (by decide) 7 (by decide))
    (BlockWrite.fill_inRange (by decide) 9 (by decide)) ho
  have hkeeps := walBackend_keeps Wal.wireCodec none (show 0 < 512 by decide)
    (show 4*512 < 2^63 by decide)
  exact ⟨d,hruns,(hruns.reached hkeeps walBackend_sized (by decide) (by decide) (by decide)).1,
    hcreated⟩

/-- In every state that a run reaches, each block reads as the payload of the last write that
covered it, or as zeros. -/
theorem reads_last_write {b : Backend σ} {InUse Holds : σ → (ℕ → Option (List UInt8)) → Prop}
    {ws : List BlockWrite} {d : Device σ} (hkeeps : b.Keeps InUse Holds) (hbs : 0 < b.blockSize)
    (h : Reached b ws d) {i : ℕ} (hi : i < b.numBlocks) :
    d.readBlocks b b.blockSize i =
      .ok ⟨[(lastWritten b ws i).getD (zeroBlock b)],1,none⟩ := by
  obtain ⟨data,hinv⟩ := Inv.of_reached hkeeps hbs h
  have hread := hinv.readBlocks_eq hkeeps hbs 1 i
  rw [Nat.one_mul,show min 1 (b.numBlocks-i) = 1 by omega] at hread
  exact hread

/-- A block that was compacted, one written since, and one that was never written. -/
theorem reads_last_write_after_compaction : ∃ d,
    Runs (walBackend Wal.wireCodec none 512 4) wireTables [.fill 512 9 2,.fill 512 7 1] d ∧
    d.created = 3 ∧
    d.readBlocks (walBackend Wal.wireCodec none 512 4) 512 0 = .ok ⟨[List.replicate 512 0],1,none⟩ ∧
    d.readBlocks (walBackend Wal.wireCodec none 512 4) 512 1 = .ok ⟨[List.replicate 512 7],1,none⟩ ∧
    d.readBlocks (walBackend Wal.wireCodec none 512 4) 512 2 =
      .ok ⟨[List.replicate 512 9],1,none⟩ := by
  obtain ⟨d,hruns,hreached,hcreated⟩ := exists_compacted
  have hread : ∀ {i : ℕ}, i < 4 → _ := fun hi => reads_last_write
    (walBackend_keeps Wal.wireCodec none (show 0 < 512 by decide) (show 4*512 < 2^63 by decide))
    (by decide) hreached hi
  exact ⟨d,hruns,hcreated,(hread (show 0 < 4 by decide)).trans (by decide +kernel),
    (hread (show 1 < 4 by decide)).trans (by decide +kernel),
    (hread (show 2 < 4 by decide)).trans (by decide +kernel)⟩

end Device
end Logblock
