import Logblock.Transition
import Logblock.BlockMapHistory

/-! The readers of a device, `tracker.Reader`. The merge loop moves pending readers into the block
map and a compaction replaces readers of the block map; both push readers, which registers a
reader in one critical section and indexes its ranges in later ones. Any number of goroutines
call the methods, and each critical section is one step. -/
namespace Logblock
namespace Tracker

open Loop BlockHoleReader BlockMap Relation

variable {ρ β : Type}

/-- `tracker.Reader`. The stack is rebuilt whenever one of the lists changes. -/
structure Reader (ρ : Type) where
  writers : List ρ
  pendingReaders : List ρ
  primaryIndex : BlockMap.Reader ρ
  compactionState : Option ℕ

namespace Reader

def new (blockSize numBlocks : ℕ) : Reader ρ := ⟨[],[],.new blockSize numBlocks,none⟩

def pushWriter (m : Reader ρ) (w : ρ) : Reader ρ := {m with writers := w::m.writers}

def removeWriter [DecidableEq ρ] (m : Reader ρ) (w : ρ) : Reader ρ :=
  {m with writers := m.writers.erase w}

def pushReader (m : Reader ρ) (r : ρ) : Reader ρ := {m with pendingReaders := r::m.pendingReaders}

/-- What `readerMergeLoop` copies once there are pending readers and no compaction, oldest
first. -/
def copyPending (m : Reader ρ) : Option (List ρ) :=
  if m.pendingReaders.isEmpty ∨ m.compactionState.isSome then none
  else some m.pendingReaders.reverse

def removeMerged [DecidableEq ρ] (m : Reader ρ) (rs : List ρ) : Reader ρ :=
  {m with pendingReaders := m.pendingReaders.filter (· ∉ rs)}

/-- The end of `StartCompaction` with success, which waits for the pending readers. -/
def startCompaction (m : Reader ρ) (i : ℕ) : Option (Reader ρ) :=
  if m.compactionState.isSome ∨ ¬m.pendingReaders.isEmpty then none
  else some {m with compactionState := some i}

def done (m : Reader ρ) : Reader ρ := {m with compactionState := none}

end Reader

/-- A call of `PushReader` of the block map between two of its critical sections. -/
structure Push (ρ : Type) where
  br : ρ
  iv : ℕ
  offset : ℕ
  rl : List Range

namespace Push

def start [DecidableEq ρ] (index : BlockMap.Reader ρ) (br : ρ) :
    Exec (BlockMap.Reader ρ × Push ρ) := do
  let (index,iv) ← index.register br
  .ok (index,⟨br,iv,0,[]⟩)

/-- The next extent of the reader, with the batch that it completes; the last pass ends the
call. -/
def pass (env : ρ → BlockHoleReader β) (p : Push ρ) (index : BlockMap.Reader ρ) :
    Exec (BlockMap.Reader ρ × Option (Push ρ)) :=
  match BlockMap.Reader.pushPass (env p.br) p.iv ⟨index,p.offset,p.rl⟩ with
  | .error e => .error e
  | .ok (.inl s) => .ok (s.map,some ⟨p.br,p.iv,s.offset,s.rl⟩)
  | .ok (.inr index) => .ok (index,none)

end Push

/-- Where the goroutine of `readerMergeLoop` is: waiting for readers, pushing the copied readers
`rs`, of which `todo` are left, or waiting for the active reads. -/
inductive MergePhase (ρ : Type)
  | waiting
  | merging (rs todo : List ρ) (push : Option (Push ρ))
  | draining

/-- Where the holder of a `CompactionState` is: between two calls, in `PushCompactedReader`, or in
the loop of `removeUnusedTables` with the counts that it has not looked at yet. -/
inductive HolderPhase (ρ : Type)
  | idle
  | pushing (p : Push ρ)
  | removing (live : BlockMap.Reader.LiveMap ρ)

def HolderPhase.push : HolderPhase ρ → Option (Push ρ)
  | .pushing p => some p
  | _ => none

/-- The holder after a pass that leaves the push `p`. -/
def HolderPhase.ofPush : Option (Push ρ) → HolderPhase ρ
  | none => .idle
  | some p => .pushing p

/-- The tracker with its goroutines. `holders` has the states that `StartCompaction` returned and
that are not done yet, and `registered` the readers in the order of their registration, the last
one first. -/
structure Config (ρ : Type) where
  reader : Reader ρ
  merge : MergePhase ρ
  holders : ℕ → Option (HolderPhase ρ)
  started : ℕ
  registered : List ρ

inductive Action (ρ : Type)
  | pushWriter (w : ρ)
  | removeWriter (w : ρ)
  | pushReader (r : ρ)
  | copyPending
  | mergeNext
  | mergePass
  | removeMerged
  | drained
  | startCompaction
  | pushCompacted (i : ℕ) (r : ρ)
  | compactedPass (i : ℕ)
  | countLive (i : ℕ)
  | removeUnused (i : ℕ) (r : ρ)
  | done (i : ℕ)

/-- A step of the merge loop or of a compaction, other than the push of a new table. -/
def Action.internal : Action ρ → Bool
  | .pushWriter _ | .removeWriter _ | .pushReader _ | .pushCompacted _ _ => false
  | _ => true

namespace Config

def new (blockSize numBlocks : ℕ) : Config ρ :=
  ⟨.new blockSize numBlocks,.waiting,fun _ => none,0,[]⟩

def setIndex (c : Config ρ) (index : BlockMap.Reader ρ) : Config ρ :=
  {c with reader := {c.reader with primaryIndex := index}}

def setHolder (c : Config ρ) (i : ℕ) (h : Option (HolderPhase ρ)) : Config ρ :=
  {c with holders := Function.update c.holders i h}

variable [DecidableEq ρ]

/-- A step, if it is enabled. -/
def step (env : ρ → BlockHoleReader β) (c : Config ρ) : Action ρ → Exec (Option (Config ρ))
  | .pushWriter w => .ok (some {c with reader := c.reader.pushWriter w})
  | .removeWriter w => .ok (some {c with reader := c.reader.removeWriter w})
  | .pushReader r => .ok (some {c with reader := c.reader.pushReader r})
  | .copyPending =>
    match c.merge with
    | .waiting => .ok (c.reader.copyPending.map fun rs => {c with merge := .merging rs rs none})
    | _ => .ok none
  | .mergeNext =>
    match c.merge with
    | .merging rs (r::todo) none => do
      let (index,p) ← Push.start c.reader.primaryIndex r
      .ok (some {c.setIndex index with
        merge := .merging rs todo (some p)
        registered := r::c.registered})
    | _ => .ok none
  | .mergePass =>
    match c.merge with
    | .merging rs todo (some p) => do
      let (index,p') ← p.pass env c.reader.primaryIndex
      .ok (some {c.setIndex index with merge := .merging rs todo p'})
    | _ => .ok none
  | .removeMerged =>
    match c.merge with
    | .merging rs [] none =>
      .ok (some {c with reader := c.reader.removeMerged rs, merge := .draining})
    | _ => .ok none
  | .drained =>
    match c.merge with
    | .draining => .ok (some {c with merge := .waiting})
    | _ => .ok none
  | .startCompaction =>
    .ok ((c.reader.startCompaction c.started).map fun m =>
      {c.setHolder c.started (some .idle) with reader := m, started := c.started+1})
  | .pushCompacted i r =>
    match c.holders i with
    | some .idle => do
      let (index,p) ← Push.start c.reader.primaryIndex r
      .ok (some {(c.setIndex index).setHolder i (some (.pushing p)) with
        registered := r::c.registered})
    | _ => .ok none
  | .compactedPass i =>
    match c.holders i with
    | some (.pushing p) => do
      let (index,p') ← p.pass env c.reader.primaryIndex
      .ok (some ((c.setIndex index).setHolder i (some (.ofPush p'))))
    | _ => .ok none
  | .countLive i =>
    match c.holders i with
    | some .idle => do
      let live ← c.reader.primaryIndex.getLiveBlocks
      .ok (some (c.setHolder i (some (.removing live))))
    | _ => .ok none
  | .removeUnused i r =>
    match c.holders i with
    | some (.removing live) =>
      if live.lookup (some r) = some 0 then do
        let index ← c.reader.primaryIndex.removeTable r
        .ok (some ((c.setIndex index).setHolder i (some (.removing (live.erase (some r))))))
      else .ok none
    | _ => .ok none
  | .done i =>
    match c.holders i with
    | some .idle | some (.removing _) =>
      .ok (some {c.setHolder i none with reader := c.reader.done})
    | _ => .ok none

def Step (env : ρ → BlockHoleReader β) (c c' : Config ρ) : Prop :=
  ∃ a, c.step env a = .ok (some c')

/-- What each step does. -/
inductive Moves (env : ρ → BlockHoleReader β) (c : Config ρ) : Action ρ → Config ρ → Prop
  | pushWriter (w : ρ) : Moves env c (.pushWriter w) {c with reader := c.reader.pushWriter w}
  | removeWriter (w : ρ) : Moves env c (.removeWriter w) {c with reader := c.reader.removeWriter w}
  | pushReader (r : ρ) : Moves env c (.pushReader r) {c with reader := c.reader.pushReader r}
  | copyPending (hm : c.merge = .waiting) (hp : c.reader.pendingReaders ≠ [])
      (hs : c.reader.compactionState = none) : Moves env c .copyPending {c with
        merge := .merging c.reader.pendingReaders.reverse c.reader.pendingReaders.reverse none}
  | mergeNext {rs todo : List ρ} {r : ρ} {index : BlockMap.Reader ρ} {p : Push ρ}
      (hm : c.merge = .merging rs (r::todo) none)
      (hstart : Push.start c.reader.primaryIndex r = .ok (index,p)) : Moves env c .mergeNext
        {c.setIndex index with merge := .merging rs todo (some p), registered := r::c.registered}
  | mergePass {rs todo : List ρ} {p : Push ρ} {index : BlockMap.Reader ρ} {p' : Option (Push ρ)}
      (hm : c.merge = .merging rs todo (some p))
      (hpass : p.pass env c.reader.primaryIndex = .ok (index,p')) :
      Moves env c .mergePass {c.setIndex index with merge := .merging rs todo p'}
  | removeMerged {rs : List ρ} (hm : c.merge = .merging rs [] none) :
      Moves env c .removeMerged {c with reader := c.reader.removeMerged rs, merge := .draining}
  | drained (hm : c.merge = .draining) : Moves env c .drained {c with merge := .waiting}
  | startCompaction (hs : c.reader.compactionState = none) (hp : c.reader.pendingReaders = []) :
      Moves env c .startCompaction {c.setHolder c.started (some .idle) with
        reader := {c.reader with compactionState := some c.started}
        started := c.started+1}
  | pushCompacted {i : ℕ} {r : ρ} {index : BlockMap.Reader ρ} {p : Push ρ}
      (hi : c.holders i = some .idle)
      (hstart : Push.start c.reader.primaryIndex r = .ok (index,p)) :
      Moves env c (.pushCompacted i r) {(c.setIndex index).setHolder i (some (.pushing p)) with
        registered := r::c.registered}
  | compactedPass {i : ℕ} {p : Push ρ} {index : BlockMap.Reader ρ} {p' : Option (Push ρ)}
      (hi : c.holders i = some (.pushing p))
      (hpass : p.pass env c.reader.primaryIndex = .ok (index,p')) :
      Moves env c (.compactedPass i) ((c.setIndex index).setHolder i (some (.ofPush p')))
  | countLive {i : ℕ} {live : BlockMap.Reader.LiveMap ρ} (hi : c.holders i = some .idle)
      (hlive : c.reader.primaryIndex.getLiveBlocks = .ok live) :
      Moves env c (.countLive i) (c.setHolder i (some (.removing live)))
  | removeUnused {i : ℕ} {r : ρ} {live : BlockMap.Reader.LiveMap ρ} {index : BlockMap.Reader ρ}
      (hi : c.holders i = some (.removing live)) (hzero : live.lookup (some r) = some 0)
      (hremove : c.reader.primaryIndex.removeTable r = .ok index) : Moves env c (.removeUnused i r)
        ((c.setIndex index).setHolder i (some (.removing (live.erase (some r)))))
  | done {i : ℕ} {ph : HolderPhase ρ} (hi : c.holders i = some ph) (hpush : ph.push = none) :
      Moves env c (.done i) {c.setHolder i none with reader := c.reader.done}

theorem step_moves {env : ρ → BlockHoleReader β} {c c' : Config ρ} {a : Action ρ}
    (hs : c.step env a = .ok (some c')) : Moves env c a c' := by
  cases a with
  | pushWriter w =>
    cases hs
    exact .pushWriter w
  | removeWriter w =>
    cases hs
    exact .removeWriter w
  | pushReader r =>
    cases hs
    exact .pushReader r
  | copyPending =>
    simp only [step] at hs
    split at hs
    · rename_i hm
      simp only [Except.ok.injEq,Option.map_eq_some_iff,Reader.copyPending] at hs
      obtain ⟨rs,hrs,rfl⟩ := hs
      split_ifs at hrs with hguard
      cases hrs
      simp only [not_or,Bool.not_eq_true,Option.isSome_eq_false_iff,Option.isNone_iff_eq_none,
        List.isEmpty_eq_false_iff] at hguard
      exact .copyPending hm hguard.1 hguard.2
    · cases hs
  | mergeNext =>
    simp only [step] at hs
    split at hs
    · rename_i rs r todo hm
      obtain ⟨⟨index,p⟩,hstart,hs⟩ := exists_bind hs
      cases hs
      exact .mergeNext hm hstart
    · cases hs
  | mergePass =>
    simp only [step] at hs
    split at hs
    · rename_i rs todo p hm
      obtain ⟨⟨index,p'⟩,hpass,hs⟩ := exists_bind hs
      cases hs
      exact .mergePass hm hpass
    · cases hs
  | removeMerged =>
    simp only [step] at hs
    split at hs
    · rename_i rs hm
      cases hs
      exact .removeMerged hm
    · cases hs
  | drained =>
    simp only [step] at hs
    split at hs
    · rename_i hm
      cases hs
      exact .drained hm
    · cases hs
  | startCompaction =>
    simp only [step,Except.ok.injEq,Option.map_eq_some_iff,Reader.startCompaction] at hs
    obtain ⟨m,hm,rfl⟩ := hs
    split_ifs at hm with hguard
    cases hm
    simp only [not_or,not_not,Bool.not_eq_true,Option.isSome_eq_false_iff,
      Option.isNone_iff_eq_none,List.isEmpty_iff] at hguard
    exact .startCompaction hguard.1 hguard.2
  | pushCompacted i r =>
    simp only [step] at hs
    split at hs
    · rename_i hi
      obtain ⟨⟨index,p⟩,hstart,hs⟩ := exists_bind hs
      cases hs
      exact .pushCompacted hi hstart
    · cases hs
  | compactedPass i =>
    simp only [step] at hs
    split at hs
    · rename_i p hi
      obtain ⟨⟨index,p'⟩,hpass,hs⟩ := exists_bind hs
      cases hs
      exact .compactedPass hi hpass
    · cases hs
  | countLive i =>
    simp only [step] at hs
    split at hs
    · rename_i hi
      obtain ⟨live,hlive,hs⟩ := exists_bind hs
      cases hs
      exact .countLive hi hlive
    · cases hs
  | removeUnused i r =>
    simp only [step] at hs
    split at hs
    · rename_i live hi
      split_ifs at hs with hzero
      · obtain ⟨index,hremove,hs⟩ := exists_bind hs
        cases hs
        exact .removeUnused hi hzero hremove
      · cases hs
    · cases hs
  | done i =>
    simp only [step] at hs
    split at hs
    · rename_i hi
      cases hs
      exact .done hi rfl
    · rename_i live hi
      cases hs
      exact .done hi rfl
    · cases hs

/-- The call of `PushReader` that is in progress on the primary index. -/
def push (c : Config ρ) : Option (Push ρ) :=
  match c.merge with
  | .merging _ _ p => p
  | _ =>
    match c.reader.compactionState with
    | none => none
    | some i =>
      match c.holders i with
      | some (.pushing p) => some p
      | _ => none

end Config

/-- The index has the owners of the registered readers. While a reader is pushed, the blocks that
it has below some offset are its own already. No reader has a block from `bound` on. -/
def Indexing (bound : ℕ) (data : ρ → ℕ → Option β) (registered : List ρ)
    (index : BlockMap.Reader ρ) : Option (Push ρ) → Prop
  | none => index.Owned (owner data registered)
  | some p => ∃ rest base, registered = p.br::rest ∧ base.indexMap p.br = some p.iv ∧
    BlockMap.Reader.Pushing base (owner data rest) p.br p.iv (data p.br) ⟨index,p.offset,p.rl⟩ ∧
    (∃ a ≤ p.offset, index.Owned fun x =>
      if x < a ∧ (data p.br x).isSome then some p.br else owner data rest x) ∧ p.offset ≤ bound

section Push

variable {bound : ℕ} {data : ρ → ℕ → Option β} {registered : List ρ}
  {index index' : BlockMap.Reader ρ}

theorem Indexing.start [DecidableEq ρ] (h : Indexing bound data registered index none) {r : ρ}
    {p : Push ρ} (hs : Push.start index r = .ok (index',p)) :
    Indexing bound data (r::registered) index' (some p) ∧ index'.rs = index.rs++[r] ∧
      index'.blockSize = index.blockSize := by
  rw [Push.start] at hs
  cases hreg : index.register r with
  | error e =>
    rw [hreg] at hs
    cases hs
  | ok out =>
    obtain ⟨index₁,iv⟩ := out
    rw [hreg] at hs
    simp only [bind,Except.bind,Except.ok.injEq,Prod.mk.injEq] at hs
    obtain ⟨rfl,rfl⟩ := hs
    obtain ⟨_,heq,hown⟩ := BlockMap.Reader.Owned.register_ok h hreg
    have hidx : index₁.indexMap r = some iv := by
      rw [heq]
      simp [BlockMap.Reader.assign]
    refine ⟨⟨registered,index₁,rfl,hidx,⟨⟨_,rfl⟩,Nat.zero_le _,?_⟩,⟨0,le_rfl,?_⟩,Nat.zero_le _⟩,
      by rw [heq]; rfl,by rw [heq]; rfl⟩
    · exact hown.congr fun x => by simp
    · exact hown.congr fun x => by simp

theorem Indexing.pass {env : ρ → BlockHoleReader β} {p : Push ρ} {p' : Option (Push ρ)}
    (h : Indexing bound data registered index (some p)) (hbounded : (env p.br).Bounded (data p.br))
    (hend : ∀ x, bound ≤ x → data p.br x = none) (hs : p.pass env index = .ok (index',p')) :
    Indexing bound data registered index' p' ∧ index'.rs = index.rs ∧
      index'.blockSize = index.blockSize := by
  obtain ⟨rest,base,hreg,hidx,hpush,⟨a,ha,hown⟩,_⟩ := h
  obtain ⟨m,hm⟩ := hpush.same
  rcases BlockMap.Reader.pushPass_spec hidx hbounded hpush with
    ⟨s,hpass,hpush',hlt⟩ | ⟨r',hpass,hown',m',hr'⟩
  · rw [Push.pass,hpass] at hs
    cases hs
    obtain ⟨m',hm'⟩ := hpush'.same
    simp only at hm
    refine ⟨⟨rest,base,hreg,hidx,hpush',?_,BlockMap.Reader.pushPass_offset hbounded hend hpass⟩,
      by rw [hm',hm],by rw [hm',hm]⟩
    · rcases BlockMap.Reader.pushPass_map hpass with hmap | hnil
      · simp only at hmap hlt ⊢
        exact ⟨a,by omega,hmap ▸ hown⟩
      · have := hpush'.owned
        rw [hnil] at this
        exact ⟨s.offset,le_rfl,this⟩
  · rw [Push.pass,hpass] at hs
    cases hs
    simp only at hm
    refine ⟨?_,by rw [hr',hm],by rw [hr',hm]⟩
    rw [hreg,Indexing,owner_cons]
    exact hown'

theorem Indexing.head_mem {p : Push ρ} (h : Indexing bound data registered index (some p)) :
    p.br ∈ registered := by
  obtain ⟨rest,_,hreg,_⟩ := h
  rw [hreg]
  exact List.mem_cons_self

end Push

/-- What every step keeps. -/
structure Inv [DecidableEq ρ] (blockSize bound : ℕ) (data : ρ → ℕ → Option β) (c : Config ρ) :
    Prop where
  index : Indexing bound data c.registered c.reader.primaryIndex c.push
  size : c.reader.primaryIndex.blockSize = blockSize
  listed : ∀ r ∈ c.reader.primaryIndex.rs, r ∈ c.registered
  copied : ∀ rs todo p, c.merge = .merging rs todo p → rs ≠ [] ∧
    (∀ r ∈ rs, r ∈ c.reader.pendingReaders) ∧ (∀ r ∈ todo, r ∈ rs) ∧
    c.reader.compactionState = none
  holder : ∀ i h, c.holders i = some h → c.reader.compactionState = some i
  dead : ∀ i live, c.holders i = some (.removing live) → ∀ r, live.lookup (some r) = some 0 →
    r ∈ c.reader.primaryIndex.rs ∧ ∀ x, owner data c.registered x ≠ some r

namespace Inv

variable [DecidableEq ρ] {blockSize bound : ℕ} {data : ρ → ℕ → Option β} {c c' : Config ρ}

theorem not_merging (h : Inv blockSize bound data c) {i : ℕ} {ph : HolderPhase ρ}
    (hi : c.holders i = some ph) (rs todo : List ρ) (p : Option (Push ρ)) : c.merge ≠ .merging rs todo p := by
  intro hm
  have hstate := (h.copied rs todo p hm).2.2.2
  rw [h.holder i ph hi] at hstate
  cases hstate

theorem eq_of_holder (h : Inv blockSize bound data c) {i j : ℕ} {ph ph' : HolderPhase ρ}
    (hi : c.holders i = some ph) (hj : c.holders j = some ph') : i = j := by
  have hstate := h.holder j ph' hj
  rw [h.holder i ph hi] at hstate
  exact Option.some.inj hstate

omit [DecidableEq ρ] in
theorem push_none (hm : ∀ rs todo p, c.merge ≠ .merging rs todo p)
    (hs : c.reader.compactionState = none) : c.push = none := by
  rw [Config.push]
  split
  · rename_i heq
    exact absurd heq (hm _ _ _)
  · rw [hs]

omit [DecidableEq ρ] in
theorem push_of_holder (hm : ∀ rs todo p, c.merge ≠ .merging rs todo p) {i : ℕ}
    (hs : c.reader.compactionState = some i) {ph : HolderPhase ρ} (hi : c.holders i = some ph) :
    c.push = ph.push := by
  rw [Config.push]
  split
  · rename_i heq
    exact absurd heq (hm _ _ _)
  · simp only [hs,hi]
    cases ph <;> rfl

omit [DecidableEq ρ] in
theorem indexing_of_none {registered : List ρ} {index : BlockMap.Reader ρ}
    (h : Indexing bound data registered index none) (hm : ∀ rs todo p, c.merge ≠ .merging rs todo p)
    (hs : c.reader.compactionState = none) : Indexing bound data registered index c.push := by
  rw [push_none hm hs]
  exact h

omit [DecidableEq ρ] in
theorem indexing_of_holder {registered : List ρ} {index : BlockMap.Reader ρ} {ph : HolderPhase ρ}
    (h : Indexing bound data registered index ph.push)
    (hm : ∀ rs todo p, c.merge ≠ .merging rs todo p) {i : ℕ}
    (hs : c.reader.compactionState = some i) (hi : c.holders i = some ph) :
    Indexing bound data registered index c.push := by
  rw [push_of_holder hm hs hi]
  exact h

theorem push_eq (h : Inv blockSize bound data c) {i : ℕ} {ph : HolderPhase ρ}
    (hi : c.holders i = some ph) : c.push = ph.push :=
  push_of_holder (h.not_merging hi) (h.holder i ph hi) hi

theorem new (numBlocks : ℕ) : Inv blockSize bound data (.new blockSize numBlocks) :=
  ⟨BlockMap.Reader.new_owned blockSize numBlocks,rfl,fun _ hr => (by cases hr),
    fun _ _ _ hm => (by cases hm),fun _ _ hi => (by cases hi),fun _ _ hi => (by cases hi)⟩

variable {env : ρ → BlockHoleReader β}

theorem move_copyPending (h : Inv blockSize bound data c) (hm : c.merge = .waiting)
    (hp : c.reader.pendingReaders ≠ []) (hs : c.reader.compactionState = none) :
    Inv blockSize bound data {c with
      merge := .merging c.reader.pendingReaders.reverse c.reader.pendingReaders.reverse none} := by
  have hindex := h.index
  rw [push_none (by simp [hm]) hs] at hindex
  refine ⟨hindex,h.size,h.listed,?_,h.holder,h.dead⟩
  rintro rs todo p ⟨rfl,rfl,rfl⟩
  exact ⟨by simpa using hp,fun r hr => by simpa using hr,fun r hr => hr,hs⟩

omit [DecidableEq ρ] in
theorem listed_snoc {registered : List ρ} {index index' : BlockMap.Reader ρ} {r : ρ}
    (h : ∀ r ∈ index.rs, r ∈ registered) (hrs : index'.rs = index.rs++[r]) :
    ∀ r' ∈ index'.rs, r' ∈ r::registered := by
  intro r' hr'
  rw [hrs] at hr'
  rcases List.mem_append.mp hr' with hr' | hr'
  · exact List.mem_cons_of_mem r (h r' hr')
  · rw [List.mem_singleton.mp hr']
    exact List.mem_cons_self

/-- No compaction is under way while the merge loop pushes. -/
theorem no_holder (h : Inv blockSize bound data c) {rs todo : List ρ} {p : Option (Push ρ)}
    (hm : c.merge = .merging rs todo p) (i : ℕ) : c.holders i = none := by
  by_contra hne
  obtain ⟨ph,hi⟩ := Option.ne_none_iff_exists'.mp hne
  exact h.not_merging hi rs todo p hm

theorem move_mergeNext (h : Inv blockSize bound data c) {rs todo : List ρ} {r : ρ}
    {index : BlockMap.Reader ρ} {p : Push ρ} (hm : c.merge = .merging rs (r::todo) none)
    (hstart : Push.start c.reader.primaryIndex r = .ok (index,p)) :
    Inv blockSize bound data {c.setIndex index with
      merge := .merging rs todo (some p), registered := r::c.registered} := by
  obtain ⟨hne,hpending,htodo,hstate⟩ := h.copied _ _ _ hm
  have hindex := h.index
  rw [show c.push = none by rw [Config.push,hm]] at hindex
  obtain ⟨hindex',hrs,hsize⟩ := hindex.start hstart
  refine ⟨hindex',hsize.trans h.size,listed_snoc h.listed hrs,?_,h.holder,fun i live hi => ?_⟩
  · rintro rs' todo' p' ⟨rfl,rfl,rfl⟩
    exact ⟨hne,hpending,fun r' hr' => htodo r' (List.mem_cons_of_mem r hr'),hstate⟩
  · have hnone := h.no_holder hm i
    rw [show c.holders i = _ from hi] at hnone
    cases hnone

theorem move_mergePass (h : Inv blockSize bound data c)
    (hbounded : ∀ r ∈ c.registered, (env r).Bounded (data r))
    (hend : ∀ r ∈ c.registered, ∀ x, bound ≤ x → data r x = none) {rs todo : List ρ} {p : Push ρ}
    {index : BlockMap.Reader ρ} {p' : Option (Push ρ)} (hm : c.merge = .merging rs todo (some p))
    (hpass : p.pass env c.reader.primaryIndex = .ok (index,p')) :
    Inv blockSize bound data {c.setIndex index with merge := .merging rs todo p'} := by
  have hindex := h.index
  rw [show c.push = some p by rw [Config.push,hm]] at hindex
  obtain ⟨hindex',hrs,hsize⟩ := hindex.pass (hbounded _ hindex.head_mem)
    (hend _ hindex.head_mem) hpass
  refine ⟨hindex',hsize.trans h.size,fun r hr => h.listed r (hrs ▸ hr),?_,h.holder,
    fun i live hi => ?_⟩
  · rintro rs' todo' p'' ⟨rfl,rfl,rfl⟩
    exact h.copied _ _ _ hm
  · have hnone := h.no_holder hm i
    rw [show c.holders i = _ from hi] at hnone
    cases hnone

theorem move_removeMerged (h : Inv blockSize bound data c) {rs : List ρ}
    (hm : c.merge = .merging rs [] none) : Inv blockSize bound data
      {c with reader := c.reader.removeMerged rs, merge := .draining} := by
  obtain ⟨_,_,_,hstate⟩ := h.copied _ _ _ hm
  have hindex := h.index
  rw [show c.push = none by rw [Config.push,hm]] at hindex
  refine ⟨?_,h.size,h.listed,fun _ _ _ hm => (by cases hm),h.holder,h.dead⟩
  exact indexing_of_none hindex (fun _ _ _ hm => (by cases hm)) hstate

theorem move_drained (h : Inv blockSize bound data c) (hm : c.merge = .draining) :
    Inv blockSize bound data {c with merge := .waiting} := by
  have hindex := h.index
  rw [Config.push,hm] at hindex
  exact ⟨hindex,h.size,h.listed,fun _ _ _ hm => (by cases hm),h.holder,h.dead⟩

/-- A compaction starts when there is no other, and no merge is under way since its readers would
be pending. -/
theorem move_startCompaction (h : Inv blockSize bound data c)
    (hstate : c.reader.compactionState = none) (hpending : c.reader.pendingReaders = []) :
    Inv blockSize bound data {c.setHolder c.started (some .idle) with
      reader := {c.reader with compactionState := some c.started}
      started := c.started+1} := by
  have hmerge : ∀ rs todo p, c.merge ≠ .merging rs todo p := by
    intro rs todo p hm
    obtain ⟨hne,hin,_⟩ := h.copied rs todo p hm
    obtain ⟨r,rs',rfl⟩ := List.exists_cons_of_ne_nil hne
    have := hin r List.mem_cons_self
    rw [hpending] at this
    cases this
  have hnone : ∀ i, c.holders i = none := by
    intro i
    by_contra hne
    obtain ⟨ph,hi⟩ := Option.ne_none_iff_exists'.mp hne
    have := h.holder i ph hi
    rw [hstate] at this
    cases this
  have hindex := h.index
  rw [push_none hmerge hstate] at hindex
  have hself : Function.update c.holders c.started (some HolderPhase.idle) c.started =
    some .idle := Function.update_self ..
  have honly : ∀ i ph, Function.update c.holders c.started (some HolderPhase.idle) i = some ph →
      i = c.started ∧ ph = .idle := by
    intro i ph hi
    rcases eq_or_ne i c.started with rfl | hne
    · rw [hself] at hi
      exact ⟨rfl,(Option.some.inj hi).symm⟩
    · rw [Function.update_of_ne hne,hnone] at hi
      cases hi
  refine ⟨indexing_of_holder (show Indexing bound data c.registered c.reader.primaryIndex
    (HolderPhase.push .idle) from hindex) hmerge rfl hself,h.size,h.listed,
    fun rs todo p hm => absurd hm (hmerge rs todo p),fun i ph hi => ?_,fun i live hi => ?_⟩
  · rw [(honly i ph hi).1]
  · cases (honly i _ hi).2

/-- A step of the holder `i` that leaves the merge loop alone. -/
theorem of_holder (h : Inv blockSize bound data c) {i : ℕ} {ph ph' : HolderPhase ρ}
    (hi : c.holders i = some ph) {index : BlockMap.Reader ρ} {registered : List ρ}
    (hindex : Indexing bound data registered index ph'.push) (hsize : index.blockSize = blockSize)
    (hlisted : ∀ r ∈ index.rs, r ∈ registered)
    (hdead : ∀ live, ph' = .removing live → ∀ r, live.lookup (some r) = some 0 →
      r ∈ index.rs ∧ ∀ x, owner data registered x ≠ some r) :
    Inv blockSize bound data
      {(c.setIndex index).setHolder i (some ph') with registered := registered} := by
  have hself : Function.update c.holders i (some ph') i = some ph' := Function.update_self ..
  have hother : ∀ j ph'', Function.update c.holders i (some ph') j = some ph'' → j = i := by
    intro j ph'' hj
    by_contra hne
    rw [Function.update_of_ne hne] at hj
    exact hne (h.eq_of_holder hj hi)
  refine ⟨indexing_of_holder hindex (h.not_merging hi) (h.holder i ph hi) hself,hsize,hlisted,
    fun rs todo p hm => absurd hm (h.not_merging hi rs todo p),fun j ph'' hj => ?_,
    fun j live hj => ?_⟩
  · rw [hother j ph'' hj]
    exact h.holder i ph hi
  · obtain rfl := hother j _ hj
    have hph : ph' = .removing live := Option.some.inj (hself.symm.trans hj)
    exact hdead live hph

theorem move_pushCompacted (h : Inv blockSize bound data c) {i : ℕ} {r : ρ}
    {index : BlockMap.Reader ρ} {p : Push ρ} (hi : c.holders i = some .idle)
    (hstart : Push.start c.reader.primaryIndex r = .ok (index,p)) : Inv blockSize bound data
      {(c.setIndex index).setHolder i (some (.pushing p)) with registered := r::c.registered} := by
  have hindex := h.index
  rw [h.push_eq hi] at hindex
  obtain ⟨hindex',hrs,hsize⟩ := Indexing.start hindex hstart
  exact h.of_holder hi hindex' (hsize.trans h.size) (listed_snoc h.listed hrs)
    fun live hph => (by cases hph)

theorem move_compactedPass (h : Inv blockSize bound data c)
    (hbounded : ∀ r ∈ c.registered, (env r).Bounded (data r))
    (hend : ∀ r ∈ c.registered, ∀ x, bound ≤ x → data r x = none) {i : ℕ} {p : Push ρ}
    {index : BlockMap.Reader ρ} {p' : Option (Push ρ)} (hi : c.holders i = some (.pushing p))
    (hpass : p.pass env c.reader.primaryIndex = .ok (index,p')) :
    Inv blockSize bound data ((c.setIndex index).setHolder i (some (.ofPush p'))) := by
  have hindex := h.index
  rw [h.push_eq hi] at hindex
  have hmem := Indexing.head_mem hindex
  obtain ⟨hindex',hrs,hsize⟩ := Indexing.pass hindex (hbounded _ hmem) (hend _ hmem) hpass
  refine h.of_holder hi ?_ (hsize.trans h.size) (fun r hr => h.listed r (hrs ▸ hr))
    fun live hph => ?_
  · cases p' with
    | none => exact hindex'
    | some p' => exact hindex'
  · cases p' with
    | none => cases hph
    | some p' => cases hph

/-- A count of 0 is that of a reader that owns no block, since nothing is being indexed. -/
theorem move_countLive (h : Inv blockSize bound data c) {i : ℕ}
    {live : BlockMap.Reader.LiveMap ρ} (hi : c.holders i = some .idle)
    (hlive : c.reader.primaryIndex.getLiveBlocks = .ok live) :
    Inv blockSize bound data (c.setHolder i (some (.removing live))) := by
  have hindex := h.index
  rw [h.push_eq hi] at hindex
  obtain ⟨live',hlive',hcount,hother⟩ := BlockMap.Reader.Owned.getLiveBlocks_eq hindex
  rw [hlive] at hlive'
  cases hlive'
  refine h.of_holder hi hindex h.size h.listed fun live' hph r hr => ?_
  cases hph
  have hmem : r ∈ c.reader.primaryIndex.rs := by
    by_contra hnot
    rw [hother (some r) fun br hbr he => hnot (Option.some.inj he ▸ hbr)] at hr
    cases hr
  exact ⟨hmem,dead_of_live hindex hmem hlive hr⟩

theorem move_removeUnused (h : Inv blockSize bound data c) {i : ℕ} {r : ρ}
    {live : BlockMap.Reader.LiveMap ρ} {index : BlockMap.Reader ρ}
    (hi : c.holders i = some (.removing live)) (hzero : live.lookup (some r) = some 0)
    (hremove : c.reader.primaryIndex.removeTable r = .ok index) : Inv blockSize bound data
      ((c.setIndex index).setHolder i (some (.removing (live.erase (some r))))) := by
  have hindex := h.index
  rw [h.push_eq hi] at hindex
  obtain ⟨hmem,hdead⟩ := h.dead i live hi r hzero
  obtain ⟨iv,hremove',hown⟩ := BlockMap.Reader.Owned.removeTable_eq hindex hmem hdead
  rw [hremove] at hremove'
  cases hremove'
  refine h.of_holder hi hown h.size (fun r' hr' => h.listed r' (List.mem_of_mem_erase hr'))
    fun live' hph r' hr' => ?_
  cases hph
  have hne : r' ≠ r := by
    rintro rfl
    rw [AList.lookup_erase] at hr'
    cases hr'
  rw [AList.lookup_erase_ne (by simpa using hne)] at hr'
  obtain ⟨hmem',hdead'⟩ := h.dead i live hi r' hr'
  exact ⟨(List.mem_erase_of_ne hne).mpr hmem',hdead'⟩

theorem move_done (h : Inv blockSize bound data c) {i : ℕ} {ph : HolderPhase ρ}
    (hi : c.holders i = some ph) (hpush : ph.push = none) :
    Inv blockSize bound data {c.setHolder i none with reader := c.reader.done} := by
  have hnone : ∀ j ph', Function.update c.holders i none j ≠ some ph' := by
    intro j ph' hj
    rcases eq_or_ne j i with rfl | hne
    · rw [Function.update_self] at hj
      cases hj
    · rw [Function.update_of_ne hne] at hj
      exact hne (h.eq_of_holder hj hi)
  have hindex := h.index
  rw [h.push_eq hi,hpush] at hindex
  exact ⟨indexing_of_none hindex (h.not_merging hi) rfl,h.size,h.listed,
    fun rs todo p hm => absurd hm (h.not_merging hi rs todo p),
    fun j ph' hj => absurd hj (hnone j ph'),fun j live hj => absurd hj (hnone j _)⟩

theorem move (h : Inv blockSize bound data c)
    (hbounded : ∀ r ∈ c.registered, (env r).Bounded (data r))
    (hend : ∀ r ∈ c.registered, ∀ x, bound ≤ x → data r x = none) {a : Action ρ}
    (hs : c.Moves env a c') : Inv blockSize bound data c' := by
  cases hs with
  | pushWriter w => exact ⟨h.index,h.size,h.listed,h.copied,h.holder,h.dead⟩
  | removeWriter w => exact ⟨h.index,h.size,h.listed,h.copied,h.holder,h.dead⟩
  | pushReader r =>
    refine ⟨h.index,h.size,h.listed,fun rs todo p hm => ?_,h.holder,h.dead⟩
    obtain ⟨hne,hin,hrest⟩ := h.copied rs todo p hm
    exact ⟨hne,fun r' hr' => List.mem_cons_of_mem r (hin r' hr'),hrest⟩
  | copyPending hm hp hs => exact h.move_copyPending hm hp hs
  | mergeNext hm hstart => exact h.move_mergeNext hm hstart
  | mergePass hm hpass => exact h.move_mergePass hbounded hend hm hpass
  | removeMerged hm => exact h.move_removeMerged hm
  | drained hm => exact h.move_drained hm
  | startCompaction hs hp => exact h.move_startCompaction hs hp
  | pushCompacted hi hstart => exact h.move_pushCompacted hi hstart
  | compactedPass hi hpass => exact h.move_compactedPass hbounded hend hi hpass
  | countLive hi hlive => exact h.move_countLive hi hlive
  | removeUnused hi hzero hremove => exact h.move_removeUnused hi hzero hremove
  | done hi hpush => exact h.move_done hi hpush

/-- The owners depend on the registered readers only. -/
theorem congr (h : Inv blockSize bound data c) {data' : ρ → ℕ → Option β}
    (hsame : ∀ r ∈ c.registered, data' r = data r) : Inv blockSize bound data' c := by
  have howner : ∀ l : List ρ, (∀ r ∈ l, r ∈ c.registered) → owner data' l = owner data l := by
    intro l hl
    funext x
    exact List.find?_congr fun r hr => by rw [hsame r (hl r hr)]
  refine ⟨?_,h.size,h.listed,h.copied,h.holder,fun i live hi r hr => ?_⟩
  · have hindex := h.index
    cases hp : c.push with
    | none =>
      rw [hp] at hindex
      rw [Indexing,howner _ fun r hr => hr]
      exact hindex
    | some p =>
      rw [hp] at hindex
      have hbr := hsame p.br (Indexing.head_mem hindex)
      obtain ⟨rest,base,hreg,hidx,hpush,hown,hle⟩ := hindex
      have hrest := howner rest fun r hr => hreg ▸ List.mem_cons_of_mem _ hr
      refine ⟨rest,base,hreg,hidx,?_,?_,hle⟩
      · rw [hrest,hbr]
        exact hpush
      · rw [hrest,hbr]
        exact hown
  · rw [howner _ fun r hr => hr]
    exact h.dead i live hi r hr

/-- What the index shows has an owner that is registered and holds the block. -/
theorem exists_owned (h : Inv blockSize bound data c) : ∃ own,
    c.reader.primaryIndex.Owned own ∧
      ∀ x r, own x = some r → r ∈ c.registered ∧ data r x ≠ none := by
  have hindex := h.index
  cases hp : c.push with
  | none =>
    rw [hp] at hindex
    exact ⟨_,hindex,fun x r => of_owner⟩
  | some p =>
    rw [hp] at hindex
    obtain ⟨rest,base,hreg,hidx,hpush,⟨a,_,hown⟩,hle⟩ := hindex
    refine ⟨_,hown,fun x r hx => ?_⟩
    rw [hreg]
    split_ifs at hx with hin
    · cases hx
      exact ⟨List.mem_cons_self,Option.isSome_iff_ne_none.mp hin.2⟩
    · obtain ⟨hmem,hne⟩ := of_owner hx
      exact ⟨List.mem_cons_of_mem _ hmem,hne⟩

/-- The steps ask no reader beyond the bound of all their blocks. -/
theorem step_upTo (h : Inv blockSize bound data c)
    (hbounded : ∀ r ∈ c.registered, ((env r).upTo bound).Bounded (data r))
    (hend : ∀ r ∈ c.registered, ∀ x, bound ≤ x → data r x = none) (a : Action ρ) :
    c.step env a = c.step (fun r => (env r).upTo bound) a := by
  have hpass : ∀ p, c.push = some p →
      p.pass env c.reader.primaryIndex = p.pass (fun r => (env r).upTo bound)
        c.reader.primaryIndex := by
    intro p hp
    have hindex := h.index
    rw [hp] at hindex
    have hmem := Indexing.head_mem hindex
    obtain ⟨_,_,_,_,_,_,hle⟩ := hindex
    rw [Push.pass,Push.pass,BlockMap.Reader.pushPass_upTo (hbounded _ hmem) (hend _ hmem) p.iv hle]
  cases a with
  | mergePass =>
    simp only [Config.step]
    split
    · rename_i rs todo p hm
      rw [hpass p (by rw [Config.push,hm])]
    · rfl
  | compactedPass i =>
    simp only [Config.step]
    split
    · rename_i p hi
      rw [hpass p (h.push_eq hi)]
    · rfl
  | _ => rfl

theorem of_run (hbounded : ∀ r, (env r).Bounded (data r)) {numBlocks : ℕ}
    (h : ReflTransGen (Config.Step env) (.new blockSize numBlocks) c) :
    Inv blockSize (2^63-1) data c :=
  Transition.invariant (fun _ _ hinv ⟨_,hs⟩ => hinv.move (fun r _ => hbounded r)
    (fun r _ => (hbounded r).small) (Config.step_moves hs)) (new numBlocks) h

end Inv

section Exclusion

variable [DecidableEq ρ] {data : ρ → ℕ → Option β} {env : ρ → BlockHoleReader β} {c : Config ρ}

/-- Every block of a registered reader has an owner, the last registered reader that holds it. -/
def Config.AllIndexed (data : ρ → ℕ → Option β) (c : Config ρ) : Prop :=
  (∀ x, c.reader.primaryIndex.find x = owner data c.registered x) ∧
    ∀ r ∈ c.reader.primaryIndex.rs, r ∈ c.registered ∧
      ∀ x, data r x ≠ none → c.reader.primaryIndex.find x ≠ none

/-- Merges and compactions exclude each other: there is one `CompactionState` at most, with no
merge between its copy and its removal of pending readers. All the listed readers are indexed when
their blocks are counted, and all the blocks of a reader that is removed have another owner. -/
structure Config.Exclusive (env : ρ → BlockHoleReader β) (data : ρ → ℕ → Option β) (c : Config ρ) :
    Prop where
  one : ∀ i j, c.holders i ≠ none → c.holders j ≠ none → i = j
  unmerged : ∀ i, c.holders i ≠ none → ∀ rs todo p, c.merge ≠ .merging rs todo p
  counted : ∀ i c', c.step env (.countLive i) = .ok (some c') → c.AllIndexed data
  removed : ∀ i r c', c.step env (.removeUnused i r) = .ok (some c') →
    ∀ x, data r x ≠ none → ∃ r', r' ≠ r ∧ c.reader.primaryIndex.find x = some r'

omit [DecidableEq ρ] in
theorem owner_ne_none {registered : List ρ} {r : ρ} (hr : r ∈ registered) {x : ℕ}
    (hx : data r x ≠ none) : owner data registered x ≠ none := by
  rw [owner,ne_eq,List.find?_eq_none]
  intro hall
  exact hall r hr (Option.isSome_iff_ne_none.mpr hx)

theorem Inv.allIndexed {blockSize bound : ℕ} (h : Inv blockSize bound data c) {i : ℕ}
    {ph : HolderPhase ρ} (hi : c.holders i = some ph) (hpush : ph.push = none) : c.AllIndexed data := by
  have hindex := h.index
  rw [h.push_eq hi,hpush] at hindex
  have hfind := BlockMap.Reader.Owned.find_eq hindex
  refine ⟨hfind,fun r hr => ⟨h.listed r hr,fun x hx => ?_⟩⟩
  rw [hfind]
  exact owner_ne_none (h.listed r hr) hx

/-- The pending list is not empty as long as its readers are merged, and a compaction starts only
when it is. -/
theorem exclusive {blockSize numBlocks : ℕ} (hbounded : ∀ r, (env r).Bounded (data r))
    (h : ReflTransGen (Config.Step env) (.new blockSize numBlocks) c) : c.Exclusive env data := by
  have hinv := Inv.of_run hbounded h
  refine ⟨fun i j hi hj => ?_,fun i hi => ?_,fun i c' hs => ?_,fun i r c' hs x hx => ?_⟩
  · obtain ⟨ph,hi⟩ := Option.ne_none_iff_exists'.mp hi
    obtain ⟨ph',hj⟩ := Option.ne_none_iff_exists'.mp hj
    exact hinv.eq_of_holder hi hj
  · obtain ⟨ph,hi⟩ := Option.ne_none_iff_exists'.mp hi
    exact hinv.not_merging hi
  · cases Config.step_moves hs with
    | countLive hi hlive => exact hinv.allIndexed hi rfl
  · cases Config.step_moves hs with
    | removeUnused hi hzero hremove =>
      obtain ⟨hmem,hdead⟩ := hinv.dead i _ hi r hzero
      obtain ⟨hfind,hall⟩ := hinv.allIndexed hi rfl
      obtain ⟨r',hr'⟩ := Option.ne_none_iff_exists'.mp ((hall r hmem).2 x hx)
      refine ⟨r',?_,hr'⟩
      rintro rfl
      rw [hfind] at hr'
      exact hdead x hr'

end Exclusion

/-- Two readers with one block each, the same one. -/
def oneBlock (n : ℕ) : BlockHoleReader ℕ := .ofList [some n]

/-- The first reader is merged, a compaction pushes the second one and counts. -/
def compactOnce : List (Action ℕ) :=
  [.pushReader 0,.copyPending,.mergeNext,.mergePass,.mergePass,.removeMerged,.drained,
    .startCompaction,.pushCompacted 0 1,.compactedPass 0,.compactedPass 0,.countLive 0]

theorem exclusive_while_compacting : ∃ c,
    ReflTransGen (Config.Step oneBlock) (.new 512 4) c ∧ c.holders 0 ≠ none ∧
      c.Exclusive oneBlock fun n x => ([some n] : List (Option ℕ))[x]?.getD none := by
  have hrun : (Transition.after (Config.step oneBlock) (.new 512 4) compactOnce).map
      (fun o => o.map fun c => (c.holders 0).isSome) = .ok (some true) := by
    decide +kernel
  obtain ⟨o,ho,hf⟩ := exists_of_map hrun
  obtain ⟨c,rfl,hc⟩ := Option.map_eq_some_iff.mp hf
  obtain ⟨_,htrace⟩ : ∃ ms, Transition.Trace (Config.Step oneBlock) _ ms c :=
    Transition.trace_of_after (fun _ a _ hs => ⟨a,hs⟩) ho
  exact ⟨c,htrace.run,Option.isSome_iff_ne_none.mp hc,
    exclusive (fun n => (ofList_clean [some n] (by simp)).toBounded) htrace.run⟩

end Tracker
end Logblock
