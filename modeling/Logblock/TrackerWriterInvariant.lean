import Logblock.TrackerWriter

/-! What every step of `tracker.Writer` keeps: each context belongs to one call, a log that was
taken out of its place is waited for by a barrier, and what a log got is what its writes did. -/
namespace Logblock
namespace TrackerWriter

open Loop Transition Volume Relation

variable {β : Type}

def LogCall.number : LogCall β → Option ℕ
  | .writeBlocks n _ => some n
  | _ => none

/-- The writes among the calls of a log. -/
def writeNumbers (h : List (LogCall β)) : List ℕ := h.filterMap LogCall.number

theorem writeNumbers_append (h h' : List (LogCall β)) :
    writeNumbers (h++h') = writeNumbers h++writeNumbers h' := List.filterMap_append

theorem mem_writeNumbers {h : List (LogCall β)} {n : ℕ} :
    n ∈ writeNumbers h ↔ ∃ w, .writeBlocks n w ∈ h := by
  rw [writeNumbers,List.mem_filterMap]
  constructor
  · rintro ⟨k,hk,hn⟩
    cases k with
    | writeBlocks m w =>
      cases hn
      exact ⟨w,hk⟩
    | flush | closeWriter | close => cases hn
  · rintro ⟨w,hw⟩
    exact ⟨_,hw,rfl⟩

namespace Config

def captures (c : Config β) : List (Capture β) := c.writes.map WriteCall.toCapture

/-- The logs that were taken out of their place, with the call of the barrier that waits for the
writes to them. -/
def retirements (c : Config β) : List (ℕ × ℕ) :=
  c.pushes.map (fun p => (p.oldWriter,p.barrier))++
    (c.closes.map fun k => (k.oldWriter,k.barrier)).filterMap fun k => k.1.map fun l => (l,k.2)

/-- The contexts of the barrier of the active log that were given to a call. -/
def activeContexts (c : Config β) : List ℕ :=
  c.captures.map (·.context)++c.flushes.filterMap (·.activeContext)

variable {c c' : Config β} {logs : ℕ → TrackedWriter β} {blockSize : ℕ} {a : Action β}

@[simp] theorem captures_setWrite (n : ℕ) (phase : WritePhase) :
    (c.setWrite n phase).captures = c.captures := map_modify_of_eq fun _ => rfl

@[simp] theorem captures_setResult (n : ℕ) (phase : WritePhase) (r : ℕ × Option Error) :
    (c.setResult n phase r).captures = c.captures := map_modify_of_eq fun _ => rfl

@[simp] theorem retirements_setPush (n : ℕ) (phase : PushPhase) :
    (c.setPush n phase).retirements = c.retirements := by
  have hmap := map_modify_of_eq (l := c.pushes) (n := n) (g := fun p => (p.oldWriter,p.barrier))
    (f := fun k => {k with phase := phase}) fun _ => rfl
  simp only [retirements,setPush,hmap]

@[simp] theorem retirements_setClose (n : ℕ) (phase : ClosePhase) :
    (c.setClose n phase).retirements = c.retirements := by
  have hmap := map_modify_of_eq (l := c.closes) (n := n) (g := fun k => (k.oldWriter,k.barrier))
    (f := fun k => {k with phase := phase}) fun _ => rfl
  simp only [retirements,setClose,hmap]

theorem history_call_self (l : ℕ) (k : LogCall β) :
    (c.call l k).history l = c.history l++[k] := Function.update_self ..

theorem history_call_of_ne {l l' : ℕ} (h : l' ≠ l) (k : LogCall β) :
    (c.call l k).history l' = c.history l' := Function.update_of_ne h ..

theorem mem_retirements_of_push {p : PushCall} (hp : p ∈ c.pushes) :
    (p.oldWriter,p.barrier) ∈ c.retirements :=
  List.mem_append_left _ (List.mem_map_of_mem hp)

end Config

/-- Every step of the tracker is at most one step of each barrier. -/
theorem active_step {c c' : Config β} {logs : ℕ → TrackedWriter β} {blockSize : ℕ} {a : Action β}
    (h : Config.Moves logs blockSize c a c') : c'.activeWriterWb = c.activeWriterWb ∨
      ∃ b, c.activeWriterWb.step b = .ok (some c'.activeWriterWb) := by
  cases h with
  | startWrite w => exact .inr ⟨.start,rfl⟩
  | finishWrite hn hphase hdone => exact .inr ⟨_,hdone⟩
  | pushNewLog =>
    unfold Config.pushNewLog
    split
    · exact .inl rfl
    · exact .inr ⟨.barrier true,rfl⟩
  | startFlush =>
    cases hc : c.activeWriter with
    | none => exact .inl (by simp [Config.startFlush,hc])
    | some l => exact .inr ⟨.start,by simp [Config.startFlush,hc]; rfl⟩
  | leaveFlush _ _ _ hdone => exact .inr ⟨_,hdone⟩
  | startClose => exact .inr ⟨.barrier true,rfl⟩
  | activeBarrier _ hs => exact .inr ⟨_,hs⟩
  | _ => exact .inl rfl

theorem pending_step {c c' : Config β} {logs : ℕ → TrackedWriter β} {blockSize : ℕ} {a : Action β}
    (h : Config.Moves logs blockSize c a c') : c'.pendingWritersWb = c.pendingWritersWb ∨
      ∃ b, c.pendingWritersWb.step b = .ok (some c'.pendingWritersWb) := by
  cases h with
  | pushNewLog =>
    unfold Config.pushNewLog
    split
    · exact .inl rfl
    · exact .inr ⟨.start,rfl⟩
  | finishPush _ _ hdone => exact .inr ⟨_,hdone⟩
  | startFlush => exact .inr ⟨.start,rfl⟩
  | finishFlush _ _ _ _ hdone => exact .inr ⟨_,hdone⟩
  | removePending p => exact .inr ⟨.barrier true,rfl⟩
  | drained _ _ _ => exact .inr ⟨.barrier true,rfl⟩
  | pendingBarrier _ hs => exact .inr ⟨_,hs⟩
  | _ => exact .inl rfl

section Invariant

variable {c c' : Config β} {logs : ℕ → TrackedWriter β} {blockSize : ℕ} {a : Action β}

/-- Each context belongs to one call, and that of a write runs until the write returns. -/
structure Contexts (c : Config β) : Prop where
  nodup : c.activeContexts.Nodup
  lt : ∀ i ∈ c.activeContexts, i < c.activeWriterWb.contexts.length
  running : ∀ k ∈ c.writes, k.phase ≠ .returned → c.activeWriterWb.Running k.context

namespace Contexts

theorem context_inj (h : Contexts c) {m n : ℕ} {k k' : WriteCall β} (hm : c.writes[m]? = some k)
    (hn : c.writes[n]? = some k') (he : k.context = k'.context) : m = n := by
  have hnodup : (c.writes.map fun k => k.context).Nodup := by
    have := (List.nodup_append.mp h.nodup).1
    rwa [Config.captures,List.map_map] at this
  exact index_inj hnodup hm hn he

/-- No context is given away, and the writes in flight still have theirs. -/
theorem frame (h : Contexts c) (hcaptures : c'.captures = c.captures)
    (hflushes : (c'.flushes.filterMap (·.activeContext)).Sublist
      (c.flushes.filterMap (·.activeContext)))
    (hlen : c.activeWriterWb.contexts.length ≤ c'.activeWriterWb.contexts.length)
    (hrunning : ∀ k ∈ c'.writes, k.phase ≠ .returned → c'.activeWriterWb.Running k.context) :
    Contexts c' := by
  have hsub : c'.activeContexts.Sublist c.activeContexts := by
    rw [Config.activeContexts,Config.activeContexts,hcaptures]
    exact (List.Sublist.refl _).append hflushes
  exact ⟨h.nodup.sublist hsub,fun i hi => (h.lt i (hsub.subset hi)).trans_le hlen,hrunning⟩

/-- The calls of writes move, and one of them may come to its end. -/
theorem running_modify (h : Contexts c) {n : ℕ} {k : WriteCall β} (hn : c.writes[n]? = some k)
    {f : WriteCall β → WriteCall β} (hf : ∀ x, (f x).context = x.context)
    (hphase : k.phase ≠ .returned) :
    ∀ k' ∈ c.writes.modify n f, k'.phase ≠ .returned → c.activeWriterWb.Running k'.context := by
  intro k' hk' hne
  obtain ⟨m,x,hx,rfl⟩ := exists_of_mem_modify hk'
  split_ifs with hnm
  · subst hnm
    rw [hn,Option.some.injEq] at hx
    subst hx
    rw [hf]
    exact h.running k (List.mem_of_getElem? hn) hphase
  · rw [if_neg hnm] at hne
    exact h.running x (List.mem_of_getElem? hx) hne

theorem startWrite (h : Contexts c) (w : Write β) : Contexts (c.startWrite w) := by
  have hlen : (c.startWrite w).activeWriterWb.contexts.length =
      c.activeWriterWb.contexts.length+1 := by
    obtain ⟨wg,hwg⟩ := WaitBarrier.start_contexts c.activeWriterWb
    simp [Config.startWrite,hwg]
  have hperm : (c.startWrite w).activeContexts.Perm
      (c.activeWriterWb.contexts.length::c.activeContexts) := by
    simp only [Config.activeContexts,Config.captures,Config.startWrite,List.map_append,List.map_cons,
      List.map_nil,List.append_assoc,List.singleton_append]
    exact List.perm_middle
  constructor
  · rw [hperm.nodup_iff,List.nodup_cons]
    exact ⟨fun hmem => lt_irrefl _ (h.lt _ hmem),h.nodup⟩
  · intro i hi
    rw [hlen]
    rcases List.mem_cons.mp (hperm.subset hi) with rfl | hi
    · exact Nat.lt_succ_self _
    · exact Nat.lt_succ_of_lt (h.lt i hi)
  · intro k hk hphase
    rcases List.mem_append.mp hk with hk | hk
    · exact (h.running k hk hphase).step (a := .start) rfl (by simp)
    · obtain rfl := List.mem_singleton.mp hk
      exact WaitBarrier.running_start _

theorem startFlush (h : Contexts c) : Contexts c.startFlush := by
  cases hc : c.activeWriter with
  | none =>
    refine h.frame rfl ?_ (by simp [Config.startFlush,hc]) (by simpa [Config.startFlush,hc] using h.running)
    simp [Config.startFlush,hc]
  | some l =>
    have hwb : c.startFlush.activeWriterWb = c.activeWriterWb.start := by simp [Config.startFlush,hc]
    obtain ⟨wg,hwg⟩ := WaitBarrier.start_contexts c.activeWriterWb
    have hcontexts : c.startFlush.activeContexts =
        c.activeContexts++[c.activeWriterWb.contexts.length] := by
      simp [Config.activeContexts,Config.captures,Config.startFlush,hc]
    constructor
    · rw [hcontexts,List.nodup_append]
      refine ⟨h.nodup,by simp,fun i hi j hj => ?_⟩
      rw [List.mem_singleton] at hj
      exact (hj ▸ h.lt i hi).ne
    · intro i hi
      rw [hwb,hwg,List.length_append,List.length_singleton]
      rw [hcontexts] at hi
      rcases List.mem_append.mp hi with hi | hi
      · exact Nat.lt_succ_of_lt (h.lt i hi)
      · rw [List.mem_singleton.mp hi]
        exact Nat.lt_succ_self _
    · intro k hk hphase
      rw [hwb]
      exact (h.running k hk hphase).step (a := .start) rfl (by simp)

theorem move (h : Contexts c) (hm : Config.Moves logs blockSize c a c') : Contexts c' := by
  cases hm with
  | startWrite w => exact h.startWrite w
  | noWriter hn hphase _ =>
    exact h.frame (Config.captures_setResult _ _ _) (List.Sublist.refl _) le_rfl
      (h.running_modify hn (fun _ => rfl) (by simp [hphase]))
  | writeBlocks hn hphase _ =>
    exact h.frame (Config.captures_setResult _ _ _) (List.Sublist.refl _) le_rfl
      (h.running_modify hn (fun _ => rfl) (by simp [hphase]))
  | countWrite hn hphase =>
    exact h.frame (Config.captures_setWrite _ _) (List.Sublist.refl _) le_rfl
      (h.running_modify hn (fun _ => rfl) (by simp [hphase]))
  | @finishWrite n k wb hn hphase hdone =>
    refine h.frame (Config.captures_setWrite _ _) (List.Sublist.refl _)
      (WaitBarrier.contexts_length_le hdone) fun k' hk' hne => ?_
    obtain ⟨m,x,hx,rfl⟩ := exists_of_mem_modify hk'
    split_ifs at hne ⊢ with hnm
    · exact absurd rfl hne
    · refine (h.running x (List.mem_of_getElem? hx) hne).step hdone ?_
      intro he
      injection he with he
      exact hnm (h.context_inj hn hx he)
  | pushNewLog =>
    unfold Config.pushNewLog
    split
    · exact ⟨h.nodup,h.lt,h.running⟩
    · refine h.frame rfl (List.Sublist.refl _) ?_ fun k hk hphase => ?_
      · exact WaitBarrier.contexts_length_le (a := .barrier true) rfl
      · exact (h.running k hk hphase).step (a := .barrier true) rfl (by simp)
  | startFlush => exact h.startFlush
  | flushLog hn hl =>
    exact h.frame rfl (filterMap_modify_sublist fun _ => .inl rfl) le_rfl h.running
  | leaveFlush hn _ hi hdone =>
    refine h.frame rfl (filterMap_modify_sublist fun _ => .inr rfl)
      (WaitBarrier.contexts_length_le hdone) fun k hk hphase =>
        (h.running k hk hphase).step hdone fun he => ?_
    -- the context of a flush is not that of a write
    injection he with he
    have hflush := List.mem_filterMap.mpr ⟨_,List.mem_of_getElem? hn,hi⟩
    exact (List.nodup_append.mp h.nodup).2.2 k.context
      (List.mem_map_of_mem (List.mem_map_of_mem hk)) _ hflush he.symm
  | finishFlush hn _ _ _ _ =>
    exact h.frame rfl (filterMap_modify_sublist fun _ => .inl rfl) le_rfl h.running
  | startClose =>
    refine h.frame rfl (List.Sublist.refl _) ?_ fun k hk hphase => ?_
    · exact WaitBarrier.contexts_length_le (a := .barrier true) rfl
    · exact (h.running k hk hphase).step (a := .barrier true) rfl (by simp)
  | activeBarrier ha hs =>
    refine h.frame rfl (List.Sublist.refl _) (WaitBarrier.contexts_length_le hs)
      fun k hk hphase => (h.running k hk hphase).step hs ?_
    rintro rfl
    cases ha
  | _ => exact ⟨h.nodup,h.lt,h.running⟩

end Contexts

/-- Where the logs are: the writes go to the active log, the logs get their numbers in the order in
which they are active, and one that no longer is stays pending until it is removed. -/
structure Logs (c : Config β) : Prop where
  active_lt : ∀ l, c.activeWriter = some l → l < c.pushed
  captured : ∀ s ∈ c.captures, ∀ l, s.writer = some l →
    l < c.pushed ∧ (c.activeWriter = some l ∨ ∃ b, (l,b) ∈ c.retirements)
  ordered : c.captures.Pairwise fun s s' => ∀ l l', s.writer = some l → s'.writer = some l' → l ≤ l'
  behind : ∀ s ∈ c.captures, ∀ l l', s.writer = some l → c.activeWriter = some l' → l ≤ l'
  retired : ∀ l b, (l,b) ∈ c.retirements → l < c.pushed ∧ c.activeWriter ≠ some l ∧
    ∀ s ∈ c.captures, s.writer = some l → c.activeWriterWb.WaitsFor b s.context
  pending : ∀ l ∈ c.pendingWriters, l < c.pushed ∧ c.activeWriter ≠ some l
  kept : ∀ l b, (l,b) ∈ c.retirements → l ∈ c.pendingWriters ∨ ∃ r ∈ c.removes, l ∈ r.removed
  removed : ∀ r ∈ c.removes, ∀ l ∈ r.removed, l < c.pushed ∧ c.activeWriter ≠ some l

namespace Logs

/-- The steps that leave the logs where they are. -/
theorem frame (h : Logs c) (hactive : c'.activeWriter = c.activeWriter)
    (hpushed : c'.pushed = c.pushed) (hcaptures : c'.captures = c.captures)
    (hretirements : c'.retirements = c.retirements)
    (hpending : c'.pendingWriters = c.pendingWriters) (hremoves : c'.removes = c.removes)
    (hwb : ∀ b i, c.activeWriterWb.WaitsFor b i → c'.activeWriterWb.WaitsFor b i) : Logs c' := by
  constructor
  · rw [hactive,hpushed]
    exact h.active_lt
  · rw [hactive,hpushed,hcaptures,hretirements]
    exact h.captured
  · rw [hcaptures]
    exact h.ordered
  · rw [hactive,hcaptures]
    exact h.behind
  · rw [hactive,hpushed,hcaptures,hretirements]
    intro l b hl
    obtain ⟨hlt,hne,hwaits⟩ := h.retired l b hl
    exact ⟨hlt,hne,fun s hs hwriter => hwb _ _ (hwaits s hs hwriter)⟩
  · rw [hactive,hpushed,hpending]
    exact h.pending
  · rw [hretirements,hpending,hremoves]
    exact h.kept
  · rw [hactive,hpushed,hremoves]
    exact h.removed

theorem pushPending (h : Logs c) : Logs {c with
    pendingWriters := c.pendingWriters++[c.pushed], pushed := c.pushed+1} := by
  constructor
  · exact fun l hl => Nat.lt_succ_of_lt (h.active_lt l hl)
  · exact fun s hs l hl => ⟨Nat.lt_succ_of_lt (h.captured s hs l hl).1,(h.captured s hs l hl).2⟩
  · exact h.ordered
  · exact h.behind
  · exact fun l b hl => ⟨Nat.lt_succ_of_lt (h.retired l b hl).1,(h.retired l b hl).2⟩
  · intro l hl
    rcases List.mem_append.mp hl with hl | hl
    · exact ⟨Nat.lt_succ_of_lt (h.pending l hl).1,(h.pending l hl).2⟩
    · obtain rfl := List.mem_singleton.mp hl
      exact ⟨Nat.lt_succ_self _,fun he => lt_irrefl _ (h.active_lt _ he)⟩
  · intro l b hl
    exact (h.kept l b hl).imp_left (List.mem_append_left _)
  · exact fun r hr l hl => ⟨Nat.lt_succ_of_lt (h.removed r hr l hl).1,(h.removed r hr l hl).2⟩

theorem startWrite (h : Logs c) (w : Write β) : Logs (c.startWrite w) := by
  have hcaptures : (c.startWrite w).captures =
      c.captures++[⟨w,c.activeWriter,c.activeWriterWb.contexts.length⟩] := by
    simp [Config.captures,Config.startWrite]
  constructor
  · exact h.active_lt
  · intro s hs l hl
    rw [hcaptures] at hs
    rcases List.mem_append.mp hs with hs | hs
    · exact h.captured s hs l hl
    · obtain rfl := List.mem_singleton.mp hs
      exact ⟨h.active_lt l hl,.inl hl⟩
  · rw [hcaptures,List.pairwise_append]
    refine ⟨h.ordered,List.pairwise_singleton _ _,fun s hs s' hs' l l' hl hl' => ?_⟩
    obtain rfl := List.mem_singleton.mp hs'
    exact h.behind s hs l l' hl hl'
  · intro s hs l l' hl hl'
    rw [hcaptures] at hs
    rcases List.mem_append.mp hs with hs | hs
    · exact h.behind s hs l l' hl hl'
    · obtain rfl := List.mem_singleton.mp hs
      exact (Option.some.inj (hl.symm.trans hl')).le
  · intro l b hl
    obtain ⟨hlt,hne,hwaits⟩ := h.retired l b hl
    refine ⟨hlt,hne,fun s hs hwriter => ?_⟩
    rw [hcaptures] at hs
    rcases List.mem_append.mp hs with hs | hs
    · exact (hwaits s hs hwriter).step (a := .start) rfl
    · obtain rfl := List.mem_singleton.mp hs
      exact absurd hwriter hne
  · exact h.pending
  · exact h.kept
  · exact h.removed

/-- A log becomes the first active one, or the first after `Close`. -/
theorem pushFirstLog (h : Logs c) (hc : c.activeWriter = none) :
    Logs {c with activeWriter := some c.pushed, pushed := c.pushed+1} := by
  constructor
  · rintro l ⟨⟩
    exact Nat.lt_succ_self _
  · intro s hs l hl
    obtain ⟨hlt,hactive | hretired⟩ := h.captured s hs l hl
    · rw [hc] at hactive
      cases hactive
    · exact ⟨Nat.lt_succ_of_lt hlt,.inr hretired⟩
  · exact h.ordered
  · rintro s hs l _ hl ⟨⟩
    exact (h.captured s hs l hl).1.le
  · intro l b hl
    obtain ⟨hlt,-,hwaits⟩ := h.retired l b hl
    exact ⟨Nat.lt_succ_of_lt hlt,fun he => hlt.ne' (Option.some.inj he),hwaits⟩
  · intro l hl
    have hlt := (h.pending l hl).1
    exact ⟨Nat.lt_succ_of_lt hlt,fun he => hlt.ne' (Option.some.inj he)⟩
  · exact h.kept
  · intro r hr l hl
    have hlt := (h.removed r hr l hl).1
    exact ⟨Nat.lt_succ_of_lt hlt,fun he => hlt.ne' (Option.some.inj he)⟩

/-- The active log is taken out of its place, and a barrier waits for the writes to it. -/
theorem retire (h : Logs c) (hcontexts : Contexts c) {old : ℕ} (hc : c.activeWriter = some old)
    (hactive : ∀ l, c'.activeWriter = some l → l = c.pushed ∧ l < c'.pushed)
    (hpushed : c.pushed ≤ c'.pushed) (hcaptures : c'.captures = c.captures)
    (hretirements : c'.retirements.Perm ((old,c.activeWriterWb.calls.length)::c.retirements))
    (hpending : c'.pendingWriters = c.pendingWriters++[old]) (hremoves : c'.removes = c.removes)
    (hwb : c'.activeWriterWb = c.activeWriterWb.barrierWithUnlock true) : Logs c' := by
  have hlt : ∀ l < c.pushed, l < c'.pushed ∧ c'.activeWriter ≠ some l := fun l hl =>
    ⟨hl.trans_le hpushed,fun he => hl.ne (hactive l he).1⟩
  have hold := hlt old (h.active_lt old hc)
  constructor
  · exact fun l hl => (hactive l hl).2
  · intro s hs l hl
    rw [hcaptures] at hs
    obtain ⟨hl',he | ⟨b,hb⟩⟩ := h.captured s hs l hl
    · obtain rfl : old = l := Option.some.inj (hc.symm.trans he)
      exact ⟨hold.1,.inr ⟨_,hretirements.symm.subset List.mem_cons_self⟩⟩
    · exact ⟨(hlt l hl').1,.inr ⟨b,hretirements.symm.subset (List.mem_cons_of_mem _ hb)⟩⟩
  · rw [hcaptures]
    exact h.ordered
  · intro s hs l l' hl hl'
    rw [hcaptures] at hs
    rw [(hactive l' hl').1]
    exact (h.captured s hs l hl).1.le
  · intro l b hl
    rw [hcaptures,hwb]
    rcases List.mem_cons.mp (hretirements.subset hl) with he | hl
    · obtain ⟨rfl,rfl⟩ := Prod.mk.inj he
      refine ⟨hold.1,hold.2,fun s hs _ => WaitBarrier.waitsFor_barrier true (hcontexts.lt _ ?_)⟩
      exact List.mem_append_left _ (List.mem_map_of_mem hs)
    · obtain ⟨hl',-,hwaits⟩ := h.retired l b hl
      exact ⟨(hlt l hl').1,(hlt l hl').2,fun s hs hwriter =>
        (hwaits s hs hwriter).step (a := .barrier true) rfl⟩
  · intro l hl
    rw [hpending] at hl
    rcases List.mem_append.mp hl with hl | hl
    · exact hlt l (h.pending l hl).1
    · rw [List.mem_singleton.mp hl]
      exact hold
  · intro l b hl
    rw [hpending,hremoves]
    rcases List.mem_cons.mp (hretirements.subset hl) with he | hl
    · obtain ⟨rfl,rfl⟩ := Prod.mk.inj he
      exact .inl (List.mem_append_right _ List.mem_cons_self)
    · exact (h.kept l b hl).imp_left (List.mem_append_left _)
  · intro r hr l hl
    rw [hremoves] at hr
    exact hlt l (h.removed r hr l hl).1

theorem pushNewLog (h : Logs c) (hcontexts : Contexts c) : Logs c.pushNewLog := by
  unfold Config.pushNewLog
  split
  · rename_i hc
    exact h.pushFirstLog hc
  · rename_i old hc
    refine h.retire hcontexts hc ?_ (Nat.le_succ _) rfl ?_ rfl rfl rfl
    · rintro l ⟨⟩
      exact ⟨rfl,Nat.lt_succ_self _⟩
    · simp only [Config.retirements,List.map_append,List.map_cons,List.map_nil,List.append_assoc,
        List.singleton_append]
      exact List.perm_middle

theorem startClose (h : Logs c) (hcontexts : Contexts c) : Logs c.startClose := by
  cases hc : c.activeWriter with
  | none =>
    refine h.frame (by simp [Config.startClose,hc]) rfl rfl ?_ (by simp [Config.startClose,hc]) rfl
      fun b i hwaits => hwaits.step (a := .barrier true) rfl
    simp [Config.retirements,Config.startClose,hc]
  | some old =>
    refine h.retire hcontexts hc ?_ le_rfl rfl ?_ (by simp [Config.startClose,hc]) rfl rfl
    · intro l hl
      cases hl
    · simp only [Config.retirements,Config.startClose,hc,List.map_append,List.map_cons,List.map_nil,
        List.filterMap_append,← List.append_assoc]
      exact List.perm_append_singleton _ _

theorem removePending (h : Logs c) (p : List ℕ) : Logs (c.removePending p) := by
  have hdiff : (c.removePending p).pendingWriters = c.pendingWriters.diff p :=
    (List.diff_eq_foldl _ _).symm
  constructor
  · exact h.active_lt
  · exact h.captured
  · exact h.ordered
  · exact h.behind
  · exact h.retired
  · exact fun l hl => h.pending l (List.diff_subset _ p (hdiff ▸ hl))
  · intro l b hl
    rcases h.kept l b hl with hpending | ⟨r,hr,hl⟩
    · by_cases hp : l ∈ p
      · refine .inr ⟨_,List.mem_append_right _ List.mem_cons_self,?_⟩
        exact List.mem_filter.mpr ⟨hp,by simpa using hpending⟩
      · exact .inl (hdiff ▸ List.mem_diff_of_mem hpending hp)
    · exact .inr ⟨r,List.mem_append_left _ hr,hl⟩
  · intro r hr l hl
    rcases List.mem_append.mp hr with hr | hr
    · exact h.removed r hr l hl
    · obtain rfl := List.mem_singleton.mp hr
      exact h.pending l (by simpa using (List.mem_filter.mp hl).2)

theorem move (h : Logs c) (hcontexts : Contexts c) (hm : Config.Moves logs blockSize c a c') :
    Logs c' := by
  have hwb : ∀ b i, c.activeWriterWb.WaitsFor b i → c'.activeWriterWb.WaitsFor b i := by
    intro b i hwaits
    rcases active_step hm with he | ⟨_,hs⟩
    · rwa [he]
    · exact hwaits.step hs
  cases hm with
  | pushPending => exact h.pushPending
  | startWrite w => exact h.startWrite w
  | pushNewLog => exact h.pushNewLog hcontexts
  | removePending p => exact h.removePending p
  | startClose => exact h.startClose hcontexts
  | noWriter _ _ _ => exact h.frame rfl rfl (Config.captures_setResult _ _ _) rfl rfl rfl hwb
  | writeBlocks _ _ _ => exact h.frame rfl rfl (Config.captures_setResult _ _ _) rfl rfl rfl hwb
  | countWrite _ _ => exact h.frame rfl rfl (Config.captures_setWrite _ _) rfl rfl rfl hwb
  | finishWrite _ _ _ => exact h.frame rfl rfl (Config.captures_setWrite _ _) rfl rfl rfl hwb
  | resetCount _ _ _ => exact h.frame rfl rfl rfl (Config.retirements_setPush _ _) rfl rfl hwb
  | closeWriter _ _ => exact h.frame rfl rfl rfl (Config.retirements_setPush _ _) rfl rfl hwb
  | finishPush _ _ _ => exact h.frame rfl rfl rfl (Config.retirements_setPush _ _) rfl rfl hwb
  | @drained n _ _ _ _ =>
    exact h.frame rfl rfl rfl (Config.retirements_setClose (c := c) n (.flushing _)) rfl rfl hwb
  | lockPending _ _ _ => exact h.frame rfl rfl rfl (Config.retirements_setClose _ _) rfl rfl hwb
  | closeLog _ _ => exact h.frame rfl rfl rfl (Config.retirements_setClose _ _) rfl rfl hwb
  | finishClose _ _ => exact h.frame rfl rfl rfl (Config.retirements_setClose _ _) rfl rfl hwb
  | _ => exact h.frame rfl rfl rfl rfl rfl rfl hwb

end Logs

/-- The `n`-th write has gone to the log `l`; `w` is the write and the number of blocks that it
returned. -/
def Config.Applied (c : Config β) (l n : ℕ) (w : Write β × ℕ) : Prop :=
  ∃ k, c.writes[n]? = some k ∧ (k.write,k.blocksWritten) = w ∧ k.writer = some l ∧
    k.phase ≠ .started

/-- What the logs got. A write that has gone to its log stands there once, and none follows the
call of `CloseWriter`. -/
structure Histories (c : Config β) : Prop where
  applied : ∀ l n w, .writeBlocks n w ∈ c.history l ↔ c.Applied l n w
  once : ∀ l, (writeNumbers (c.history l)).Nodup
  pushed : ∀ p ∈ c.pushes, p.phase ≠ .waiting → c.activeWriterWb.Returned p.barrier
  closed : ∀ l, .closeWriter ∈ c.history l → ∃ p ∈ c.pushes, p.oldWriter = l ∧ p.phase ≠ .waiting
  last : ∀ l n w, ¬Precedes (c.history l) .closeWriter (.writeBlocks n w)

namespace Histories

/-- No log gets a call. -/
theorem frame (h : Histories c) (hhistory : c'.history = c.history)
    (hwrites : ∀ l n w, c'.Applied l n w ↔ c.Applied l n w)
    (hpushed : ∀ p ∈ c'.pushes, p.phase ≠ .waiting → c'.activeWriterWb.Returned p.barrier)
    (hpushes : ∀ p ∈ c.pushes, p.phase ≠ .waiting →
      ∃ p' ∈ c'.pushes, p'.oldWriter = p.oldWriter ∧ p'.phase ≠ .waiting) : Histories c' := by
  constructor
  · intro l n w
    rw [hhistory,h.applied,hwrites]
  · rw [hhistory]
    exact h.once
  · exact hpushed
  · intro l hl
    rw [hhistory] at hl
    obtain ⟨p,hp,rfl,hphase⟩ := h.closed l hl
    exact hpushes p hp hphase
  · rw [hhistory]
    exact h.last

/-- A log gets a call that is no write. -/
theorem call (h : Histories c) {l : ℕ} {k : LogCall β} (hk : k.number = none)
    (hclose : k = .closeWriter → ∃ p ∈ c.pushes, p.oldWriter = l ∧ p.phase ≠ .waiting) :
    Histories (c.call l k) := by
  have hwrite : ∀ n w, k ≠ .writeBlocks n w := by
    rintro n w rfl
    cases hk
  have hself := Config.history_call_self (c := c) l k
  have hother : ∀ l', l' ≠ l → (c.call l k).history l' = c.history l' :=
    fun l' hl => Config.history_call_of_ne hl k
  constructor
  · intro l' n w
    by_cases hl : l' = l
    · subst hl
      rw [hself,List.mem_append,List.mem_singleton,or_iff_left fun he => hwrite n w he.symm]
      exact h.applied l' n w
    · rw [hother l' hl]
      exact h.applied l' n w
  · intro l'
    by_cases hl : l' = l
    · subst hl
      have hnil : writeNumbers [k] = [] := by simp [writeNumbers,hk]
      rw [hself,writeNumbers_append,hnil,List.append_nil]
      exact h.once l'
    · rw [hother l' hl]
      exact h.once l'
  · exact h.pushed
  · intro l' hl'
    by_cases hl : l' = l
    · subst hl
      rw [hself,List.mem_append,List.mem_singleton] at hl'
      rcases hl' with hl' | hl'
      · exact h.closed l' hl'
      · exact hclose hl'.symm
    · rw [hother l' hl] at hl'
      exact h.closed l' hl'
  · intro l' n w
    by_cases hl : l' = l
    · subst hl
      rw [hself,precedes_concat,not_or]
      exact ⟨h.last l' n w,fun he => hwrite n w he.2.symm⟩
    · rw [hother l' hl]
      exact h.last l' n w

/-- While a write to a log is in flight, the goroutine that closes the log waits. -/
theorem not_closed (h : Histories c) (hwb : WaitBarrier.Inv c.activeWriterWb)
    (hcontexts : Contexts c) (hlogs : Logs c) {k : WriteCall β} {l : ℕ} (hk : k ∈ c.writes)
    (hphase : k.phase ≠ .returned) (hwriter : k.writer = some l) :
    ∀ p ∈ c.pushes, p.oldWriter = l → p.phase = .waiting := by
  rintro p hp rfl
  by_contra hne
  obtain ⟨-,-,hwaits⟩ := hlogs.retired _ _ (Config.mem_retirements_of_push hp)
  exact hwb.not_running (h.pushed p hp hne) (hwaits k.toCapture (List.mem_map_of_mem hk) hwriter)
    (hcontexts.running k hk hphase)

theorem writeBlocks (h : Histories c) (hwb : WaitBarrier.Inv c.activeWriterWb)
    (hcontexts : Contexts c) (hlogs : Logs c) {n l : ℕ} {k : WriteCall β}
    (hn : c.writes[n]? = some k) (hphase : k.phase = .started) (hwriter : k.writer = some l)
    (r : ℕ × Option Error) :
    Histories ((c.call l (.writeBlocks n (k.write,r.1))).setResult n .written r) := by
  have hself := Config.history_call_self (c := c) l (.writeBlocks n (k.write,r.1))
  have hother : ∀ l', l' ≠ l → (c.call l (.writeBlocks n (k.write,r.1))).history l' = c.history l' :=
    fun l' hl => Config.history_call_of_ne hl _
  have hfresh : ∀ l', n ∉ writeNumbers (c.history l') := by
    intro l' hmem
    obtain ⟨w,hw⟩ := mem_writeNumbers.mp hmem
    obtain ⟨k',hk',-,-,hne⟩ := (h.applied l' n w).mp hw
    rw [hn,Option.some.injEq] at hk'
    exact hne (hk' ▸ hphase)
  have hself' : ((c.call l (.writeBlocks n (k.write,r.1))).setResult n .written r).writes[n]? =
      some {k with phase := .written, blocksWritten := r.1, err := r.2} := getElem?_modify_self hn
  constructor
  · intro l' m w
    show _ ∈ (c.call l (.writeBlocks n (k.write,r.1))).history l' ↔ _
    by_cases hm : m = n
    · subst hm
      rw [Config.Applied,hself']
      by_cases hl : l' = l
      · subst hl
        rw [hself,List.mem_append,List.mem_singleton,LogCall.writeBlocks.injEq]
        refine ⟨?_,?_⟩
        · rintro (hmem | ⟨-,rfl⟩)
          · exact absurd (mem_writeNumbers.mpr ⟨w,hmem⟩) (hfresh l')
          · exact ⟨_,rfl,rfl,hwriter,by simp⟩
        · rintro ⟨_,⟨⟩,rfl,-,-⟩
          exact .inr ⟨rfl,rfl⟩
      · rw [hother l' hl]
        refine ⟨fun hmem => absurd (mem_writeNumbers.mpr ⟨w,hmem⟩) (hfresh l'),?_⟩
        rintro ⟨_,⟨⟩,-,hl',-⟩
        exact absurd (Option.some.inj (hwriter.symm.trans hl')).symm hl
    · have hsame : ((c.call l (.writeBlocks n (k.write,r.1))).setResult n .written r).writes[m]? =
          c.writes[m]? := List.getElem?_modify_ne _ _ fun he => hm he.symm
      rw [Config.Applied,hsame,← Config.Applied,← h.applied l' m w]
      by_cases hl : l' = l
      · subst hl
        rw [hself,List.mem_append,List.mem_singleton,LogCall.writeBlocks.injEq,
          or_iff_left fun he => hm he.1]
      · rw [hother l' hl]
  · intro l'
    show (writeNumbers ((c.call l (.writeBlocks n (k.write,r.1))).history l')).Nodup
    by_cases hl : l' = l
    · subst hl
      rw [hself,writeNumbers_append,List.nodup_append]
      refine ⟨h.once l',List.nodup_singleton n,fun i hi j hj => ?_⟩
      rintro rfl
      exact hfresh l' (List.mem_singleton.mp hj ▸ hi)
    · rw [hother l' hl]
      exact h.once l'
  · exact h.pushed
  · intro l' hl'
    change .closeWriter ∈ (c.call l (.writeBlocks n (k.write,r.1))).history l' at hl'
    by_cases hl : l' = l
    · subst hl
      rw [hself,List.mem_append,List.mem_singleton] at hl'
      exact h.closed l' (hl'.resolve_right fun he => nomatch he)
    · rw [hother l' hl] at hl'
      exact h.closed l' hl'
  · intro l' m w
    show ¬Precedes ((c.call l (.writeBlocks n (k.write,r.1))).history l') _ _
    by_cases hl : l' = l
    · subst hl
      rw [hself,precedes_concat,not_or]
      refine ⟨h.last l' m w,fun he => ?_⟩
      obtain ⟨p,hp,hold,hne⟩ := h.closed l' he.1
      exact hne (h.not_closed hwb hcontexts hlogs (List.mem_of_getElem? hn) (by simp [hphase])
        hwriter p hp hold)
    · rw [hother l' hl]
      exact h.last l' m w

/-- A call that has no log, or is past its log, goes on. -/
theorem applied_modify {n : ℕ} {k : WriteCall β} (hn : c.writes[n]? = some k)
    {f : WriteCall β → WriteCall β} (hwrites : c'.writes = c.writes.modify n f)
    (hcapture : ∀ x, (f x).toCapture = x.toCapture)
    (hphase : k.writer ≠ none → k.phase ≠ .started ∧ (f k).phase ≠ .started ∧
      (f k).blocksWritten = k.blocksWritten) (l m : ℕ) (w : Write β × ℕ) :
    c'.Applied l m w ↔ c.Applied l m w := by
  rw [Config.Applied,Config.Applied,hwrites]
  by_cases hm : n = m
  · subst hm
    have hk : (f k).write = k.write ∧ (f k).writer = k.writer := by
      rw [hcapture k]
      exact ⟨rfl,rfl⟩
    rw [getElem?_modify_self hn,hn]
    constructor
    · rintro ⟨_,⟨⟩,hw,hl,-⟩
      rw [hk.2] at hl
      obtain ⟨hstarted,-,hblocks⟩ := hphase (by simp [hl])
      rw [hk.1,hblocks] at hw
      exact ⟨k,rfl,hw,hl,hstarted⟩
    · rintro ⟨_,⟨⟩,hw,hl,-⟩
      obtain ⟨-,hstarted,hblocks⟩ := hphase (by simp [hl])
      exact ⟨_,rfl,by rw [hk.1,hblocks,hw],hk.2.trans hl,hstarted⟩
  · rw [List.getElem?_modify_ne _ _ hm]

theorem applied_startWrite (w : Write β) (l m : ℕ) (w' : Write β × ℕ) :
    (c.startWrite w).Applied l m w' ↔ c.Applied l m w' := by
  rw [Config.Applied,Config.Applied]
  simp only [Config.startWrite]
  rcases Nat.lt_trichotomy m c.writes.length with hm | rfl | hm
  · rw [List.getElem?_append_left hm]
  · rw [List.getElem?_concat_length,List.getElem?_eq_none le_rfl]
    simp
  · rw [List.getElem?_eq_none hm.le,List.getElem?_eq_none (by simpa using hm)]

/-- A call of `PushNewLog` goes on. -/
theorem setPush (h : Histories c) {n : ℕ} {p : PushCall} (hn : c.pushes[n]? = some p)
    {phase : PushPhase} (hphase : phase ≠ .waiting)
    (hret : c.activeWriterWb.Returned p.barrier) (hhistory : c'.history = c.history)
    (hwrites : c'.writes = c.writes) (hwb : c'.activeWriterWb = c.activeWriterWb)
    (hpushes : c'.pushes = c.pushes.modify n fun p => {p with phase := phase}) : Histories c' := by
  refine h.frame hhistory (fun l n w => by rw [Config.Applied,hwrites,Config.Applied])
    (fun p' hp' hne => ?_) fun p' hp' hne => ?_
  · rw [hpushes] at hp'
    rw [hwb]
    obtain ⟨m,x,hx,rfl⟩ := exists_of_mem_modify hp'
    split_ifs at hne ⊢ with hnm
    · subst hnm
      rw [hn,Option.some.injEq] at hx
      exact hx ▸ hret
    · exact h.pushed x (List.mem_of_getElem? hx) hne
  · obtain ⟨m,hm⟩ := List.mem_iff_getElem?.mp hp'
    refine ⟨if n = m then {p' with phase := phase} else p',?_,?_,?_⟩
    · rw [hpushes]
      refine List.mem_of_getElem? (i := m) ?_
      rw [List.getElem?_modify,hm]
      split_ifs <;> rfl
    · split_ifs <;> rfl
    · split_ifs
      · exact hphase
      · exact hne

theorem pushNewLog (h : Histories c) : Histories c.pushNewLog := by
  unfold Config.pushNewLog
  split
  · exact h.frame rfl (fun _ _ _ => Iff.rfl) h.pushed fun p hp hphase => ⟨p,hp,rfl,hphase⟩
  · refine h.frame rfl (fun _ _ _ => Iff.rfl) (fun p hp hphase => ?_)
      fun p hp hphase => ⟨p,List.mem_append_left _ hp,rfl,hphase⟩
    rcases List.mem_append.mp hp with hp | hp
    · exact (h.pushed p hp hphase).step (a := .barrier true) rfl
    · obtain rfl := List.mem_singleton.mp hp
      exact absurd rfl hphase

theorem move (h : Histories c) (hwb : WaitBarrier.Inv c.activeWriterWb) (hcontexts : Contexts c)
    (hlogs : Logs c) (hm : Config.Moves logs blockSize c a c') : Histories c' := by
  have hpushed : ∀ p ∈ c.pushes, p.phase ≠ .waiting → c'.activeWriterWb.Returned p.barrier := by
    intro p hp hphase
    rcases active_step hm with he | ⟨_,hs⟩
    · rw [he]
      exact h.pushed p hp hphase
    · exact (h.pushed p hp hphase).step hs
  have hpushes : ∀ p ∈ c.pushes, p.phase ≠ .waiting →
      ∃ p' ∈ c.pushes, p'.oldWriter = p.oldWriter ∧ p'.phase ≠ .waiting :=
    fun p hp hphase => ⟨p,hp,rfl,hphase⟩
  cases hm with
  | startWrite w => exact h.frame rfl (applied_startWrite w) hpushed hpushes
  | noWriter hn _ hwriter =>
    exact h.frame rfl (applied_modify hn rfl (fun _ => rfl) fun he => absurd hwriter he)
      hpushed hpushes
  | writeBlocks hn hphase hwriter => exact h.writeBlocks hwb hcontexts hlogs hn hphase hwriter _
  | countWrite hn hphase =>
    exact h.frame rfl (applied_modify hn rfl (fun _ => rfl) fun _ => by simp [hphase])
      hpushed hpushes
  | finishWrite hn hphase _ =>
    exact h.frame rfl (applied_modify hn rfl (fun _ => rfl) fun _ => by simp [hphase])
      hpushed hpushes
  | pushNewLog => exact h.pushNewLog
  | resetCount hn _ hret => exact h.setPush hn (by simp) hret rfl rfl rfl rfl
  | @closeWriter n p hn hphase =>
    have hp := List.mem_of_getElem? hn
    have hne : p.phase ≠ .waiting := by simp [hphase]
    exact (h.call rfl fun _ => ⟨p,hp,rfl,hne⟩).setPush hn (by simp) (h.pushed p hp hne) rfl rfl rfl rfl
  | finishPush hn hphase _ =>
    exact h.setPush hn (by simp) (h.pushed _ (List.mem_of_getElem? hn) (by simp [hphase])) rfl rfl
      rfl rfl
  | flushLog _ _ =>
    exact (h.call (k := .flush) rfl fun he => nomatch he).frame rfl (fun _ _ _ => Iff.rfl) hpushed hpushes
  | closeLog _ _ =>
    exact (h.call (k := .close) rfl fun he => nomatch he).frame rfl (fun _ _ _ => Iff.rfl) hpushed hpushes
  | _ => exact h.frame rfl (fun _ _ _ => Iff.rfl) hpushed hpushes

end Histories

/-- A log only gets more calls. -/
theorem history_grows (hm : Config.Moves logs blockSize c a c') (l : ℕ) :
    c.history l <+: c'.history l := by
  have hcall : ∀ (l' : ℕ) (k : LogCall β), c.history l <+: (c.call l' k).history l := by
    intro l' k
    by_cases hl : l = l'
    · subst hl
      rw [Config.history_call_self]
      exact List.prefix_append _ _
    · rw [Config.history_call_of_ne hl]
  cases hm with
  | writeBlocks _ _ _ => exact hcall _ _
  | closeWriter _ _ => exact hcall _ _
  | flushLog _ _ => exact hcall _ _
  | closeLog _ _ => exact hcall _ _
  | pushNewLog =>
    unfold Config.pushNewLog
    split <;> exact List.prefix_refl _
  | _ => exact List.prefix_refl _

/-- The contexts of the barrier of the pending logs. -/
def Config.pendingContexts (c : Config β) : List ℕ :=
  c.pushes.map (·.context)++c.flushes.map (·.pendingContext)

/-- A call of `PushNewLog` has its context until the log is closed, and a call of `RemovePending`
waits for those of the logs it removes. -/
structure Closings (c : Config β) : Prop where
  nodup : c.pendingContexts.Nodup
  lt : ∀ i ∈ c.pendingContexts, i < c.pendingWritersWb.contexts.length
  running : ∀ p ∈ c.pushes, p.phase ≠ .returned → c.pendingWritersWb.Running p.context
  closed : ∀ p ∈ c.pushes, p.phase = .finishing ∨ p.phase = .returned →
    .closeWriter ∈ c.history p.oldWriter
  removed : ∀ r ∈ c.removes, ∀ l ∈ r.removed, ∀ p ∈ c.pushes, p.oldWriter = l →
    c.pendingWritersWb.WaitsFor r.barrier p.context

namespace Closings

theorem mem_pendingContexts {p : PushCall} (hp : p ∈ c.pushes) : p.context ∈ c.pendingContexts :=
  List.mem_append_left _ (List.mem_map_of_mem hp)

theorem context_inj (h : Closings c) {m n : ℕ} {p p' : PushCall} (hm : c.pushes[m]? = some p)
    (hn : c.pushes[n]? = some p') (he : p.context = p'.context) : m = n := by
  have hnodup := (List.nodup_append.mp h.nodup).1
  exact index_inj hnodup hm hn he

/-- No context is given away. -/
theorem frame (h : Closings c) (hpushes : c'.pushes = c.pushes)
    (hcontexts : c'.flushes.map (·.pendingContext) = c.flushes.map (·.pendingContext))
    (hremoves : c'.removes = c.removes) (hhistory : ∀ l, c.history l <+: c'.history l)
    {b : WaitBarrier.Action}
    (hwb : c'.pendingWritersWb = c.pendingWritersWb ∨
      c.pendingWritersWb.step b = .ok (some c'.pendingWritersWb))
    (hb : ∀ p ∈ c.pushes, b ≠ .done p.context) : Closings c' := by
  have hpending : c'.pendingContexts = c.pendingContexts := by
    rw [Config.pendingContexts,hpushes,hcontexts,Config.pendingContexts]
  constructor
  · rw [hpending]
    exact h.nodup
  · rw [hpending]
    intro i hi
    rcases hwb with he | hs
    · rw [he]
      exact h.lt i hi
    · exact (h.lt i hi).trans_le (WaitBarrier.contexts_length_le hs)
  · rw [hpushes]
    intro p hp hphase
    rcases hwb with he | hs
    · rw [he]
      exact h.running p hp hphase
    · exact (h.running p hp hphase).step hs (hb p hp)
  · rw [hpushes]
    exact fun p hp hphase => (hhistory _).subset (h.closed p hp hphase)
  · rw [hpushes,hremoves]
    intro r hr l hl p hp hold
    rcases hwb with he | hs
    · rw [he]
      exact h.removed r hr l hl p hp hold
    · exact (h.removed r hr l hl p hp hold).step hs

theorem startFlush (h : Closings c) : Closings c.startFlush := by
  obtain ⟨wg,hwg⟩ := WaitBarrier.start_contexts c.pendingWritersWb
  have hcontexts : c.startFlush.pendingContexts =
      c.pendingContexts++[c.pendingWritersWb.contexts.length] := by
    simp [Config.pendingContexts,Config.startFlush]
  constructor
  · rw [hcontexts,List.nodup_append]
    refine ⟨h.nodup,by simp,fun i hi j hj => ?_⟩
    rw [List.mem_singleton] at hj
    exact (hj ▸ h.lt i hi).ne
  · intro i hi
    show i < c.pendingWritersWb.start.contexts.length
    rw [hwg,List.length_append,List.length_singleton]
    rw [hcontexts] at hi
    rcases List.mem_append.mp hi with hi | hi
    · exact Nat.lt_succ_of_lt (h.lt i hi)
    · rw [List.mem_singleton.mp hi]
      exact Nat.lt_succ_self _
  · exact fun p hp hphase => (h.running p hp hphase).step (a := .start) rfl (by simp)
  · exact h.closed
  · exact fun r hr l hl p hp hold => (h.removed r hr l hl p hp hold).step (a := .start) rfl

theorem pushNewLog (h : Closings c) (hlogs : Logs c) : Closings c.pushNewLog := by
  unfold Config.pushNewLog
  split
  · exact h.frame rfl rfl rfl (fun _ => List.prefix_refl _) (b := .start) (.inl rfl) (by simp)
  · rename_i old hc
    obtain ⟨wg,hwg⟩ := WaitBarrier.start_contexts c.pendingWritersWb
    have hperm : ∀ {q : PushCall}, ((c.pushes++[q]).map (·.context)++
        c.flushes.map (·.pendingContext)).Perm (q.context::c.pendingContexts) := by
      intro q
      rw [List.map_append,List.append_assoc]
      exact List.perm_middle
    constructor
    · rw [Config.pendingContexts,hperm.nodup_iff,List.nodup_cons]
      exact ⟨fun hmem => lt_irrefl _ (h.lt _ hmem),h.nodup⟩
    · intro i hi
      show i < c.pendingWritersWb.start.contexts.length
      rw [hwg,List.length_append,List.length_singleton]
      rcases List.mem_cons.mp (hperm.subset hi) with rfl | hi
      · exact Nat.lt_succ_self _
      · exact Nat.lt_succ_of_lt (h.lt i hi)
    · intro p hp hphase
      rcases List.mem_append.mp hp with hp | hp
      · exact (h.running p hp hphase).step (a := .start) rfl (by simp)
      · obtain rfl := List.mem_singleton.mp hp
        exact WaitBarrier.running_start _
    · intro p hp hphase
      rcases List.mem_append.mp hp with hp | hp
      · exact h.closed p hp hphase
      · obtain rfl := List.mem_singleton.mp hp
        rcases hphase with he | he <;> cases he
    · intro r hr l hl p hp hold
      rcases List.mem_append.mp hp with hp | hp
      · exact (h.removed r hr l hl p hp hold).step (a := .start) rfl
      · obtain rfl := List.mem_singleton.mp hp
        -- the log that was active is none of the removed ones
        exact absurd (hold ▸ hc) (hlogs.removed r hr l hl).2

theorem removePending (h : Closings c) (p : List ℕ) : Closings (c.removePending p) := by
  have hlen := WaitBarrier.contexts_length_le (c := c.pendingWritersWb) (a := .barrier true) rfl
  constructor
  · exact h.nodup
  · exact fun i hi => (h.lt i hi).trans_le hlen
  · exact fun q hq hphase => (h.running q hq hphase).step (a := .barrier true) rfl (by simp)
  · exact h.closed
  · intro r hr l hl q hq hold
    rcases List.mem_append.mp hr with hr | hr
    · exact (h.removed r hr l hl q hq hold).step (a := .barrier true) rfl
    · obtain rfl := List.mem_singleton.mp hr
      exact WaitBarrier.waitsFor_barrier true (h.lt _ (mem_pendingContexts hq))

/-- A call of `PushNewLog` goes on; its context is done when it comes to its end. -/
theorem setPush (h : Closings c) {n : ℕ} {p : PushCall} (hn : c.pushes[n]? = some p)
    {phase : PushPhase} (hpushes : c'.pushes = c.pushes.modify n fun p => {p with phase := phase})
    (hflushes : c'.flushes = c.flushes) (hremoves : c'.removes = c.removes)
    (hhistory : ∀ l, c.history l <+: c'.history l)
    (hclosed : phase = .finishing ∨ phase = .returned → .closeWriter ∈ c'.history p.oldWriter)
    (hphase : phase ≠ .returned → c'.pendingWritersWb = c.pendingWritersWb ∧ p.phase ≠ .returned)
    (hdone : phase = .returned →
      c.pendingWritersWb.step (.done p.context) = .ok (some c'.pendingWritersWb)) :
    Closings c' := by
  have hcontexts : c'.pendingContexts = c.pendingContexts := by
    rw [Config.pendingContexts,hpushes,hflushes,map_modify_of_eq,Config.pendingContexts]
    exact fun _ => rfl
  have hwb : c'.pendingWritersWb = c.pendingWritersWb ∨
      c.pendingWritersWb.step (.done p.context) = .ok (some c'.pendingWritersWb) := by
    by_cases he : phase = .returned
    · exact .inr (hdone he)
    · exact .inl (hphase he).1
  have hmem : ∀ q ∈ c'.pushes, ∃ m x, c.pushes[m]? = some x ∧
      q = if n = m then {x with phase := phase} else x := by
    rw [hpushes]
    exact fun q hq => exists_of_mem_modify hq
  constructor
  · rw [hcontexts]
    exact h.nodup
  · rw [hcontexts]
    intro i hi
    rcases hwb with he | hs
    · rw [he]
      exact h.lt i hi
    · exact (h.lt i hi).trans_le (WaitBarrier.contexts_length_le hs)
  · intro q hq hne
    obtain ⟨m,x,hx,rfl⟩ := hmem q hq
    split_ifs at hne ⊢ with hnm
    · subst hnm
      rw [hn,Option.some.injEq] at hx
      subst hx
      rw [(hphase hne).1]
      exact h.running p (List.mem_of_getElem? hn) (hphase hne).2
    · rcases hwb with he | hs
      · rw [he]
        exact h.running x (List.mem_of_getElem? hx) hne
      · refine (h.running x (List.mem_of_getElem? hx) hne).step hs fun he => ?_
        injection he with he
        exact hnm (h.context_inj hn hx he)
  · intro q hq hph
    obtain ⟨m,x,hx,rfl⟩ := hmem q hq
    split_ifs at hph ⊢ with hnm
    · subst hnm
      rw [hn,Option.some.injEq] at hx
      subst hx
      exact hclosed hph
    · exact (hhistory _).subset (h.closed x (List.mem_of_getElem? hx) hph)
  · intro r hr l hl q hq hold
    rw [hremoves] at hr
    obtain ⟨m,x,hx,rfl⟩ := hmem q hq
    have hwaits : c.pendingWritersWb.WaitsFor r.barrier x.context := by
      refine h.removed r hr l hl x (List.mem_of_getElem? hx) ?_
      split_ifs at hold <;> exact hold
    have hcontext : (if n = m then {x with phase := phase} else x).context = x.context := by
      split_ifs <;> rfl
    rw [hcontext]
    rcases hwb with he | hs
    · rwa [he]
    · exact hwaits.step hs

theorem move (h : Closings c) (hlogs : Logs c) (hm : Config.Moves logs blockSize c a c') :
    Closings c' := by
  have hhistory := history_grows hm
  cases hm with
  | pushNewLog => exact h.pushNewLog hlogs
  | resetCount hn hphase _ =>
    exact h.setPush hn rfl rfl rfl hhistory (by simp) (fun _ => ⟨rfl,by simp [hphase]⟩) (by simp)
  | @closeWriter n p hn hphase =>
    refine h.setPush hn rfl rfl rfl hhistory (fun _ => ?_) (fun _ => ⟨rfl,by simp [hphase]⟩) (by simp)
    show .closeWriter ∈ (c.call p.oldWriter .closeWriter).history p.oldWriter
    rw [Config.history_call_self]
    exact List.mem_append_right _ List.mem_cons_self
  | finishPush hn hphase hdone =>
    exact h.setPush hn rfl rfl rfl hhistory
      (fun _ => h.closed _ (List.mem_of_getElem? hn) (.inl hphase)) (by simp) fun _ => hdone
  | startFlush => exact h.startFlush
  | flushLog _ _ =>
    exact h.frame rfl (map_modify_of_eq fun _ => rfl) rfl hhistory (b := .start) (.inl rfl) (by simp)
  | leaveFlush _ _ _ _ =>
    exact h.frame rfl (map_modify_of_eq fun _ => rfl) rfl hhistory (b := .start) (.inl rfl) (by simp)
  | finishFlush hn _ _ _ hdone =>
    refine h.frame rfl (map_modify_of_eq fun _ => rfl) rfl hhistory (.inr hdone) fun p hp he => ?_
    injection he with he
    exact (List.nodup_append.mp h.nodup).2.2 _ (List.mem_map_of_mem hp) _
      (List.mem_map_of_mem (List.mem_of_getElem? hn)) he.symm
  | removePending p => exact h.removePending p
  | drained _ _ _ => exact h.frame rfl rfl rfl hhistory (b := .barrier true) (.inr rfl) (by simp)
  | pendingBarrier ha hs =>
    refine h.frame rfl rfl rfl hhistory (.inr hs) fun p hp he => ?_
    rw [he] at ha
    cases ha
  | _ => exact h.frame rfl rfl rfl hhistory (b := .start) (.inl rfl) (by simp)

end Closings

structure Inv (c : Config β) : Prop where
  active : WaitBarrier.Inv c.activeWriterWb
  pending : WaitBarrier.Inv c.pendingWritersWb
  contexts : Contexts c
  logs : Logs c
  histories : Histories c
  closings : Closings c

/-- What every move of the allowed calls keeps holds at the end of a run. -/
theorem run_invariant {P : Action β → Prop} {Q : Config β → Prop}
    (hmove : ∀ a d d', P a → Q d → Config.Moves logs blockSize d a d' → Q d') (h : Q c)
    (hrun : ReflTransGen (StepsBy (Config.step logs blockSize) P) c c') : Q c' := by
  refine invariant (fun d d' hd hstep => ?_) h hrun
  obtain ⟨a,ha,hs⟩ := hstep
  exact hmove a d d' ha hd (Config.step_moves hs)

namespace Inv

theorem new : Inv (Config.new : Config β) := by
  refine ⟨WaitBarrier.Inv.new,WaitBarrier.Inv.new,?_,?_,?_,?_⟩
  · constructor <;> simp [Config.new,Config.activeContexts,Config.captures]
  · constructor <;> simp [Config.new,Config.captures,Config.retirements]
  · constructor <;> simp [Config.new,Config.Applied,writeNumbers,Precedes]
  · constructor <;> simp [Config.new,Config.pendingContexts]

theorem move (h : Inv c) (hm : Config.Moves logs blockSize c a c') : Inv c' := by
  refine ⟨?_,?_,h.contexts.move hm,h.logs.move h.contexts hm,
    h.histories.move h.active h.contexts h.logs hm,h.closings.move h.logs hm⟩
  · rcases active_step hm with he | ⟨_,hs⟩
    · rw [he]
      exact h.active
    · exact h.active.move hs
  · rcases pending_step hm with he | ⟨_,hs⟩
    · rw [he]
      exact h.pending
    · exact h.pending.move hs

theorem of_run {P : Action β → Prop} (h : Inv c)
    (hrun : ReflTransGen (StepsBy (Config.step logs blockSize) P) c c') : Inv c' :=
  run_invariant (fun _ _ _ _ hinv hm => hinv.move hm) h hrun

end Inv

end Invariant

end TrackerWriter
end Logblock
