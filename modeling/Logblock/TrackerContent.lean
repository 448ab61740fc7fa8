import Logblock.Layers
import Logblock.TrackerReader

/-! What a read of the tracker's stack shows. The readers that were pushed into the index stay
behind the pending ones in the order of their pushes, so that a merge under way, or done, hides
nothing and brings nothing back. -/
namespace Logblock
namespace Tracker

open Loop Relation BlockHoleReader BlockMap Layers

variable {ρ β : Type}

theorem Push.start_br [DecidableEq ρ] {index index' : BlockMap.Reader ρ} {r : ρ} {p : Push ρ}
    (h : Push.start index r = .ok (index',p)) : p.br = r := by
  obtain ⟨⟨index₁,iv⟩,_,h⟩ := exists_bind h
  cases h
  rfl

theorem Push.pass_br {env : ρ → BlockHoleReader β} {index index' : BlockMap.Reader ρ}
    {p p' : Push ρ} (h : p.pass env index = .ok (index',some p')) : p'.br = p.br := by
  rw [Push.pass] at h
  split at h
  · cases h
  · cases h
    rfl
  · cases h

/-- The steps of the merge loop. -/
def Action.ofMerge : Action ρ → Bool
  | .copyPending | .mergeNext | .mergePass | .removeMerged | .drained => true
  | _ => false

namespace Config

/-- The readers that are read behind the writers: the pending ones and those in the index. -/
def readers (c : Config ρ) : List ρ := c.reader.pendingReaders++c.registered

/-- The merge loop has pushed `merged` of the readers it has copied, the oldest first; newer
readers may have come in front of those since. -/
structure Ordered (c : Config ρ) : Prop where
  nodup : c.reader.pendingReaders.Nodup
  merging : ∀ rs todo p, c.merge = .merging rs todo p → ∃ added merged rest,
    c.reader.pendingReaders = added++rs.reverse ∧ rs = merged++todo ∧
      c.registered = merged.reverse++rest ∧ ∀ push, p = some push → push.br ∈ merged

/-- A reader that a compaction pushes brings nothing that the readers before it do not show. -/
def Replaces (data : ρ → ℕ → Option β) (c : Config ρ) : Prop :=
  ∀ i p, c.holders i = some (.pushing p) → Shows data c.registered.tail [p.br]

variable {blockSize bound : ℕ} {data : ρ → ℕ → Option β} {c c' : Config ρ}
  {env : ρ → BlockHoleReader β}

theorem Ordered.new (blockSize numBlocks : ℕ) : (new blockSize numBlocks : Config ρ).Ordered :=
  ⟨List.nodup_nil,fun _ _ _ hm => (by cases hm)⟩

theorem Ordered.of_not_merging (hnodup : c.reader.pendingReaders.Nodup)
    (hm : ∀ rs todo p, c.merge ≠ .merging rs todo p) : c.Ordered :=
  ⟨hnodup,fun rs todo p he => absurd he (hm rs todo p)⟩

/-- The merged readers are pending while they are in the index. -/
theorem newest_mergeNext {added merged todo rest : List ρ} {r : ρ} (x : ℕ) :
    newest data ((added++(merged++r::todo).reverse)++(r::(merged.reverse++rest))) x =
      newest data ((added++(merged++r::todo).reverse)++(merged.reverse++rest)) x := by
  refine newest_append_of_subset (m := [r]) fun r' hr' => ?_
  rw [List.mem_singleton.mp hr']
  simp

theorem Ordered.move [DecidableEq ρ] (h : c.Ordered) {a : Action ρ} (ha : a.ofMerge = true)
    (hs : c.Moves env a c') : c'.Ordered ∧ c'.reader.writers = c.reader.writers ∧
      c'.holders = c.holders ∧ c'.started = c.started ∧
      (∀ r ∈ c'.registered, r ∈ c.readers) ∧
      (∀ r ∈ c'.reader.pendingReaders, r ∈ c.reader.pendingReaders) ∧
      ∀ data : ρ → ℕ → Option β, ∀ x, newest data c'.readers x = newest data c.readers x := by
  have hreg : ∀ r ∈ c.registered, r ∈ c.readers := fun r => List.mem_append_right _
  have hpend : ∀ r ∈ c.reader.pendingReaders, r ∈ c.reader.pendingReaders := fun r hr => hr
  cases hs with
  | pushWriter => cases ha
  | removeWriter => cases ha
  | pushReader => cases ha
  | startCompaction => cases ha
  | pushCompacted => cases ha
  | compactedPass => cases ha
  | countLive => cases ha
  | removeUnused => cases ha
  | done => cases ha
  | copyPending hm hp hst =>
    refine ⟨⟨h.nodup,?_⟩,rfl,rfl,rfl,hreg,hpend,fun _ _ => rfl⟩
    rintro rs todo p ⟨rfl,rfl,rfl⟩
    exact ⟨[],[],c.registered,by simp,rfl,rfl,fun _ he => (by cases he)⟩
  | drained hm =>
    exact ⟨⟨h.nodup,fun _ _ _ he => (by cases he)⟩,rfl,rfl,rfl,hreg,hpend,fun _ _ => rfl⟩
  | mergePass hm hpass =>
    obtain ⟨added,merged,rest,hpending,hrs,hregistered,hbr⟩ := h.merging _ _ _ hm
    refine ⟨⟨h.nodup,?_⟩,rfl,rfl,rfl,hreg,hpend,fun _ _ => rfl⟩
    rintro rs todo p ⟨rfl,rfl,rfl⟩
    refine ⟨added,merged,rest,hpending,hrs,hregistered,fun push he => ?_⟩
    rw [Push.pass_br (he ▸ hpass)]
    exact hbr _ rfl
  | @mergeNext rs todo r index p hm hstart =>
    obtain ⟨added,merged,rest,hpending,hrs,hregistered,_⟩ := h.merging _ _ _ hm
    have hr : r ∈ c.readers := List.mem_append_left _ (by rw [hpending,hrs]; simp)
    refine ⟨⟨h.nodup,?_⟩,rfl,rfl,rfl,fun r' hr' => ?_,hpend,fun data x => ?_⟩
    · rintro rs' todo' p' ⟨rfl,rfl,rfl⟩
      refine ⟨added,merged++[r],rest,hpending,by rw [hrs]; simp,?_,fun push he => ?_⟩
      · show r::c.registered = _
        rw [hregistered]
        simp
      · cases he
        rw [Push.start_br hstart]
        simp
    · rcases List.mem_cons.mp hr' with rfl | hr'
      · exact hr
      · exact hreg r' hr'
    · show newest data (c.reader.pendingReaders++r::c.registered) x =
        newest data (c.reader.pendingReaders++c.registered) x
      rw [hpending,hregistered,hrs]
      exact newest_mergeNext x
  | @removeMerged rs hm =>
    obtain ⟨added,merged,rest,hpending,hrs,hregistered,_⟩ := h.merging _ _ _ hm
    rw [List.append_nil] at hrs
    subst hrs
    have hnodup := h.nodup
    rw [hpending,List.nodup_append] at hnodup
    have hfilter : c.reader.pendingReaders.filter (· ∉ rs) = added := by
      rw [hpending,List.filter_append,List.filter_eq_self.mpr,List.filter_eq_nil_iff.mpr,
        List.append_nil]
      · intro r hr
        simpa using hr
      · intro r hr
        have hnot : r ∉ rs := fun hin => hnodup.2.2 r hr r (List.mem_reverse.mpr hin) rfl
        simpa using hnot
    refine ⟨⟨?_,fun _ _ _ he => (by cases he)⟩,rfl,rfl,rfl,hreg,fun r hr => ?_,fun data x => ?_⟩
    · exact h.nodup.filter _
    · exact List.mem_of_mem_filter hr
    · show newest data (c.reader.pendingReaders.filter (· ∉ rs)++c.registered) x =
        newest data (c.reader.pendingReaders++c.registered) x
      rw [hfilter,hpending,hregistered]
      rw [newest_append_of_subset (l := added++rs.reverse) (m := rs.reverse) fun r hr => by simp_all,
        List.append_assoc]

/-- A reader that is not pending comes in front. -/
theorem Ordered.pushReader (h : c.Ordered) {r : ρ} (hr : r ∉ c.reader.pendingReaders) :
    {c with reader := c.reader.pushReader r}.Ordered := by
  refine ⟨List.nodup_cons.mpr ⟨hr,h.nodup⟩,fun rs todo p hm => ?_⟩
  obtain ⟨added,merged,rest,hpending,hrest⟩ := h.merging rs todo p hm
  refine ⟨r::added,merged,rest,?_,hrest⟩
  show r::c.reader.pendingReaders = _
  rw [hpending]
  rfl

/-- Where a push into the index is under way. -/
theorem push_eq_some {p : Push ρ} (h : c.push = some p) :
    (∃ rs todo, c.merge = .merging rs todo (some p)) ∨ ∃ i, c.holders i = some (.pushing p) := by
  rw [Config.push] at h
  split at h
  · next hm =>
    subst h
    exact .inl ⟨_,_,hm⟩
  · split at h
    · cases h
    · split at h
      · next hi =>
        cases h
        exact .inr ⟨_,hi⟩
      · cases h

end Config

section View

variable [DecidableEq ρ] {blockSize bound : ℕ} {data : ρ → ℕ → Option β} {c : Config ρ}

theorem Inv.pushing_eq (h : Inv blockSize bound data c) {i : ℕ} {p : Push ρ}
    (hi : c.holders i = some (.pushing p)) : ∃ rest, c.registered = p.br::rest := by
  have hindex := h.index
  rw [h.push_eq hi] at hindex
  obtain ⟨rest,_,hreg,_⟩ := hindex
  exact ⟨rest,hreg⟩

theorem Inv.replaces_congr (h : Inv blockSize bound data c) (hr : c.Replaces data)
    {data' : ρ → ℕ → Option β} (hsame : ∀ r ∈ c.registered, data' r = data r) :
    c.Replaces data' := by
  intro i p hi
  obtain ⟨rest,hreg⟩ := h.pushing_eq hi
  refine (hr i p hi).congr_data (fun r hr => ?_) fun r hr => hsame r (List.mem_of_mem_tail hr)
  rw [List.mem_singleton.mp hr]
  exact hsame p.br (by rw [hreg]; exact List.mem_cons_self)

/-- Behind the pending readers, an index that is being added to shows what all its readers
would. -/
theorem Inv.exists_view (h : Inv blockSize bound data c) (hordered : c.Ordered)
    (hreplaces : c.Replaces data) : ∃ own, c.reader.primaryIndex.Owned own ∧
      (∀ x r, own x = some r → r ∈ c.registered ∧ data r x ≠ none) ∧
      ∀ x, (newest data c.reader.pendingReaders x).or ((own x).bind fun r => data r x) =
        newest data c.readers x := by
  have hindex := h.index
  cases hp : c.push with
  | none =>
    rw [hp] at hindex
    refine ⟨_,hindex,fun x r => of_owner,fun x => ?_⟩
    rw [owner_bind,Config.readers,newest_append]
  | some p =>
    rw [hp] at hindex
    obtain ⟨rest,_,hreg,_,_,⟨a,_,hown⟩,_⟩ := hindex
    refine ⟨_,hown,fun x r hx => ?_,fun x => ?_⟩
    · rw [hreg]
      split_ifs at hx with hin
      · cases hx
        exact ⟨List.mem_cons_self,Option.isSome_iff_ne_none.mp hin.2⟩
      · obtain ⟨hmem,hne⟩ := of_owner hx
        exact ⟨List.mem_cons_of_mem _ hmem,hne⟩
    · rw [Config.readers,newest_append,hreg]
      cases hb : data p.br x with
      | none =>
        rw [if_neg (by simp),owner_bind,newest_cons_of_none hb]
      | some b =>
        rw [newest_cons_of_some hb]
        by_cases hlt : x < a
        · rw [if_pos ⟨hlt,by simp⟩,Option.bind_some,hb]
        -- the block is not painted yet
        rw [if_neg (by simp [hlt]),owner_bind]
        rcases Config.push_eq_some hp with ⟨rs,todo,hm⟩ | ⟨i,hi⟩
        · obtain ⟨added,merged,_,hpending,hrs,_,hbr⟩ := hordered.merging _ _ _ hm
          have hmem : p.br ∈ c.reader.pendingReaders := by
            rw [hpending,hrs]
            simp [hbr p rfl]
          cases hn : newest data c.reader.pendingReaders x with
          | some _ => rfl
          | none =>
            rw [newest_eq_none.mp hn p.br hmem] at hb
            cases hb
        · have hshows := Shows.singleton.mp (hreplaces i p hi) x b hb
          rw [hreg] at hshows
          rw [← hshows]
          rfl

end View

end Tracker
end Logblock
