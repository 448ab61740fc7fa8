import Logblock.ExtentRangeMap
import Logblock.Bits

/-! The bitmap map of `internal/rangemap`: leaves of 256 slots, with one bit set over
the leaves that exist and one over the leaves that are full. -/
namespace Logblock

open Loop Runs

/-- `bitmapRangeMapLeaf`: which slots are mapped, and the values of those. -/
structure Leaf (V : Type) where
  bm : Bitmap256
  items : ℕ → V

namespace Leaf

variable {V : Type}

def new [Inhabited V] : Leaf V := ⟨Bitmap256.zero,fun _ => default⟩

def empty (l : Leaf V) : Bool := l.bm.empty

def full (l : Leaf V) : Bool := l.bm.full

def has (l : Leaf V) (i : ℕ) : Bool := l.bm.get i

def insertAt (value : V) (l : Leaf V) (i : ℕ) : Leaf V :=
  ⟨l.bm.set i,fun j => if j = i then value else l.items j⟩

def insert (l : Leaf V) (start length : ℕ) (value : V) : Leaf V :=
  (List.range' start length).foldl (insertAt value) l

/-- What slot `i` maps to. -/
def slot (l : Leaf V) (i : ℕ) : Option V := if l.bm.bits i then some (l.items i) else none

theorem slot_insert (l : Leaf V) (start length : ℕ) (value : V) (i : ℕ) :
    (l.insert start length value).slot i =
      if start ≤ i ∧ i < start+length then some value else l.slot i := by
  unfold insert
  induction length generalizing start l with
  | zero => simp
  | succ n ih =>
    rw [List.range'_succ,List.foldl_cons,ih]
    by_cases h : i = start
    · subst h
      rw [if_neg (by omega),if_pos (by omega)]
      simp [slot,insertAt,Bitmap256.set]
    · have hs : (l.insertAt value start).slot i = l.slot i := by
        simp [slot,insertAt,Bitmap256.set,h]
      rw [hs]
      exact if_congr (by omega) rfl rfl

@[simp] theorem slot_new [Inhabited V] (i : ℕ) : (new : Leaf V).slot i = none := by
  simp [slot,new,Bitmap256.zero]

theorem slot_ne_none {l : Leaf V} {i : ℕ} : l.slot i ≠ none ↔ l.bm.bits i = true := by
  simp [slot]

theorem slot_eq_none {l : Leaf V} {i : ℕ} : l.slot i = none ↔ l.bm.bits i = false := by
  simp [slot]

theorem empty_iff {l : Leaf V} : l.empty = true ↔ ∀ i < 256, l.slot i = none := by
  simp only [empty,Bitmap256.empty_iff,slot_eq_none]

theorem full_iff {l : Leaf V} : l.full = true ↔ ∀ i < 256, l.slot i ≠ none := by
  simp only [full,Bitmap256.full_iff,slot_ne_none]

end Leaf

structure BitmapRangeMap (V : Type) where
  entries : ℕ → Option (Leaf V)
  fullLeafIndex : BitSet
  partLeafIndex : BitSet

namespace BitmapRangeMap

variable {V : Type}

def empty : BitmapRangeMap V := ⟨fun _ => none,BitSet.empty,BitSet.empty⟩

def getLeaf (m : BitmapRangeMap V) (leafIndex : ℕ) : Option (Leaf V) := m.entries leafIndex

/-- A method call on the leaf, which panics when there is none. -/
def deref (l : Option (Leaf V)) : Exec (Leaf V) :=
  match l with
  | some leaf => .ok leaf
  | none => .error (.panic "nil pointer dereference")

def begin (m : BitmapRangeMap V) : Exec (Option ℕ) :=
  match m.partLeafIndex.nextSet 0 with
  | none => .ok none
  | some firstLeafIndex => do
    let leaf ← deref (m.getLeaf firstLeafIndex)
    let ffs := leaf.bm.findFirstSet
    if ffs < 256 then .ok (some (ffs+firstLeafIndex*256))
    else .error (.panic "Unexpected empty leaf")

/-- The greatest set bit below `n`. -/
def lastSet (b : ℕ → Bool) : ℕ → Option ℕ
  | 0 => none
  | n+1 => if b n then some n else lastSet b n

def endKey (m : BitmapRangeMap V) : Exec ℕ :=
  match lastSet m.partLeafIndex.bits m.partLeafIndex.len with
  | none => .ok 0
  | some lastLeafIndex => do
    let leaf ← deref (m.getLeaf lastLeafIndex)
    match lastSet leaf.has 256 with
    | some i => .ok (i+lastLeafIndex*256+1)
    | none => .error (.panic "Unexpected empty leaf")

/-- One pass of the loop of `Add`: the part of the range that falls into one leaf. -/
def addLeaf [Inhabited V] (m : BitmapRangeMap V) (leafIndex slot leafCount : ℕ) (value : V) :
    BitmapRangeMap V :=
  let leaf := (m.entries leafIndex).getD Leaf.new
  let leaf' := leaf.insert slot leafCount value
  { entries := fun i => if i = leafIndex then some leaf' else m.entries i
    partLeafIndex := if leaf.empty then m.partLeafIndex.set leafIndex else m.partLeafIndex
    fullLeafIndex := if leaf'.full then m.fullLeafIndex.set leafIndex else m.fullLeafIndex }

def addLoop [Inhabited V] (value : V) (m : BitmapRangeMap V) (offset stop : ℕ) :
    BitmapRangeMap V :=
  if offset < stop then
    let leafCount := min (256-offset%256) (stop-offset)
    addLoop value (m.addLeaf (offset/256) (offset%256) leafCount value) (offset+leafCount) stop
  else m
termination_by stop-offset

def add [Inhabited V] (m : BitmapRangeMap V) (offset length : ℕ) (value : V) :
    BitmapRangeMap V :=
  addLoop value m offset (u64 (offset+length))

def get (m : BitmapRangeMap V) (offset : ℕ) : Option V :=
  match m.getLeaf (offset/256) with
  | none => none
  | some leaf => if leaf.has (offset%256) then some (leaf.items (offset%256)) else none

/-- The tail of `NextKey`: the first key of the next leaf. -/
def nextLeafKey (m : BitmapRangeMap V) (off : ℕ) : Exec (Option ℕ) :=
  match m.partLeafIndex.nextSet (off/256+1) with
  | none => .ok none
  | some nextPartial => do
    let leaf ← deref (m.entries nextPartial)
    .ok (some (nextPartial*256+leaf.bm.findFirstSet))

def nextKey (m : BitmapRangeMap V) (off : ℕ) : Exec (Option ℕ) :=
  match m.getLeaf (off/256) with
  | some leaf =>
    if leaf.bm.findNextSet (off%256) < 256 then
      .ok (some (off/256*256+leaf.bm.findNextSet (off%256)))
    else m.nextLeafKey off
  | none => m.nextLeafKey off

/-- The leaf that is not full, from `clearStart` on. -/
def nextNonFull (m : BitmapRangeMap V) (clearStart : ℕ) : ℕ :=
  match m.fullLeafIndex.nextClear clearStart with
  | some i => i
  | none =>
    if clearStart < m.fullLeafIndex.len then m.fullLeafIndex.len else clearStart

def nextEmpty (m : BitmapRangeMap V) (off : ℕ) : Exec ℕ :=
  match m.getLeaf (off/256) with
  | none => .ok off
  | some leaf =>
    if leaf.bm.findNextClear (off%256) < 256 then
      .ok (off/256*256+leaf.bm.findNextClear (off%256))
    else
      let next := m.nextNonFull (off/256+1)
      match m.getLeaf next with
      | none => .ok (next*256)
      | some leaf =>
        if leaf.full then .error (.panic "Unexpected full leaf")
        else .ok (next*256+leaf.bm.findFirstClear)

/-- The inner loop of `Iterate` over the last `n` slots of a leaf. The left answer is
an early return, the right one the state at the end of the leaf. -/
def iterateLeaf [DecidableEq V] {σ : Type} (iter : σ → RangeValue V → σ × Bool) (leaf : Leaf V) :
    ℕ → ℕ → σ → RangeValue V → σ ⊕ (ℕ × σ × RangeValue V)
  | 0, off, s, r => .inr (off,s,r)
  | n+1, off, s, r =>
    if leaf.has (255-n) then
      let v := leaf.items (255-n)
      if r.value = v ∧ r.endOf = off then
        iterateLeaf iter leaf n (off+1) s ⟨⟨r.offset,r.length+1⟩,r.value⟩
      else if r.length > 0 then
        if (iter s r).2 then iterateLeaf iter leaf n (off+1) (iter s r).1 ⟨⟨off,1⟩,v⟩
        else .inl (iter s r).1
      else iterateLeaf iter leaf n (off+1) s ⟨⟨off,1⟩,v⟩
    else iterateLeaf iter leaf n (off+1) s r

def iterateBody [DecidableEq V] {σ : Type} (m : BitmapRangeMap V)
    (iter : σ → RangeValue V → σ × Bool) :
    ℕ × σ × RangeValue V → Exec ((ℕ × σ × RangeValue V) ⊕ σ)
  | (off,s,r) =>
    match m.getLeaf (off/256) with
    | none => do
      match ← m.nextKey off with
      | none => .ok (.inr (if r.length > 0 then (iter s r).1 else s))
      | some next => .ok (.inl (next,s,r))
    | some leaf =>
      match iterateLeaf iter leaf (256-off%256) off s r with
      | .inl s => .ok (.inr s)
      | .inr st => .ok (.inl st)

/-- Every pass of the loop moves on by a leaf, so the leaves bound the passes. -/
def iterate [DecidableEq V] [Inhabited V] {σ : Type} (m : BitmapRangeMap V) (start : ℕ)
    (iter : σ → RangeValue V → σ × Bool) (s : σ) : Exec σ :=
  run (m.iterateBody iter) (m.partLeafIndex.len+2) (start,s,⟨⟨0,0⟩,default⟩)

/-- The two leaf indexes agree with the leaves, and no leaf is empty. -/
structure WF (m : BitmapRangeMap V) : Prop where
  part_iff : ∀ i, m.partLeafIndex.bits i = true ↔ m.entries i ≠ none
  nonempty : ∀ i leaf, m.entries i = some leaf → ∃ j < 256, leaf.slot j ≠ none
  full_iff : ∀ i, m.fullLeafIndex.bits i = true ↔
    ∃ leaf, m.entries i = some leaf ∧ ∀ j < 256, leaf.slot j ≠ none

theorem empty_wf : (empty : BitmapRangeMap V).WF :=
  ⟨by simp [empty,BitSet.empty],by simp [empty],by simp [empty,BitSet.empty]⟩

theorem get_eq_slot (m : BitmapRangeMap V) (x : ℕ) :
    m.get x = (m.entries (x/256)).bind fun leaf => leaf.slot (x%256) := by
  unfold get getLeaf
  cases m.entries (x/256) <;> rfl

@[simp] theorem get_empty (x : ℕ) : (empty : BitmapRangeMap V).get x = none := rfl

section Add

variable [Inhabited V]

theorem addLeaf_wf {m : BitmapRangeMap V} (h : m.WF) {slot leafCount : ℕ} (hc : 0 < leafCount)
    (hs : slot+leafCount ≤ 256) (i : ℕ) (value : V) :
    (m.addLeaf i slot leafCount value).WF := by
  -- the slots of the new leaf are the old ones with a non-empty stretch painted
  have hslot (j : ℕ) := Leaf.slot_insert ((m.entries i).getD Leaf.new) slot leafCount value j
  have hne : ∃ j < 256,
      (((m.entries i).getD Leaf.new).insert slot leafCount value).slot j ≠ none :=
    ⟨slot,by omega,by rw [hslot,if_pos (by omega)]; simp⟩
  refine ⟨fun j => ?_,fun j leaf hj => ?_,fun j => ?_⟩
  · by_cases hij : j = i
    · subst hij
      simp only [addLeaf,if_true,ne_eq,reduceCtorEq,not_false_eq_true,iff_true]
      split_ifs with he
      · simp
      · cases hl : m.entries j with
        | none => simp [hl,Leaf.empty_iff] at he
        | some leaf => exact (h.part_iff j).mpr (by simp [hl])
    · have := h.part_iff j
      simp only [addLeaf,hij,if_false]
      split_ifs <;> simpa [hij] using this
  · by_cases hij : j = i
    · subst hij
      simp only [addLeaf,if_true,Option.some.injEq] at hj
      rw [← hj]
      exact hne
    · exact h.nonempty j leaf (by simpa [addLeaf,hij] using hj)
  · by_cases hij : j = i
    · subst hij
      simp only [addLeaf,if_true,Option.some.injEq,exists_eq_left']
      rw [← Leaf.full_iff]
      split_ifs with hf
      · simp [hf]
      · -- a leaf that was full stays full
        refine ⟨fun hb => ?_,fun hb => absurd hb hf⟩
        obtain ⟨leaf,hl,hfull⟩ := (h.full_iff j).mp hb
        rw [Leaf.full_iff]
        intro k hk
        rw [hslot]
        split_ifs
        · simp
        · simpa [hl] using hfull k hk
    · have := h.full_iff j
      simp only [addLeaf,hij,if_false]
      split_ifs <;> simpa [hij] using this

theorem get_addLeaf (m : BitmapRangeMap V) {slot leafCount : ℕ} (hs : slot+leafCount ≤ 256)
    (i : ℕ) (value : V) (x : ℕ) : (m.addLeaf i slot leafCount value).get x =
      if i*256+slot ≤ x ∧ x < i*256+slot+leafCount then some value else m.get x := by
  rw [get_eq_slot,get_eq_slot]
  by_cases hx : x/256 = i
  · simp only [addLeaf,hx,if_true,Option.bind_some,Leaf.slot_insert]
    have hiff : (slot ≤ x%256 ∧ x%256 < slot+leafCount) ↔
        (i*256+slot ≤ x ∧ x < i*256+slot+leafCount) := by omega
    rw [if_congr hiff rfl rfl]
    cases m.entries i <;> simp
  · have hno : ¬(i*256+slot ≤ x ∧ x < i*256+slot+leafCount) := by omega
    simp [addLeaf,hx,hno]

/-- The loop of `Add`: each pass paints one leaf, together they paint the range. -/
theorem addLoop_spec (value : V) (m : BitmapRangeMap V) (h : m.WF) (offset stop : ℕ) :
    (addLoop value m offset stop).WF ∧ ∀ x, (addLoop value m offset stop).get x =
      if offset ≤ x ∧ x < stop then some value else m.get x := by
  induction hn : stop-offset using Nat.strong_induction_on generalizing m offset with
  | _ n ih =>
    rw [addLoop]
    split_ifs with hlt
    · simp only
      have hc : 0 < min (256-offset%256) (stop-offset) := by omega
      have hs : offset%256+min (256-offset%256) (stop-offset) ≤ 256 := by omega
      obtain ⟨hwf,hget⟩ := ih _ (by omega) _ (addLeaf_wf h hc hs (offset/256) value)
        (offset+min (256-offset%256) (stop-offset)) rfl
      refine ⟨hwf,fun x => ?_⟩
      rw [hget,get_addLeaf m hs]
      by_cases hx : offset+min (256-offset%256) (stop-offset) ≤ x ∧ x < stop
      · rw [if_pos hx,if_pos (by omega)]
      · rw [if_neg hx]
        exact if_congr (by omega) rfl rfl
    · refine ⟨h,fun x => ?_⟩
      rw [if_neg (by omega)]

theorem add_spec {m : BitmapRangeMap V} (h : m.WF) {a n : ℕ} (hb : a+n < 2^64) (v : V) :
    (m.add a n v).WF ∧ (m.add a n v).get = paint m.get ⟨⟨a,n⟩,v⟩ := by
  rw [add,u64_of_lt hb]
  obtain ⟨hwf,hget⟩ := addLoop_spec v m h a (a+n)
  exact ⟨hwf,funext fun x => by rw [hget]; rfl⟩

def addAll (m : BitmapRangeMap V) (rs : List (RangeValue V)) : BitmapRangeMap V :=
  rs.foldl (fun m r => m.add r.offset r.length r.value) m

theorem addAll_spec (rs : List (RangeValue V)) (m : BitmapRangeMap V) (h : m.WF)
    (hb : ∀ r ∈ rs, r.offset+r.length < 2^64) :
    (m.addAll rs).WF ∧ (m.addAll rs).get = paintAll m.get rs := by
  induction rs generalizing m with
  | nil => exact ⟨h,rfl⟩
  | cons r rs ih =>
    obtain ⟨h₁,hg₁⟩ := add_spec h (hb r (by simp)) r.value
    obtain ⟨h₂,hg₂⟩ := ih _ h₁ fun r hr => hb r (by simp [hr])
    exact ⟨h₂,by rw [paintAll_cons,← hg₁,← hg₂]; rfl⟩

end Add

theorem get_of_entries {m : BitmapRangeMap V} {i : ℕ} {leaf : Leaf V}
    (hl : m.entries i = some leaf) {j : ℕ} (hj : j < 256) : m.get (i*256+j) = leaf.slot j := by
  rw [get_eq_slot,show (i*256+j)/256 = i by omega,show (i*256+j)%256 = j by omega,hl]
  rfl

theorem get_of_entries_none {m : BitmapRangeMap V} {x : ℕ} (hl : m.entries (x/256) = none) :
    m.get x = none := by
  rw [get_eq_slot,hl]
  rfl

/-- The first key of an existing leaf. -/
theorem WF.findFirstSet_spec {m : BitmapRangeMap V} (h : m.WF) {i : ℕ} {leaf : Leaf V}
    (hl : m.entries i = some leaf) : leaf.bm.findFirstSet < 256 ∧
      LeastFrom (fun z => m.get z ≠ none) (i*256) (some (i*256+leaf.bm.findFirstSet)) := by
  obtain ⟨-,h₃,h₄⟩ := leaf.bm.findNextSet_spec (i := 0) (by omega)
  rw [← Bitmap256.findFirstSet] at h₃ h₄
  obtain ⟨j,hj,hs⟩ := h.nonempty i leaf hl
  have hlt : leaf.bm.findFirstSet < 256 := by
    by_contra hge
    exact absurd (Leaf.slot_eq_none.mpr (h₄ j (by omega) (by omega))) hs
  refine ⟨hlt,by omega,?_,fun z hz₁ hz₂ hne => hne ?_⟩
  · show m.get _ ≠ none
    rw [get_of_entries hl hlt,Leaf.slot_ne_none]
    exact h₃ hlt
  · have hz : z = i*256+(z-i*256) := by omega
    rw [hz,get_of_entries hl (by omega),Leaf.slot_eq_none]
    exact h₄ _ (by omega) (by omega)

theorem WF.entries_none {m : BitmapRangeMap V} (h : m.WF) {i : ℕ}
    (hb : m.partLeafIndex.bits i = false) : m.entries i = none := by
  by_contra hne
  have := (h.part_iff i).mpr hne
  simp [hb] at this

/-- A set bit of `partLeafIndex` stands for a leaf. -/
theorem WF.entries_some {m : BitmapRangeMap V} (h : m.WF) {i : ℕ}
    (hb : m.partLeafIndex.bits i = true) : ∃ leaf, m.entries i = some leaf :=
  Option.ne_none_iff_exists'.mp ((h.part_iff i).mp hb)

theorem begin_spec {m : BitmapRangeMap V} (h : m.WF) :
    ∃ o, m.begin = .ok o ∧ LeastFrom (fun z => m.get z ≠ none) 0 o := by
  unfold begin
  cases hn : m.partLeafIndex.nextSet 0 with
  | none =>
    refine ⟨none,rfl,fun z _ hne => hne (get_of_entries_none (h.entries_none ?_))⟩
    exact BitSet.nextSet_eq_none hn _ (by omega)
  | some i =>
    obtain ⟨-,hi,hmin⟩ := BitSet.nextSet_eq_some hn
    obtain ⟨leaf,hl⟩ := h.entries_some hi
    obtain ⟨hlt,-,hmap,hleast⟩ := h.findFirstSet_spec hl
    refine ⟨some (i*256+leaf.bm.findFirstSet),?_,by omega,hmap,fun z _ hz => ?_⟩
    · simp [getLeaf,hl,deref,bind,Except.bind,hlt,Nat.add_comm]
    · by_cases hz' : i*256 ≤ z
      · exact hleast z hz' hz
      · exact fun hne => hne (get_of_entries_none (h.entries_none (hmin _ (by omega) (by omega))))

theorem lastSet_eq_some {b : ℕ → Bool} {n i : ℕ} (h : lastSet b n = some i) :
    i < n ∧ b i = true ∧ ∀ j, i < j → j < n → b j = false := by
  induction n with
  | zero => simp [lastSet] at h
  | succ n ih =>
    rw [lastSet] at h
    split_ifs at h with hb
    · cases Option.some.inj h
      exact ⟨by omega,hb,fun j h₁ h₂ => by omega⟩
    · obtain ⟨h₁,h₂,h₃⟩ := ih h
      refine ⟨by omega,h₂,fun j hj hjn => ?_⟩
      by_cases hjn' : j = n
      · simpa [hjn'] using hb
      · exact h₃ j hj (by omega)

theorem lastSet_eq_none {b : ℕ → Bool} {n : ℕ} (h : lastSet b n = none) :
    ∀ j < n, b j = false := by
  induction n with
  | zero => simp
  | succ n ih =>
    rw [lastSet] at h
    split_ifs at h with hb
    intro j hj
    by_cases hjn : j = n
    · simpa [hjn] using hb
    · exact ih h j (by omega)

theorem endKey_spec {m : BitmapRangeMap V} (h : m.WF) : ∃ n, m.endKey = .ok n ∧
    (∀ x, n ≤ x → m.get x = none) ∧ (0 < n → m.get (n-1) ≠ none) := by
  unfold endKey
  cases hn : lastSet m.partLeafIndex.bits m.partLeafIndex.len with
  | none =>
    refine ⟨0,rfl,fun x _ => get_of_entries_none (h.entries_none ?_),by simp⟩
    by_contra hb
    have hb : m.partLeafIndex.bits (x/256) = true := by simpa using hb
    have := lastSet_eq_none hn _ (m.partLeafIndex.lt_len _ hb)
    simp [hb] at this
  | some i =>
    obtain ⟨-,hi,hmax⟩ := lastSet_eq_some hn
    obtain ⟨leaf,hl⟩ := h.entries_some hi
    obtain ⟨k,hk,hs⟩ := h.nonempty i leaf hl
    cases hj : lastSet leaf.has 256 with
    | none => exact absurd (Leaf.slot_eq_none.mpr (lastSet_eq_none hj k hk)) hs
    | some j =>
      obtain ⟨hj256,hset,hafter⟩ := lastSet_eq_some hj
      refine ⟨i*256+j+1,?_,fun x hx => ?_,fun _ => ?_⟩
      · simp [getLeaf,hl,deref,bind,Except.bind,hj,Nat.add_comm]
      · by_cases hxi : x/256 = i
        · have hx' : x = i*256+x%256 := by omega
          rw [hx',get_of_entries hl (by omega),Leaf.slot_eq_none]
          exact hafter _ (by omega) (by omega)
        · apply get_of_entries_none
          apply h.entries_none
          by_contra hb
          have hb : m.partLeafIndex.bits (x/256) = true := by simpa using hb
          have := hmax (x/256) (by omega) (m.partLeafIndex.lt_len _ hb)
          simp [hb] at this
      · rw [show i*256+j+1-1 = i*256+j by omega,get_of_entries hl hj256,Leaf.slot_ne_none]
        exact hset

/-- No key of this leaf is left, so the answer is the first key of the next one. -/
theorem nextLeafKey_spec {m : BitmapRangeMap V} (h : m.WF) (x : ℕ)
    (hx : ∀ z, x ≤ z → z/256 = x/256 → m.get z = none) :
    ∃ o, m.nextLeafKey x = .ok o ∧ LeastFrom (fun z => m.get z ≠ none) x o := by
  unfold nextLeafKey
  cases hn : m.partLeafIndex.nextSet (x/256+1) with
  | none =>
    refine ⟨none,rfl,fun z hz hne => hne ?_⟩
    by_cases hzx : z/256 = x/256
    · exact hx z hz hzx
    · exact get_of_entries_none (h.entries_none (BitSet.nextSet_eq_none hn _ (by omega)))
  | some i =>
    obtain ⟨hle,hi,hmin⟩ := BitSet.nextSet_eq_some hn
    obtain ⟨leaf,hl⟩ := h.entries_some hi
    obtain ⟨hlt,-,hmap,hleast⟩ := h.findFirstSet_spec hl
    refine ⟨some (i*256+leaf.bm.findFirstSet),?_,by omega,hmap,fun z hz hzi => ?_⟩
    · simp [hl,deref,bind,Except.bind]
    · by_cases hz' : i*256 ≤ z
      · exact hleast z hz' hzi
      · refine fun hne => hne ?_
        by_cases hzx : z/256 = x/256
        · exact hx z hz hzx
        · exact get_of_entries_none (h.entries_none (hmin _ (by omega) (by omega)))

theorem nextKey_spec {m : BitmapRangeMap V} (h : m.WF) (x : ℕ) :
    ∃ o, m.nextKey x = .ok o ∧ LeastFrom (fun z => m.get z ≠ none) x o := by
  unfold nextKey getLeaf
  cases hl : m.entries (x/256) with
  | none =>
    exact nextLeafKey_spec h x fun z _ hz => get_of_entries_none (hz ▸ hl)
  | some leaf =>
    obtain ⟨h₁,h₃,h₄⟩ := leaf.bm.findNextSet_spec (i := x%256) (by omega)
    simp only
    split_ifs with hlt
    · refine ⟨_,rfl,by omega,?_,fun z hz₁ hz₂ hne => hne ?_⟩
      · show m.get _ ≠ none
        rw [get_of_entries hl hlt,Leaf.slot_ne_none]
        exact h₃ hlt
      · rw [show z = x/256*256+(z-x/256*256) by omega,get_of_entries hl (by omega),
          Leaf.slot_eq_none]
        exact h₄ _ (by omega) (by omega)
    · refine nextLeafKey_spec h x fun z hz hzx => ?_
      rw [show z = x/256*256+z%256 by omega,get_of_entries hl (by omega),Leaf.slot_eq_none]
      exact h₄ _ (by omega) (by omega)

/-- Every leaf from `k` up to the answer is full, and the answer is not. -/
theorem nextNonFull_spec (m : BitmapRangeMap V) (k : ℕ) :
    k ≤ m.nextNonFull k ∧ m.fullLeafIndex.bits (m.nextNonFull k) = false ∧
      ∀ i, k ≤ i → i < m.nextNonFull k → m.fullLeafIndex.bits i = true := by
  have hout : ∀ i, m.fullLeafIndex.len ≤ i → m.fullLeafIndex.bits i = false := by
    intro i hi
    by_contra hb
    have := m.fullLeafIndex.lt_len i (by simpa using hb)
    omega
  unfold nextNonFull
  cases hc : m.fullLeafIndex.nextClear k with
  | some i =>
    obtain ⟨h₁,h₂,h₃,h₄⟩ := search_eq_some hc
    exact ⟨h₁,by simpa using h₃,fun j hj hji => by simpa using h₄ j hj hji⟩
  | none =>
    have hall := search_eq_none hc
    simp only
    split_ifs with hlt
    · exact ⟨hlt.le,hout _ le_rfl,fun i hi hil => by simpa using hall i hi hil⟩
    · exact ⟨le_rfl,hout _ (by omega),fun i hi hik => by omega⟩

theorem nextEmpty_spec {m : BitmapRangeMap V} (h : m.WF) (x : ℕ) :
    ∃ y, m.nextEmpty x = .ok y ∧ LeastFrom (fun z => m.get z = none) x (some y) := by
  unfold nextEmpty getLeaf
  cases hl : m.entries (x/256) with
  | none => exact ⟨x,rfl,le_rfl,get_of_entries_none hl,fun z h₁ h₂ => by omega⟩
  | some leaf =>
    obtain ⟨h₁,h₃,h₄⟩ := leaf.bm.findNextClear_spec (i := x%256) (by omega)
    have hmapped : ∀ z, x ≤ z → z/256 = x/256 → z%256 < leaf.bm.findNextClear (x%256) →
        m.get z ≠ none := by
      intro z hz hzx hlt
      rw [show z = x/256*256+z%256 by omega,get_of_entries hl (by omega),Leaf.slot_ne_none]
      exact h₄ _ (by omega) hlt
    simp only
    split_ifs with hlt
    · refine ⟨_,rfl,by omega,?_,fun z hz₁ hz₂ => hmapped z hz₁ (by omega) (by omega)⟩
      show m.get _ = none
      rw [get_of_entries hl hlt,Leaf.slot_eq_none]
      exact h₃ hlt
    · obtain ⟨hle,hclear,hfull⟩ := m.nextNonFull_spec (x/256+1)
      -- every key between `x` and the leaf that is not full is mapped
      have hbetween : ∀ z, x ≤ z → z < m.nextNonFull (x/256+1)*256 → m.get z ≠ none := by
        intro z hz hlt'
        by_cases hzx : z/256 = x/256
        · exact hmapped z hz hzx (by omega)
        · obtain ⟨leaf',hl',hf⟩ := (h.full_iff _).mp (hfull (z/256) (by omega) (by omega))
          rw [show z = z/256*256+z%256 by omega,get_of_entries hl' (by omega)]
          exact hf _ (by omega)
      cases hl' : m.entries (m.nextNonFull (x/256+1)) with
      | none =>
        refine ⟨_,rfl,by omega,?_,fun z hz₁ hz₂ => hbetween z hz₁ hz₂⟩
        exact get_of_entries_none (by rw [Nat.mul_div_cancel _ (by omega)]; exact hl')
      | some leaf' =>
        have hnf : ¬leaf'.full = true := by
          intro hf
          have := (h.full_iff _).mpr ⟨leaf',hl',Leaf.full_iff.mp hf⟩
          simp [hclear] at this
        obtain ⟨-,hb₃,hb₄⟩ := leaf'.bm.findNextClear_spec (i := 0) (by omega)
        rw [← Bitmap256.findFirstClear] at hb₃ hb₄
        have hlt' : leaf'.bm.findFirstClear < 256 := by
          by_contra hge
          apply hnf
          rw [Leaf.full_iff]
          intro j hj
          rw [Leaf.slot_ne_none]
          exact hb₄ j (by omega) (by omega)
        simp only [if_neg hnf]
        refine ⟨_,rfl,by omega,?_,fun z hz₁ hz₂ => ?_⟩
        · show m.get _ = none
          rw [get_of_entries hl' hlt',Leaf.slot_eq_none]
          exact hb₃ hlt'
        · by_cases hz : z < m.nextNonFull (x/256+1)*256
          · exact hbetween z hz₁ hz
          · show m.get z ≠ none
            rw [show z = m.nextNonFull (x/256+1)*256+(z-m.nextNonFull (x/256+1)*256) by omega,
              get_of_entries hl' (by omega),Leaf.slot_ne_none]
            exact hb₄ _ (by omega) (by omega)

section Iterate

/-- The mapped keys of `[i,i+n)`, each a piece of its own. -/
def units (c : ℕ → Option V) (i n : ℕ) : List (RangeValue V) :=
  (List.range' i n).filterMap fun x => (c x).map fun v => ⟨⟨x,1⟩,v⟩

theorem units_succ (c : ℕ → Option V) (i n : ℕ) : units c i (n+1) =
    (match c i with | some v => [⟨⟨i,1⟩,v⟩] | none => []) ++ units c (i+1) n := by
  rw [units,List.range'_succ,List.filterMap_cons]
  cases c i <;> rfl

theorem units_append (c : ℕ → Option V) (i a b : ℕ) :
    units c i (a+b) = units c i a ++ units c (i+a) b := by
  rw [units,← List.range'_append_1,List.filterMap_append]
  rfl

theorem units_eq_nil {c : ℕ → Option V} {i n : ℕ} (h : ∀ x, i ≤ x → x < i+n → c x = none) :
    units c i n = [] := by
  rw [units,List.filterMap_eq_nil_iff]
  intro x hx
  rw [List.mem_range'_1] at hx
  rw [h x hx.1 hx.2]
  rfl

theorem mem_units {c : ℕ → Option V} {i n : ℕ} {p : RangeValue V} :
    p ∈ units c i n ↔ p.length = 1 ∧ i ≤ p.offset ∧ p.offset < i+n ∧ c p.offset = some p.value := by
  obtain ⟨⟨o,l⟩,v⟩ := p
  simp only [units,List.mem_filterMap,List.mem_range'_1,Option.map_eq_some_iff]
  constructor
  · rintro ⟨x,⟨h₁,h₂⟩,w,hw,he⟩
    cases he
    exact ⟨rfl,h₁,h₂,hw⟩
  · rintro ⟨rfl,h₁,h₂,hw⟩
    exact ⟨o,⟨h₁,h₂⟩,v,hw,rfl⟩

theorem units_isPieces {c : ℕ → Option V} {i n : ℕ} (hout : ∀ x, i+n ≤ x → c x = none) :
    IsPieces c i (units c i n) := by
  refine ⟨⟨?_,fun p hp => by rw [(mem_units.mp hp).1]; omega⟩,fun p hp => (mem_units.mp hp).2.1,
    fun p hp x hx => ?_,fun x hx hne => ?_⟩
  · clear hout
    induction n generalizing i with
    | zero => simp [units]
    | succ n ih =>
      rw [units_succ]
      cases hc : c i with
      | none => exact ih
      | some v =>
        refine List.pairwise_cons.mpr ⟨fun q hq => ?_,ih⟩
        have := (mem_units.mp hq).2.1
        simp only
        omega
  · obtain ⟨hl,-,-,hv⟩ := mem_units.mp hp
    obtain ⟨h₁,h₂⟩ := hx
    rw [show x = p.offset by omega,hv]
  · obtain ⟨v,hv⟩ := Option.ne_none_iff_exists'.mp hne
    have hlt : x < i+n := by
      by_contra hge
      exact hne (hout x (by omega))
    exact ⟨⟨⟨x,1⟩,v⟩,mem_units.mpr ⟨rfl,hx,hlt,hv⟩,le_rfl,by simp⟩

/-- No leaf reaches beyond the last mapped key by more than its own size. -/
theorem WF.leaf_lt {m : BitmapRangeMap V} (h : m.WF) (hout : ∀ x, 2^63 ≤ x → m.get x = none)
    {i : ℕ} {leaf : Leaf V} (hl : m.entries i = some leaf) : i*256+256 ≤ 2^63 := by
  obtain ⟨j,hj,hs⟩ := h.nonempty i leaf hl
  by_contra hgt
  exact hs (by rw [← get_of_entries hl hj]; exact hout _ (by omega))

variable [DecidableEq V] {σ : Type}

/-- The inner loop: its outcome together with the pieces after the leaf gives the joined
pieces from `off` on. -/
theorem iterateLeaf_spec {m : BitmapRangeMap V} {i : ℕ} {leaf : Leaf V}
    (hl : m.entries i = some leaf) (iter : σ → RangeValue V → σ × Bool) (n : ℕ) (hn : n ≤ 256)
    (hb : i*256+256 < 2^64) (s : σ) (r : RangeValue V) (rest : List (RangeValue V))
    (hr : r.offset+r.length ≤ i*256+(256-n)) :
    match iterateLeaf iter leaf n (i*256+(256-n)) s r with
    | .inl s' => callUntil iter s (coalesce r (units m.get (i*256+(256-n)) n ++ rest)) = s'
    | .inr (off,s',r') => off = i*256+256 ∧ r'.offset+r'.length ≤ off ∧
        callUntil iter s (coalesce r (units m.get (i*256+(256-n)) n ++ rest)) =
          callUntil iter s' (coalesce r' rest) := by
  induction n generalizing s r with
  | zero => exact ⟨by omega,hr,by simp [units]⟩
  | succ n ih =>
    have hoff : i*256+(256-(n+1))+1 = i*256+(256-n) := by omega
    have hidx : 256-(n+1) = 255-n := by omega
    have hcell : m.get (i*256+(256-(n+1))) = leaf.slot (255-n) := by
      rw [hidx]
      exact get_of_entries hl (by omega)
    have hend : r.endOf = r.offset+r.length := Range.endOf_of_lt (by omega)
    have ih := fun s r => ih (by omega) s r
    rw [iterateLeaf,units_succ,hcell,hoff]
    by_cases hs : leaf.has (255-n) = true
    · have hslot : leaf.slot (255-n) = some (leaf.items (255-n)) := if_pos hs
      simp only [if_pos hs,hslot,List.cons_append,List.nil_append]
      rw [coalesce]
      have hcond : (r.value = leaf.items (255-n) ∧ r.endOf = i*256+(256-(n+1))) ↔
          (r.value = leaf.items (255-n) ∧ i*256+(256-(n+1)) = r.offset+r.length) := by
        rw [hend]
        exact and_congr Iff.rfl eq_comm
      by_cases hm : r.value = leaf.items (255-n) ∧ r.endOf = i*256+(256-(n+1))
      · rw [if_pos hm,if_pos (hcond.mp hm)]
        exact ih s _ (by simp only; omega)
      · rw [if_neg hm,if_neg fun hc => hm (hcond.mpr hc)]
        by_cases hp : 0 < r.length
        · rw [if_pos hp,if_pos hp,callUntil]
          by_cases hgo : (iter s r).2 = true
          · rw [if_pos hgo,if_pos hgo]
            exact ih _ _ (by simp only; omega)
          · rw [if_neg hgo,if_neg hgo]
        · rw [if_neg hp,if_neg hp]
          exact ih s _ (by simp only; omega)
    · have hslot : leaf.slot (255-n) = none := if_neg hs
      simp only [if_neg hs,hslot,List.nil_append]
      exact ih s r (by omega)

/-- The outer loop. Each pass ends in a later leaf, so the leaves after `off` bound the
passes that are left. -/
theorem iterate_run {m : BitmapRangeMap V} (h : m.WF) (hout : ∀ x, 2^63 ≤ x → m.get x = none)
    (iter : σ → RangeValue V → σ × Bool) (fuel off : ℕ) (s : σ) (r : RangeValue V)
    (hfuel : m.partLeafIndex.len-off/256 < fuel) (hr : r.offset+r.length ≤ off) :
    run (m.iterateBody iter) fuel (off,s,r) =
      .ok (callUntil iter s (coalesce r (units m.get off (2^63-off)))) := by
  induction fuel generalizing off s r with
  | zero => omega
  | succ fuel ih =>
    cases hl : m.entries (off/256) with
    | none =>
      obtain ⟨o,hnk,hleast⟩ := nextKey_spec h off
      have hnone : m.get off = none := get_of_entries_none hl
      cases o with
      | none =>
        have hu : units m.get off (2^63-off) = [] :=
          units_eq_nil fun x hx _ => not_not.mp (hleast x hx)
        have hbody : m.iterateBody iter (off,s,r) =
            .ok (.inr (if r.length > 0 then (iter s r).1 else s)) := by
          simp only [iterateBody,getLeaf,hl,hnk]
          rfl
        rw [run_done hbody,hu,coalesce]
        by_cases hp : 0 < r.length <;> simp [hp,callUntil]
      | some next =>
        obtain ⟨hle,hne,hgap⟩ := hleast
        have hbody : m.iterateBody iter (off,s,r) = .ok (.inl (next,s,r)) := by
          simp only [iterateBody,getLeaf,hl,hnk]
          rfl
        have hlt : next < 2^63 := by
          by_contra hge
          exact hne (hout next (by omega))
        have hleaf : off/256 ≠ next/256 := fun he => hne (get_of_entries_none (he ▸ hl))
        have hnext : next/256 < m.partLeafIndex.len := by
          refine m.partLeafIndex.lt_len _ ((h.part_iff _).mpr fun hn => hne ?_)
          exact get_of_entries_none hn
        have hu : units m.get off (2^63-off) = units m.get next (2^63-next) := by
          rw [show 2^63-off = (next-off)+(2^63-next) by omega,units_append,
            units_eq_nil fun x hx hx' => not_not.mp (hgap x hx (by omega)),
            show off+(next-off) = next by omega]
          rfl
        have hdiv : off/256 ≤ next/256 := Nat.div_le_div_right hle
        rw [run_next hbody,hu]
        exact ih next s r (by omega) (by omega)
    | some leaf =>
      have hbound := h.leaf_lt hout hl
      have hin : off/256 < m.partLeafIndex.len :=
        m.partLeafIndex.lt_len _ ((h.part_iff _).mpr (by simp [hl]))
      have hsplit : off/256*256+(256-(256-off%256)) = off := by omega
      have hu : units m.get off (2^63-off) = units m.get off (256-off%256) ++
          units m.get (off/256*256+256) (2^63-(off/256*256+256)) := by
        rw [show 2^63-off = (256-off%256)+(2^63-(off/256*256+256)) by omega,units_append,
          show off+(256-off%256) = off/256*256+256 by omega]
      have hspec := iterateLeaf_spec hl iter (256-off%256) (by omega) (by omega) s r
        (units m.get (off/256*256+256) (2^63-(off/256*256+256))) (by omega)
      rw [hsplit,← hu] at hspec
      cases hit : iterateLeaf iter leaf (256-off%256) off s r with
      | inl s' =>
        have hbody : m.iterateBody iter (off,s,r) = .ok (.inr s') := by
          simp only [iterateBody,getLeaf,hl,hit]
        rw [hit] at hspec
        rw [run_done hbody,hspec]
      | inr st =>
        obtain ⟨off',s',r'⟩ := st
        have hbody : m.iterateBody iter (off,s,r) = .ok (.inl (off',s',r')) := by
          simp only [iterateBody,getLeaf,hl,hit]
        rw [hit] at hspec
        obtain ⟨rfl,hr',hcall⟩ := hspec
        rw [run_next hbody,hcall]
        exact ih _ s' r' (by omega) hr'

/-- `Iterate` joins the mapped keys from `start` on. -/
theorem iterate_eq [Inhabited V] {m : BitmapRangeMap V} (h : m.WF)
    (hout : ∀ x, 2^63 ≤ x → m.get x = none) (start : ℕ) (iter : σ → RangeValue V → σ × Bool)
    (s : σ) : m.iterate start iter s =
      .ok (callUntil iter s (coalesce ⟨⟨0,0⟩,default⟩ (units m.get start (2^63-start)))) :=
  iterate_run h hout iter _ start s _ (by omega) (Nat.zero_le _)

/-- `Iterate` with a callback that never stops folds over the maximal runs. -/
theorem iterate_fold [Inhabited V] {m : BitmapRangeMap V} (h : m.WF)
    (hout : ∀ x, 2^63 ≤ x → m.get x = none) :
    ∃ rs, IsRuns m.get 0 rs ∧ ∀ {σ : Type} (g : σ → RangeValue V → σ) (s : σ),
      m.iterate 0 (fun s r => (g s r,true)) s = .ok (rs.foldl g s) := by
  refine ⟨coalesce ⟨⟨0,0⟩,default⟩ (units m.get 0 (2^63-0)),?_,fun g s => ?_⟩
  · exact coalesce_isRuns (units_isPieces fun x hx => hout x (by omega)) default
  · rw [iterate_eq h hout,callUntil_foldl]

end Iterate

theorem WF.mapped_iff {m : BitmapRangeMap V} (h : m.WF) (i : ℕ) :
    m.partLeafIndex.test i = true ↔ ∃ j < 256, m.get (i*256+j) ≠ none := by
  rw [BitSet.test,h.part_iff]
  constructor
  · intro hne
    obtain ⟨leaf,hleaf⟩ := Option.ne_none_iff_exists'.mp hne
    obtain ⟨j,hj,hslot⟩ := h.nonempty i leaf hleaf
    exact ⟨j,hj,by rwa [get_of_entries hleaf hj]⟩
  · rintro ⟨j,hj,hget⟩ hnone
    exact hget (get_of_entries_none (by rwa [show (i*256+j)/256 = i by omega]))

theorem WF.allMapped_iff {m : BitmapRangeMap V} (h : m.WF) (i : ℕ) :
    m.fullLeafIndex.test i = true ↔ ∀ j < 256, m.get (i*256+j) ≠ none := by
  rw [BitSet.test,h.full_iff]
  constructor
  · rintro ⟨leaf,hleaf,hfull⟩ j hj
    rw [get_of_entries hleaf hj]
    exact hfull j hj
  · intro hall
    cases hleaf : m.entries i with
    | none =>
      have hzero := get_of_entries_none (x := i*256+0) (by rwa [show (i*256+0)/256 = i by omega])
      exact absurd hzero (hall 0 (by omega))
    | some leaf =>
      refine ⟨leaf,rfl,fun j hj => ?_⟩
      rw [← get_of_entries hleaf hj]
      exact hall j hj

/-- Leaves, the two leaf indexes and the mapped keys agree after every sequence of `Add`, so no
search meets a leaf that is missing, empty or full where it must not be, and `Iterate` returns. -/
theorem leafIndexes_exact [DecidableEq V] [Inhabited V] (adds : List (RangeValue V))
    (hadds : ∀ r ∈ adds, r.offset+r.length < 2^63) :
    let m := (empty : BitmapRangeMap V).addAll adds
    (∀ i, (m.getLeaf i ≠ none ↔ m.partLeafIndex.test i = true) ∧
      (m.partLeafIndex.test i = true ↔ ∃ j < 256, ∃ r ∈ adds, Has r.toRange (i*256+j)) ∧
      (m.fullLeafIndex.test i = true ↔ ∀ j < 256, ∃ r ∈ adds, Has r.toRange (i*256+j))) ∧
    (∃ o, m.begin = .ok o) ∧ (∃ n, m.endKey = .ok n) ∧ (∀ off, ∃ o, m.nextKey off = .ok o) ∧
    (∀ off, ∃ n, m.nextEmpty off = .ok n) ∧
    ∀ start < 2^63, ∀ (σ : Type) (iter : σ → RangeValue V → σ × Bool) (s : σ),
      ∃ s', m.iterate start iter s = .ok s' := by
  intro m
  have hlt : ∀ r ∈ adds, r.offset+r.length < 2^64 := fun r hr => by have := hadds r hr; omega
  obtain ⟨hwf,hget⟩ := addAll_spec adds empty empty_wf hlt
  have hmapped : ∀ x, m.get x ≠ none ↔ ∃ r ∈ adds, Has r.toRange x := by
    intro x
    rw [show m.get = _ from hget]
    constructor
    · intro hne
      obtain ⟨v,hv⟩ := Option.ne_none_iff_exists'.mp hne
      rcases paintAll_eq_some hv with ⟨r,hr,hx,-⟩ | hbase
      · exact ⟨r,hr,hx⟩
      · cases hbase
    · exact fun hx => paintAll_ne_none (.inl hx)
  have hout : ∀ x, 2^63 ≤ x → m.get x = none := by
    intro x hx
    by_contra hne
    obtain ⟨r,hr,-,hend⟩ := (hmapped x).mp hne
    have := hadds r hr
    omega
  refine ⟨fun i => ⟨(hwf.part_iff i).symm,?_,?_⟩,?_,?_,fun off => ?_,fun off => ?_,?_⟩
  · rw [hwf.mapped_iff i]
    simp only [show (empty.addAll adds).get = m.get from rfl,hmapped]
  · rw [hwf.allMapped_iff i]
    simp only [show (empty.addAll adds).get = m.get from rfl,hmapped]
  · obtain ⟨o,ho,-⟩ := begin_spec hwf
    exact ⟨o,ho⟩
  · obtain ⟨n,hn,-⟩ := endKey_spec hwf
    exact ⟨n,hn⟩
  · obtain ⟨o,ho,-⟩ := nextKey_spec hwf off
    exact ⟨o,ho⟩
  · obtain ⟨n,hn,-⟩ := nextEmpty_spec hwf off
    exact ⟨n,hn⟩
  · intro start _ σ iter s
    exact ⟨_,iterate_eq hwf hout start iter s⟩

/-- A leaf that one `Add` fills and the next one overwrites in part. -/
theorem leafIndexes_exact_full_leaf :
    ((empty : BitmapRangeMap ℕ).addAll [⟨⟨0,300⟩,1⟩,⟨⟨250,2⟩,2⟩]).fullLeafIndex.test 0 = true ∧
      ((empty : BitmapRangeMap ℕ).addAll [⟨⟨0,300⟩,1⟩,⟨⟨250,2⟩,2⟩]).getLeaf 1 ≠ none := by
  have h := (leafIndexes_exact (V := ℕ) [⟨⟨0,300⟩,1⟩,⟨⟨250,2⟩,2⟩] (by decide)).1
  refine ⟨(h 0).2.2.mpr fun j hj => ⟨⟨⟨0,300⟩,1⟩,by simp,?_⟩,(h 1).1.mpr ((h 1).2.1.mpr
    ⟨0,by omega,⟨⟨0,300⟩,1⟩,by simp,by decide⟩)⟩
  exact ⟨Nat.zero_le _,by simp only; omega⟩

end BitmapRangeMap
end Logblock
