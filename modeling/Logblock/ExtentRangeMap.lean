import Logblock.Loop
import Logblock.OrderedMap
import Logblock.Runs

/-! The extent map of `internal/rangemap`: a tree of extents keyed by their start,
split, truncated and replaced in place. Keys are `uint64`, so every sum wraps. -/
namespace Logblock

open Loop Runs

def u64 (n : ℕ) : ℕ := n % 2^64

theorem u64_of_lt {n : ℕ} (h : n < 2^64) : u64 n = n := Nat.mod_eq_of_lt h

namespace Range

def endOf (r : Range) : ℕ := u64 (r.offset+r.length)

def contains (r : Range) (off : ℕ) : Bool := decide (off ≥ r.offset) && decide (off < r.endOf)

def overlaps (r other : Range) : Bool := r.contains other.offset || other.contains r.offset

theorem endOf_of_lt {r : Range} (h : r.offset+r.length < 2^64) :
    r.endOf = r.offset+r.length := u64_of_lt h

theorem contains_iff {r : Range} (h : r.offset+r.length < 2^64) (x : ℕ) :
    r.contains x = true ↔ Has r x := by
  simp [contains,endOf_of_lt h,Has]

theorem overlaps_iff {r s : Range} (hr : r.offset+r.length < 2^64)
    (hs : s.offset+s.length < 2^64) (hrl : 0 < r.length) (hsl : 0 < s.length) :
    r.overlaps s = true ↔ s.offset < r.offset+r.length ∧ r.offset < s.offset+s.length := by
  rw [overlaps,Bool.or_eq_true,contains_iff hr,contains_iff hs,Has,Has]
  omega

end Range

structure ExtentRangeMap (V : Type) where
  tree : OrderedMap (RangeValue V) (fun r => r.offset)

namespace ExtentRangeMap

variable {V : Type}

def empty : ExtentRangeMap V := ⟨OrderedMap.empty⟩

def begin (m : ExtentRangeMap V) : Option ℕ := m.tree.items.head?.map fun ie => ie.offset

def endKey (m : ExtentRangeMap V) : ℕ :=
  match m.tree.items.reverse.head? with
  | some ie => u64 (ie.offset+ie.length)
  | none => 0

/-- The closure of `getByteRange` on the items at or below `stop`, in descending order. -/
def collectOverlaps (r : Range) (stop : ℕ) : List (RangeValue V) → List (RangeValue V)
  | [] => []
  | ie::rest =>
    if ie.offset = stop then collectOverlaps r stop rest
    else if r.overlaps ie.toRange then ie::collectOverlaps r stop rest
    else []

def getByteRange (m : ExtentRangeMap V) (start length : ℕ) : List (RangeValue V) :=
  collectOverlaps ⟨start,length⟩ (u64 (start+length))
    (m.tree.descendLessOrEqual (u64 (start+length)))

def getWithRange (m : ExtentRangeMap V) (offset : ℕ) : Option (RangeValue V) :=
  match m.tree.floor offset with
  | some ie => if ie.contains offset then some ie else none
  | none => none

def get (m : ExtentRangeMap V) (offset : ℕ) : Option V :=
  match m.tree.floor offset with
  | some ie => if ie.contains offset then some ie.value else none
  | none => none

def nextKey (m : ExtentRangeMap V) (offset : ℕ) : Option ℕ :=
  match m.get offset with
  | some _ => some offset
  | none => (m.tree.ceil offset).map fun ie => ie.offset

/-- The closure of `NextEmpty` on the items from `next` on, in ascending order. -/
def skipExtents : ℕ → List (RangeValue V) → ℕ
  | next, [] => next
  | next, ie::rest => if ie.contains next then skipExtents ie.endOf rest else next

def nextEmpty (m : ExtentRangeMap V) (offset : ℕ) : ℕ :=
  let next := match m.tree.floor offset with
    | some ie => if ie.contains offset then ie.endOf else offset
    | none => offset
  if next = offset then next
  else skipExtents next (m.tree.ascendGreaterOrEqual next)

/-- `ReplaceOrInsert` of an item whose key must be new. -/
def insertNew (m : ExtentRangeMap V) (item : RangeValue V) : Exec (ExtentRangeMap V) :=
  match m.tree.replaceOrInsert item with
  | (none,tree) => .ok ⟨tree⟩
  | (some _,_) => .error (.panic "unexpected old entry")

def truncate (m : ExtentRangeMap V) (ie : RangeValue V) (length : ℕ) : ExtentRangeMap V :=
  ⟨m.tree.modify ie.offset (fun r => ⟨⟨r.offset,length⟩,r.value⟩) fun _ => rfl⟩

def deleteItem [DecidableEq V] (m : ExtentRangeMap V) (ie : RangeValue V) :
    Exec (ExtentRangeMap V) :=
  match m.tree.delete ie.offset with
  | (some old,tree) => if old = ie then .ok ⟨tree⟩ else .error (.panic "item not deleted")
  | (none,_) => .error (.panic "item not deleted")

/-- The part of `ie` beyond `stop` becomes an extent of its own. -/
def insertTail (stop : ℕ) (m : ExtentRangeMap V) (ie : RangeValue V) : Exec (ExtentRangeMap V) :=
  if ie.endOf > stop then m.insertNew ⟨⟨stop,ie.endOf-stop⟩,ie.value⟩ else .ok m

/-- The body of the loop of `Remove` over the overlapping extents. -/
def removeItem [DecidableEq V] (offset stop : ℕ) (m : ExtentRangeMap V) (ie : RangeValue V) :
    Exec (ExtentRangeMap V) := do
  let m ← insertTail stop m ie
  -- an item that starts before the hole is truncated instead of deleted
  if ie.offset < offset then pure (m.truncate ie (offset-ie.offset))
  else m.deleteItem ie

def remove [DecidableEq V] (m : ExtentRangeMap V) (offset length : ℕ) :
    Exec (ExtentRangeMap V) :=
  if length = 0 then .ok m
  else (m.getByteRange offset length).foldlM (removeItem offset (u64 (offset+length))) m

def add [DecidableEq V] (m : ExtentRangeMap V) (offset length : ℕ) (value : V) :
    Exec (ExtentRangeMap V) :=
  if length = 0 then .ok m
  else do
    let m ← m.remove offset length
    m.insertNew ⟨⟨offset,length⟩,value⟩

/-- The closure of `Iterate`; `r` is the range being assembled. -/
def iterateItems [DecidableEq V] {σ : Type} (iter : σ → RangeValue V → σ × Bool) (start : ℕ) :
    σ → RangeValue V → List (RangeValue V) → σ
  | s, r, [] => if r.length > 0 then (iter s r).1 else s
  | s, r, ie::rest =>
    if ie.offset < start then
      iterateItems iter start s ⟨⟨start,ie.endOf-start⟩,ie.value⟩ rest
    else if r.value = ie.value ∧ ie.offset = r.endOf then
      iterateItems iter start s ⟨⟨r.offset,r.length+ie.length⟩,r.value⟩ rest
    else if r.length > 0 then
      if (iter s r).2 then iterateItems iter start (iter s r).1 ie rest else (iter s r).1
    else iterateItems iter start s ie rest

def iterate [DecidableEq V] [Inhabited V] {σ : Type} (m : ExtentRangeMap V) (start : ℕ)
    (iter : σ → RangeValue V → σ × Bool) (s : σ) : σ :=
  let first := match m.tree.floor start with
    | some ie => if 0 < start ∧ ie.contains start then ie.offset else start
    | none => start
  iterateItems iter start s ⟨⟨0,0⟩,default⟩ (m.tree.ascendGreaterOrEqual first)

/-- Extents are non-empty, end below the key space and do not overlap. -/
structure WF (m : ExtentRangeMap V) : Prop where
  nonempty : ∀ e ∈ m.tree, 0 < e.length
  bounded : ∀ e ∈ m.tree, e.offset+e.length < 2^64
  disjoint : ∀ e ∈ m.tree, ∀ e' ∈ m.tree, e.offset < e'.offset → e.offset+e.length ≤ e'.offset

theorem empty_wf : (empty : ExtentRangeMap V).WF :=
  ⟨by simp [empty],by simp [empty],by simp [empty]⟩

/-- Two extents that share a key are one extent. -/
theorem WF.eq_of_has {m : ExtentRangeMap V} (h : m.WF) {e e' : RangeValue V} {x : ℕ}
    (he : e ∈ m.tree) (he' : e' ∈ m.tree) (hx : Has e.toRange x) (hx' : Has e'.toRange x) :
    e = e' := by
  obtain ⟨h₁,h₂⟩ := hx
  obtain ⟨h₃,h₄⟩ := hx'
  rcases lt_trichotomy e.offset e'.offset with hlt | heq | hgt
  · have := h.disjoint e he e' he' hlt
    omega
  · exact OrderedMap.eq_of_key_eq he he' heq
  · have := h.disjoint e' he' e he hgt
    omega

theorem getWithRange_eq_some {m : ExtentRangeMap V} (h : m.WF) {x : ℕ} {e : RangeValue V} :
    m.getWithRange x = some e ↔ e ∈ m.tree ∧ Has e.toRange x := by
  unfold getWithRange
  cases hf : m.tree.floor x with
  | none =>
    have hall := OrderedMap.floor_eq_none hf
    simp only [reduceCtorEq,false_iff]
    rintro ⟨he,hx,-⟩
    exact absurd (hall e he) (by omega)
  | some ie =>
    obtain ⟨hie,hle,hmax⟩ := OrderedMap.floor_eq_some hf
    have hc := Range.contains_iff (h.bounded ie hie) x
    simp only
    split_ifs with hx
    · have hx' := hc.mp hx
      simp only [Option.some.injEq]
      constructor
      · rintro rfl
        exact ⟨hie,hx'⟩
      · rintro ⟨he,hex⟩
        exact h.eq_of_has hie he hx' hex
    · simp only [false_iff]
      rintro ⟨he,hex⟩
      -- the floor lies between the start of `e` and `x`, so it is `e` itself
      have hoff := hmax e he hex.1
      rcases Nat.lt_or_eq_of_le hoff with hlt | heq
      · have := h.disjoint e he ie hie hlt
        have := hex.2
        omega
      · rw [OrderedMap.eq_of_key_eq he hie heq] at hex
        exact hx (hc.mpr hex)

theorem get_eq_map (m : ExtentRangeMap V) (x : ℕ) :
    m.get x = (m.getWithRange x).map fun e => e.value := by
  unfold get getWithRange
  cases m.tree.floor x with
  | none => rfl
  | some ie => by_cases hx : ie.contains x = true <;> simp [hx]

theorem get_eq_some {m : ExtentRangeMap V} (h : m.WF) {x : ℕ} {v : V} :
    m.get x = some v ↔ ∃ e ∈ m.tree, Has e.toRange x ∧ e.value = v := by
  rw [get_eq_map,Option.map_eq_some_iff]
  simp only [getWithRange_eq_some h,and_assoc]

theorem get_eq_none {m : ExtentRangeMap V} (h : m.WF) {x : ℕ} :
    m.get x = none ↔ ∀ e ∈ m.tree, ¬Has e.toRange x := by
  rw [Option.eq_none_iff_forall_ne_some]
  constructor
  · intro hn e he hx
    exact hn e.value ((get_eq_some h).mpr ⟨e,he,hx,rfl⟩)
  · intro hn v hv
    obtain ⟨e,he,hx,-⟩ := (get_eq_some h).mp hv
    exact hn e he hx

theorem WF.get_ne_none {m : ExtentRangeMap V} (h : m.WF) {e : RangeValue V} {x : ℕ}
    (he : e ∈ m.tree) (hx : Has e.toRange x) : m.get x ≠ none := by
  rw [(get_eq_some h).mpr ⟨e,he,hx,rfl⟩]
  simp

@[simp] theorem get_empty (x : ℕ) : (empty : ExtentRangeMap V).get x = none := by
  rw [get_eq_none empty_wf]
  simp [empty]

/-- A map without the range `[a,b)` keeps what sticks out of each extent. -/
def remnants (a b : ℕ) (ie : RangeValue V) : List (RangeValue V) :=
  (if ie.offset < a then [⟨⟨ie.offset,a-ie.offset⟩,ie.value⟩] else []) ++
  (if b < ie.offset+ie.length then [⟨⟨b,ie.offset+ie.length-b⟩,ie.value⟩] else [])

theorem mem_remnants {a b : ℕ} {ie y : RangeValue V} : y ∈ remnants a b ie ↔
    (ie.offset < a ∧ y = ⟨⟨ie.offset,a-ie.offset⟩,ie.value⟩) ∨
    (b < ie.offset+ie.length ∧ y = ⟨⟨b,ie.offset+ie.length-b⟩,ie.value⟩) := by
  unfold remnants
  by_cases h₁ : ie.offset < a <;> by_cases h₂ : b < ie.offset+ie.length <;> simp [h₁,h₂]

/-- Extents meeting `[a,b)`. -/
def Meets (a b : ℕ) (e : RangeValue V) : Prop := e.offset < b ∧ a < e.offset+e.length

theorem insertNew_spec {m : ExtentRangeMap V} (item : RangeValue V)
    (hnew : ∀ e ∈ m.tree, e.offset ≠ item.offset) :
    ∃ m', m.insertNew item = .ok m' ∧ ∀ y, y ∈ m'.tree ↔ y = item ∨ y ∈ m.tree := by
  have hl : (m.tree.replaceOrInsert item).1 = none := OrderedMap.lookup_eq_none.mpr hnew
  refine ⟨⟨(m.tree.replaceOrInsert item).2⟩,?_,fun y => ?_⟩
  · unfold insertNew
    split
    · rename_i tree heq
      rw [heq]
    · rename_i heq
      rw [heq] at hl
      simp at hl
  · rw [OrderedMap.mem_replaceOrInsert]
    exact or_congr Iff.rfl ⟨fun hy => hy.1,fun hy => ⟨hy,hnew y hy⟩⟩

theorem mem_truncate {m : ExtentRangeMap V} {ie : RangeValue V} (hie : ie ∈ m.tree) (n : ℕ)
    (y : RangeValue V) : y ∈ (m.truncate ie n).tree ↔
      (y ∈ m.tree ∧ y ≠ ie) ∨ y = ⟨⟨ie.offset,n⟩,ie.value⟩ := by
  rw [truncate,OrderedMap.mem_modify]
  refine or_congr (and_congr_right fun hy => not_congr ⟨?_,?_⟩) ⟨?_,?_⟩
  · exact OrderedMap.eq_of_key_eq hy hie
  · rintro rfl
    rfl
  · rintro ⟨x,hx,hk,rfl⟩
    rw [OrderedMap.eq_of_key_eq hx hie hk]
  · rintro rfl
    exact ⟨ie,hie,rfl,rfl⟩

theorem insertTail_spec {m : ExtentRangeMap V} (h : m.WF) {b : ℕ} {ie : RangeValue V}
    (hie : ie ∈ m.tree) (hb : ie.offset < b) :
    ∃ m', insertTail b m ie = .ok m' ∧ ∀ y, y ∈ m'.tree ↔ y ∈ m.tree ∨
      (b < ie.offset+ie.length ∧ y = ⟨⟨b,ie.offset+ie.length-b⟩,ie.value⟩) := by
  have hend : ie.endOf = ie.offset+ie.length := Range.endOf_of_lt (h.bounded ie hie)
  unfold insertTail
  rw [hend]
  by_cases hlt : b < ie.offset+ie.length
  · -- no other extent starts at `b`, which lies inside `ie`
    obtain ⟨m',he,hy⟩ := insertNew_spec (m := m)
      ⟨⟨b,ie.offset+ie.length-b⟩,ie.value⟩ (by
        intro e he heq
        simp only at heq
        have := h.disjoint ie hie e he (by omega)
        omega)
    refine ⟨m',by rw [if_pos hlt,he],fun y => ?_⟩
    rw [hy,or_comm]
    simp [hlt]
  · exact ⟨m,by rw [if_neg hlt],fun y => by simp [hlt]⟩

theorem collectOverlaps_sublist (r : Range) (stop : ℕ) (l : List (RangeValue V)) :
    (collectOverlaps r stop l).Sublist l := by
  induction l with
  | nil => exact List.Sublist.refl _
  | cons ie rest ih =>
    rw [collectOverlaps]
    split_ifs
    · exact ih.cons ie
    · exact ih.cons_cons ie
    · exact List.nil_sublist _

theorem remnants_within {a b : ℕ} {ie y : RangeValue V} (hm : Meets a b ie)
    (hy : y ∈ remnants a b ie) : 0 < y.length ∧
      (y.offset = ie.offset ∧ y.offset+y.length = a ∧ a < ie.offset+ie.length ∨
        y.offset = b ∧ y.offset+y.length = ie.offset+ie.length ∧ ie.offset < b) := by
  obtain ⟨h₁,h₂⟩ := hm
  rcases mem_remnants.mp hy with ⟨ha,rfl⟩ | ⟨hb,rfl⟩
  · exact ⟨by simp only; omega,Or.inl ⟨rfl,by simp only; omega,h₂⟩⟩
  · exact ⟨by simp only; omega,Or.inr ⟨rfl,by simp only; omega,h₁⟩⟩

theorem WF.of_removeItem {m m' : ExtentRangeMap V} (h : m.WF) {a b : ℕ} (hab : a < b)
    {ie : RangeValue V} (hie : ie ∈ m.tree) (hm : Meets a b ie)
    (hy : ∀ y, y ∈ m'.tree ↔ (y ∈ m.tree ∧ y ≠ ie) ∨ y ∈ remnants a b ie) : m'.WF := by
  have hb := h.bounded ie hie
  -- an extent other than `ie` lies wholly before or wholly after it
  have apart : ∀ y ∈ m.tree, y ≠ ie →
      y.offset+y.length ≤ ie.offset ∨ ie.offset+ie.length ≤ y.offset := by
    intro y hym hne
    rcases lt_trichotomy y.offset ie.offset with hlt | heq | hgt
    · exact Or.inl (h.disjoint y hym ie hie hlt)
    · exact absurd (OrderedMap.eq_of_key_eq hym hie heq) hne
    · exact Or.inr (h.disjoint ie hie y hym hgt)
  refine ⟨fun y hy' => ?_,fun y hy' => ?_,fun y hy' z hz' hlt => ?_⟩
  · rcases (hy y).mp hy' with ⟨hym,-⟩ | hyr
    · exact h.nonempty y hym
    · exact (remnants_within hm hyr).1
  · rcases (hy y).mp hy' with ⟨hym,-⟩ | hyr
    · exact h.bounded y hym
    · have := remnants_within hm hyr
      omega
  · rcases (hy y).mp hy' with ⟨hym,hyn⟩ | hyr
    · rcases (hy z).mp hz' with ⟨hzm,-⟩ | hzr
      · exact h.disjoint y hym z hzm hlt
      · have := remnants_within hm hzr
        have := h.nonempty y hym
        rcases apart y hym hyn with hc | hc <;> omega
    · have hyw := remnants_within hm hyr
      rcases (hy z).mp hz' with ⟨hzm,hzn⟩ | hzr
      · have := h.nonempty z hzm
        rcases apart z hzm hzn with hc | hc <;> omega
      · have hzw := remnants_within hm hzr
        omega

theorem mem_collectOverlaps {m : ExtentRangeMap V} (h : m.WF) {a n : ℕ} (hn : 0 < n)
    (hb : a+n < 2^64) (l : List (RangeValue V)) (hl : l.Pairwise fun x y => y.offset < x.offset)
    (hmem : ∀ e ∈ l, e ∈ m.tree ∧ e.offset ≤ a+n) (y : RangeValue V) :
    y ∈ collectOverlaps ⟨a,n⟩ (a+n) l ↔ y ∈ l ∧ Meets a (a+n) y := by
  have hov (e : RangeValue V) (he : e ∈ m.tree) :
      Range.overlaps ⟨a,n⟩ e.toRange = true ↔ Meets a (a+n) e :=
    Range.overlaps_iff (r := ⟨a,n⟩) hb (h.bounded e he) hn (h.nonempty e he)
  induction l with
  | nil => simp [collectOverlaps]
  | cons ie rest ih =>
    obtain ⟨hie,hle⟩ := hmem ie (by simp)
    obtain ⟨hlt,hl⟩ := List.pairwise_cons.mp hl
    have hrest : y ∈ collectOverlaps ⟨a,n⟩ (a+n) rest ↔ y ∈ rest ∧ Meets a (a+n) y :=
      ih hl fun e he => hmem e (by simp [he])
    rw [collectOverlaps]
    split_ifs with h₁ h₂
    · have hno : ¬Meets a (a+n) ie := fun hc => by have := hc.1; omega
      rw [hrest,List.mem_cons]
      constructor
      · rintro ⟨hy,hc⟩
        exact ⟨Or.inr hy,hc⟩
      · rintro ⟨rfl | hy,hc⟩
        · exact absurd hc hno
        · exact ⟨hy,hc⟩
    · rw [List.mem_cons,hrest,List.mem_cons]
      have := (hov ie hie).mp h₂
      constructor
      · rintro (rfl | ⟨hy,hc⟩)
        · exact ⟨Or.inl rfl,this⟩
        · exact ⟨Or.inr hy,hc⟩
      · rintro ⟨rfl | hy,hc⟩
        · exact Or.inl rfl
        · exact Or.inr ⟨hy,hc⟩
    · -- `ie` ends at or before `a`, and everything after it in the list lies below `ie`
      have hno : ¬Meets a (a+n) ie := fun hc => h₂ ((hov ie hie).mpr hc)
      simp only [List.not_mem_nil,List.mem_cons,false_iff]
      rintro ⟨rfl | hy,hc⟩
      · exact hno hc
      · have hd := h.disjoint y (hmem y (by simp [hy])).1 ie hie (hlt y hy)
        have hp := h.nonempty ie hie
        obtain ⟨hc₁,hc₂⟩ := hc
        exact hno ⟨by omega,by omega⟩

theorem mem_getByteRange {m : ExtentRangeMap V} (h : m.WF) {a n : ℕ} (hn : 0 < n)
    (hb : a+n < 2^64) (y : RangeValue V) :
    y ∈ m.getByteRange a n ↔ y ∈ m.tree ∧ Meets a (a+n) y := by
  rw [getByteRange,u64_of_lt hb,mem_collectOverlaps h hn hb _
    (OrderedMap.descendLessOrEqual_sorted ..)
    (fun e he => OrderedMap.mem_descendLessOrEqual.mp he),OrderedMap.mem_descendLessOrEqual]
  constructor
  · rintro ⟨⟨hy,-⟩,hc⟩
    exact ⟨hy,hc⟩
  · rintro ⟨hy,hc⟩
    exact ⟨⟨hy,hc.1.le⟩,hc⟩

section Remove

variable [DecidableEq V]

theorem deleteItem_spec {m : ExtentRangeMap V} {ie : RangeValue V} (hie : ie ∈ m.tree) :
    ∃ m', m.deleteItem ie = .ok m' ∧ ∀ y, y ∈ m'.tree ↔ y ∈ m.tree ∧ y ≠ ie := by
  have hl : (m.tree.delete ie.offset).1 = some ie := OrderedMap.lookup_eq_some.mpr ⟨hie,rfl⟩
  refine ⟨⟨(m.tree.delete ie.offset).2⟩,?_,fun y => ?_⟩
  · unfold deleteItem
    split
    · rename_i old tree heq
      rw [heq] at hl
      simp only [Option.some.injEq] at hl
      rw [if_pos hl,heq]
    · rename_i heq
      rw [heq] at hl
      simp at hl
  · rw [OrderedMap.mem_delete]
    refine and_congr_right fun hy => not_congr ⟨OrderedMap.eq_of_key_eq hy hie,?_⟩
    rintro rfl
    rfl

/-- One pass of the loop of `Remove` replaces the extent by what sticks out of `[a,b)`. -/
theorem removeItem_mem {m : ExtentRangeMap V} (h : m.WF) {a b : ℕ} {ie : RangeValue V}
    (hie : ie ∈ m.tree) (hm : Meets a b ie) :
    ∃ m', removeItem a b m ie = .ok m' ∧
      ∀ y, y ∈ m'.tree ↔ (y ∈ m.tree ∧ y ≠ ie) ∨ y ∈ remnants a b ie := by
  obtain ⟨m₁,hm₁,hy₁⟩ := insertTail_spec h hie hm.1
  have hie₁ : ie ∈ m₁.tree := (hy₁ ie).mpr (Or.inl hie)
  -- the tail is a new extent: it starts at `b`, where `ie` does not
  have hne : ∀ y : RangeValue V, y = ⟨⟨b,ie.offset+ie.length-b⟩,ie.value⟩ → y ≠ ie := by
    rintro y rfl heq
    have := hm.1
    rw [← heq] at this
    simp at this
  have hsplit (y : RangeValue V) : y ∈ m₁.tree ∧ y ≠ ie ↔ (y ∈ m.tree ∧ y ≠ ie) ∨
      (b < ie.offset+ie.length ∧ y = ⟨⟨b,ie.offset+ie.length-b⟩,ie.value⟩) := by
    rw [hy₁]
    constructor
    · rintro ⟨hy | hy,hn⟩
      · exact Or.inl ⟨hy,hn⟩
      · exact Or.inr hy
    · rintro (⟨hy,hn⟩ | hy)
      · exact ⟨Or.inl hy,hn⟩
      · exact ⟨Or.inr hy,hne y hy.2⟩
  unfold removeItem
  rw [hm₁]
  by_cases ha : ie.offset < a
  · refine ⟨m₁.truncate ie (a-ie.offset),by simp [ha,bind,Except.bind,pure,Except.pure],
      fun y => ?_⟩
    rw [mem_truncate hie₁,hsplit,mem_remnants]
    simp only [ha,true_and]
    rw [or_assoc]
    exact or_congr Iff.rfl or_comm
  · obtain ⟨m',hm',hy'⟩ := deleteItem_spec hie₁
    refine ⟨m',by simp [ha,bind,Except.bind,hm'],fun y => ?_⟩
    rw [hy',hsplit,mem_remnants]
    simp [ha]

/-- The whole loop of `Remove`: every listed extent shrinks to what sticks out of `[a,b)`. -/
theorem removeItems_spec {a b : ℕ} (hab : a < b) (os : List (RangeValue V)) (hnd : os.Nodup)
    (m : ExtentRangeMap V) (h : m.WF) (hos : ∀ e ∈ os, e ∈ m.tree ∧ Meets a b e) :
    ∃ m', os.foldlM (removeItem a b) m = .ok m' ∧ m'.WF ∧
      ∀ y, y ∈ m'.tree ↔ (y ∈ m.tree ∧ y ∉ os) ∨ ∃ e ∈ os, y ∈ remnants a b e := by
  induction os generalizing m with
  | nil => exact ⟨m,rfl,h,by simp⟩
  | cons ie os ih =>
    obtain ⟨hie,hm⟩ := hos ie (by simp)
    obtain ⟨hnot,hnd⟩ := List.nodup_cons.mp hnd
    obtain ⟨m₁,he₁,hy₁⟩ := removeItem_mem h hie hm
    have h₁ := h.of_removeItem hab hie hm hy₁
    obtain ⟨m',he',hwf,hy'⟩ := ih hnd m₁ h₁ (by
      intro e he
      obtain ⟨hem,hme⟩ := hos e (by simp [he])
      exact ⟨(hy₁ e).mpr (Or.inl ⟨hem,fun heq => hnot (heq ▸ he)⟩),hme⟩)
    refine ⟨m',by rw [List.foldlM_cons,he₁]; exact he',hwf,fun y => ?_⟩
    -- what sticks out of `ie` misses `[a,b)`, so it is none of the later extents
    have hfresh : y ∈ remnants a b ie → y ∉ os := by
      intro hyr hyo
      have hw := remnants_within hm hyr
      obtain ⟨hc,hd⟩ := (hos y (by simp [hyo])).2
      omega
    rw [hy',hy₁]
    simp only [List.mem_cons,exists_eq_or_imp,not_or]
    tauto

/-- `Remove` never panics on a well-formed map and unmaps exactly its range. -/
theorem remove_spec {m : ExtentRangeMap V} (h : m.WF) {a n : ℕ} (hb : a+n < 2^64) :
    ∃ m', m.remove a n = .ok m' ∧ m'.WF ∧
      ∀ x, m'.get x = if a ≤ x ∧ x < a+n then none else m.get x := by
  unfold remove
  by_cases hn : n = 0
  · refine ⟨m,by rw [if_pos hn],h,fun x => ?_⟩
    rw [if_neg (by omega)]
  · have hnd : (m.getByteRange a n).Nodup := by
      have hs := (OrderedMap.descendLessOrEqual_sorted m.tree (u64 (a+n))).sublist
        (collectOverlaps_sublist ⟨a,n⟩ (u64 (a+n)) _)
      exact hs.imp fun hlt he => by subst he; omega
    obtain ⟨m',he,hwf,hy⟩ := removeItems_spec (a := a) (b := a+n) (by omega) _ hnd m h
      fun e he => (mem_getByteRange h (by omega) hb e).mp he
    refine ⟨m',by rw [if_neg hn,u64_of_lt hb,he],hwf,fun x => ?_⟩
    have hy (y : RangeValue V) : y ∈ m'.tree ↔ (y ∈ m.tree ∧ ¬Meets a (a+n) y) ∨
        ∃ e ∈ m.tree, Meets a (a+n) e ∧ y ∈ remnants a (a+n) e := by
      rw [hy]
      simp only [mem_getByteRange h (by omega : 0 < n) hb,and_assoc]
      tauto
    split_ifs with hx
    · rw [get_eq_none hwf]
      rintro y hym ⟨hlo,hhi⟩
      rcases (hy y).mp hym with ⟨-,hno⟩ | ⟨e,-,hm,hyr⟩
      · exact hno ⟨by omega,by omega⟩
      · have := remnants_within hm hyr
        omega
    · apply Option.ext
      intro v
      rw [get_eq_some hwf,get_eq_some h]
      constructor
      · rintro ⟨y,hym,hyx,rfl⟩
        rcases (hy y).mp hym with ⟨hym,-⟩ | ⟨e,he,hm,hyr⟩
        · exact ⟨y,hym,hyx,rfl⟩
        · have hw := remnants_within hm hyr
          refine ⟨e,he,⟨by have := hyx.1; omega,by have := hyx.2; omega⟩,?_⟩
          rcases mem_remnants.mp hyr with ⟨-,rfl⟩ | ⟨-,rfl⟩ <;> rfl
      · rintro ⟨e,he,hex,rfl⟩
        by_cases hm : Meets a (a+n) e
        · obtain ⟨hlo,hhi⟩ := hex
          by_cases hxa : x < a
          · exact ⟨⟨⟨e.offset,a-e.offset⟩,e.value⟩,
              (hy _).mpr (Or.inr ⟨e,he,hm,mem_remnants.mpr (Or.inl ⟨by omega,rfl⟩)⟩),
              ⟨hlo,by simp only; omega⟩,rfl⟩
          · exact ⟨⟨⟨a+n,e.offset+e.length-(a+n)⟩,e.value⟩,
              (hy _).mpr (Or.inr ⟨e,he,hm,mem_remnants.mpr (Or.inr ⟨by omega,rfl⟩)⟩),
              ⟨by simp only; omega,by simp only; omega⟩,rfl⟩
        · exact ⟨e,(hy e).mpr (Or.inl ⟨he,hm⟩),hex,rfl⟩

/-- `Add` never panics on a well-formed map and paints exactly its range. -/
theorem add_spec {m : ExtentRangeMap V} (h : m.WF) {a n : ℕ} (hb : a+n < 2^64) (v : V) :
    ∃ m', m.add a n v = .ok m' ∧ m'.WF ∧ m'.get = paint m.get ⟨⟨a,n⟩,v⟩ := by
  unfold add
  by_cases hn : n = 0
  · refine ⟨m,by rw [if_pos hn],h,funext fun x => ?_⟩
    rw [paint,if_neg (fun hc => by have := hc.1; have := hc.2; simp only at *; omega)]
  · obtain ⟨m₁,he₁,h₁,hg₁⟩ := remove_spec h hb
    -- the hole is empty, so no extent reaches into it
    have hole : ∀ e ∈ m₁.tree, e.offset+e.length ≤ a ∨ a+n ≤ e.offset := by
      intro e he
      have hp := h₁.nonempty e he
      by_contra hc
      have hx := hg₁ (max a e.offset)
      rw [if_pos (by omega)] at hx
      exact (get_eq_none h₁).mp hx e he ⟨by omega,by omega⟩
    obtain ⟨m',he',hy'⟩ := insertNew_spec (m := m₁) ⟨⟨a,n⟩,v⟩ (by
      intro e he heq
      have hp := h₁.nonempty e he
      simp only at heq
      rcases hole e he with hc | hc <;> omega)
    have hwf : m'.WF := by
      refine ⟨fun e he => ?_,fun e he => ?_,fun e he f hf hlt => ?_⟩
      · rcases (hy' e).mp he with rfl | he
        · simp only; omega
        · exact h₁.nonempty e he
      · rcases (hy' e).mp he with rfl | he
        · exact hb
        · exact h₁.bounded e he
      · rcases (hy' e).mp he with rfl | he
        · rcases (hy' f).mp hf with rfl | hf
          · omega
          · have := h₁.nonempty f hf
            rcases hole f hf with hc | hc <;> simp only at hlt ⊢ <;> omega
        · rcases (hy' f).mp hf with rfl | hf
          · rcases hole e he with hc | hc <;> simp only at hlt ⊢ <;> omega
          · exact h₁.disjoint e he f hf hlt
    refine ⟨m',by rw [if_neg hn,he₁]; exact he',hwf,funext fun x => Option.ext fun w => ?_⟩
    rw [get_eq_some hwf,paint_eq_some]
    simp only [hy',exists_eq_or_imp]
    refine or_congr Iff.rfl ?_
    rw [← get_eq_some h₁,hg₁,Has]
    simp only
    by_cases hx : a ≤ x ∧ x < a+n <;> simp [hx]

/-- Adding a sequence of ranges, each below the end of the key space. -/
def addAll (m : ExtentRangeMap V) (rs : List (RangeValue V)) : Exec (ExtentRangeMap V) :=
  rs.foldlM (fun m r => m.add r.offset r.length r.value) m

theorem addAll_spec (rs : List (RangeValue V)) (m : ExtentRangeMap V) (h : m.WF)
    (hb : ∀ r ∈ rs, r.offset+r.length < 2^64) :
    ∃ m', m.addAll rs = .ok m' ∧ m'.WF ∧ m'.get = paintAll m.get rs := by
  induction rs generalizing m with
  | nil => exact ⟨m,rfl,h,rfl⟩
  | cons r rs ih =>
    obtain ⟨m₁,he₁,h₁,hg₁⟩ := add_spec h (hb r (by simp)) r.value
    obtain ⟨m',he',h',hg'⟩ := ih m₁ h₁ fun r hr => hb r (by simp [hr])
    refine ⟨m',?_,h',by rw [hg',hg₁]; rfl⟩
    rw [addAll,List.foldlM_cons,he₁]
    exact he'

end Remove

theorem nextKey_spec {m : ExtentRangeMap V} (h : m.WF) (x : ℕ) :
    LeastFrom (fun z => m.get z ≠ none) x (m.nextKey x) := by
  unfold nextKey
  cases hg : m.get x with
  | some v => exact ⟨le_rfl,by simp [hg],fun z h₁ h₂ => by omega⟩
  | none =>
    -- an extent that starts before `x` ends before `x`, since `x` is unmapped
    have before : ∀ e ∈ m.tree, e.offset < x → e.offset+e.length ≤ x := by
      intro e he hlt
      have := (get_eq_none h).mp hg e he
      by_contra hc
      exact this ⟨hlt.le,by omega⟩
    cases hc : m.tree.ceil x with
    | none =>
      intro z hz hne
      obtain ⟨v,hv⟩ := Option.ne_none_iff_exists'.mp hne
      obtain ⟨e,he,hex,-⟩ := (get_eq_some h).mp hv
      have := before e he (OrderedMap.ceil_eq_none hc e he)
      have := hex.2
      omega
    | some ie =>
      obtain ⟨hie,hle,hmin⟩ := OrderedMap.ceil_eq_some hc
      have hp := h.nonempty ie hie
      refine ⟨hle,h.get_ne_none hie ⟨le_rfl,by simp only; omega⟩,fun z hz hlt hne => ?_⟩
      · simp only at hlt
        obtain ⟨v,hv⟩ := Option.ne_none_iff_exists'.mp hne
        obtain ⟨e,he,hex,-⟩ := (get_eq_some h).mp hv
        obtain ⟨h₁,h₂⟩ := hex
        by_cases hex : e.offset < x
        · have := before e he hex
          omega
        · have := hmin e he (by omega)
          omega

/-- Walking the extents from `next` on stops at the first unmapped key. -/
theorem skipExtents_spec {m : ExtentRangeMap V} (h : m.WF) (next : ℕ)
    (l : List (RangeValue V)) (hl : l.Pairwise fun a b => a.offset < b.offset)
    (hmem : ∀ e, e ∈ l ↔ e ∈ m.tree ∧ next ≤ e.offset)
    (hbefore : ∀ e ∈ m.tree, e.offset < next → e.offset+e.length ≤ next) :
    LeastFrom (fun z => m.get z = none) next (some (skipExtents next l)) := by
  induction l generalizing next with
  | nil =>
    refine ⟨le_rfl,(get_eq_none h).mpr fun e he hx => ?_,fun z h₁ h₂ => by
      simp only [skipExtents] at h₂; omega⟩
    simp only [skipExtents] at hx
    by_cases hlt : e.offset < next
    · have := hbefore e he hlt
      have := hx.2
      omega
    · simpa using (hmem e).mpr ⟨he,by omega⟩
  | cons ie rest ih =>
    obtain ⟨hie,hle⟩ := (hmem ie).mp (by simp)
    obtain ⟨hlt,hl⟩ := List.pairwise_cons.mp hl
    have hb := h.bounded ie hie
    have hp := h.nonempty ie hie
    rw [skipExtents]
    split_ifs with hc
    · obtain ⟨h₁,h₂⟩ := (Range.contains_iff hb next).mp hc
      have heq : ie.offset = next := by omega
      rw [Range.endOf_of_lt hb]
      obtain ⟨h₃,h₄,h₅⟩ := ih (ie.offset+ie.length) hl (by
        intro e
        constructor
        · intro he
          obtain ⟨hem,-⟩ := (hmem e).mp (by simp [he])
          exact ⟨hem,h.disjoint ie hie e hem (hlt e he)⟩
        · rintro ⟨hem,hge⟩
          rcases List.mem_cons.mp ((hmem e).mpr ⟨hem,by omega⟩) with rfl | he
          · omega
          · exact he) (by
        intro e he hlt'
        by_cases hen : e.offset < next
        · have := hbefore e he hen
          omega
        · rcases List.mem_cons.mp ((hmem e).mpr ⟨he,by omega⟩) with rfl | her
          · exact le_rfl
          · have := h.disjoint ie hie e he (hlt e her)
            omega)
      refine ⟨by omega,h₄,fun z hz₁ hz₂ => ?_⟩
      by_cases hz : z < ie.offset+ie.length
      · exact h.get_ne_none hie ⟨by omega,hz⟩
      · exact h₅ z (by omega) hz₂
    · refine ⟨le_rfl,(get_eq_none h).mpr fun e he hx => ?_,fun z h₁ h₂ => by omega⟩
      by_cases hen : e.offset < next
      · have := hbefore e he hen
        have := hx.2
        omega
      · rcases List.mem_cons.mp ((hmem e).mpr ⟨he,by omega⟩) with rfl | her
        · exact hc ((Range.contains_iff hb next).mpr hx)
        · have := hlt e her
          have := hx.1
          omega

theorem nextEmpty_spec {m : ExtentRangeMap V} (h : m.WF) (x : ℕ) :
    LeastFrom (fun z => m.get z = none) x (some (m.nextEmpty x)) := by
  unfold nextEmpty
  by_cases hg : m.getWithRange x = none
  · have hgx : m.get x = none := by rw [get_eq_map,hg]; rfl
    have hnext : (match m.tree.floor x with
        | some ie => if ie.contains x then ie.endOf else x
        | none => x) = x := by
      unfold getWithRange at hg
      cases hf : m.tree.floor x with
      | none => rfl
      | some ie =>
        simp only [hf] at hg ⊢
        split_ifs at hg ⊢
        rfl
    simp only [hnext,if_true]
    exact ⟨le_rfl,hgx,fun z h₁ h₂ => by omega⟩
  · obtain ⟨ie,hie⟩ := Option.ne_none_iff_exists'.mp hg
    obtain ⟨him,hlo,hhi⟩ := (getWithRange_eq_some h).mp hie
    have hb := h.bounded ie him
    have hnext : (match m.tree.floor x with
        | some ie => if ie.contains x then ie.endOf else x
        | none => x) = ie.offset+ie.length := by
      unfold getWithRange at hie
      cases hf : m.tree.floor x with
      | none => simp [hf] at hie
      | some e =>
        simp only [hf] at hie ⊢
        split_ifs at hie ⊢
        rw [Option.some.inj hie,Range.endOf_of_lt hb]
    have hne : ie.offset+ie.length ≠ x := by omega
    simp only [hnext,if_neg hne]
    clear hnext
    obtain ⟨h₁,h₂,h₃⟩ := skipExtents_spec h (ie.offset+ie.length) _
      (OrderedMap.ascendGreaterOrEqual_sorted ..)
      (fun e => OrderedMap.mem_ascendGreaterOrEqual) (by
        intro e he hlt
        rcases lt_trichotomy e.offset ie.offset with h₄ | h₄ | h₄
        · have := h.disjoint e he ie him h₄
          omega
        · rw [OrderedMap.eq_of_key_eq he him h₄]
        · have := h.disjoint ie him e he h₄
          omega)
    refine ⟨by omega,h₂,fun z hz₁ hz₂ => ?_⟩
    by_cases hz : z < ie.offset+ie.length
    · exact h.get_ne_none him ⟨by omega,hz⟩
    · exact h₃ z (by omega) hz₂

theorem begin_spec {m : ExtentRangeMap V} (h : m.WF) :
    LeastFrom (fun z => m.get z ≠ none) 0 m.begin := by
  have hs := m.tree.sorted
  unfold begin
  cases hi : m.tree.items with
  | nil =>
    intro z _ hne
    refine hne ((get_eq_none h).mpr fun e he => ?_)
    rw [OrderedMap.mem_def,hi] at he
    simp at he
  | cons ie rest =>
    have hmem (e : RangeValue V) : e ∈ m.tree ↔ e = ie ∨ e ∈ rest := by
      rw [OrderedMap.mem_def,hi,List.mem_cons]
    rw [hi,List.pairwise_cons] at hs
    have hie := (hmem ie).mpr (Or.inl rfl)
    have hp := h.nonempty ie hie
    refine ⟨Nat.zero_le _,h.get_ne_none hie ⟨le_rfl,by simp only; omega⟩,
      fun z _ hz hne => hne ((get_eq_none h).mpr fun e he hx => ?_)⟩
    have h₁ := hx.1
    simp only at hz
    rcases (hmem e).mp he with rfl | her
    · omega
    · have := hs.1 e her
      omega

/-- `End` is one past the last mapped key. -/
theorem endKey_spec {m : ExtentRangeMap V} (h : m.WF) :
    (∀ x, m.endKey ≤ x → m.get x = none) ∧ (0 < m.endKey → m.get (m.endKey-1) ≠ none) := by
  have hs := m.tree.sorted
  rw [← List.pairwise_reverse] at hs
  unfold endKey
  cases hi : m.tree.items.reverse with
  | nil =>
    refine ⟨fun x _ => (get_eq_none h).mpr fun e he => ?_,by simp⟩
    rw [OrderedMap.mem_def,← List.mem_reverse,hi] at he
    simp at he
  | cons ie rest =>
    have hmem (e : RangeValue V) : e ∈ m.tree ↔ e = ie ∨ e ∈ rest := by
      rw [OrderedMap.mem_def,← List.mem_reverse,hi,List.mem_cons]
    rw [hi,List.pairwise_cons] at hs
    have hie := (hmem ie).mpr (Or.inl rfl)
    have hp := h.nonempty ie hie
    have hb := h.bounded ie hie
    simp only [List.head?_cons,u64_of_lt hb]
    refine ⟨fun x hx => (get_eq_none h).mpr fun e he hex => ?_,fun _ => ?_⟩
    · have h₁ := hex.2
      rcases (hmem e).mp he with rfl | her
      · omega
      · have := h.disjoint e he ie hie (hs.1 e her)
        omega
    · exact h.get_ne_none hie ⟨by omega,by omega⟩

/-- The extents from `start` on, the one that contains `start` cut there. -/
def clipped (m : ExtentRangeMap V) (start : ℕ) : List (RangeValue V) :=
  match m.getWithRange start with
  | some ie => ⟨⟨start,ie.offset+ie.length-start⟩,ie.value⟩::m.tree.ascendGreaterOrEqual (start+1)
  | none => m.tree.ascendGreaterOrEqual start

theorem clipped_isPieces {m : ExtentRangeMap V} (h : m.WF) (start : ℕ) :
    IsPieces m.get start (m.clipped start) := by
  have hsorted (k : ℕ) : Ascending (m.tree.ascendGreaterOrEqual k) := by
    refine ⟨(m.tree.ascendGreaterOrEqual_sorted k).imp_of_mem fun ha hb hlt => ?_,fun e he => ?_⟩
    · exact h.disjoint _ (OrderedMap.mem_ascendGreaterOrEqual.mp ha).1 _
        (OrderedMap.mem_ascendGreaterOrEqual.mp hb).1 hlt
    · exact h.nonempty e (OrderedMap.mem_ascendGreaterOrEqual.mp he).1
  unfold clipped
  cases hg : m.getWithRange start with
  | none =>
    have hnone : m.get start = none := by rw [get_eq_map,hg]; rfl
    refine ⟨hsorted start,fun e he => (OrderedMap.mem_ascendGreaterOrEqual.mp he).2,
      fun e he x hx => ?_,fun x hx hne => ?_⟩
    · exact (get_eq_some h).mpr ⟨e,(OrderedMap.mem_ascendGreaterOrEqual.mp he).1,hx,rfl⟩
    · obtain ⟨v,hv⟩ := Option.ne_none_iff_exists'.mp hne
      obtain ⟨e,he,hex,-⟩ := (get_eq_some h).mp hv
      refine ⟨e,OrderedMap.mem_ascendGreaterOrEqual.mpr ⟨he,?_⟩,hex⟩
      by_contra hlt
      have := hex.2
      exact (get_eq_none h).mp hnone e he ⟨by omega,by omega⟩
  | some ie =>
    obtain ⟨hie,hlo,hhi⟩ := (getWithRange_eq_some h).mp hg
    have hgt : ∀ e ∈ m.tree, start+1 ≤ e.offset → ie.offset+ie.length ≤ e.offset :=
      fun e he hle => h.disjoint ie hie e he (by omega)
    refine ⟨⟨List.pairwise_cons.mpr ⟨fun e he => ?_,(hsorted _).1⟩,fun e he => ?_⟩,
      fun e he => ?_,fun e he x hx => ?_,fun x hx hne => ?_⟩
    · obtain ⟨hem,hle⟩ := OrderedMap.mem_ascendGreaterOrEqual.mp he
      have := hgt e hem hle
      simp only
      omega
    · rcases List.mem_cons.mp he with rfl | he
      · simp only
        omega
      · exact (hsorted _).2 e he
    · rcases List.mem_cons.mp he with rfl | he
      · exact le_rfl
      · have := (OrderedMap.mem_ascendGreaterOrEqual.mp he).2
        omega
    · rcases List.mem_cons.mp he with rfl | he
      · obtain ⟨h₁,h₂⟩ := hx
        simp only at h₁ h₂
        exact (get_eq_some h).mpr ⟨ie,hie,⟨by omega,by omega⟩,rfl⟩
      · exact (get_eq_some h).mpr ⟨e,(OrderedMap.mem_ascendGreaterOrEqual.mp he).1,hx,rfl⟩
    · obtain ⟨v,hv⟩ := Option.ne_none_iff_exists'.mp hne
      obtain ⟨e,he,hex,-⟩ := (get_eq_some h).mp hv
      by_cases hle : start+1 ≤ e.offset
      · exact ⟨e,by simp [he,hle],hex⟩
      · -- `e` also contains `start`, so it is the extent that was cut
        have h₂ := hex.2
        have heq := h.eq_of_has he hie (x := start) ⟨by omega,by omega⟩ ⟨hlo,hhi⟩
        subst heq
        exact ⟨_,List.mem_cons_self ..,⟨hx,by simp only; omega⟩⟩

/-- The items from a stored key on: the item stored there, then those after it. -/
theorem ascendGreaterOrEqual_of_mem {m : ExtentRangeMap V} {ie : RangeValue V} {k : ℕ}
    (hie : ie ∈ m.tree) (hk : ∀ e ∈ m.tree, ie.offset < e.offset ↔ k ≤ e.offset) :
    m.tree.ascendGreaterOrEqual ie.offset = ie::m.tree.ascendGreaterOrEqual k := by
  have hs := m.tree.ascendGreaterOrEqual_sorted ie.offset
  have hs' : (ie::m.tree.ascendGreaterOrEqual k).Pairwise fun a b => a.offset < b.offset :=
    List.pairwise_cons.mpr ⟨fun e he => by
      obtain ⟨hem,hle⟩ := OrderedMap.mem_ascendGreaterOrEqual.mp he
      exact (hk e hem).mpr hle,m.tree.ascendGreaterOrEqual_sorted _⟩
  have nodup {l : List (RangeValue V)} (hl : l.Pairwise fun a b => a.offset < b.offset) :
      l.Nodup := hl.imp fun hlt he => by subst he; omega
  refine ((List.perm_ext_iff_of_nodup (nodup hs) (nodup hs')).mpr fun e => ?_).eq_of_pairwise
    (fun a b _ _ hab hba => by omega) hs hs'
  rw [List.mem_cons,OrderedMap.mem_ascendGreaterOrEqual,OrderedMap.mem_ascendGreaterOrEqual]
  constructor
  · rintro ⟨he,hle⟩
    rcases Nat.eq_or_lt_of_le hle with heq | hlt
    · exact Or.inl (OrderedMap.eq_of_key_eq he hie heq.symm)
    · exact Or.inr ⟨he,(hk e he).mp hlt⟩
  · rintro (rfl | ⟨he,hle⟩)
    · exact ⟨hie,le_rfl⟩
    · exact ⟨he,((hk e he).mpr hle).le⟩

section Iterate

variable [DecidableEq V] {σ : Type}

/-- From the start of the range on, the closure of `Iterate` reports the joined pieces. -/
theorem iterateItems_eq (iter : σ → RangeValue V → σ × Bool) (start : ℕ) (s : σ)
    (r : RangeValue V) (l : List (RangeValue V)) (hl : ∀ e ∈ l, start ≤ e.offset)
    (hb : ∀ e ∈ l, e.offset+e.length < 2^64) (hr : r.offset+r.length < 2^64) :
    iterateItems iter start s r l = callUntil iter s (coalesce r l) := by
  induction l generalizing s r with
  | nil =>
    rw [iterateItems,coalesce]
    split_ifs with h₁ <;> simp [callUntil]
  | cons ie rest ih =>
    have hrest := fun (s : σ) (r : RangeValue V) => ih s r (fun e he => hl e (by simp [he]))
      fun e he => hb e (by simp [he])
    have hie := hb ie (by simp)
    rw [iterateItems,if_neg (by have := hl ie (by simp); omega),Range.endOf_of_lt hr,coalesce]
    by_cases hm : r.value = ie.value ∧ ie.offset = r.offset+r.length
    · rw [if_pos hm,if_pos hm]
      exact hrest _ _ (by simp only; omega)
    · rw [if_neg hm,if_neg hm]
      by_cases hp : 0 < r.length
      · rw [if_pos hp,if_pos hp,callUntil]
        by_cases hgo : (iter s r).2 = true
        · rw [if_pos hgo,if_pos hgo,hrest _ _ hie]
        · rw [if_neg hgo,if_neg hgo]
      · rw [if_neg hp,if_neg hp,hrest _ _ hie]

/-- `Iterate` joins the extents from `start` on. -/
theorem iterate_eq [Inhabited V] {m : ExtentRangeMap V} (h : m.WF) (start : ℕ)
    (iter : σ → RangeValue V → σ × Bool) (s : σ) :
    m.iterate start iter s = callUntil iter s (coalesce ⟨⟨0,0⟩,default⟩ (m.clipped start)) := by
  have hb (k : ℕ) : ∀ e ∈ m.tree.ascendGreaterOrEqual k, e.offset+e.length < 2^64 :=
    fun e he => h.bounded e (OrderedMap.mem_ascendGreaterOrEqual.mp he).1
  have hge (k : ℕ) : ∀ e ∈ m.tree.ascendGreaterOrEqual k, k ≤ e.offset :=
    fun e he => (OrderedMap.mem_ascendGreaterOrEqual.mp he).2
  cases hg : m.getWithRange start with
  | none =>
    have hfirst : (match m.tree.floor start with
        | some ie => if 0 < start ∧ ie.contains start then ie.offset else start
        | none => start) = start := by
      unfold getWithRange at hg
      cases hf : m.tree.floor start with
      | none => rfl
      | some ie =>
        simp only [hf] at hg ⊢
        split_ifs at hg with hc
        rw [if_neg fun hc' => hc hc'.2]
    simp only [iterate,hfirst,clipped,hg]
    exact iterateItems_eq iter start s _ _ (hge start) (hb start) (by simp)
  | some ie =>
    obtain ⟨hie,hlo,hhi⟩ := (getWithRange_eq_some h).mp hg
    have hbie := h.bounded ie hie
    have hfirst : (match m.tree.floor start with
        | some ie => if 0 < start ∧ ie.contains start then ie.offset else start
        | none => start) = ie.offset := by
      unfold getWithRange at hg
      cases hf : m.tree.floor start with
      | none => simp [hf] at hg
      | some e =>
        simp only [hf] at hg ⊢
        split_ifs at hg with hc
        cases Option.some.inj hg
        by_cases h0 : 0 < start
        · rw [if_pos ⟨h0,hc⟩]
        · rw [if_neg fun hc' => h0 hc'.1]
          omega
    -- nothing else starts between the extent that contains `start` and `start` itself
    have hitems : m.tree.ascendGreaterOrEqual ie.offset =
        ie::m.tree.ascendGreaterOrEqual (start+1) :=
      ascendGreaterOrEqual_of_mem hie fun e he => ⟨fun hlt => by
        have := h.disjoint ie hie e he hlt
        omega,fun hle => by omega⟩
    simp only [iterate,hfirst,clipped,hg,hitems,coalesce_zero_cons]
    by_cases hlt : ie.offset < start
    · rw [iterateItems,if_pos hlt,Range.endOf_of_lt hbie]
      exact iterateItems_eq iter start s _ _ (fun e he => by have := hge _ e he; omega) (hb _)
        (by simp only; omega)
    · have heq : ie = ⟨⟨start,ie.offset+ie.length-start⟩,ie.value⟩ := by
        obtain ⟨⟨o,n⟩,v⟩ := ie
        simp only [RangeValue.mk.injEq,Range.mk.injEq,and_true] at hlo hlt ⊢
        omega
      rw [← heq,iterateItems_eq iter start s _ _ (by
        intro e he
        rcases List.mem_cons.mp he with rfl | he
        · omega
        · have := hge _ e he
          omega) (by
        intro e he
        rcases List.mem_cons.mp he with rfl | he
        · exact hbie
        · exact hb _ e he) (by simp),coalesce_zero_cons]

end Iterate

end ExtentRangeMap
end Logblock
