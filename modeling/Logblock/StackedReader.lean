import Logblock.Loop
import Logblock.BlockReader

/-! The stacked block reader: a read takes every block from the topmost reader that holds it.
One level reads the data runs of its reader and leaves each gap to the levels below; what a
level has done when it returns, with or without an error, is described by `Outcome`. -/
namespace Logblock
namespace Readers

open Loop Runs BlockHoleReader

variable {β : Type}

/-- The variables of the loop: the blocks of the buffer still to fill, the next block, the
running count, and the blocks filled so far. -/
structure Pos (β : Type) where
  left : ℕ
  off : ℕ
  blocksRead : ℕ
  out : List β

/-- The second half of a pass: the gap up to the next data is read from the levels below. -/
def readGap (numBlocks : ℕ) (tr : BlockHoleReader β) (below : ℕ → ℕ → Exec (ReadResult β))
    (s : Pos β) : Exec (Pos β ⊕ ReadResult β) :=
  let (next,err) := tr.nextBlockData s.off
  if err ≠ none ∧ err ≠ some .eof then .ok (.inr ⟨s.out,s.blocksRead,err⟩)
  else
    let nextData := if err = some .eof then numBlocks else next
    if nextData < s.off then .error (.panic "slice bounds out of range")
    else
      match below (min s.left (nextData-s.off)) s.off with
      | .error e => .error e
      | .ok r =>
        let s' : Pos β :=
          ⟨s.left-r.count,s.off+r.count,s.blocksRead+r.count,s.out++r.filled⟩
        match r.err with
        | some e => .ok (.inr ⟨s'.out,s'.blocksRead,some e⟩)
        | none => .ok (.inl s')

/-- One pass of the loop of `readBlocksFrom`. The error of `NextBlockHole` is not looked at. -/
def readPass (numBlocks : ℕ) (tr : BlockHoleReader β) (below : ℕ → ℕ → Exec (ReadResult β))
    (s : Pos β) : Exec (Pos β ⊕ ReadResult β) :=
  if s.left = 0 then .ok (.inr ⟨s.out,s.blocksRead,none⟩)
  else if numBlocks ≤ s.off then .ok (.inr ⟨s.out,s.blocksRead,some .eof⟩)
  else
    let nextHole := (tr.nextBlockHole s.off).1
    if s.off < nextHole then
      let readBlocks := min s.left (nextHole-s.off)
      let (bs,err) := tr.readBlocks readBlocks s.off
      let n := bs.length
      let s' : Pos β := ⟨s.left-n,s.off+n,s.blocksRead+n,s.out++bs⟩
      let err := if err = some .eof ∧ n = readBlocks then none else err
      -- the count of this run alone is returned, not the count of the whole level
      if err ≠ none then .ok (.inr ⟨s'.out,n,err⟩)
      else if n ≠ readBlocks then .error (.panic "no error when read != readBlocks")
      else if s'.left = 0 then .ok (.inr ⟨s'.out,s'.blocksRead,none⟩)
      else readGap numBlocks tr below s'
    else readGap numBlocks tr below s

/-- `readBlocksFrom` on a buffer of whole blocks; every pass but the last fills a block. -/
def readBlocksFrom (zero : β) (numBlocks : ℕ) :
    List (BlockHoleReader β) → ℕ → ℕ → Exec (ReadResult β)
  | [] => fun n _ => .ok ⟨List.replicate n zero,n,none⟩
  | tr::rs => fun n off =>
    run (readPass numBlocks tr (readBlocksFrom zero numBlocks rs)) (n+1) ⟨n,off,0,[]⟩

structure StackedBlockReader (β : Type) where
  rs : List (BlockHoleReader β)
  blockSize : ℕ
  numBlocks : ℕ

/-- `ReadBlocks` with a buffer of `len` bytes; `zero` is a cleared block. -/
def StackedBlockReader.readBlocks (zero : β) (r : StackedBlockReader β) (len off : ℕ) :
    Exec (ReadResult β) :=
  if len % r.blockSize ≠ 0 then
    .ok ⟨[],0,some (.new s!"StackedBlockReader: invalid read size {len}, block size {r.blockSize}")⟩
  else readBlocksFrom zero r.numBlocks r.rs (len/r.blockSize) off

/-- A reader together with the blocks it holds, all of them below `numBlocks`. -/
structure Layer (β : Type) (numBlocks : ℕ) where
  reader : BlockHoleReader β
  data : ℕ → Option β
  reads : reader.Reads data
  bounded : ∀ x, numBlocks ≤ x → data x = none

section Stack

variable {numBlocks : ℕ}

/-- The block `x` of a stack, from the topmost layer that holds it. -/
def top : List (Layer β numBlocks) → ℕ → Option β
  | [], _ => none
  | l::ls, x => (l.data x).or (top ls x)

/-- One of the first `d` layers holds the block `x`. -/
def HeldAbove : List (Layer β numBlocks) → ℕ → ℕ → Prop
  | _, 0, _ => False
  | [], _+1, _ => False
  | l::ls, d+1, x => l.data x ≠ none ∨ HeldAbove ls d x

/-- The layer number `d` is the topmost one that holds the block `x`. -/
def OnTop : List (Layer β numBlocks) → ℕ → ℕ → Prop
  | [], _, _ => False
  | l::_, 0, x => l.data x ≠ none
  | l::ls, d+1, x => l.data x = none ∧ OnTop ls d x

/-- The content that a read of the stack has to deliver. -/
def content (zero : β) (ls : List (Layer β numBlocks)) (off n : ℕ) : List β :=
  (List.range' off n).map fun x => (top ls x).getD zero

@[simp] theorem length_content (zero : β) (ls : List (Layer β numBlocks)) (off n : ℕ) :
    (content zero ls off n).length = n := by
  simp [content]

theorem content_append (zero : β) (ls : List (Layer β numBlocks)) (off m n : ℕ) :
    content zero ls off m ++ content zero ls (off+m) n = content zero ls off (m+n) := by
  rw [content,content,content,← List.map_append,List.range'_append_1]

/-- In a data run of the first layer, the stack shows the blocks of that layer. -/
theorem content_of_data (zero : β) {l : Layer β numBlocks} {ls : List (Layer β numBlocks)}
    {off n : ℕ} {bs : List β} (hd : ∀ x, off ≤ x → x < off+n → l.data x ≠ none)
    (h : bs.map some = blocks l.data off n) : bs = content zero (l::ls) off n := by
  have hmap : (content zero (l::ls) off n).map some = blocks l.data off n := by
    rw [content,blocks,List.map_map]
    refine List.map_congr_left fun x hx => ?_
    obtain ⟨h₁,h₂⟩ := List.mem_range'_1.mp hx
    obtain ⟨b,hb⟩ := Option.ne_none_iff_exists'.mp (hd x h₁ h₂)
    simp [top,hb]
  exact List.map_injective_iff.mpr (Option.some_injective β) (h.trans hmap.symm)

/-- In a gap of the first layer, the stack shows what is below. -/
theorem content_of_gap (zero : β) {l : Layer β numBlocks} {ls : List (Layer β numBlocks)}
    {off n : ℕ} (hg : ∀ x, off ≤ x → x < off+n → l.data x = none) :
    content zero ls off n = content zero (l::ls) off n := by
  refine List.map_congr_left fun x hx => ?_
  obtain ⟨h₁,h₂⟩ := List.mem_range'_1.mp hx
  simp [top,hg x h₁ h₂]

theorem heldAbove_zero {ls : List (Layer β numBlocks)} {x : ℕ} : ¬HeldAbove ls 0 x := by
  cases ls <;> exact id

theorem heldAbove_succ {ls : List (Layer β numBlocks)} {d x : ℕ} :
    HeldAbove ls (d+1) x ↔ HeldAbove ls d x ∨ OnTop ls d x := by
  induction ls generalizing d with
  | nil => cases d <;> simp [HeldAbove,OnTop]
  | cons l ls ih =>
    cases d with
    | zero => simp [HeldAbove,OnTop,heldAbove_zero]
    | succ d =>
      rw [HeldAbove,ih,HeldAbove,OnTop]
      by_cases hl : l.data x = none <;> simp [hl]

theorem OnTop.exists_layer {ls : List (Layer β numBlocks)} {d x : ℕ} (h : OnTop ls d x) :
    ∃ l, ls[d]? = some l ∧ l.data x ≠ none := by
  induction ls generalizing d with
  | nil => exact h.elim
  | cons l ls ih =>
    cases d with
    | zero => exact ⟨l,rfl,h⟩
    | succ d => exact ih h.2

theorem OnTop.lt {ls : List (Layer β numBlocks)} {d x : ℕ} (h : OnTop ls d x) : x < numBlocks := by
  obtain ⟨l,-,hl⟩ := h.exists_layer
  by_contra hge
  exact hl (l.bounded x (by omega))

/-- A call on the layer number `d` of a stack: of `NextBlockData` at the block `y`, or of
`ReadBlocks` for the `k` blocks from `o` on. -/
inductive Call
  | search (d y : ℕ)
  | read (d o k : ℕ)

namespace Call

def pos : Call → ℕ
  | search _ y => y
  | read _ o _ => o

def level : Call → ℕ
  | search d _ => d
  | read d _ _ => d

/-- The same call in a stack with one more layer on top. -/
def deeper : Call → Call
  | search d y => search (d+1) y
  | read d o k => read (d+1) o k

/-- The call fails; a full read may give `io.EOF`. -/
def Fails (ls : List (Layer β numBlocks)) : Call → Prop
  | search d y => ∃ l, ls[d]? = some l ∧ ∃ e, (l.reader.nextBlockData y).2 = some e ∧ e ≠ .eof
  | read d o k => ∃ l, ls[d]? = some l ∧ l.reader.Fails k o

/-- The order of the calls of a read: by block, and for one block from the top down. -/
def Before (c c' : Call) : Prop := c.pos < c'.pos ∨ c.pos = c'.pos ∧ c.level ≤ c'.level

@[simp] theorem pos_deeper (c : Call) : c.deeper.pos = c.pos := by cases c <;> rfl

@[simp] theorem level_deeper (c : Call) : c.deeper.level = c.level+1 := by cases c <;> rfl

theorem fails_deeper {l : Layer β numBlocks} {ls : List (Layer β numBlocks)} {c : Call} :
    c.deeper.Fails (l::ls) ↔ c.Fails ls := by
  cases c <;> exact Iff.rfl

theorem level_cases (c : Call) : c.level = 0 ∨ ∃ c', c = deeper c' := by
  cases c with
  | search d y =>
    cases d with
    | zero => exact .inl rfl
    | succ d => exact .inr ⟨.search d y,rfl⟩
  | read d o k =>
    cases d with
    | zero => exact .inl rfl
    | succ d => exact .inr ⟨.read d o k,rfl⟩

theorem Before.deeper {c c' : Call} (h : c.Before c') : c.deeper.Before c'.deeper := by
  simp only [Before,pos_deeper,level_deeper] at h ⊢
  omega

end Call

/-- The calls that a read of `n` blocks from `off` on makes if none of them fails. A layer is asked
for its next block where neither it nor a layer above holds one, at the start of the read and behind
each block that one of them holds; it is read in the longest runs of blocks for which it is the
topmost one. Behind the last block of the device only the first layer is asked. -/
def Made (ls : List (Layer β numBlocks)) (off n : ℕ) : Call → Prop
  | .search d y => d < ls.length ∧ off ≤ y ∧ y < off+n ∧
      (y < numBlocks ∨ d = 0 ∧ y = numBlocks ∧ off < y) ∧
      ¬HeldAbove ls (d+1) y ∧ (y = off ∨ HeldAbove ls (d+1) (y-1))
  | .read d o k => off ≤ o ∧ 0 < k ∧ o+k ≤ off+n ∧ (∀ x, o ≤ x → x < o+k → OnTop ls d x) ∧
      (o = off ∨ ¬OnTop ls d (o-1)) ∧ (o+k = off+n ∨ ¬OnTop ls d (o+k))

/-- The first call of a read that fails. -/
structure FirstFails (ls : List (Layer β numBlocks)) (off n : ℕ) (c : Call) : Prop where
  made : Made ls off n c
  fails : c.Fails ls
  first : ∀ c', Made ls off n c' → c'.Fails ls → c.Before c'

/-- The call of the level number `d` that reaches the block `o` has started at `a`: no layer
above holds a block between them, and `a` is where the read starts or follows a block of a
layer above. -/
structure LevelStart (ls : List (Layer β numBlocks)) (off d a o : ℕ) : Prop where
  le : off ≤ a
  le_failed : a ≤ o
  gap : ∀ x, a ≤ x → x ≤ o → ¬HeldAbove ls d x
  first : a = off ∨ HeldAbove ls d (a-1)

/-- How a read of `n` blocks from `off` on ends with the error `e`, after `m` blocks were
filled: at the end of the device, by a failing `NextBlockData`, or by a failing `ReadBlocks` of a
level that has started at `a`. -/
inductive Failure (ls : List (Layer β numBlocks)) (off n m count : ℕ) (e : Error) : Prop
  | atEnd (he : e = .eof) (hlt : m < n) (hend : off+m = max off numBlocks)
      (hok : ∀ c, Made ls off n c → ¬c.Fails ls) (hcount : count = m)
  | search (d : ℕ) (hfirst : FirstFails ls off n (.search d (off+m))) (hcount : count = m)
  | read (d o k a : ℕ) (hfirst : FirstFails ls off n (.read d o k)) (ha : LevelStart ls off d a o)
      (hcount : count+o = m+a)

/-- What a read of `n` blocks from `off` on does. -/
structure Outcome (zero : β) (ls : List (Layer β numBlocks)) (off n : ℕ) (r : ReadResult β) :
    Prop where
  le : r.filled.length ≤ n
  filled : r.filled = content zero ls off r.filled.length
  done : r.err = none → r.filled.length = n ∧ r.count = n ∧
    (∀ c, Made ls off n c → ¬c.Fails ls) ∧ (ls ≠ [] → off+n ≤ max off numBlocks)
  failed : ∀ e, r.err = some e → Failure ls off n r.filled.length r.count e

theorem Made.pos_mem {ls : List (Layer β numBlocks)} {off n : ℕ} {c : Call}
    (h : Made ls off n c) : off ≤ c.pos ∧ c.pos < off+n := by
  cases c with
  | search d y => exact ⟨h.2.1,h.2.2.1⟩
  | read d o k =>
    obtain ⟨h₁,h₂,h₃,-⟩ := h
    simp only [Call.pos]
    omega

/-- Behind the end of the device the first layer is asked at most, and only if its last run ends
there. -/
theorem Made.lt_or_search {ls : List (Layer β numBlocks)} {off n : ℕ} {c : Call}
    (h : Made ls off n c) : c.pos < numBlocks ∨
      c = .search 0 numBlocks ∧ off < numBlocks ∧ HeldAbove ls 1 (numBlocks-1) := by
  cases c with
  | search d y =>
    obtain ⟨-,-,-,hlt | ⟨rfl,rfl,hlt⟩,-,hfirst⟩ := h
    · exact .inl hlt
    · exact .inr ⟨rfl,hlt,hfirst.resolve_left (by omega)⟩
  | read d o k =>
    obtain ⟨-,hk,-,hrun,-⟩ := h
    exact .inl (hrun o le_rfl (by omega)).lt

/-- A run is as long as it can be. -/
theorem Made.length_le {ls : List (Layer β numBlocks)} {off n d o k k' : ℕ}
    (h : Made ls off n (.read d o k)) (h' : Made ls off n (.read d o k')) : k ≤ k' := by
  obtain ⟨-,-,hend,hrun,-⟩ := h
  obtain ⟨-,-,-,-,-,hlast⟩ := h'
  by_contra hlt
  exact hlast.resolve_left (by omega) (hrun (o+k') (by omega) (by omega))

theorem Made.eq_of_pos {ls : List (Layer β numBlocks)} {off n : ℕ} {c c' : Call}
    (h : Made ls off n c) (h' : Made ls off n c') (hpos : c.pos = c'.pos)
    (hlevel : c.level = c'.level) : c = c' := by
  have hexclusive : ∀ {d y k}, Made ls off n (.search d y) → ¬Made ls off n (.read d y k) := by
    rintro d y k ⟨-,-,-,-,hfree,-⟩ ⟨-,hk,-,hrun,-⟩
    exact hfree (heldAbove_succ.mpr (.inr (hrun y le_rfl (by omega))))
  cases c with
  | search d y =>
    cases c' with
    | search d' y' => rw [show d = d' from hlevel,show y = y' from hpos]
    | read d' o k =>
      obtain rfl : d = d' := hlevel
      obtain rfl : y = o := hpos
      exact absurd h' (hexclusive h)
  | read d o k =>
    cases c' with
    | search d' y =>
      obtain rfl : d = d' := hlevel
      obtain rfl : o = y := hpos
      exact absurd h (hexclusive h')
    | read d' o' k' =>
      obtain rfl : d = d' := hlevel
      obtain rfl : o = o' := hpos
      rw [Nat.le_antisymm (h.length_le h') (h'.length_le h)]

theorem FirstFails.eq {ls : List (Layer β numBlocks)} {off n : ℕ} {c c' : Call}
    (h : FirstFails ls off n c) (h' : FirstFails ls off n c') : c = c' := by
  have h₁ := h.first c' h'.made h'.fails
  have h₂ := h'.first c h.made h.fails
  unfold Call.Before at h₁ h₂
  exact h.made.eq_of_pos h'.made (by omega) (by omega)

section Cons

variable {l : Layer β numBlocks} {ls : List (Layer β numBlocks)} {off n : ℕ}

/-- In a run of the first layer no other call is made. -/
theorem Made.eq_of_run {o k : ℕ} (h : Made (l::ls) off n (.read 0 o k)) {c : Call}
    (hc : Made (l::ls) off n c) (h₁ : o ≤ c.pos) (h₂ : c.pos < o+k) : c = .read 0 o k := by
  have hle := h.1
  have hrun := h.2.2.2.1
  cases c with
  | search d y =>
    obtain ⟨-,-,-,-,hnone,-⟩ := hc
    exact absurd (.inl (hrun y h₁ h₂)) hnone
  | read d o' k' =>
    have hk' := hc.2.1
    simp only [Call.pos] at h₁ h₂
    cases d with
    | succ d => exact absurd (hc.2.2.2.1 o' le_rfl (by omega)).1 (hrun o' h₁ h₂)
    | zero =>
      refine hc.eq_of_pos h ?_ rfl
      by_contra hne
      simp only [Call.pos] at hne
      -- the block before it is in the run too
      exact hc.2.2.2.2.1.resolve_left (by omega) (hrun (o'-1) (by omega) (by omega))

/-- A gap of the first layer that is read from the levels below: `g` blocks from `a` on, between
blocks of the layer or the ends of the read and of the device. -/
structure Gap (l : Layer β numBlocks) (off n a g : ℕ) : Prop where
  le : off ≤ a
  stop_le : a+g ≤ off+n
  within : a+g ≤ numBlocks
  gap : ∀ x, a ≤ x → x < a+g → l.data x = none
  first : a = off ∨ l.data (a-1) ≠ none
  last : a+g = off+n ∨ a+g = numBlocks ∨ l.data (a+g) ≠ none

variable {a g : ℕ}

theorem Gap.made_search_iff (h : Gap l off n a g) {d y : ℕ} (h₁ : a ≤ y) (h₂ : y < a+g) :
    Made (l::ls) off n (.search (d+1) y) ↔ Made ls a g (.search d y) := by
  have hle := h.le
  have hstop := h.stop_le
  have hwithin := h.within
  have hy := h.gap y h₁ h₂
  have hfirst : y = off ∨ HeldAbove (l::ls) (d+1+1) (y-1) ↔ y = a ∨ HeldAbove ls (d+1) (y-1) := by
    rw [HeldAbove]
    by_cases hya : y = a
    · subst hya
      refine iff_of_true ?_ (.inl rfl)
      rcases h.first with hoff | hdata
      · exact .inl hoff
      · exact .inr (.inl hdata)
    · have hprev := h.gap (y-1) (by omega) (by omega)
      simp [hprev,hya,show y ≠ off by omega]
  rw [Made,Made,hfirst,HeldAbove]
  simp only [hy,ne_eq,not_true_eq_false,false_or,List.length_cons]
  constructor
  · rintro ⟨hd,-,-,-,hnone,hstart⟩
    exact ⟨by omega,h₁,h₂,.inl (by omega),hnone,hstart⟩
  · rintro ⟨hd,-,-,-,hnone,hstart⟩
    exact ⟨by omega,by omega,by omega,.inl (by omega),hnone,hstart⟩

theorem Gap.made_read_iff (h : Gap l off n a g) {d o k : ℕ} (h₁ : a ≤ o) (h₂ : o < a+g) :
    Made (l::ls) off n (.read (d+1) o k) ↔ Made ls a g (.read d o k) := by
  have hle := h.le
  have hstop := h.stop_le
  constructor
  · rintro ⟨-,hk,hend,hrun,hfirst,hlast⟩
    have hend' : o+k ≤ a+g := by
      by_contra hgt
      have htop := hrun (a+g) (by omega) (by omega)
      rcases h.last with heq | heq | hdata
      · omega
      · have := htop.lt
        omega
      · exact hdata htop.1
    refine ⟨h₁,hk,hend',fun x hx₁ hx₂ => (hrun x hx₁ hx₂).2,?_,?_⟩
    · by_cases hoa : o = a
      · exact .inl hoa
      · refine .inr fun ht => hfirst.resolve_left (by omega) ⟨?_,ht⟩
        exact h.gap (o-1) (by omega) (by omega)
    · by_cases heq : o+k = a+g
      · exact .inl heq
      · refine .inr fun ht => hlast.resolve_left (by omega) ⟨?_,ht⟩
        exact h.gap (o+k) (by omega) (by omega)
  · rintro ⟨-,hk,hend,hrun,hfirst,hlast⟩
    refine ⟨by omega,hk,by omega,
      fun x hx₁ hx₂ => ⟨h.gap x (by omega) (by omega),hrun x hx₁ hx₂⟩,?_,?_⟩
    · rcases hfirst with rfl | hfirst
      · rcases h.first with hoff | hdata
        · exact .inl hoff
        · exact .inr fun ht => hdata ht.1
      · exact .inr fun ht => hfirst ht.2
    · rcases hlast with hlast | hlast
      · rw [hlast]
        rcases h.last with heq | heq | hdata
        · exact .inl heq
        · refine .inr fun ht => ?_
          have := ht.lt
          omega
        · exact .inr fun ht => hdata ht.1
      · exact .inr fun ht => hlast ht.2

/-- The calls in a gap are those of the levels below and the one that has found its end. -/
theorem Gap.made_deeper_iff (h : Gap l off n a g) {c : Call} (h₁ : a ≤ c.pos) (h₂ : c.pos < a+g) :
    Made (l::ls) off n c.deeper ↔ Made ls a g c := by
  cases c with
  | search d y => exact h.made_search_iff h₁ h₂
  | read d o k => exact h.made_read_iff h₁ h₂

theorem Gap.made_cases (h : Gap l off n a g) {c : Call} (hc : Made (l::ls) off n c)
    (h₁ : a ≤ c.pos) (h₂ : c.pos < a+g) :
    c = .search 0 a ∨ ∃ c', c = c'.deeper ∧ Made ls a g c' := by
  rcases c.level_cases with hzero | ⟨c',rfl⟩
  · left
    have hle := h.le
    cases c with
    | read d o k =>
      obtain rfl : d = 0 := hzero
      obtain ⟨-,hk,-,hrun,-⟩ := hc
      exact absurd (h.gap o h₁ h₂) (hrun o le_rfl (by omega))
    | search d y =>
      obtain rfl : d = 0 := hzero
      obtain ⟨-,-,-,-,-,hfirst⟩ := hc
      simp only [Call.pos] at h₁ h₂
      by_contra hne
      have hya : y ≠ a := fun hya => hne (by rw [hya])
      have hprev := h.gap (y-1) (by omega) (by omega)
      rcases hfirst with rfl | hheld | hheld
      · omega
      · exact hheld hprev
      · exact heldAbove_zero hheld
  · right
    rw [Call.pos_deeper] at h₁ h₂
    exact ⟨c',rfl,(h.made_deeper_iff h₁ h₂).mp hc⟩

/-- The first failing call in a gap is the first one of the read, if none has failed before. -/
theorem FirstFails.lift (hgap : Gap l off n a g)
    (hpassed : ∀ c, Made (l::ls) off n c → c.pos < a → ¬c.Fails (l::ls))
    (hsearch : ¬(Call.search 0 a).Fails (l::ls)) {c : Call} (h : FirstFails ls a g c) :
    FirstFails (l::ls) off n c.deeper := by
  obtain ⟨h₁,h₂⟩ := h.made.pos_mem
  refine ⟨(hgap.made_deeper_iff h₁ h₂).mpr h.made,Call.fails_deeper.mpr h.fails,
    fun c' hc' hfails => ?_⟩
  by_cases hbefore : c'.pos < a
  · exact absurd hfails (hpassed c' hc' hbefore)
  by_cases hin : c'.pos < a+g
  · rcases hgap.made_cases hc' (by omega) hin with rfl | ⟨c',rfl,hmade⟩
    · exact absurd hfails hsearch
    · exact (h.first c' hmade (Call.fails_deeper.mp hfails)).deeper
  · refine .inl ?_
    rw [Call.pos_deeper]
    omega

theorem LevelStart.lift (hgap : Gap l off n a g) {d a' o : ℕ} (hlt : o < a+g)
    (h : LevelStart ls a d a' o) : LevelStart (l::ls) off (d+1) a' o := by
  have hle := h.le
  refine ⟨hgap.le.trans hle,h.le_failed,fun x h₁ h₂ => ?_,?_⟩
  · rintro (hdata | hheld)
    · exact hdata (hgap.gap x (by omega) (by omega))
    · exact h.gap x h₁ h₂ hheld
  · rcases h.first with rfl | hheld
    · rcases hgap.first with hoff | hdata
      · exact .inl hoff
      · exact .inr (.inl hdata)
    · exact .inr (.inr hheld)

/-- A failure below a gap of the first layer, seen from the level of that layer. -/
theorem Failure.lift (hgap : Gap l off n a g)
    (hpassed : ∀ c, Made (l::ls) off n c → c.pos < a → ¬c.Fails (l::ls))
    (hsearch : ¬(Call.search 0 a).Fails (l::ls)) {p m count : ℕ} {e : Error} (ha : a = off+p)
    (h : Failure ls a g m count e) : Failure (l::ls) off n (p+m) (p+count) e := by
  cases h with
  | atEnd he hlt hmax hok hcount =>
    have := hgap.within
    omega
  | search d hfirst hcount =>
    refine .search (d+1) ?_ (by omega)
    rw [← Nat.add_assoc,← ha]
    exact hfirst.lift hgap hpassed hsearch
  | read d o k a' hfirst hstart hcount =>
    exact .read (d+1) o k a' (hfirst.lift hgap hpassed hsearch)
      (hstart.lift hgap hfirst.made.pos_mem.2) (by omega)

end Cons

/-- What holds between two passes of the loop of a level that reads `n` blocks from `off` on. -/
structure Progress (zero : β) (ls : List (Layer β numBlocks)) (off n : ℕ) (s : Pos β) :
    Prop where
  out : s.out = content zero ls off s.out.length
  off_eq : s.off = off+s.out.length
  left_add : s.left+s.out.length = n
  count : s.blocksRead = s.out.length
  passed : ∀ c, Made ls off n c → c.pos < s.off → ¬c.Fails ls
  within : s.off ≤ max off numBlocks

/-- The blocks `bs`, the right ones for the next `m` blocks, are added to what was read. -/
theorem Progress.extend {zero : β} {ls : List (Layer β numBlocks)} {off n m : ℕ} {s : Pos β}
    (h : Progress zero ls off n s) {bs : List β} (hbs : bs = content zero ls s.off m)
    (hc : ∀ c, Made ls off n c → s.off ≤ c.pos → c.pos < s.off+m → ¬c.Fails ls)
    (hm : m ≤ s.left) (hend : s.off+m ≤ max off numBlocks) :
    Progress zero ls off n ⟨s.left-m,s.off+m,s.blocksRead+m,s.out++bs⟩ := by
  have hlen : bs.length = m := by simp [hbs]
  have h₁ := h.off_eq
  have h₂ := h.left_add
  have h₃ := h.count
  refine ⟨?_,?_,?_,?_,?_,hend⟩
  · simp only [List.length_append,hlen]
    rw [← content_append,← h.out,hbs,h₁]
  · simp only [List.length_append,hlen]
    omega
  · simp only [List.length_append,hlen]
    omega
  · simp only [List.length_append,hlen]
    omega
  · intro c hmade hlt
    by_cases hbefore : c.pos < s.off
    · exact h.passed c hmade hbefore
    · exact hc c hmade (by omega) hlt

/-- The blocks filled by a call that ends the read, and the rest of its outcome. -/
theorem Progress.outcome {zero : β} {ls : List (Layer β numBlocks)} {off n m : ℕ} {s : Pos β}
    (h : Progress zero ls off n s) {bs : List β} (hbs : bs = content zero ls s.off m)
    (hm : m ≤ s.left) {count : ℕ} {e : Error}
    (hf : Failure ls off n (s.out.length+m) count e) :
    Outcome zero ls off n ⟨s.out++bs,count,some e⟩ := by
  have hlen : bs.length = m := by simp [hbs]
  have h₂ := h.left_add
  refine ⟨?_,?_,fun he => (by cases he),fun e' he => ?_⟩
  · simp only [List.length_append,hlen]
    omega
  · simp only [List.length_append,hlen]
    rw [← content_append,← h.out,hbs,h.off_eq]
  · simp only [List.length_append,hlen]
    cases he
    exact hf

/-- The read ends with an error and nothing more is filled. -/
theorem Progress.outcome_stop {zero : β} {ls : List (Layer β numBlocks)} {off n : ℕ} {s : Pos β}
    (h : Progress zero ls off n s) {e : Error} (hf : Failure ls off n s.out.length s.out.length e) :
    Outcome zero ls off n ⟨s.out,s.blocksRead,some e⟩ := by
  have hstop := h.outcome (show [] = content zero ls s.off 0 from rfl) (Nat.zero_le _) hf
  rw [List.append_nil] at hstop
  rw [h.count]
  exact hstop

/-- The buffer is full. -/
theorem Progress.outcome_full {zero : β} {ls : List (Layer β numBlocks)} {off n : ℕ} {s : Pos β}
    (h : Progress zero ls off n s) (hleft : s.left = 0) :
    Outcome zero ls off n ⟨s.out,s.blocksRead,none⟩ := by
  have hoff := h.off_eq
  have hadd := h.left_add
  have hwithin := h.within
  have hn : s.out.length = n := by omega
  refine ⟨hn.le,h.out,fun _ => ⟨hn,h.count.trans hn,fun c hc => h.passed c hc ?_,fun _ => ?_⟩,
    fun e he => (by cases he)⟩
  · have := hc.pos_mem.2
    omega
  · omega

/-- A call of the first layer at the current block that fails is the first one. -/
theorem Progress.firstFails {zero : β} {ls : List (Layer β numBlocks)} {off n : ℕ} {s : Pos β}
    (h : Progress zero ls off n s) {c : Call} (hmade : Made ls off n c) (hfails : c.Fails ls)
    (hpos : c.pos = s.off) (hlevel : c.level = 0) : FirstFails ls off n c := by
  refine ⟨hmade,hfails,fun c' hc' hf' => ?_⟩
  by_cases hbefore : c'.pos < s.off
  · exact absurd hf' (h.passed c' hc' hbefore)
  · unfold Call.Before
    omega

/-- Between two passes the read is where it has started, at a data run of the first layer, or at
the end of the device, with all calls made. -/
def AtRun (l : Layer β numBlocks) (ls : List (Layer β numBlocks)) (off n x : ℕ) : Prop :=
  x = off ∨ (l.data x ≠ none ∧ l.data (x-1) = none) ∨
    (numBlocks ≤ x ∧ ∀ c, Made (l::ls) off n c → ¬c.Fails (l::ls))

/-- The end of the gap that `NextBlockData` of the layer gives. -/
theorem Layer.exists_nextData (l : Layer β numBlocks) {x : ℕ} (hx : x ≤ numBlocks)
    (h : (l.reader.nextBlockData x).2 = none ∨ (l.reader.nextBlockData x).2 = some .eof) :
    ∃ y, (if (l.reader.nextBlockData x).2 = some .eof then numBlocks
      else (l.reader.nextBlockData x).1) = y ∧ x ≤ y ∧ y ≤ numBlocks ∧
      (∀ z, x ≤ z → z < y → l.data z = none) ∧ (y < numBlocks → l.data y ≠ none) := by
  have hs := l.reads.nextData x
  rcases hnd : l.reader.nextBlockData x with ⟨y,err⟩
  rw [hnd] at hs h
  rcases h with h | h
  · simp only at h
    subst h
    obtain ⟨hle,hy,hmin⟩ := hs
    have hlt : y < numBlocks := by
      by_contra hge
      exact hy (l.bounded y (by omega))
    exact ⟨y,rfl,hle,by omega,fun z h₁ h₂ => not_not.mp (hmin z h₁ h₂),fun _ => hy⟩
  · simp only at h
    subst h
    exact ⟨numBlocks,rfl,hx,le_refl _,fun z h₁ _ => not_not.mp (hs z h₁),fun h => by omega⟩

theorem Layer.not_fails_search {l : Layer β numBlocks} {ls : List (Layer β numBlocks)} {x : ℕ}
    (h : (l.reader.nextBlockData x).2 = none ∨ (l.reader.nextBlockData x).2 = some .eof) :
    ¬(Call.search 0 x).Fails (l::ls) := by
  rintro ⟨l',hl',e,he,hne⟩
  cases hl'
  rcases h with h | h
  · rw [h] at he
    cases he
  · rw [h] at he
    exact hne (Option.some.inj he).symm

section Pass

variable {zero : β} {l : Layer β numBlocks} {ls : List (Layer β numBlocks)} {off n : ℕ}

/-- A level looks for the next data where its read starts and behind its data runs. -/
structure AtGap (l : Layer β numBlocks) (off x : ℕ) : Prop where
  hole : l.data x = none
  le : x ≤ numBlocks
  first : x = off ∧ x < numBlocks ∨ off < x ∧ l.data (x-1) ≠ none

theorem AtGap.made {x : ℕ} (h : AtGap l off x) (hlt : x < off+n) :
    Made (l::ls) off n (.search 0 x) := by
  have hle := h.le
  have hfirst := h.first
  refine ⟨by simp,by omega,hlt,by omega,?_,?_⟩
  · rintro (hdata | hheld)
    · exact hdata h.hole
    · exact heldAbove_zero hheld
  · rcases h.first with ⟨hs,-⟩ | ⟨-,hs⟩
    · exact .inl hs
    · exact .inr (.inl hs)

/-- The part of the gap up to the next data `y` for which there is room. -/
theorem AtGap.gap {x y left : ℕ} (h : AtGap l off x) (hleft : x+left = off+n) (hxy : x ≤ y)
    (hyn : y ≤ numBlocks) (hgap : ∀ z, x ≤ z → z < y → l.data z = none)
    (hdata : y < numBlocks → l.data y ≠ none) : Gap l off n x (min left (y-x)) := by
  have hfirst := h.first
  refine ⟨by omega,by omega,by omega,fun z h₁ h₂ => hgap z h₁ (by omega),?_,?_⟩
  · rcases h.first with ⟨hs,-⟩ | ⟨-,hs⟩
    · exact .inl hs
    · exact .inr hs
  · by_cases hfull : x+min left (y-x) = off+n
    · exact .inl hfull
    · rw [show x+min left (y-x) = y by omega]
      by_cases hlt : y < numBlocks
      · exact .inr (.inr (hdata hlt))
      · exact .inr (.inl (by omega))

/-- The gap was read up to the next data or the end of the device. -/
theorem AtGap.atRun {x y : ℕ} (h : AtGap l off x) (hxy : x ≤ y)
    (hgap : ∀ z, x ≤ z → z < y → l.data z = none) (hdata : y < numBlocks → l.data y ≠ none)
    (hsearch : ¬(Call.search 0 x).Fails (l::ls))
    (hpassed : ∀ c, Made (l::ls) off n c → c.pos < y → ¬c.Fails (l::ls)) :
    AtRun l ls off n y := by
  have hle := h.le
  by_cases hlt : y < numBlocks
  · have hne : y ≠ x := by
      rintro rfl
      exact hdata hlt h.hole
    exact .inr (.inl ⟨hdata hlt,hgap (y-1) (by omega) (by omega)⟩)
  · refine .inr (.inr ⟨by omega,fun c hc => ?_⟩)
    rcases hc.lt_or_search with hlast | ⟨rfl,-,hheld | hheld⟩
    · exact hpassed c hc (by omega)
    · -- the run that ends with the device was followed by this gap
      by_cases heq : x = numBlocks
      · rw [heq] at hsearch
        exact hsearch
      · exact absurd (hgap (numBlocks-1) (by omega) (by omega)) hheld
    · exact absurd hheld heldAbove_zero

/-- The loop can go on from `s`. -/
def Continues (zero : β) (l : Layer β numBlocks) (ls : List (Layer β numBlocks)) (off n : ℕ)
    (s : Pos β) : Prop :=
  Progress zero (l::ls) off n s ∧ (0 < s.left → AtRun l ls off n s.off)

variable {below : ℕ → ℕ → Exec (ReadResult β)} {s : Pos β}

theorem readGap_of_error (hne : (l.reader.nextBlockData s.off).2 ≠ none)
    (heof : (l.reader.nextBlockData s.off).2 ≠ some .eof) :
    readGap numBlocks l.reader below s =
      .ok (.inr ⟨s.out,s.blocksRead,(l.reader.nextBlockData s.off).2⟩) := by
  simp only [readGap]
  rw [if_pos ⟨hne,heof⟩]

theorem readGap_spec (ih : ∀ n off, ∃ r, below n off = .ok r ∧ Outcome zero ls off n r)
    (h : Progress zero (l::ls) off n s) (hat : AtGap l off s.off) (hleft : 0 < s.left) :
    (∃ s', readGap numBlocks l.reader below s = .ok (.inl s') ∧ Continues zero l ls off n s' ∧
      s'.left ≤ s.left ∧ (s.off < numBlocks → s'.left < s.left)) ∨
    ∃ r, readGap numBlocks l.reader below s = .ok (.inr r) ∧ Outcome zero (l::ls) off n r := by
  have hoff := h.off_eq
  have hadd := h.left_add
  by_cases herr : (l.reader.nextBlockData s.off).2 = none ∨
      (l.reader.nextBlockData s.off).2 = some .eof
  · have hsearch : ¬(Call.search 0 s.off).Fails (l::ls) := Layer.not_fails_search herr
    obtain ⟨y,hy,hxy,hyn,hgap,hdata⟩ := l.exists_nextData hat.le herr
    obtain ⟨r,hr,ho⟩ := ih (min s.left (y-s.off)) s.off
    have hneg : ¬((l.reader.nextBlockData s.off).2 ≠ none ∧
        (l.reader.nextBlockData s.off).2 ≠ some .eof) := by
      tauto
    have hbody : readGap numBlocks l.reader below s = match r.err with
        | some e => .ok (.inr ⟨s.out++r.filled,s.blocksRead+r.count,some e⟩)
        | none => .ok (.inl
          ⟨s.left-r.count,s.off+r.count,s.blocksRead+r.count,s.out++r.filled⟩) := by
      simp only [readGap,if_neg hneg,hy,if_neg (show ¬y < s.off by omega),hr]
    have hgap' : Gap l off n s.off (min s.left (y-s.off)) :=
      hat.gap (by omega) hxy hyn hgap hdata
    generalize hg : min s.left (y-s.off) = g at ho hgap'
    have hfill : r.filled = content zero (l::ls) s.off r.filled.length := by
      rw [← content_of_gap zero fun x h₁ h₂ => hgap'.gap x h₁ (by have := ho.le; omega)]
      exact ho.filled
    rw [hbody]
    cases he : r.err with
    | some e =>
      refine .inr ⟨_,rfl,h.outcome hfill (by have := ho.le; omega) ?_⟩
      rw [h.count]
      exact (ho.failed e he).lift hgap' h.passed hsearch hoff
    | none =>
      obtain ⟨hlen,hcount,hok,_⟩ := ho.done he
      rw [hlen] at hfill
      have hext := h.extend hfill (fun c hc h₁ h₂ => by
        rcases hgap'.made_cases hc h₁ h₂ with rfl | ⟨c',rfl,hc'⟩
        · exact hsearch
        · exact fun hf => hok c' hc' (Call.fails_deeper.mp hf)) (by omega) (by omega)
      rw [hcount]
      refine .inl ⟨_,rfl,⟨hext,fun hpos => ?_⟩,by simp,fun hlt => ?_⟩
      · -- the buffer is not full, so the whole gap was read
        simp only at hpos ⊢
        have hend : s.off+g = y := by omega
        have hpassed := hext.passed
        simp only [hend] at hpassed ⊢
        exact hat.atRun hxy hgap hdata hsearch hpassed
      · have hne : y ≠ s.off := by
          rintro rfl
          exact hdata hlt hat.hole
        simp only
        omega
  · rw [not_or] at herr
    obtain ⟨e,he⟩ := Option.ne_none_iff_exists'.mp herr.1
    refine .inr ⟨_,readGap_of_error herr.1 herr.2,?_⟩
    rw [he] at herr ⊢
    refine h.outcome_stop (.search 0 ?_ rfl)
    rw [← hoff]
    exact h.firstFails (hat.made (by omega))
      ⟨l,rfl,e,he,fun heof => herr.2 (congrArg some heof)⟩ rfl rfl

/-- A read of a data run either fills it or fails; the `io.EOF` of a full read is dropped. -/
theorem Layer.readBlocks_cases (l : Layer β numBlocks) (zero : β)
    (ls : List (Layer β numBlocks)) {k o : ℕ}
    (hd : ∀ x, o ≤ x → x < o+k → l.data x ≠ none) {bs : List β} {err : Option Error}
    (hrd : l.reader.readBlocks k o = (bs,err)) :
    bs.length ≤ k ∧ bs = content zero (l::ls) o bs.length ∧
      (bs.length = k ∧ (if err = some .eof ∧ bs.length = k then none else err) = none ∧
          ¬(Call.read 0 o k).Fails (l::ls) ∨
        ∃ e, (if err = some .eof ∧ bs.length = k then none else err) = some e ∧
          (Call.read 0 o k).Fails (l::ls)) := by
  obtain ⟨m,hm,hbs,hfull⟩ := l.reads.read k o hd
  rw [hrd] at hbs hfull
  simp only at hbs hfull
  obtain rfl : bs.length = m := by
    have := congrArg List.length hbs
    simpa using this
  refine ⟨hm,content_of_data zero (fun x h₁ h₂ => hd x h₁ (by omega)) hbs,?_⟩
  split_ifs with hc
  · refine .inl ⟨hc.2,rfl,?_⟩
    rintro ⟨l',hl',e,he,hbad⟩
    cases hl'
    rw [hrd] at he hbad
    rcases hbad with hbad | hbad
    · exact hbad (Option.some.inj (he.symm.trans hc.1))
    · exact hbad hc.2
  · cases err with
    | none =>
      refine .inl ⟨hfull rfl,rfl,?_⟩
      rintro ⟨l',hl',e,he,-⟩
      cases hl'
      rw [hrd] at he
      cases he
    | some e =>
      refine .inr ⟨e,rfl,l,rfl,e,by rw [hrd],?_⟩
      rw [hrd]
      by_cases he : e = .eof
      · exact .inr fun hbad => hc ⟨by rw [he],hbad⟩
      · exact .inl he

/-- At the end of the device all calls were made. -/
theorem AtRun.not_fails {x : ℕ} (h : AtRun l ls off n x) (hend : numBlocks ≤ x) (c : Call)
    (hc : Made (l::ls) off n c) : ¬c.Fails (l::ls) := by
  rcases h with rfl | ⟨hdata,-⟩ | ⟨-,hok⟩
  · have hmem := hc.pos_mem
    rcases hc.lt_or_search with hlt | ⟨-,hlt,-⟩ <;> omega
  · exact absurd (l.bounded x hend) hdata
  · exact hok c hc

/-- The data run from `x` to the next hole `y`, as far as there is room, is read in one call. -/
theorem AtRun.made {x y left : ℕ} (h : AtRun l ls off n x) (hle : off ≤ x) (hlt : x < y)
    (hyn : y ≤ numBlocks) (hleft : x+left = off+n) (hpos : 0 < left) (hhole : l.data y = none)
    (hdata : ∀ z, x ≤ z → z < y → l.data z ≠ none) :
    Made (l::ls) off n (.read 0 x (min left (y-x))) := by
  refine ⟨hle,by omega,by omega,fun z h₁ h₂ => hdata z h₁ (by omega),?_,?_⟩
  · rcases h with hat | ⟨_,hat⟩ | ⟨hat,_⟩
    · exact .inl hat
    · exact .inr fun ht => ht hat
    · omega
  · by_cases hfull : x+min left (y-x) = off+n
    · exact .inl hfull
    · rw [show x+min left (y-x) = y by omega]
      exact .inr fun ht => ht hhole

/-- A pass that finds the level at a data run, which ends at `y`. -/
theorem readPass_run (ih : ∀ n off, ∃ r, below n off = .ok r ∧ Outcome zero ls off n r)
    (h : Progress zero (l::ls) off n s) (hrun : AtRun l ls off n s.off) (hpos : 0 < s.left) {y : ℕ}
    (hy : (l.reader.nextBlockHole s.off).1 = y) (hlt : s.off < y) (hyn : y ≤ numBlocks)
    (hhole : l.data y = none) (hdata : ∀ x, s.off ≤ x → x < y → l.data x ≠ none) :
    (∃ s', readPass numBlocks l.reader below s = .ok (.inl s') ∧ Continues zero l ls off n s' ∧
      s'.left < s.left) ∨
    ∃ r, readPass numBlocks l.reader below s = .ok (.inr r) ∧ Outcome zero (l::ls) off n r := by
  have hoff := h.off_eq
  have hadd := h.left_add
  have hmade := hrun.made (by omega) hlt hyn (by omega) hpos hhole hdata
  generalize hk : min s.left (y-s.off) = k at hmade
  have hd : ∀ x, s.off ≤ x → x < s.off+k → l.data x ≠ none := fun x h₁ h₂ => hdata x h₁ (by omega)
  rcases hrd : l.reader.readBlocks k s.off with ⟨bs,err⟩
  obtain ⟨hm,hfill,hcases⟩ := l.readBlocks_cases zero ls hd hrd
  have hbody : readPass numBlocks l.reader below s =
      (if (if err = some .eof ∧ bs.length = k then none else err) ≠ none then
        .ok (.inr ⟨s.out++bs,bs.length,if err = some .eof ∧ bs.length = k then none else err⟩)
      else if bs.length ≠ k then .error (.panic "no error when read != readBlocks")
      else if s.left-bs.length = 0 then .ok (.inr ⟨s.out++bs,s.blocksRead+bs.length,none⟩)
      else readGap numBlocks l.reader below
        ⟨s.left-bs.length,s.off+bs.length,s.blocksRead+bs.length,s.out++bs⟩) := by
    simp only [readPass,if_neg (show ¬s.left = 0 by omega),
      if_neg (show ¬numBlocks ≤ s.off by omega),hy,if_pos hlt,hk,hrd]
  rw [hbody]
  rcases hcases with ⟨hlen,hnone,hok⟩ | ⟨e,he,hfails⟩
  · have hext := h.extend hfill (fun c hc h₁ h₂ => by
      rw [hmade.eq_of_run hc h₁ (by omega)]
      exact hok) (by omega) (by omega)
    rw [if_neg (not_not.mpr hnone),if_neg (not_not.mpr hlen)]
    by_cases hlast : s.left-bs.length = 0
    · rw [if_pos hlast]
      exact .inr ⟨_,rfl,hext.outcome_full hlast⟩
    · rw [if_neg hlast]
      have hat : AtGap l off (s.off+bs.length) :=
        ⟨by rw [show s.off+bs.length = y by omega]; exact hhole,by omega,
          .inr ⟨by omega,hd (s.off+bs.length-1) (by omega) (by omega)⟩⟩
      rcases readGap_spec ih hext hat (by simp only; omega) with ⟨s',hs',hc',hle',_⟩ | hr
      · exact .inl ⟨s',hs',hc',by simp only at hle'; omega⟩
      · exact .inr hr
  · rw [he,if_pos (by simp)]
    exact .inr ⟨_,rfl,h.outcome hfill (by omega)
      (.read 0 s.off k off (h.firstFails hmade hfails rfl rfl)
        ⟨le_refl _,by omega,fun x _ _ => heldAbove_zero,.inl rfl⟩ (by omega))⟩

theorem readPass_spec (ih : ∀ n off, ∃ r, below n off = .ok r ∧ Outcome zero ls off n r)
    (h : Continues zero l ls off n s) :
    (∃ s', readPass numBlocks l.reader below s = .ok (.inl s') ∧ Continues zero l ls off n s' ∧
      s'.left < s.left) ∨
    ∃ r, readPass numBlocks l.reader below s = .ok (.inr r) ∧ Outcome zero (l::ls) off n r := by
  obtain ⟨h,hrun⟩ := h
  have hoff := h.off_eq
  have hadd := h.left_add
  have hwithin := h.within
  by_cases hzero : s.left = 0
  · exact .inr ⟨_,by rw [readPass,if_pos hzero],h.outcome_full hzero⟩
  have hrun := hrun (by omega)
  by_cases hend : numBlocks ≤ s.off
  · exact .inr ⟨_,by rw [readPass,if_neg hzero,if_pos hend],
      h.outcome_stop (.atEnd rfl (by omega) (by omega) (hrun.not_fails hend) rfl)⟩
  obtain ⟨hle,hhole,hdata⟩ := l.reads.nextHole s.off
  generalize hy : (l.reader.nextBlockHole s.off).1 = y at hle hhole hdata
  by_cases hlt : s.off < y
  · have hyn : y ≤ numBlocks := by
      by_contra hgt
      exact hdata numBlocks (by omega) (by omega) (l.bounded numBlocks (le_refl _))
    exact readPass_run ih h hrun (by omega) hy hlt hyn hhole hdata
  · obtain rfl : s.off = y := by omega
    have hfirst : s.off = off := by
      rcases hrun with hat | ⟨hat,_⟩ | ⟨hat,_⟩
      · exact hat
      · exact absurd hhole hat
      · omega
    have hbody : readPass numBlocks l.reader below s = readGap numBlocks l.reader below s := by
      simp only [readPass,if_neg hzero,if_neg hend,hy,if_neg hlt]
    rw [hbody]
    rcases readGap_spec ih h ⟨hhole,by omega,.inl ⟨hfirst,by omega⟩⟩ (by omega) with
      ⟨s',hs',hc',_,hlt'⟩ | hr
    · exact .inl ⟨s',hs',hc',hlt' (by omega)⟩
    · exact .inr hr

end Pass

/-- Every read of a stack returns, and its outcome is the one described. -/
theorem readBlocksFrom_outcome (zero : β) (ls : List (Layer β numBlocks)) (n off : ℕ) :
    ∃ r, readBlocksFrom zero numBlocks (ls.map Layer.reader) n off = .ok r ∧
      Outcome zero ls off n r := by
  induction ls generalizing n off with
  | nil =>
    refine ⟨_,rfl,by simp,?_,fun _ => ⟨by simp,rfl,fun c _ => ?_,fun h => absurd rfl h⟩,
      fun e he => (by cases he)⟩
    · simp [content,top,List.map_const']
    · cases c <;> simp [Call.Fails]
  | cons l ls ih =>
    have hnew : Progress zero (l::ls) off n ⟨n,off,0,[]⟩ :=
      ⟨rfl,rfl,rfl,rfl,fun c hc hlt => absurd hc.pos_mem.1 (by simp only at hlt; omega),
        le_max_left _ _⟩
    exact run_total _ (Continues zero l ls off n) (Outcome zero (l::ls) off n) Pos.left
      (fun s hs => readPass_spec ih hs) (n+1) _ ⟨hnew,fun _ => .inl rfl⟩ (Nat.lt_succ_self n)

theorem OnTop.data {ls : List (Layer β numBlocks)} {d x : ℕ} (h : OnTop ls d x)
    {l : Layer β numBlocks} (hl : ls[d]? = some l) : l.data x ≠ none := by
  obtain ⟨l',hl',hd⟩ := h.exists_layer
  rw [hl] at hl'
  cases hl'
  exact hd

theorem StackedBlockReader.readBlocks_of_aligned (zero : β) (r : StackedBlockReader β)
    (hb : 0 < r.blockSize) (n off : ℕ) :
    r.readBlocks zero (n*r.blockSize) off = readBlocksFrom zero r.numBlocks r.rs n off := by
  rw [StackedBlockReader.readBlocks,if_neg (by simp),Nat.mul_div_cancel n hb]

/-- A read of a non-empty stack of readers that keep to the contract fills the part of the
buffer that lies on the device, and gives `io.EOF` if that is not the whole buffer. -/
theorem readBlocks_fills (zero : β) (ls : List (Layer β numBlocks)) (hne : ls ≠ [])
    (hmeets : ∀ l ∈ ls, l.reader.Meets l.data) (blockSize : ℕ) (hb : 0 < blockSize)
    (k off : ℕ) :
    StackedBlockReader.readBlocks zero ⟨ls.map Layer.reader,blockSize,numBlocks⟩
        (k*blockSize) off =
      .ok ⟨content zero ls off (min k (numBlocks-off)),min k (numBlocks-off),
        if min k (numBlocks-off) < k then some .eof else none⟩ := by
  rw [StackedBlockReader.readBlocks_of_aligned zero _ hb]
  obtain ⟨⟨filled,count,err⟩,hr,ho⟩ := readBlocksFrom_outcome zero ls k off
  have hle := ho.le
  have hfill := ho.filled
  simp only at hle hfill
  rw [hr]
  cases err with
  | none =>
    obtain ⟨hlen,hcount,_,hend⟩ := ho.done rfl
    have hend := hend hne
    simp only at hlen hcount
    have hmin : min k (numBlocks-off) = k := by omega
    rw [hmin,if_neg (by omega),hfill,hlen,hcount]
  | some e =>
    cases ho.failed e rfl with
    | atEnd he hlt hend hok hcount =>
      simp only at hlt hend hcount
      have hmin : min k (numBlocks-off) = filled.length := by omega
      rw [hmin,if_pos (by omega),← hfill,he,hcount]
    | search d hfirst hcount =>
      obtain ⟨l,hl,e',he',hne⟩ := hfirst.fails
      rcases (hmeets l (List.mem_of_getElem? hl)).searches (off+filled.length) with hs | hs
      · rw [he'] at hs
        cases hs
      · rw [he'] at hs
        exact absurd (Option.some.inj hs) hne
    | read d o k' a hfirst ha hcount =>
      obtain ⟨l,hl,hfails⟩ := hfirst.fails
      obtain ⟨-,-,-,hrun,-⟩ := hfirst.made
      exact absurd hfails ((hmeets l (List.mem_of_getElem? hl)).succeeds k' o
        fun x h₁ h₂ => (hrun x h₁ h₂).data hl)

/-- A gap is read alike from a reader and from what the device asks of it. -/
theorem readGap_upTo {tr : BlockHoleReader β} {below below' : ℕ → ℕ → Exec (ReadResult β)}
    (hbelow : ∀ n off, below n off = below' n off) {s : Pos β} (hle : s.off ≤ numBlocks) :
    readGap numBlocks tr below s = readGap numBlocks (tr.upTo numBlocks) below' s := by
  simp only [readGap,upTo_nextBlockData tr hle,hbelow]

theorem readPass_upTo {tr : BlockHoleReader β} {data : ℕ → Option β}
    (hreads : (tr.upTo numBlocks).Reads data) (hdata : ∀ x, numBlocks ≤ x → data x = none)
    {below below' : ℕ → ℕ → Exec (ReadResult β)} (hbelow : ∀ n off, below n off = below' n off)
    (s : Pos β) :
    readPass numBlocks tr below s = readPass numBlocks (tr.upTo numBlocks) below' s := by
  by_cases hoff : numBlocks ≤ s.off
  · simp only [readPass,if_pos hoff]
  · have hle : s.off ≤ numBlocks := by omega
    obtain ⟨_,_,hrun⟩ := hreads.nextHole s.off
    rw [upTo_nextBlockHole tr hle] at hrun
    have hhole : (tr.nextBlockHole s.off).1 ≤ numBlocks := by
      by_contra hgt
      exact hrun numBlocks hle (by omega) (hdata numBlocks le_rfl)
    -- the run that is read lies in the data, so no more than its blocks are filled
    obtain ⟨m,hm,hbs,_⟩ := hreads.read (min s.left ((tr.nextBlockHole s.off).1-s.off)) s.off
      fun x h₁ h₂ => hrun x h₁ (by omega)
    rw [upTo_readBlocks tr hle] at hbs
    have hlen := congrArg List.length hbs
    rw [List.length_map,length_blocks] at hlen
    have hle' : s.off+(tr.readBlocks (min s.left ((tr.nextBlockHole s.off).1-s.off)) s.off).1.length ≤
        numBlocks := by
      omega
    simp only [readPass,upTo_nextBlockHole tr hle,upTo_readBlocks tr hle]
    rw [readGap_upTo hbelow hle,readGap_upTo hbelow (s := ⟨_,_,_,_⟩) hle']

/-- The stack asks no reader beyond the end of the device. -/
theorem readBlocksFrom_upTo (zero : β) {rs : List (BlockHoleReader β)}
    (h : ∀ r ∈ rs, ∃ data, (r.upTo numBlocks).Reads data ∧ ∀ x, numBlocks ≤ x → data x = none)
    (n off : ℕ) : readBlocksFrom zero numBlocks rs n off =
      readBlocksFrom zero numBlocks (rs.map (upTo numBlocks)) n off := by
  induction rs generalizing n off with
  | nil => rfl
  | cons tr rs ih =>
    obtain ⟨data,hreads,hdata⟩ := h tr List.mem_cons_self
    have hbelow := ih fun r hr => h r (List.mem_cons_of_mem tr hr)
    have hpass : readPass numBlocks tr (readBlocksFrom zero numBlocks rs) = readPass numBlocks
        (tr.upTo numBlocks) (readBlocksFrom zero numBlocks (rs.map (upTo numBlocks))) :=
      funext fun s => readPass_upTo hreads hdata hbelow s
    rw [List.map_cons,readBlocksFrom,readBlocksFrom,hpass]

/-- A reader that keeps to the contract as far as a device of `numBlocks` blocks uses it. -/
structure DeviceReader (β : Type) (numBlocks : ℕ) where
  reader : BlockHoleReader β
  data : ℕ → Option β
  meets : (reader.upTo numBlocks).Meets data
  bounded : ∀ x, numBlocks ≤ x → data x = none

def DeviceReader.layer (d : DeviceReader β numBlocks) : Layer β numBlocks where
  reader := d.reader.upTo numBlocks
  data := d.data
  reads := d.meets.toReads
  bounded := d.bounded

/-- A read of a stack of such readers. -/
theorem readBlocks_device (zero : β) (ds : List (DeviceReader β numBlocks)) (hne : ds ≠ [])
    (blockSize : ℕ) (hb : 0 < blockSize) (k off : ℕ) :
    StackedBlockReader.readBlocks zero ⟨ds.map DeviceReader.reader,blockSize,numBlocks⟩
        (k*blockSize) off =
      .ok ⟨content zero (ds.map DeviceReader.layer) off (min k (numBlocks-off)),
        min k (numBlocks-off),if min k (numBlocks-off) < k then some .eof else none⟩ := by
  have hmeets : ∀ l ∈ ds.map DeviceReader.layer, l.reader.Meets l.data := by
    intro l hl
    obtain ⟨d,_,rfl⟩ := List.mem_map.mp hl
    exact d.meets
  have hfills := readBlocks_fills zero (ds.map DeviceReader.layer) (by simpa using hne) hmeets
    blockSize hb k off
  rw [StackedBlockReader.readBlocks_of_aligned zero _ hb] at hfills ⊢
  rw [← hfills,readBlocksFrom_upTo zero ?_ k off]
  · simp only [List.map_map]
    rfl
  · intro r hr
    obtain ⟨d,_,rfl⟩ := List.mem_map.mp hr
    exact ⟨d.data,d.meets.toReads,d.bounded⟩

/-- The layer of a list of blocks. -/
def Layer.ofList (bs : List (Option β)) (h : bs.length ≤ numBlocks) : Layer β numBlocks where
  reader := BlockHoleReader.ofList bs
  data x := bs[x]?.getD none
  reads := (ofList_meets bs).toReads
  bounded x hx := by rw [List.getElem?_eq_none (by omega)]; rfl

theorem readBlocks_fills_two_layers :
    StackedBlockReader.readBlocks 0 ⟨[BlockHoleReader.ofList [none,some 2],
      BlockHoleReader.ofList [some 5,some 6]],512,3⟩ (4*512) 0 = .ok ⟨[5,2,0],3,some .eof⟩ := by
  refine (readBlocks_fills 0
    ([.ofList [none,some 2] (by decide),.ofList [some 5,some 6] (by decide)] : List (Layer ℕ 3))
    (by simp) (fun l hl => ?_) 512 (by decide) 4 0).trans rfl
  simp only [List.mem_cons,List.not_mem_nil,or_false] at hl
  rcases hl with rfl | rfl
  · exact ofList_meets _
  · exact ofList_meets _

/-- The call reads a run that starts inside the request, behind a block that neither its layer
nor a layer above holds: its level has made progress before. -/
def LosesCount (ls : List (Layer β numBlocks)) (off : ℕ) : Call → Prop
  | .search _ _ => False
  | .read d o _ => off < o ∧ ¬HeldAbove ls (d+1) (o-1)

/-- A level has made progress before it reads a run unless it has started there. -/
theorem LevelStart.eq_iff {ls : List (Layer β numBlocks)} {off d a o k : ℕ}
    (h : LevelStart ls off d a o) (hfirst : o = off ∨ ¬OnTop ls d (o-1)) :
    a = o ↔ ¬LosesCount ls off (.read d o k) := by
  have hle := h.le
  have hle' := h.le_failed
  constructor
  · rintro rfl ⟨hlt,hfree⟩
    rcases h.first with hoff | hheld
    · omega
    · exact hfree (heldAbove_succ.mpr (.inl hheld))
  · intro hkeep
    by_contra hne
    refine hkeep ⟨by omega,fun hheld => ?_⟩
    rcases heldAbove_succ.mp hheld with hheld | htop
    · exact h.gap (o-1) (by omega) (by omega) hheld
    · exact hfirst.resolve_left (by omega) htop

/-- The count that comes with an error is the number of blocks that were filled, whatever calls
fail, unless the first of them makes its level lose what it has read before. -/
theorem count_with_error_iff (zero : β) (ls : List (Layer β numBlocks)) (blockSize : ℕ)
    (hb : 0 < blockSize) (k off : ℕ) :
    ∃ r, StackedBlockReader.readBlocks zero ⟨ls.map Layer.reader,blockSize,numBlocks⟩
        (k*blockSize) off = .ok r ∧
      r.filled = content zero ls off r.filled.length ∧
      ((∀ e, r.err = some e → r.count = r.filled.length) ↔
        ∀ c, FirstFails ls off k c → ¬LosesCount ls off c) := by
  rw [StackedBlockReader.readBlocks_of_aligned zero _ hb]
  obtain ⟨r,hr,ho⟩ := readBlocksFrom_outcome zero ls k off
  refine ⟨r,hr,ho.filled,?_⟩
  constructor
  · intro hexact c hc hloses
    cases he : r.err with
    | none => exact (ho.done he).2.2.1 c hc.made hc.fails
    | some e =>
      have hcount := hexact e he
      cases ho.failed e he with
      | atEnd _ _ _ hok _ => exact hok c hc.made hc.fails
      | search d hfirst _ =>
        rw [hc.eq hfirst] at hloses
        exact hloses
      | read d o k' a hfirst ha hsum =>
        rw [hc.eq hfirst] at hloses
        exact (ha.eq_iff hfirst.made.2.2.2.2.1).mp (by omega) hloses
  · intro hkeep e he
    cases ho.failed e he with
    | atEnd _ _ _ _ hcount => exact hcount
    | search d _ hcount => exact hcount
    | read d o k' a hfirst ha hsum =>
      have := (ha.eq_iff hfirst.made.2.2.2.2.1).mpr (hkeep _ hfirst)
      omega

/-- A layer whose calls of `ReadBlocks` fail if they cover the block `x`. -/
def Layer.faulty (bs : List (Option β)) (h : bs.length ≤ numBlocks) (x : ℕ) :
    Layer β numBlocks where
  reader := {BlockHoleReader.ofList bs with
    readBlocks := fun n off => if off ≤ x ∧ x < off+n then ([],some .device)
      else (BlockHoleReader.ofList bs).readBlocks n off}
  data x := bs[x]?.getD none
  reads := by
    refine ⟨(ofList_meets bs).nextHole,(ofList_meets bs).nextData,fun n off hd => ?_⟩
    by_cases hx : off ≤ x ∧ x < off+n
    · exact ⟨0,by omega,by simp [hx,blocks],by simp [hx]⟩
    · simp only [if_neg hx]
      exact (ofList_meets bs).read n off hd
  bounded := (Layer.ofList bs h).bounded

theorem Layer.faulty_fails (bs : List (Option β)) (h : bs.length ≤ numBlocks) (x k o : ℕ) :
    (Layer.faulty bs h x).reader.Fails k o ↔ o ≤ x ∧ x < o+k := by
  by_cases hx : o ≤ x ∧ x < o+k
  · exact iff_of_true ⟨.device,by simp [Layer.faulty,hx]⟩ hx
  · refine iff_of_false ?_ hx
    rintro ⟨e,he,_⟩
    simp [Layer.faulty,hx,BlockHoleReader.ofList] at he

/-- Two layers, each of which fails in the read of a run. -/
def twoFaulty : List (Layer ℕ 3) :=
  [.faulty [none,some 3,some 4] (le_refl 3) 2,.faulty [some 7] (by decide) 0]

/-- Two of the calls fail; the first one of them is the first of its level. -/
theorem count_with_error_of_first_run : ∃ r, StackedBlockReader.readBlocks 0
    ⟨twoFaulty.map Layer.reader,512,3⟩ (3*512) 0 = .ok r ∧
    (Made twoFaulty 0 3 (.read 1 0 1) ∧ (Call.read 1 0 1).Fails twoFaulty) ∧
    (Made twoFaulty 0 3 (.read 0 1 2) ∧ (Call.read 0 1 2).Fails twoFaulty) ∧
    ∀ e, r.err = some e → r.count = r.filled.length := by
  have hmade : Made twoFaulty 0 3 (.read 1 0 1) ∧ Made twoFaulty 0 3 (.read 0 1 2) := by
    refine ⟨⟨by decide,by decide,by decide,fun x _ hx => ?_,.inl rfl,.inr ?_⟩,
      ⟨by decide,by decide,by decide,fun x h₁ h₂ => ?_,.inr ?_,.inl rfl⟩⟩
    · obtain rfl : x = 0 := by omega
      simp [OnTop,twoFaulty,Layer.faulty]
    · simp [OnTop,twoFaulty,Layer.faulty]
    · obtain rfl | rfl : x = 1 ∨ x = 2 := by omega
      · simp [OnTop,twoFaulty,Layer.faulty]
      · simp [OnTop,twoFaulty,Layer.faulty]
    · simp [OnTop,twoFaulty,Layer.faulty]
  have hfails₁ : (Call.read 1 0 1).Fails twoFaulty :=
    ⟨_,rfl,(Layer.faulty_fails _ _ 0 1 0).mpr (by decide)⟩
  have hfails₂ : (Call.read 0 1 2).Fails twoFaulty :=
    ⟨_,rfl,(Layer.faulty_fails _ _ 2 2 1).mpr (by decide)⟩
  obtain ⟨r,hr,_,hiff⟩ := count_with_error_iff 0 twoFaulty 512 (by decide) 3 0
  refine ⟨r,hr,⟨hmade.1,hfails₁⟩,⟨hmade.2,hfails₂⟩,hiff.mpr fun c hc hloses => ?_⟩
  have hbefore := hc.first _ hmade.1 hfails₁
  cases c with
  | search d y => exact hloses
  | read d o k =>
    have hlt := hloses.1
    simp only [Call.Before,Call.pos] at hbefore
    omega

/-- Two blocks are filled before the second run of the only reader fails; the count is 0. -/
theorem count_lost_before_second_run : StackedBlockReader.readBlocks 0
    ⟨[Layer.faulty [some 1,none,some 3] (le_refl 3) 2].map Layer.reader,512,3⟩ (3*512) 0 =
      .ok ⟨[1,0],0,some .device⟩ ∧
    content 0 [Layer.faulty [some 1,none,some 3] (le_refl 3) 2] 0 2 = [1,0] :=
  ⟨rfl,rfl⟩

end Stack

end Readers
end Logblock
