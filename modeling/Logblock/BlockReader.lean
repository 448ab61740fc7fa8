import Logblock.Runs
import Logblock.Stream

/-! The interface `t.BlockHoleReader`: block-aligned reads of a sparse sequence of blocks, and
the two searches for its next block and its next hole. -/
namespace Logblock

open Runs

variable {β : Type}

/-- `ReadBlocks` takes the number of blocks of the buffer and the first block, and gives the
blocks it has filled; the count it reports is their number. -/
structure BlockHoleReader (β : Type) where
  readBlocks : ℕ → ℕ → List β × Option Error
  nextBlockData : ℕ → ℕ × Option Error
  nextBlockHole : ℕ → ℕ × Option Error

/-- What a read leaves behind: the leading blocks of the buffer that were filled, the count
that is returned, and the error. -/
structure ReadResult (β : Type) where
  filled : List β
  count : ℕ
  err : Option Error
  deriving DecidableEq

namespace BlockHoleReader

/-- The blocks of `data` in the `n` blocks from `off` on. -/
def blocks (data : ℕ → Option β) (off n : ℕ) : List (Option β) := (List.range' off n).map data

@[simp] theorem length_blocks (data : ℕ → Option β) (off n : ℕ) :
    (blocks data off n).length = n := by
  simp [blocks]

theorem blocks_succ (data : ℕ → Option β) (off n : ℕ) :
    blocks data off (n+1) = data off::blocks data (off+1) n := by
  simp [blocks,List.range'_succ]

/-- A call of `ReadBlocks` fails if it gives an error, unless that is `io.EOF` after the whole
buffer was filled. -/
def Fails (r : BlockHoleReader β) (n off : ℕ) : Prop :=
  ∃ e, (r.readBlocks n off).2 = some e ∧ (e ≠ .eof ∨ (r.readBlocks n off).1.length ≠ n)

/-- A reader of the blocks `data`: the searches are exact, a read inside the data fills a part
of the buffer, and the whole buffer if it gives no error. `NextBlockData` may fail with an
error other than `io.EOF`. -/
structure Reads (r : BlockHoleReader β) (data : ℕ → Option β) : Prop where
  nextHole : ∀ off, LeastFrom (fun x => data x = none) off (some (r.nextBlockHole off).1)
  nextData : ∀ off, match r.nextBlockData off with
    | (y,none) => LeastFrom (fun x => data x ≠ none) off (some y)
    | (_,some .eof) => LeastFrom (fun x => data x ≠ none) off none
    | _ => True
  read : ∀ n off, (∀ x, off ≤ x → x < off+n → data x ≠ none) →
    ∃ m ≤ n, (r.readBlocks n off).1.map some = blocks data off m ∧
      ((r.readBlocks n off).2 = none → m = n)

/-- The contract of the interface: a reader that never fails. -/
structure Meets (r : BlockHoleReader β) (data : ℕ → Option β) : Prop extends Reads r data where
  searches : ∀ off, (r.nextBlockData off).2 = none ∨ (r.nextBlockData off).2 = some .eof
  succeeds : ∀ n off, (∀ x, off ≤ x → x < off+n → data x ≠ none) → ¬r.Fails n off

/-- A reader whose blocks have `int64` numbers, with `NextBlockHole` free of errors. -/
structure Bounded (r : BlockHoleReader β) (data : ℕ → Option β) : Prop extends Meets r data where
  holes : ∀ off, (r.nextBlockHole off).2 = none
  small : ∀ x, 2^63-1 ≤ x → data x = none

/-- The reads inside the data give no `io.EOF` either. -/
structure Clean (r : BlockHoleReader β) (data : ℕ → Option β) : Prop extends Bounded r data where
  noEOF : ∀ n off, (∀ x, off ≤ x → x < off+n → data x ≠ none) → (r.readBlocks n off).2 = none

/-- A read inside the data fills the buffer, and `io.EOF` is the only error it may give. -/
theorem Meets.readBlocks_eq {r : BlockHoleReader β} {data : ℕ → Option β} (h : r.Meets data)
    {n off : ℕ} (hd : ∀ x, off ≤ x → x < off+n → data x ≠ none) :
    ∃ bs err, r.readBlocks n off = (bs,err) ∧ bs.map some = blocks data off n ∧
      (err = none ∨ err = some .eof) := by
  obtain ⟨m,_,hbs,hfull⟩ := h.read n off hd
  have hlen : (r.readBlocks n off).1.length = m := by
    rw [← List.length_map (f := some),hbs,length_blocks]
  cases herr : (r.readBlocks n off).2 with
  | none =>
    cases hfull herr
    exact ⟨_,none,Prod.ext rfl herr,hbs,.inl rfl⟩
  | some e =>
    obtain ⟨rfl,rfl⟩ : e = .eof ∧ m = n := by
      by_contra hne
      refine h.succeeds n off hd ⟨e,herr,?_⟩
      rw [hlen]
      tauto
    exact ⟨_,some .eof,Prod.ext rfl herr,hbs,.inr rfl⟩

theorem Clean.readBlocks_eq {r : BlockHoleReader β} {data : ℕ → Option β} (h : r.Clean data)
    {n off : ℕ} (hd : ∀ x, off ≤ x → x < off+n → data x ≠ none) :
    ∃ bs, r.readBlocks n off = (bs,none) ∧ bs.map some = blocks data off n := by
  obtain ⟨m,_,hbs,hfull⟩ := h.read n off hd
  have herr := h.noEOF n off hd
  cases hfull herr
  exact ⟨(r.readBlocks n off).1,Prod.ext rfl herr,hbs⟩

theorem Bounded.nextBlockHole_eq {r : BlockHoleReader β} {data : ℕ → Option β} (h : r.Bounded data)
    (off : ℕ) : ∃ y, r.nextBlockHole off = (y,none) ∧
      LeastFrom (fun x => data x = none) off (some y) :=
  ⟨(r.nextBlockHole off).1,Prod.ext rfl (h.holes off),h.nextHole off⟩

/-- The answer of `NextBlockData`, which never fails. -/
theorem Meets.nextBlockData_eq {r : BlockHoleReader β} {data : ℕ → Option β} (h : r.Meets data)
    (off : ℕ) :
    (∃ y, r.nextBlockData off = (y,none) ∧ LeastFrom (fun x => data x ≠ none) off (some y)) ∨
    ∃ y, r.nextBlockData off = (y,some .eof) ∧ LeastFrom (fun x => data x ≠ none) off none := by
  have hs := h.nextData off
  rcases hnd : r.nextBlockData off with ⟨y,err⟩
  rw [hnd] at hs
  rcases h.searches off with he | he
  · rw [hnd] at he
    cases he
    exact .inl ⟨y,rfl,hs⟩
  · rw [hnd] at he
    cases he
    exact .inr ⟨y,rfl,hs⟩

/-- A reader has the blocks of one function only. -/
theorem Clean.unique {r : BlockHoleReader β} {data data' : ℕ → Option β} (h : r.Clean data)
    (h' : r.Clean data') : data = data' := by
  have hnone : ∀ {d : ℕ → Option β}, r.Clean d → ∀ x, d x = none ↔ (r.nextBlockHole x).1 = x := by
    intro d hd x
    obtain ⟨hle,hhole,hrun⟩ := hd.nextHole x
    constructor
    · intro hx
      by_contra hne
      exact hrun x le_rfl (by omega) hx
    · intro he
      rwa [he] at hhole
  have hread : ∀ {d : ℕ → Option β}, r.Clean d → ∀ x, d x ≠ none →
      (r.readBlocks 1 x).1.map some = [d x] := by
    intro d hd x hx
    have hone : ∀ y, x ≤ y → y < x+1 → d y ≠ none := by
      intro y h₁ h₂
      rwa [show y = x by omega]
    obtain ⟨bs,hbs,hmap⟩ := hd.readBlocks_eq hone
    rw [hbs]
    exact hmap
  funext x
  by_cases hx : data x = none
  · rw [hx,(hnone h' x).mpr ((hnone h x).mp hx)]
  · have hx' : data' x ≠ none := fun he => hx ((hnone h x).mpr ((hnone h' x).mp he))
    exact (List.cons.inj ((hread h x hx).symm.trans (hread h' x hx'))).1

/-- A reader whose answers are known for every offset. -/
theorem Clean.of_answers {r : BlockHoleReader β} {data : ℕ → Option β}
    (hhole : ∀ off, ∃ k, LeastFrom (fun x => data x = none) off (some k) ∧
      r.nextBlockHole off = (k,none))
    (hdata : ∀ off, (∃ k, LeastFrom (fun x => data x ≠ none) off (some k) ∧
      r.nextBlockData off = (k,none)) ∨
      ∃ k, LeastFrom (fun x => data x ≠ none) off none ∧ r.nextBlockData off = (k,some .eof))
    (hread : ∀ n off, (∀ x, off ≤ x → x < off+n → data x ≠ none) →
      ∃ bs, r.readBlocks n off = (bs,none) ∧ bs.map some = blocks data off n)
    (hsmall : ∀ x, 2^63-1 ≤ x → data x = none) : r.Clean data := by
  refine ⟨⟨⟨⟨fun off => ?_,fun off => ?_,fun n off hd => ?_⟩,fun off => ?_,fun n off hd => ?_⟩,
    fun off => ?_,hsmall⟩,fun n off hd => ?_⟩
  · obtain ⟨k,hk,heq⟩ := hhole off
    rw [heq]
    exact hk
  · rcases hdata off with ⟨k,hk,heq⟩ | ⟨k,hk,heq⟩
    · rw [heq]
      exact hk
    · rw [heq]
      exact hk
  · obtain ⟨bs,heq,hbs⟩ := hread n off hd
    rw [heq]
    exact ⟨n,le_rfl,hbs,fun _ => rfl⟩
  · rcases hdata off with ⟨k,-,heq⟩ | ⟨k,-,heq⟩
    · exact .inl (by rw [heq])
    · exact .inr (by rw [heq])
  · obtain ⟨bs,heq,-⟩ := hread n off hd
    rintro ⟨e,he,-⟩
    rw [heq] at he
    cases he
  · obtain ⟨k,-,heq⟩ := hhole off
    rw [heq]
  · obtain ⟨bs,heq,-⟩ := hread n off hd
    rw [heq]

/-- Another reader with the same searches that reads the data alike. -/
theorem Clean.congr_reads {r r' : BlockHoleReader β} {data : ℕ → Option β} (h : r.Clean data)
    (hd : r'.nextBlockData = r.nextBlockData) (hh : r'.nextBlockHole = r.nextBlockHole)
    (hread : ∀ n off, (∀ x, off ≤ x → x < off+n → data x ≠ none) →
      r'.readBlocks n off = r.readBlocks n off) : r'.Clean data := by
  refine .of_answers (fun off => ?_) (fun off => ?_) (fun n off hin => ?_) h.small
  · obtain ⟨k,hcall,hk⟩ := h.nextBlockHole_eq off
    exact ⟨k,hk,hh ▸ hcall⟩
  · rw [hd]
    rcases h.nextBlockData_eq off with ⟨k,hcall,hk⟩ | ⟨k,hcall,hk⟩
    · exact .inl ⟨k,hk,hcall⟩
    · exact .inr ⟨k,hk,hcall⟩
  · rw [hread n off hin]
    exact h.readBlocks_eq hin

/-- The reader with `io.EOF` beside what the reads picked by `p` give. -/
def withEOF (p : ℕ → ℕ → Bool) (r : BlockHoleReader β) : BlockHoleReader β :=
  {r with readBlocks := fun n off =>
    ((r.readBlocks n off).1,if p n off then some .eof else (r.readBlocks n off).2)}

/-- A read that fills its buffer may say that there is nothing behind it. -/
theorem Clean.withEOF {r : BlockHoleReader β} {data : ℕ → Option β} (h : r.Clean data)
    (p : ℕ → ℕ → Bool) : (r.withEOF p).Bounded data := by
  refine ⟨⟨⟨h.nextHole,h.nextData,fun n off hd => ?_⟩,h.searches,fun n off hd => ?_⟩,h.holes,h.small⟩
  · obtain ⟨bs,hread,hbs⟩ := h.readBlocks_eq hd
    refine ⟨n,le_rfl,?_,fun _ => rfl⟩
    simp only [BlockHoleReader.withEOF,hread]
    exact hbs
  · obtain ⟨bs,hread,hbs⟩ := h.readBlocks_eq hd
    have hlen : bs.length = n := by
      rw [← List.length_map (f := some),hbs,length_blocks]
    rintro ⟨e,he,hfails⟩
    simp only [BlockHoleReader.withEOF,hread] at he hfails
    split_ifs at he
    cases he
    rcases hfails with hne | hne
    · exact hne rfl
    · exact hne hlen

/-- The reader as a device of `numBlocks` blocks uses it: it is not asked beyond the end. -/
def upTo (numBlocks : ℕ) (r : BlockHoleReader β) : BlockHoleReader β where
  readBlocks n off := if off ≤ numBlocks then r.readBlocks n off else ([],none)
  nextBlockData off := if off ≤ numBlocks then r.nextBlockData off else (0,some .eof)
  nextBlockHole off := if off ≤ numBlocks then r.nextBlockHole off else (off,none)

section UpTo

variable {numBlocks off : ℕ} (r : BlockHoleReader β) (h : off ≤ numBlocks)

include h

theorem upTo_readBlocks (n : ℕ) : (r.upTo numBlocks).readBlocks n off = r.readBlocks n off :=
  if_pos h

theorem upTo_nextBlockData : (r.upTo numBlocks).nextBlockData off = r.nextBlockData off :=
  if_pos h

theorem upTo_nextBlockHole : (r.upTo numBlocks).nextBlockHole off = r.nextBlockHole off :=
  if_pos h

end UpTo

/-- A reader of blocks of the device is one where the device uses it. -/
theorem Clean.upTo {r : BlockHoleReader β} {data : ℕ → Option β} (h : r.Clean data)
    {numBlocks : ℕ} (hend : ∀ x, numBlocks ≤ x → data x = none) :
    (r.upTo numBlocks).Clean data := by
  have hread : ∀ n off, (∀ x, off ≤ x → x < off+n → data x ≠ none) →
      ∃ bs, (r.upTo numBlocks).readBlocks n off = (bs,none) ∧ bs.map some = blocks data off n := by
    intro n off hd
    by_cases hle : off ≤ numBlocks
    · rw [upTo_readBlocks r hle]
      exact h.readBlocks_eq hd
    · have hn : n = 0 := by
        by_contra hpos
        exact hd off le_rfl (by omega) (hend off (by omega))
      subst hn
      exact ⟨[],if_neg hle,rfl⟩
  have hhole : ∀ off, ∃ k, LeastFrom (fun x => data x = none) off (some k) ∧
      (r.upTo numBlocks).nextBlockHole off = (k,none) := by
    intro off
    by_cases hle : off ≤ numBlocks
    · rw [upTo_nextBlockHole r hle]
      obtain ⟨k,heq,hk⟩ := h.nextBlockHole_eq off
      exact ⟨k,hk,heq⟩
    · exact ⟨off,⟨le_rfl,hend off (by omega),fun z h₁ h₂ => by omega⟩,if_neg hle⟩
  have hdata : ∀ off, (∃ k, LeastFrom (fun x => data x ≠ none) off (some k) ∧
      (r.upTo numBlocks).nextBlockData off = (k,none)) ∨
      ∃ k, LeastFrom (fun x => data x ≠ none) off none ∧
        (r.upTo numBlocks).nextBlockData off = (k,some .eof) := by
    intro off
    by_cases hle : off ≤ numBlocks
    · rw [upTo_nextBlockData r hle]
      rcases h.nextBlockData_eq off with ⟨k,heq,hk⟩ | ⟨k,heq,hk⟩
      · exact .inl ⟨k,hk,heq⟩
      · exact .inr ⟨k,hk,heq⟩
    · exact .inr ⟨0,fun z hz hne => hne (hend z (by omega)),if_neg hle⟩
  exact Clean.of_answers hhole hdata hread h.small

/-- A reader of the listed blocks, one entry for each block from 0 on. -/
def ofList (bs : List (Option β)) : BlockHoleReader β where
  readBlocks n off := (((bs.drop off).take n).filterMap id,none)
  nextBlockData off :=
    match (List.range' off (bs.length-off)).find? (fun x => (bs[x]?.getD none).isSome) with
    | some y => (y,none)
    | none => (0,some .eof)
  nextBlockHole off :=
    (((List.range' off (bs.length-off)).find? (fun x => (bs[x]?.getD none).isNone)).getD
      (max off bs.length),none)

theorem ofList_meets (bs : List (Option β)) : (ofList bs).Meets (fun x => bs[x]?.getD none) := by
  have hout : ∀ x, bs.length ≤ x → bs[x]?.getD none = none := by
    intro x hx
    rw [List.getElem?_eq_none hx]
    rfl
  refine ⟨⟨fun off => ?_,fun off => ?_,fun n off hd => ?_⟩,fun off => ?_,fun n off _ => ?_⟩
  · simp only [ofList]
    cases hf : (List.range' off (bs.length-off)).find? (fun x => (bs[x]?.getD none).isNone) with
    | some y =>
      obtain ⟨hy,hmem,hmin⟩ := List.find?_range'_eq_some.mp hf
      refine ⟨(List.mem_range'_1.mp hmem).1,by simpa using hy,fun z hz hlt hn => ?_⟩
      have := hmin z hz hlt
      simp [hn] at this
    | none =>
      refine ⟨le_max_left _ _,hout _ (le_max_right _ _),fun z hz hlt hn => ?_⟩
      have := List.find?_range'_eq_none.mp hf z hz (by simp only [Option.getD_none] at hlt; omega)
      simp [hn] at this
  · simp only [ofList]
    cases hf : (List.range' off (bs.length-off)).find? (fun x => (bs[x]?.getD none).isSome) with
    | some y =>
      obtain ⟨hy,hmem,hmin⟩ := List.find?_range'_eq_some.mp hf
      refine ⟨(List.mem_range'_1.mp hmem).1,Option.isSome_iff_ne_none.mp hy,
        fun z hz hlt hn => ?_⟩
      have := hmin z hz hlt
      simp [Option.isSome_iff_ne_none.mpr hn] at this
    | none =>
      intro z hz hn
      have hlt : z < bs.length := by
        by_contra hge
        exact hn (hout z (by omega))
      have := List.find?_range'_eq_none.mp hf z hz (by omega)
      simp [Option.isSome_iff_ne_none.mpr hn] at this
  · refine ⟨n,le_refl n,?_,fun _ => rfl⟩
    simp only [ofList]
    induction n generalizing off with
    | zero => simp [blocks]
    | succ n ih =>
      obtain ⟨b,hb⟩ := Option.ne_none_iff_exists'.mp (hd off (le_refl _) (by omega))
      have hlt : off < bs.length := by
        by_contra hge
        rw [hout off (by omega)] at hb
        cases hb
      rw [List.drop_eq_getElem_cons hlt,List.take_succ_cons,blocks_succ,hb]
      rw [List.getElem?_eq_getElem hlt] at hb
      simp only [Option.getD_some] at hb
      rw [hb,List.filterMap_cons_some (by rfl),List.map_cons,
        ih (off+1) fun x h₁ h₂ => hd x (by omega) (by omega)]
  · simp only [ofList]
    cases (List.range' off (bs.length-off)).find? _ <;> simp
  · rintro ⟨e,he,_⟩
    cases he

theorem ofList_clean (bs : List (Option β)) (h : bs.length < 2^63) :
    (ofList bs).Clean (fun x => bs[x]?.getD none) := by
  refine ⟨⟨ofList_meets bs,fun off => rfl,fun x hx => ?_⟩,fun n off _ => rfl⟩
  rw [List.getElem?_eq_none (by omega)]
  rfl

end BlockHoleReader
end Logblock
