import Mathlib

/-! Ordered maps from natural keys to items that carry their own key. The items
are kept as a strictly sorted list, so an unsorted or duplicated map cannot be
built; every operation is described by the items it leaves behind. -/
namespace Logblock

structure OrderedMap (α : Type) (key : α → ℕ) where
  items : List α
  sorted : items.Pairwise fun a b => key a < key b

namespace OrderedMap

variable {α : Type} {key : α → ℕ}

instance : Membership α (OrderedMap α key) := ⟨fun m x => x ∈ m.items⟩

theorem mem_def {m : OrderedMap α key} {x : α} : x ∈ m ↔ x ∈ m.items := Iff.rfl

/-- The empty map. -/
def empty : OrderedMap α key := ⟨[],.nil⟩

@[simp] theorem not_mem_empty (x : α) : x ∉ (empty : OrderedMap α key) := by
  simp [mem_def,empty]

theorem eq_of_key_eq {m : OrderedMap α key} {x y : α} (hx : x ∈ m) (hy : y ∈ m)
    (h : key x = key y) : x = y := by
  by_contra hne
  rcases List.Pairwise.forall_of_forall_of_flip (R := fun a b => a ≠ b → key a ≠ key b)
    (fun a _ ha => (ha rfl).elim) (m.sorted.imp fun hlt _ => by omega)
    (m.sorted.imp fun hlt _ => by omega) hx hy hne h with ⟨⟩

theorem ext_mem {m m' : OrderedMap α key} (h : ∀ x, x ∈ m ↔ x ∈ m') : m = m' := by
  have nodup (m : OrderedMap α key) : m.items.Nodup :=
    m.sorted.imp fun hlt he => by subst he; omega
  have hp : m.items.Perm m'.items := (List.perm_ext_iff_of_nodup (nodup m) (nodup m')).mpr h
  have he : m.items = m'.items :=
    hp.eq_of_pairwise (fun a b _ _ hab hba => by omega) m.sorted m'.sorted
  cases m; cases m'; simp_all

/-- Items in descending key order, from the greatest key not above `k`. -/
def descendLessOrEqual (m : OrderedMap α key) (k : ℕ) : List α :=
  (m.items.filter fun x => key x ≤ k).reverse

/-- Items in ascending key order, from the least key not below `k`. -/
def ascendGreaterOrEqual (m : OrderedMap α key) (k : ℕ) : List α :=
  m.items.filter fun x => k ≤ key x

@[simp] theorem mem_descendLessOrEqual {m : OrderedMap α key} {k : ℕ} {x : α} :
    x ∈ m.descendLessOrEqual k ↔ x ∈ m ∧ key x ≤ k := by
  simp [descendLessOrEqual,mem_def]

@[simp] theorem mem_ascendGreaterOrEqual {m : OrderedMap α key} {k : ℕ} {x : α} :
    x ∈ m.ascendGreaterOrEqual k ↔ x ∈ m ∧ k ≤ key x := by
  simp [ascendGreaterOrEqual,mem_def]

theorem descendLessOrEqual_sorted (m : OrderedMap α key) (k : ℕ) :
    (m.descendLessOrEqual k).Pairwise fun a b => key b < key a := by
  rw [descendLessOrEqual,List.pairwise_reverse]
  exact m.sorted.filter _

theorem ascendGreaterOrEqual_sorted (m : OrderedMap α key) (k : ℕ) :
    (m.ascendGreaterOrEqual k).Pairwise fun a b => key a < key b :=
  m.sorted.filter _

/-- The item with the greatest key not above `k`. -/
def floor (m : OrderedMap α key) (k : ℕ) : Option α := (m.descendLessOrEqual k).head?

/-- The item with the least key not below `k`. -/
def ceil (m : OrderedMap α key) (k : ℕ) : Option α := (m.ascendGreaterOrEqual k).head?

theorem floor_eq_some {m : OrderedMap α key} {k : ℕ} {x : α} (h : m.floor k = some x) :
    x ∈ m ∧ key x ≤ k ∧ ∀ y ∈ m, key y ≤ k → key y ≤ key x := by
  obtain ⟨rest,hrest⟩ := List.head?_eq_some_iff.mp h
  have hs := m.descendLessOrEqual_sorted k
  have hmem (y : α) : y ∈ m ∧ key y ≤ k ↔ y = x ∨ y ∈ rest := by
    rw [← mem_descendLessOrEqual,hrest,List.mem_cons]
  rw [hrest,List.pairwise_cons] at hs
  refine ⟨((hmem x).mpr (Or.inl rfl)).1,((hmem x).mpr (Or.inl rfl)).2,fun y hy hle => ?_⟩
  rcases (hmem y).mp ⟨hy,hle⟩ with rfl | hy
  · exact le_rfl
  · exact (hs.1 y hy).le

theorem floor_eq_none {m : OrderedMap α key} {k : ℕ} (h : m.floor k = none) :
    ∀ y ∈ m, k < key y := by
  intro y hy
  by_contra hle
  have : y ∈ m.descendLessOrEqual k := mem_descendLessOrEqual.mpr ⟨hy,by omega⟩
  rw [List.head?_eq_none_iff.mp h] at this
  simp at this

theorem ceil_eq_some {m : OrderedMap α key} {k : ℕ} {x : α} (h : m.ceil k = some x) :
    x ∈ m ∧ k ≤ key x ∧ ∀ y ∈ m, k ≤ key y → key x ≤ key y := by
  obtain ⟨rest,hrest⟩ := List.head?_eq_some_iff.mp h
  have hs := m.ascendGreaterOrEqual_sorted k
  have hmem (y : α) : y ∈ m ∧ k ≤ key y ↔ y = x ∨ y ∈ rest := by
    rw [← mem_ascendGreaterOrEqual,hrest,List.mem_cons]
  rw [hrest,List.pairwise_cons] at hs
  refine ⟨((hmem x).mpr (Or.inl rfl)).1,((hmem x).mpr (Or.inl rfl)).2,fun y hy hle => ?_⟩
  rcases (hmem y).mp ⟨hy,hle⟩ with rfl | hy
  · exact le_rfl
  · exact (hs.1 y hy).le

theorem ceil_eq_none {m : OrderedMap α key} {k : ℕ} (h : m.ceil k = none) :
    ∀ y ∈ m, key y < k := by
  intro y hy
  by_contra hle
  have : y ∈ m.ascendGreaterOrEqual k := mem_ascendGreaterOrEqual.mpr ⟨hy,by omega⟩
  rw [List.head?_eq_none_iff.mp h] at this
  simp at this

/-- The item stored under key `k`. -/
def lookup (m : OrderedMap α key) (k : ℕ) : Option α := m.items.find? fun x => key x = k

theorem lookup_eq_some {m : OrderedMap α key} {k : ℕ} {x : α} :
    m.lookup k = some x ↔ x ∈ m ∧ key x = k := by
  constructor
  · intro h
    exact ⟨List.mem_of_find?_eq_some h,by simpa using List.find?_some h⟩
  · rintro ⟨hx,rfl⟩
    cases hl : m.lookup (key x) with
    | none =>
      have := List.find?_eq_none.mp hl x hx
      simp at this
    | some y =>
      have hy : y ∈ m := List.mem_of_find?_eq_some hl
      have hk : key y = key x := by simpa using List.find?_some hl
      rw [eq_of_key_eq hy hx hk]

theorem lookup_eq_none {m : OrderedMap α key} {k : ℕ} :
    m.lookup k = none ↔ ∀ x ∈ m, key x ≠ k := by
  simp [lookup,List.find?_eq_none,mem_def]

def insertItem (key : α → ℕ) (x : α) : List α → List α
  | [] => [x]
  | y::ys =>
    if key x < key y then x::y::ys
    else if key x = key y then x::ys
    else y::insertItem key x ys

theorem mem_insertItem {x y : α} {l : List α} (hl : l.Pairwise fun a b => key a < key b) :
    y ∈ insertItem key x l ↔ y = x ∨ (y ∈ l ∧ key y ≠ key x) := by
  induction l with
  | nil => simp [insertItem]
  | cons z zs ih =>
    rw [List.pairwise_cons] at hl
    have hz := hl.1
    simp only [insertItem]
    split_ifs with h₁ h₂
    · have hne : ∀ w ∈ z::zs, key w ≠ key x := by
        intro w hw
        rcases List.mem_cons.mp hw with rfl | hw
        · omega
        · have := hz w hw; omega
      rw [List.mem_cons]
      exact or_congr Iff.rfl ⟨fun h => ⟨h,hne y h⟩,fun h => h.1⟩
    · simp only [List.mem_cons]
      constructor
      · rintro (rfl | hy)
        · exact Or.inl rfl
        · have := hz y hy; exact Or.inr ⟨Or.inr hy,by omega⟩
      · rintro (rfl | ⟨rfl | hy,hk⟩)
        · exact Or.inl rfl
        · exact absurd h₂.symm hk
        · exact Or.inr hy
    · simp only [List.mem_cons,ih hl.2]
      constructor
      · rintro (rfl | rfl | ⟨hy,hk⟩)
        · exact Or.inr ⟨Or.inl rfl,fun h => h₂ h.symm⟩
        · exact Or.inl rfl
        · exact Or.inr ⟨Or.inr hy,hk⟩
      · rintro (rfl | ⟨rfl | hy,hk⟩)
        · exact Or.inr (Or.inl rfl)
        · exact Or.inl rfl
        · exact Or.inr (Or.inr ⟨hy,hk⟩)

theorem insertItem_sorted {x : α} {l : List α} (hl : l.Pairwise fun a b => key a < key b) :
    (insertItem key x l).Pairwise fun a b => key a < key b := by
  induction l with
  | nil => simp [insertItem]
  | cons z zs ih =>
    have hz := List.pairwise_cons.mp hl
    simp only [insertItem]
    split_ifs with h₁ h₂
    · refine List.pairwise_cons.mpr ⟨fun w hw => ?_,hl⟩
      rcases List.mem_cons.mp hw with rfl | hw
      · exact h₁
      · exact h₁.trans (hz.1 w hw)
    · exact List.pairwise_cons.mpr ⟨fun w hw => h₂ ▸ hz.1 w hw,hz.2⟩
    · refine List.pairwise_cons.mpr ⟨fun w hw => ?_,ih hz.2⟩
      rcases (mem_insertItem hz.2).mp hw with rfl | hw
      · omega
      · exact hz.1 w hw.1

/-- Store `x` under its key, returning the item it displaces. -/
def replaceOrInsert (m : OrderedMap α key) (x : α) : Option α × OrderedMap α key :=
  (m.lookup (key x),⟨insertItem key x m.items,insertItem_sorted m.sorted⟩)

/-- Drop the item stored under `k`, returning it. -/
def delete (m : OrderedMap α key) (k : ℕ) : Option α × OrderedMap α key :=
  (m.lookup k,⟨m.items.filter fun x => key x ≠ k,m.sorted.filter _⟩)

/-- Mutate the item stored under `k` in place; the mutation leaves its key alone. -/
def modify (m : OrderedMap α key) (k : ℕ) (f : α → α) (hf : ∀ x, key (f x) = key x) :
    OrderedMap α key where
  items := m.items.map fun x => if key x = k then f x else x
  sorted := by
    rw [List.pairwise_map]
    refine m.sorted.imp fun {a b} hab => ?_
    split_ifs <;> simpa [hf] using hab

@[simp] theorem replaceOrInsert_fst (m : OrderedMap α key) (x : α) :
    (m.replaceOrInsert x).1 = m.lookup (key x) := rfl

@[simp] theorem mem_replaceOrInsert {m : OrderedMap α key} {x y : α} :
    y ∈ (m.replaceOrInsert x).2 ↔ y = x ∨ (y ∈ m ∧ key y ≠ key x) :=
  mem_insertItem m.sorted

@[simp] theorem delete_fst (m : OrderedMap α key) (k : ℕ) : (m.delete k).1 = m.lookup k := rfl

@[simp] theorem mem_delete {m : OrderedMap α key} {k : ℕ} {y : α} :
    y ∈ (m.delete k).2 ↔ y ∈ m ∧ key y ≠ k := by
  simp [delete,mem_def]

theorem mem_modify {m : OrderedMap α key} {k : ℕ} {f : α → α} {hf : ∀ x, key (f x) = key x}
    {y : α} : y ∈ m.modify k f hf ↔ (y ∈ m ∧ key y ≠ k) ∨ ∃ x ∈ m, key x = k ∧ y = f x := by
  simp only [mem_def,modify,List.mem_map]
  constructor
  · rintro ⟨x,hx,rfl⟩
    by_cases hk : key x = k
    · exact Or.inr ⟨x,hx,hk,by simp [hk]⟩
    · exact Or.inl ⟨by simpa [hk] using hx,by simp [hk]⟩
  · rintro (⟨hy,hk⟩ | ⟨x,hx,hk,rfl⟩)
    · exact ⟨y,hy,by simp [hk]⟩
    · exact ⟨x,hx,by simp [hk]⟩

end OrderedMap
end Logblock
