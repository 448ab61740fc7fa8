import Logblock.ExtentRangeMap

/-! The extent map of `internal/rangemap` with the addresses of its items. The tree maps the start
of an extent to the address of an item, `Remove` shortens items in place, and the checks of the
code compare addresses. What the addresses stand for is the map of `ExtentRangeMap`. -/
namespace Logblock

open Loop Runs

/-- The items by address, the next address and the tree of addresses. An item is stored under the
start of its range. -/
structure ExtentTree (V : Type) where
  item : ℕ → RangeValue V
  next : ℕ
  tree : OrderedMap (ℕ × ℕ) Prod.fst
  key_eq : ∀ e ∈ tree, (item e.2).offset = e.1
  allocated : ∀ e ∈ tree, e.2 < next

namespace ExtentTree

variable {V : Type}

def empty [Inhabited V] : ExtentTree V := ⟨fun _ => ⟨⟨0,0⟩,default⟩,0,.empty,by simp,by simp⟩

/-- The address of an item of the tree. -/
def Live (m : ExtentTree V) (p : ℕ) : Prop := ∃ k, (k,p) ∈ m.tree

/-- The closure of `getByteRange`. -/
def collectOverlaps (item : ℕ → RangeValue V) (r : Range) (stop : ℕ) : List (ℕ × ℕ) → List ℕ
  | [] => []
  | e::rest =>
    if (item e.2).offset = stop then collectOverlaps item r stop rest
    else if r.overlaps (item e.2).toRange then e.2::collectOverlaps item r stop rest
    else []

def getByteRange (m : ExtentTree V) (start length : ℕ) : List ℕ :=
  collectOverlaps m.item ⟨start,length⟩ (u64 (start+length))
    (m.tree.descendLessOrEqual (u64 (start+length)))

def getWithRange (m : ExtentTree V) (offset : ℕ) : Option (RangeValue V) :=
  match m.tree.floor offset with
  | some e => if (m.item e.2).contains offset then some (m.item e.2) else none
  | none => none

def get (m : ExtentTree V) (offset : ℕ) : Option V :=
  match m.tree.floor offset with
  | some e => if (m.item e.2).contains offset then some (m.item e.2).value else none
  | none => none

/-- `ReplaceOrInsert` of a new item, whose key must be new. -/
def insertNew (m : ExtentTree V) (newItem : RangeValue V) : Exec (ExtentTree V) :=
  match m.tree.lookup newItem.offset with
  | some _ => .error (.panic "unexpected old entry")
  | none => .ok {
      item := Function.update m.item m.next newItem
      next := m.next+1
      tree := (m.tree.replaceOrInsert (newItem.offset,m.next)).2
      key_eq := by
        intro e he
        rcases OrderedMap.mem_replaceOrInsert.mp he with rfl | ⟨he,-⟩
        · rw [Function.update_self]
        · rw [Function.update_of_ne (m.allocated e he).ne]
          exact m.key_eq e he
      allocated := by
        intro e he
        rcases OrderedMap.mem_replaceOrInsert.mp he with rfl | ⟨he,-⟩
        · exact Nat.lt_succ_self _
        · exact Nat.lt_succ_of_lt (m.allocated e he) }

/-- The item at `p` gets a new length. -/
def setLength (m : ExtentTree V) (p length : ℕ) : ExtentTree V where
  item := Function.update m.item p ⟨⟨(m.item p).offset,length⟩,(m.item p).value⟩
  next := m.next
  tree := m.tree
  key_eq := by
    intro e he
    by_cases hp : e.2 = p
    · subst hp
      rw [Function.update_self]
      exact m.key_eq e he
    · rw [Function.update_of_ne hp]
      exact m.key_eq e he
  allocated := m.allocated

def deleteItem (m : ExtentTree V) (p : ℕ) : Exec (ExtentTree V) :=
  if (m.tree.lookup (m.item p).offset).map Prod.snd = some p then
    .ok {m with
      tree := (m.tree.delete (m.item p).offset).2
      key_eq := fun e he => m.key_eq e (OrderedMap.mem_delete.mp he).1
      allocated := fun e he => m.allocated e (OrderedMap.mem_delete.mp he).1}
  else .error (.panic "item not deleted")

def insertTail (stop : ℕ) (m : ExtentTree V) (p : ℕ) : Exec (ExtentTree V) :=
  if (m.item p).endOf > stop then
    m.insertNew ⟨⟨stop,(m.item p).endOf-stop⟩,(m.item p).value⟩
  else .ok m

/-- The body of the loop of `Remove` over the overlapping items. -/
def removeItem (offset stop : ℕ) (m : ExtentTree V) (p : ℕ) : Exec (ExtentTree V) := do
  let m ← insertTail stop m p
  if (m.item p).offset < offset then .ok (m.setLength p (offset-(m.item p).offset))
  else m.deleteItem p

def remove (m : ExtentTree V) (offset length : ℕ) : Exec (ExtentTree V) :=
  if length = 0 then .ok m
  else (m.getByteRange offset length).foldlM (removeItem offset (u64 (offset+length))) m

def add (m : ExtentTree V) (offset length : ℕ) (value : V) : Exec (ExtentTree V) :=
  if length = 0 then .ok m
  else do
    let m ← m.remove offset length
    m.insertNew ⟨⟨offset,length⟩,value⟩

/-- The extents that the addresses of the tree stand for. -/
def denote (m : ExtentTree V) : ExtentRangeMap V where
  tree := {
    items := m.tree.items.map fun e => m.item e.2
    sorted := by
      rw [List.pairwise_map]
      refine m.tree.sorted.imp_of_mem fun {e e'} he he' hlt => ?_
      rw [m.key_eq e he,m.key_eq e' he']
      exact hlt }

theorem mem_denote {m : ExtentTree V} {y : RangeValue V} :
    y ∈ m.denote.tree ↔ ∃ e ∈ m.tree, m.item e.2 = y :=
  List.mem_map

theorem Live.mem {m : ExtentTree V} {p : ℕ} (hp : m.Live p) : m.item p ∈ m.denote.tree := by
  obtain ⟨k,hk⟩ := hp
  exact mem_denote.mpr ⟨_,hk,rfl⟩

/-- Two items with one start are the same one. -/
theorem eq_of_item {m : ExtentTree V} {e e' : ℕ × ℕ} (he : e ∈ m.tree) (he' : e' ∈ m.tree)
    (h : (m.item e.2).offset = (m.item e'.2).offset) : e = e' := by
  rw [m.key_eq e he,m.key_eq e' he'] at h
  exact OrderedMap.eq_of_key_eq he he' h

theorem denote_ext {m : ExtentTree V} {d : ExtentRangeMap V}
    (h : ∀ y, (∃ e ∈ m.tree, m.item e.2 = y) ↔ y ∈ d.tree) : m.denote = d := by
  have htree : m.denote.tree = d.tree := OrderedMap.ext_mem fun y => mem_denote.trans (h y)
  cases d
  exact congrArg ExtentRangeMap.mk htree

theorem denote_insertNew (m : ExtentTree V) (x : RangeValue V) :
    (m.insertNew x).map denote = m.denote.insertNew x := by
  unfold insertNew
  cases hl : m.tree.lookup x.offset with
  | some e =>
    obtain ⟨he,hk⟩ := OrderedMap.lookup_eq_some.mp hl
    have hold : (m.denote.tree.replaceOrInsert x).1 = some (m.item e.2) :=
      OrderedMap.lookup_eq_some.mpr ⟨mem_denote.mpr ⟨e,he,rfl⟩,(m.key_eq e he).trans hk⟩
    rw [ExtentRangeMap.insertNew]
    rcases hr : m.denote.tree.replaceOrInsert x with ⟨old,tree⟩
    rw [hr] at hold
    cases hold
    rfl
  | none =>
    have hnew : ∀ y ∈ m.denote.tree, y.offset ≠ x.offset := by
      intro y hy
      obtain ⟨e,he,rfl⟩ := mem_denote.mp hy
      rw [m.key_eq e he]
      exact OrderedMap.lookup_eq_none.mp hl e he
    obtain ⟨d,hd,hmem⟩ := ExtentRangeMap.insertNew_spec x hnew
    rw [hd]
    refine congrArg Except.ok (denote_ext fun y => ?_)
    rw [hmem,mem_denote]
    simp only [OrderedMap.mem_replaceOrInsert]
    constructor
    · rintro ⟨e,rfl | ⟨he,-⟩,rfl⟩
      · exact .inl (by rw [Function.update_self])
      · exact .inr ⟨e,he,by rw [Function.update_of_ne (m.allocated e he).ne]⟩
    · rintro (rfl | ⟨e,he,rfl⟩)
      · exact ⟨_,.inl rfl,Function.update_self ..⟩
      · exact ⟨e,.inr ⟨he,OrderedMap.lookup_eq_none.mp hl e he⟩,
          Function.update_of_ne (m.allocated e he).ne ..⟩

theorem denote_setLength {m : ExtentTree V} {p : ℕ} (hp : m.Live p) (n : ℕ) :
    (m.setLength p n).denote = m.denote.truncate (m.item p) n := by
  refine denote_ext fun y => ?_
  rw [ExtentRangeMap.mem_truncate hp.mem,mem_denote]
  obtain ⟨k,hk⟩ := hp
  constructor
  · rintro ⟨e,he,rfl⟩
    by_cases hep : e.2 = p
    · refine .inr ?_
      simp only [setLength,hep,Function.update_self]
    · refine .inl ⟨⟨e,he,?_⟩,fun heq => hep ?_⟩
      · simp only [setLength,Function.update_of_ne hep]
      · simp only [setLength,Function.update_of_ne hep] at heq
        rw [eq_of_item (m := m) he hk (congrArg (fun r => r.offset) heq)]
  · rintro (⟨⟨e,he,rfl⟩,hne⟩ | rfl)
    · have hep : e.2 ≠ p := fun hep => hne (by rw [hep])
      exact ⟨e,he,Function.update_of_ne hep ..⟩
    · exact ⟨(k,p),hk,Function.update_self ..⟩

/-- The address found under the key of an item of the tree is that of the item. -/
theorem lookup_live {m : ExtentTree V} {p : ℕ} (hp : m.Live p) :
    (m.tree.lookup (m.item p).offset).map Prod.snd = some p := by
  obtain ⟨k,hk⟩ := hp
  rw [OrderedMap.lookup_eq_some.mpr ⟨hk,(m.key_eq _ hk).symm⟩]
  rfl

theorem denote_deleteItem [DecidableEq V] {m : ExtentTree V} {p : ℕ} (hp : m.Live p) :
    (m.deleteItem p).map denote = m.denote.deleteItem (m.item p) := by
  obtain ⟨d,hd,hmem⟩ := ExtentRangeMap.deleteItem_spec hp.mem
  rw [deleteItem,if_pos (lookup_live hp),hd]
  refine congrArg Except.ok (denote_ext fun y => ?_)
  rw [hmem,mem_denote]
  obtain ⟨k,hk⟩ := hp
  simp only [OrderedMap.mem_delete]
  constructor
  · rintro ⟨e,⟨he,hne⟩,rfl⟩
    refine ⟨⟨e,he,rfl⟩,fun heq => hne ?_⟩
    rw [← heq]
    exact (m.key_eq e he).symm
  · rintro ⟨⟨e,he,rfl⟩,hne⟩
    refine ⟨e,⟨he,fun heq => hne ?_⟩,rfl⟩
    rw [OrderedMap.eq_of_key_eq he hk (heq.trans (m.key_eq _ hk))]

/-- What `insertNew` leaves alone. -/
theorem insertNew_frame {m m' : ExtentTree V} {x : RangeValue V} (h : m.insertNew x = .ok m')
    {q : ℕ} (hq : m.Live q) : m'.Live q ∧ m'.item q = m.item q := by
  unfold insertNew at h
  cases hl : m.tree.lookup x.offset with
  | some e =>
    rw [hl] at h
    cases h
  | none =>
    simp only [hl] at h
    cases h
    obtain ⟨k,hk⟩ := hq
    refine ⟨⟨k,OrderedMap.mem_replaceOrInsert.mpr
      (.inr ⟨hk,OrderedMap.lookup_eq_none.mp hl _ hk⟩)⟩,?_⟩
    exact Function.update_of_ne (m.allocated _ hk).ne ..

theorem insertTail_frame {m m' : ExtentTree V} {stop p : ℕ} (h : insertTail stop m p = .ok m')
    {q : ℕ} (hq : m.Live q) : m'.Live q ∧ m'.item q = m.item q := by
  unfold insertTail at h
  split_ifs at h
  · exact insertNew_frame h hq
  · cases h
    exact ⟨hq,rfl⟩

/-- A pass of the loop of `Remove` leaves the other items alone. -/
theorem removeItem_frame {m m' : ExtentTree V} {a b p : ℕ} (hp : m.Live p)
    (h : removeItem a b m p = .ok m') {q : ℕ} (hq : m.Live q) (hne : q ≠ p) :
    m'.Live q ∧ m'.item q = m.item q := by
  obtain ⟨m₁,hm₁,h⟩ := exists_bind h
  obtain ⟨hq₁,hitem⟩ := insertTail_frame hm₁ hq
  obtain ⟨hp₁,-⟩ := insertTail_frame hm₁ hp
  rw [← hitem]
  split_ifs at h
  · cases h
    exact ⟨hq₁,Function.update_of_ne hne ..⟩
  · rw [deleteItem,if_pos (lookup_live hp₁)] at h
    cases h
    obtain ⟨k,hk⟩ := hq₁
    obtain ⟨k',hk'⟩ := hp₁
    refine ⟨⟨k,OrderedMap.mem_delete.mpr ⟨hk,fun heq => hne ?_⟩⟩,rfl⟩
    rw [m₁.key_eq _ hk'] at heq
    exact congrArg Prod.snd (OrderedMap.eq_of_key_eq hk hk' heq)

theorem denote_insertTail (m : ExtentTree V) (stop p : ℕ) :
    (insertTail stop m p).map denote = ExtentRangeMap.insertTail stop m.denote (m.item p) := by
  unfold insertTail ExtentRangeMap.insertTail
  split_ifs
  · exact denote_insertNew m _
  · rfl

section Remove

variable [DecidableEq V]

theorem denote_removeItem {m : ExtentTree V} {p : ℕ} (hp : m.Live p) (a b : ℕ) :
    (removeItem a b m p).map denote = ExtentRangeMap.removeItem a b m.denote (m.item p) := by
  have htail := denote_insertTail m b p
  unfold removeItem ExtentRangeMap.removeItem
  cases hm₁ : insertTail b m p with
  | error e =>
    rw [hm₁] at htail
    rw [← htail]
    rfl
  | ok m₁ =>
    rw [hm₁] at htail
    obtain ⟨hp₁,hitem⟩ := insertTail_frame hm₁ hp
    rw [← htail]
    simp only [bind,Except.bind,Except.map,hitem]
    split_ifs
    · exact congrArg Except.ok (hitem ▸ denote_setLength hp₁ _)
    · exact hitem ▸ denote_deleteItem hp₁

/-- The loop of `Remove` over different items of the tree. -/
theorem denote_removeItems (a b : ℕ) (ps : List ℕ) (hnd : ps.Nodup) (m : ExtentTree V)
    (hps : ∀ p ∈ ps, m.Live p) : (ps.foldlM (removeItem a b) m).map denote =
      (ps.map m.item).foldlM (ExtentRangeMap.removeItem a b) m.denote := by
  induction ps generalizing m with
  | nil => rfl
  | cons p ps ih =>
    obtain ⟨hnot,hnd⟩ := List.nodup_cons.mp hnd
    have hp := hps p (by simp)
    have hstep := denote_removeItem hp a b
    rw [List.foldlM_cons,List.map_cons,List.foldlM_cons,← hstep]
    cases hm₁ : removeItem a b m p with
    | error e => rfl
    | ok m₁ =>
      have hframe : ∀ q ∈ ps, m₁.Live q ∧ m₁.item q = m.item q := fun q hq =>
        removeItem_frame hp hm₁ (hps q (by simp [hq])) fun heq => hnot (heq ▸ hq)
      have hrest := ih hnd m₁ fun q hq => (hframe q hq).1
      rw [List.map_congr_left fun q hq => (hframe q hq).2] at hrest
      exact hrest

end Remove

theorem descendLessOrEqual_denote (m : ExtentTree V) (k : ℕ) :
    (m.tree.descendLessOrEqual k).map (fun e => m.item e.2) =
      m.denote.tree.descendLessOrEqual k := by
  unfold OrderedMap.descendLessOrEqual
  rw [List.map_reverse,denote,List.filter_map]
  congr 2
  refine List.filter_congr fun e he => ?_
  simp only [Function.comp_apply,m.key_eq e he]

theorem collectOverlaps_denote (item : ℕ → RangeValue V) (r : Range) (stop : ℕ)
    (l : List (ℕ × ℕ)) : (collectOverlaps item r stop l).map item =
      ExtentRangeMap.collectOverlaps r stop (l.map fun e => item e.2) := by
  induction l with
  | nil => rfl
  | cons e rest ih =>
    rw [collectOverlaps,List.map_cons,ExtentRangeMap.collectOverlaps]
    split_ifs
    · exact ih
    · rw [List.map_cons,ih]
    · rfl

theorem getByteRange_denote (m : ExtentTree V) (start length : ℕ) :
    (m.getByteRange start length).map m.item = m.denote.getByteRange start length := by
  rw [getByteRange,collectOverlaps_denote,descendLessOrEqual_denote,ExtentRangeMap.getByteRange]

theorem collectOverlaps_sublist (item : ℕ → RangeValue V) (r : Range) (stop : ℕ)
    (l : List (ℕ × ℕ)) : (collectOverlaps item r stop l).Sublist (l.map Prod.snd) := by
  induction l with
  | nil => exact List.Sublist.refl _
  | cons e rest ih =>
    rw [collectOverlaps,List.map_cons]
    split_ifs
    · exact ih.cons e.2
    · exact ih.cons_cons e.2
    · exact List.nil_sublist _

theorem nodup_getByteRange (m : ExtentTree V) (start length : ℕ) :
    (m.getByteRange start length).Nodup := by
  refine (collectOverlaps_sublist m.item _ _ _).nodup ?_
  rw [List.Nodup,List.pairwise_map]
  refine (m.tree.descendLessOrEqual_sorted _).imp_of_mem fun {e e'} he he' hlt heq => ?_
  have hkey := m.key_eq e (OrderedMap.mem_descendLessOrEqual.mp he).1
  have hkey' := m.key_eq e' (OrderedMap.mem_descendLessOrEqual.mp he').1
  rw [heq] at hkey
  omega

theorem live_of_getByteRange {m : ExtentTree V} {start length p : ℕ}
    (hp : p ∈ m.getByteRange start length) : m.Live p := by
  obtain ⟨e,he,rfl⟩ := List.mem_map.mp ((collectOverlaps_sublist m.item _ _ _).subset hp)
  exact ⟨e.1,(OrderedMap.mem_descendLessOrEqual.mp he).1⟩

/-- `Remove` on the addresses is `Remove` on the extents, panics included. -/
theorem denote_remove [DecidableEq V] (m : ExtentTree V) (offset length : ℕ) :
    (m.remove offset length).map denote = m.denote.remove offset length := by
  unfold remove ExtentRangeMap.remove
  split_ifs
  · rfl
  · rw [denote_removeItems _ _ _ (m.nodup_getByteRange offset length) m
      fun p hp => live_of_getByteRange hp,getByteRange_denote]

theorem denote_add [DecidableEq V] (m : ExtentTree V) (offset length : ℕ) (value : V) :
    (m.add offset length value).map denote = m.denote.add offset length value := by
  have hremove := denote_remove m offset length
  unfold add ExtentRangeMap.add
  split_ifs
  · rfl
  · rw [← hremove]
    cases m.remove offset length with
    | error e => rfl
    | ok m₁ => exact denote_insertNew m₁ _

theorem floor_denote (m : ExtentTree V) (k : ℕ) :
    m.denote.tree.floor k = (m.tree.floor k).map fun e => m.item e.2 := by
  rw [OrderedMap.floor,← descendLessOrEqual_denote,List.head?_map,OrderedMap.floor]

theorem getWithRange_denote (m : ExtentTree V) (x : ℕ) :
    m.getWithRange x = m.denote.getWithRange x := by
  unfold getWithRange ExtentRangeMap.getWithRange
  rw [floor_denote]
  cases m.tree.floor x <;> rfl

theorem get_denote (m : ExtentTree V) (x : ℕ) : m.get x = m.denote.get x := by
  unfold get ExtentRangeMap.get
  rw [floor_denote]
  cases m.tree.floor x <;> rfl

/-- A call of `Add` or `Remove`. -/
inductive Op (V : Type)
  | add (r : RangeValue V)
  | remove (r : Range)

namespace Op

def range : Op V → Range
  | add r => r.toRange
  | remove r => r

/-- What a key of its range maps to afterwards. -/
def value : Op V → Option V
  | add r => some r.value
  | remove _ => none

end Op

/-- What the last call that covers `x` leaves there. -/
def lastValue (ops : List (Op V)) (x : ℕ) : Option V :=
  (ops.reverse.find? fun op => decide (Has op.range x)).bind Op.value

theorem lastValue_snoc (ops : List (Op V)) (op : Op V) (x : ℕ) :
    lastValue (ops++[op]) x = if Has op.range x then op.value else lastValue ops x := by
  rw [lastValue,List.reverse_append,List.reverse_singleton,List.singleton_append,List.find?_cons]
  by_cases hx : Has op.range x <;> simp [hx,lastValue]

def apply (m : ExtentTree V) : Op V → Exec (ExtentTree V)
  | .add r => m.add r.offset r.length r.value
  | .remove r => m.remove r.offset r.length

section Runs

variable [DecidableEq V]

theorem apply_spec {m : ExtentTree V} (h : m.denote.WF) {op : Op V}
    (hop : op.range.offset+op.range.length < 2^64) : ∃ m', m.apply op = .ok m' ∧ m'.denote.WF ∧
      ∀ x, m'.denote.get x = if Has op.range x then op.value else m.denote.get x := by
  cases op with
  | add r =>
    obtain ⟨d,hd,hwf,hget⟩ := ExtentRangeMap.add_spec h hop r.value
    rw [← denote_add] at hd
    obtain ⟨m',hm',rfl⟩ := exists_of_map hd
    refine ⟨m',hm',hwf,fun x => ?_⟩
    rw [hget]
    rfl
  | remove r =>
    obtain ⟨d,hd,hwf,hget⟩ := ExtentRangeMap.remove_spec h hop
    rw [← denote_remove] at hd
    obtain ⟨m',hm',rfl⟩ := exists_of_map hd
    exact ⟨m',hm',hwf,hget⟩

theorem run_spec [Inhabited V] (ops : List (Op V))
    (hops : ∀ op ∈ ops, op.range.offset+op.range.length < 2^64) :
    ∃ m : ExtentTree V, ops.foldlM apply empty = .ok m ∧ m.denote.WF ∧
      ∀ x, m.denote.get x = lastValue ops x := by
  induction ops using List.reverseRecOn with
  | nil =>
    have hempty : (empty : ExtentTree V).denote = ExtentRangeMap.empty := rfl
    exact ⟨empty,rfl,hempty ▸ ExtentRangeMap.empty_wf,fun x => by
      rw [hempty,ExtentRangeMap.get_empty]
      rfl⟩
  | append_singleton ops op ih =>
    obtain ⟨m,hm,hwf,hget⟩ := ih fun o ho => hops o (by simp [ho])
    obtain ⟨m',hm',hwf',hget'⟩ := apply_spec hwf (hops op (by simp))
    refine ⟨m',?_,hwf',fun x => ?_⟩
    · rw [List.foldlM_append,hm]
      show List.foldlM apply m [op] = _
      rw [List.foldlM_cons,hm']
      rfl
    · rw [hget',lastValue_snoc,hget]

/-- The extents of the tree are non-empty, do not overlap and are stored under their start; a key
maps to what the last call that covers it left there, and so does every key of the range that is
returned with it. No call panics. -/
theorem extents_represent [Inhabited V] (ops : List (Op V))
    (hops : ∀ op ∈ ops, op.range.offset+op.range.length < 2^64) :
    ∃ m : ExtentTree V, ops.foldlM apply empty = .ok m ∧
      (∀ e ∈ m.tree, (m.item e.2).offset = e.1 ∧ 0 < (m.item e.2).length) ∧
      (∀ e ∈ m.tree, ∀ e' ∈ m.tree, ∀ x, Has (m.item e.2).toRange x →
        Has (m.item e'.2).toRange x → e = e') ∧
      (∀ x, m.get x = lastValue ops x) ∧
      (∀ x, (m.getWithRange x).map (fun r => r.value) = lastValue ops x) ∧
      ∀ x r, m.getWithRange x = some r → Has r.toRange x ∧
        ∀ y, Has r.toRange y → m.get y = some r.value := by
  obtain ⟨m,hm,hwf,hget⟩ := run_spec ops hops
  have hmem : ∀ e ∈ m.tree, m.item e.2 ∈ m.denote.tree := fun e he => mem_denote.mpr ⟨e,he,rfl⟩
  refine ⟨m,hm,fun e he => ⟨m.key_eq e he,hwf.nonempty _ (hmem e he)⟩,
    fun e he e' he' x hx hx' => ?_,fun x => by rw [get_denote,hget],fun x => ?_,fun x r hr => ?_⟩
  · exact eq_of_item he he' (congrArg (fun r => r.offset)
      (hwf.eq_of_has (hmem e he) (hmem e' he') hx hx'))
  · rw [getWithRange_denote,← ExtentRangeMap.get_eq_map,hget]
  · rw [getWithRange_denote,ExtentRangeMap.getWithRange_eq_some hwf] at hr
    refine ⟨hr.2,fun y hy => ?_⟩
    rw [get_denote]
    exact (ExtentRangeMap.get_eq_some hwf).mpr ⟨r,hr.1,hy,rfl⟩

end Runs

/-- A hole in the middle of an extent, and a range over the end of what is left. -/
theorem extents_represent_split : ∃ m : ExtentTree ℕ,
    [Op.add ⟨⟨0,10⟩,1⟩,.remove ⟨3,2⟩,.add ⟨⟨8,4⟩,2⟩].foldlM apply empty = .ok m ∧
      m.get 2 = some 1 ∧ m.get 4 = none ∧ m.get 7 = some 1 ∧ m.get 9 = some 2 := by
  obtain ⟨m,hm,-,-,hget,-⟩ := extents_represent
    [Op.add ⟨⟨0,10⟩,1⟩,.remove ⟨3,2⟩,.add ⟨⟨8,4⟩,2⟩] (by decide)
  refine ⟨m,hm,?_,?_,?_,?_⟩ <;> rw [hget] <;> decide

end ExtentTree
end Logblock
