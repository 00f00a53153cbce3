/-
TopK: a bounded heap finds the largest elements of every row of the last axis.
The attribute `axis` is stored and never read, and `k` is cut to 32 bits.
-/
import OnnxRuntime.Status
import Mathlib.Data.List.Induction
import Mathlib.Algebra.GroupWithZero.Nat
import Mathlib.Data.List.Sigma
import Mathlib.Data.List.Sort

namespace OnnxRuntime

open List

namespace TopK

variable {α : Type} [LinearOrder α]

/-- `ValueCmp`: larger values first, then smaller indices. -/
def ValueCmp (lhs rhs : α × Nat) : Prop :=
  lhs.1 > rhs.1 ∨ lhs.1 = rhs.1 ∧ lhs.2 < rhs.2

instance : DecidableRel (ValueCmp (α := α)) := fun _ _ => instDecidableOr

abbrev NotAfter (lhs rhs : α × Nat) : Prop := ¬ ValueCmp rhs lhs

/-- A round of the scan.  The heap is kept in order, with its top at the end. -/
def scan (k : Nat) (heap : List (α × Nat)) (item : α × Nat) :
    Option (List (α × Nat)) :=
  let push := if heap.length < k then some true
    else heap.getLast?.map fun top => decide (item.1 > top.1)
  push.map fun push =>
    let heap := if push then heap.orderedInsert NotAfter item else heap
    if heap.length > k then heap.dropLast else heap

/-- The heap is emptied from the last place of the row to the first. -/
def drain : Nat → List (α × Nat) → Option (List (α × Nat))
  | 0, _ => some []
  | j + 1, heap => do
      let top ← heap.getLast?
      return (← drain j heap.dropLast) ++ [top]

def topRow (k : Nat) (row : List α) : Option (List (α × Nat)) := do
  drain k (← row.zipIdx.foldlM (scan k) [])

def row (last : Nat) (data : Nat → α) (i : Nat) : List α :=
  (List.range last).map fun j => data (i * last + j)

/-- `TopK::Compute` on a tensor of shape `front ++ [last]`: the shape of both
outputs and their rows. -/
def compute (k : Nat) (_axis : Int) (front : List Nat) (last : Nat)
    (data : Nat → α) :
    Except Failure (List Nat × (Nat → Option (List (α × Nat)))) :=
  let k := k % 2 ^ 32
  if last < k then
    .error (.status .fail ("k argment [" ++ toString k ++
      "] should not be greater than last dim [" ++ toString last ++ "]"))
  else .ok (front ++ [k], fun i => topRow k (row last data i))

/-- The first `k` of the sorted row. -/
structure Largest (k : Nat) (row : List α) (pairs : List (α × Nat)) : Prop where
  sorted : ∃ all : List (α × Nat), all.Perm row.zipIdx ∧
    all.Pairwise NotAfter ∧ pairs = all.take k
  distinct : (pairs.map (·.2)).Nodup
  values : ∀ pair ∈ pairs, row[pair.2]? = some pair.1

/-- Every row of the outputs has the largest elements of its row. -/
def ReturnsLargest (k : Nat) (axis : Int) (front : List Nat) (last : Nat)
    (data : Nat → α) : Prop :=
  ∃ rows, compute k axis front last data = .ok (front ++ [k], rows) ∧
    ∀ i < front.prod, ∃ pairs, rows i = some pairs ∧
      Largest k (row last data i) pairs

instance : IsTrans (α × Nat) NotAfter where
  trans a b c hab hbc := by
    simp only [NotAfter, ValueCmp] at *
    grind

instance : Std.Total (NotAfter (α := α)) where
  total a b := by
    simp only [NotAfter, ValueCmp]
    grind

section Scan

variable {k : Nat}

theorem take_orderedInsert {β : Type} {r : β → β → Prop} [DecidableRel r]
    (x : β) (l : List β) (k : Nat) :
    (l.orderedInsert r x).take k = ((l.take k).orderedInsert r x).take k := by
  induction l generalizing k with
  | nil => rw [take_nil]
  | cons y rest ih =>
    cases k with
    | zero => rfl
    | succ k =>
      rw [take_succ_cons, orderedInsert_cons, orderedInsert_cons]
      split
      · cases k <;> simp [take_take]
      · rw [take_succ_cons, take_succ_cons, ih]

theorem orderedInsert_eq_append {β : Type} {r : β → β → Prop} [DecidableRel r]
    {x : β} {l : List β} (h : ∀ y ∈ l, ¬ r x y) :
    l.orderedInsert r x = l ++ [x] := by
  induction l with
  | nil => rfl
  | cons y rest ih =>
    rw [orderedInsert_of_not_le _ _ (h y mem_cons_self),
      ih fun z hz => h z (mem_cons_of_mem y hz)]
    rfl

/-- A pair that is not pushed comes after the whole heap. -/
theorem scan_eq {all : List (α × Nat)} {item : α × Nat} (hk : 0 < k)
    (hall : all.Pairwise NotAfter) (hlast : ∀ pair ∈ all, pair.2 < item.2) :
    scan k (all.take k) item =
      some ((all.orderedInsert NotAfter item).take k) := by
  rw [take_orderedInsert, scan]
  have hsorted : (all.take k).Pairwise NotAfter := hall.take
  have hbefore : ∀ pair ∈ all.take k, pair.2 < item.2 :=
    fun pair hpair => hlast pair (mem_of_mem_take hpair)
  have hlength : (all.take k).length ≤ k := length_take_le k all
  generalize all.take k = heap at hsorted hbefore hlength ⊢
  by_cases hless : heap.length < k
  · have hfits : (heap.orderedInsert NotAfter item).length ≤ k := by
      rwa [orderedInsert_length]
    simp [hless, hfits, take_of_length_le hfits]
  · obtain rfl | ⟨front, top, rfl⟩ := eq_nil_or_concat heap
    · exact absurd hk hless
    · rw [concat_eq_append] at *
      have hfull : (front ++ [top]).length = k := by omega
      rw [if_neg hless, getLast?_concat]
      by_cases hpush : item.1 > top.1
      · have hover := orderedInsert_length NotAfter (front ++ [top]) item
        rw [hfull] at hover
        simp [hpush, dropLast_eq_take, hover]
      · have hafter : ∀ pair ∈ front ++ [top], ¬ NotAfter item pair := by
          intro pair hpair
          have hindex := hbefore pair hpair
          have htop : pair.1 ≥ top.1 := by
            rcases mem_append.mp hpair with hfront | hlast
            · have hnot := (pairwise_append.mp hsorted).2.2 pair hfront top
                mem_cons_self
              simp only [NotAfter, ValueCmp] at hnot
              grind
            · rw [mem_singleton.mp hlast]
          simp only [NotAfter, ValueCmp, not_not]
          grind
        rw [orderedInsert_eq_append hafter, take_append_of_le_length hfull.ge,
          take_of_length_le hlength]
        simp only [hpush, Option.map_some, decide_false]
        simpa using hlength

/-- The heap has the first pairs of those seen so far. -/
theorem foldlM_scan_eq (row : List α) (hk : row ≠ [] → 0 < k) :
    ∃ all : List (α × Nat), all.Perm row.zipIdx ∧ all.Pairwise NotAfter ∧
      row.zipIdx.foldlM (scan k) [] = some (all.take k) := by
  induction row using reverseRecOn with
  | nil => exact ⟨[], .refl _, .nil, by simp⟩
  | append_singleton row value ih =>
    have hpos := hk (by simp)
    obtain ⟨all, hperm, hsorted, hheap⟩ := ih fun _ => hpos
    have hlast : ∀ pair ∈ all, pair.2 < row.length := fun pair hpair =>
      snd_lt_of_mem_zipIdx (hperm.mem_iff.mp hpair)
    have hzip : (row ++ [value]).zipIdx =
        row.zipIdx ++ [(value, row.length)] := by simp [zipIdx_append]
    rw [hzip, foldlM_append, hheap]
    refine ⟨all.orderedInsert NotAfter (value, row.length), ?_,
      hsorted.orderedInsert _ _,
      (bind_pure _).trans (scan_eq hpos hsorted hlast)⟩
    exact (perm_orderedInsert _ _ _).trans
      ((hperm.cons _).trans (perm_append_singleton _ _).symm)

omit [LinearOrder α] in
theorem drain_length (heap : List (α × Nat)) :
    drain heap.length heap = some heap := by
  induction heap using reverseRecOn with
  | nil => rfl
  | append_singleton heap top ih => simp [drain, ih]

theorem topRow_eq {row : List α} (hk : row ≠ [] → 0 < k)
    (hle : k ≤ row.length) :
    ∃ pairs, topRow k row = some pairs ∧ Largest k row pairs := by
  obtain ⟨all, hperm, hsorted, hheap⟩ := foldlM_scan_eq row hk
  have hlength : (all.take k).length = k := by
    rw [length_take, hperm.length_eq, length_zipIdx]
    omega
  refine ⟨all.take k, ?_, ⟨all, hperm, hsorted, rfl⟩, ?_, ?_⟩
  · rw [topRow, hheap]
    exact (congrArg (drain · _) hlength.symm).trans (drain_length _)
  · refine (((take_sublist k all).map _).nodup ?_)
    exact (hperm.map _).nodup_iff.mpr (nodup_zipIdx_map_snd row)
  · intro pair hpair
    have hmem := hperm.mem_iff.mp (mem_of_mem_take hpair)
    exact mk_mem_zipIdx_iff_getElem?.mp hmem

end Scan

variable {k last : Nat} {axis : Int} {front : List Nat} {data : Nat → α}

theorem rows_eq (hk : 0 < k) (hle : k ≤ last) (i : Nat) :
    ∃ pairs, topRow k (row last data i) = some pairs ∧
      Largest k (row last data i) pairs := by
  apply topRow_eq fun _ => hk
  rwa [row, length_map, length_range]

theorem compute_eq_ok (hle : k % 2 ^ 32 ≤ last) :
    compute k axis front last data = .ok (front ++ [k % 2 ^ 32],
      fun i => topRow (k % 2 ^ 32) (row last data i)) :=
  if_neg (not_lt.mpr hle)

/-- The rows of the last axis have their largest elements for every `k` that
the constructor does not cut off. -/
theorem returnsLargest_iff (hk : 0 < k) (hle : k ≤ last) :
    ReturnsLargest k axis front last data ↔ k < 2 ^ 32 := by
  rw [ReturnsLargest, compute_eq_ok ((Nat.mod_le _ _).trans hle)]
  constructor
  · rintro ⟨rows, hrows, -⟩
    have hsame : k % 2 ^ 32 = k := by
      simpa using (Prod.mk.inj (Except.ok.inj hrows)).1
    rw [← hsame]
    exact Nat.mod_lt _ (by decide)
  · intro hfits
    rw [Nat.mod_eq_of_lt hfits]
    exact ⟨_, rfl, fun i _ => rows_eq hk hle i⟩

theorem returnsLargest_two : ReturnsLargest 2 0 [] 3 fun i => i :=
  (returnsLargest_iff (by decide) (by decide)).mpr (by decide)

theorem not_returnsLargest_cut :
    ¬ ReturnsLargest (2 ^ 32 + 1) 0 [] (2 ^ 32 + 1) fun i => i := by
  rw [ReturnsLargest, compute_eq_ok (by decide)]
  rintro ⟨rows, hrows, -⟩
  exact absurd (Prod.mk.inj (Except.ok.inj hrows)).1 (by decide)

section Axis

/-- The `k` largest elements of a line, in decreasing order, with their
positions. -/
def LargestAlong (k extent : Nat) (line : Nat → α)
    (out : Nat → Option (α × Nat)) : Prop :=
  ∃ pairs : Nat → α × Nat,
    (∀ a < k, out a = some (pairs a) ∧ (pairs a).2 < extent ∧
      (pairs a).1 = line (pairs a).2) ∧
    (∀ a < k, ∀ b < k, (pairs a).2 = (pairs b).2 → a = b) ∧
    (∀ a < k, ∀ b ≤ a, (pairs a).1 ≤ (pairs b).1) ∧
    ∀ j < extent, (∀ a < k, (pairs a).2 ≠ j) → ∀ a < k, line j ≤ (pairs a).1

theorem largestAlong_one {line : Nat → α} {out : Nat → Option (α × Nat)}
    (h : out 0 = some (line 0, 0)) : LargestAlong 1 1 line out := by
  refine ⟨fun _ => (line 0, 0), fun a ha => ?_, by omega, by simp, by grind⟩
  rw [Nat.lt_one_iff.mp ha]
  exact ⟨h, one_pos, rfl⟩

/-- The outputs are those of the axis at a position before the last one. -/
structure HonoursAxis (k : Nat) (axis : Int) (front : List Nat) (last : Nat)
    (data : Nat → α) (position : Fin front.length) : Prop where
  error_iff : (∃ failure, compute k axis front last data = .error failure) ↔
    front.get position < k
  content : ∀ shape rows, compute k axis front last data = .ok (shape, rows) →
    shape = front.set position k ++ [last] ∧
    let inner := (front.drop (position + 1)).prod * last
    ∀ o < (front.take position).prod, ∀ i < inner,
      LargestAlong k (front.get position)
        (fun a => data ((o * front.get position + a) * inner + i))
        fun a => let place := (o * k + a) * inner + i
          (rows (place / last)).bind (·[place % last]?)

theorem Largest.first {row : List α} {pairs : List (α × Nat)}
    (h : Largest k row pairs) {x : α} (hx : row[0]? = some x)
    {first : α × Nat} (hfirst : pairs[0]? = some first) :
    x < first.1 ∨ x = first.1 ∧ first.2 = 0 := by
  obtain ⟨all, hperm, hsorted, rfl⟩ := h.sorted
  have hmem : (x, 0) ∈ all :=
    hperm.mem_iff.mpr (mk_mem_zipIdx_iff_getElem?.mpr hx)
  cases all with
  | nil => cases hmem
  | cons head rest =>
    obtain rfl : head = first := by
      cases k with
      | zero => cases hfirst
      | succ k => exact Option.some.inj hfirst
    rcases mem_cons.mp hmem with heq | hrest
    · exact .inr ⟨congrArg Prod.fst heq, (congrArg Prod.snd heq).symm⟩
    · have hnot := (pairwise_cons.mp hsorted).1 _ hrest
      simp only [NotAfter, ValueCmp] at hnot
      grind

/-- A line and its sorted elements, each the first of a line across it. -/
theorem not_crossing {e : Nat} (he : 2 ≤ e) {line : Nat → α}
    {out : Nat → Option (α × Nat)} (h : LargestAlong e e line out)
    (hfirst : ∀ a < e, ∀ first, out a = some first →
      line a < first.1 ∨ line a = first.1 ∧ first.2 = 0) : False := by
  obtain ⟨pairs, hpairs, hdistinct, horder, -⟩ := h
  have hvalue := fun a ha => (hpairs a ha).2
  replace hfirst := fun a ha => hfirst a ha _ (hpairs a ha).1
  have hback : ∀ a < e, a ≤ (pairs a).2 →
      line (pairs a).2 = (pairs (pairs a).2).1 ∧ (pairs (pairs a).2).2 = 0 := by
    intro a ha hle
    have hless := horder _ (hvalue a ha).1 a hle
    rw [(hvalue a ha).2] at hless
    exact (hfirst _ (hvalue a ha).1).resolve_left hless.not_gt
  have hzero : (pairs 0).2 = 0 := by
    obtain ⟨hsame, hindex⟩ := hback 0 (by omega) (Nat.zero_le _)
    have htop := (hvalue _ (hvalue 0 (by omega)).1).2
    rw [hindex, ← hsame, ← (hvalue 0 (by omega)).2] at htop
    exact ((hfirst 0 (by omega)).resolve_left htop.le.not_gt).2
  have hone : (pairs 1).2 ≠ 0 := fun h =>
    absurd (hdistinct 1 (by omega) 0 (by omega) (h.trans hzero.symm)) (by decide)
  have hindex := (hback 1 (by omega) (Nat.pos_of_ne_zero hone)).2
  exact hone (hdistinct _ (hvalue 1 (by omega)).1 0 (by omega)
    (hindex.trans hzero.symm))

/-- A tensor of one element along both axes is right, and one without elements;
else the outputs are those of the last axis. -/
theorem honoursAxis_iff {position : Fin front.length} (hk : 0 < k)
    (_haxis : axis = position ∨ axis + (front.length + 1) = position) :
    HonoursAxis k axis front last data position ↔
      front.get position < k ∧ last < k % 2 ^ 32 ∨
      front.get position = k ∧ last = k % 2 ^ 32 ∧ (k = 1 ∨
        (front.take position).prod *
          ((front.drop (position + 1)).prod * last) = 0) := by
  by_cases hlast : last < k % 2 ^ 32
  · have herror : ∃ failure, compute k axis front last data = .error failure :=
      ⟨_, if_pos hlast⟩
    constructor
    · exact fun h => .inl ⟨h.error_iff.mp herror, hlast⟩
    · rintro (⟨hextent, -⟩ | ⟨-, heq, -⟩)
      · refine ⟨iff_of_true herror hextent, fun shape rows hok => ?_⟩
        obtain ⟨failure, hfailure⟩ := herror
        rw [hfailure] at hok
        cases hok
      · omega
  · have hle := not_lt.mp hlast
    have hok : compute k axis front last data = _ := compute_eq_ok hle
    constructor
    · intro h
      obtain ⟨hshape, hcontent⟩ := h.content _ _ hok
      obtain ⟨hset, hcut⟩ := append_inj' hshape rfl
      have hextent : front.get position = k := by
        simpa using congrArg (·[position.1]?) hset
      rw [singleton_inj] at hcut
      refine .inr ⟨hextent, hcut.symm, or_iff_not_imp_left.mpr fun hone => ?_⟩
      by_contra hne
      obtain ⟨hbefore, hinner⟩ := mul_ne_zero_iff.mp hne
      have hpos := Nat.pos_of_ne_zero (mul_ne_zero_iff.mp hinner).2
      simp only [hextent] at hcontent
      refine not_crossing (by omega) (hcontent 0 (Nat.pos_of_ne_zero hbefore) 0
        (Nat.pos_of_ne_zero hinner)) fun a ha first hout => ?_
      obtain ⟨found, hfound, hlargest⟩ := @rows_eq _ _ (k % 2 ^ 32) last data
        (hcut ▸ hpos) hle (a * (front.drop (position + 1)).prod)
      simp only [zero_mul, zero_add, add_zero, ← mul_assoc,
        Nat.mul_div_cancel _ hpos, Nat.mul_mod_left, hfound] at hout ⊢
      exact hlargest.first (by simp [row, hpos]) hout
    · rintro (⟨-, hless⟩ | ⟨hextent, hcut, hsmall⟩)
      · exact absurd hless hlast
      · refine ⟨⟨?_, fun hless => absurd hless (by omega)⟩, ?_⟩
        · rintro ⟨failure, hfailure⟩
          cases hok.symm.trans hfailure
        · intro shape rows hrows
          obtain ⟨rfl, rfl⟩ := Prod.mk.inj (Except.ok.inj (hok.symm.trans hrows))
          refine ⟨?_, fun o ho i hi => ?_⟩
          · rw [← hcut, ← hextent]
            simp
          · rcases hsmall with rfl | hempty
            · obtain rfl : last = 1 := hcut
              rw [hextent]
              exact largestAlong_one (by
                simp [Nat.mod_one, row, topRow, scan, drain])
            · rcases mul_eq_zero.mp hempty with h | h
              · omega
              · omega

theorem honoursAxis_unit :
    HonoursAxis 1 (-2) [1] 1 (fun i => i) (0 : Fin 1) :=
  (honoursAxis_iff (by decide) (.inr rfl)).mpr (.inr (by decide))

theorem not_honoursAxis_columns :
    ¬ HonoursAxis 1 0 [2] 2 (fun i => i) (0 : Fin 1) := fun h =>
  absurd (h.content _ _ (compute_eq_ok (by decide))).1 (by decide)

end Axis

end TopK

end OnnxRuntime
