/-
The tokenizer with separators: they are looked up at every position of a string,
and what lies between the occurrences that are used becomes the tokens.
-/
import Mathlib.Data.Char
import Mathlib.Data.List.MinMax
import OnnxRuntime.TernarySearchTree

namespace OnnxRuntime

open List TernarySearchTree

variable {sep : List Char}

structure Match where
  priority : Int
  offset : Nat
  size : Nat

/-- Of matches that overlap neither is less. -/
instance : LT Match := ⟨fun a b => a.offset + a.size ≤ b.offset⟩

instance : DecidableLT Match := fun a b => Nat.decLe (a.offset + a.size) b.offset

/-- A match enters the set, which is kept from the last match to the first.  One
that it overlaps goes if its priority is worse, and else stays instead. -/
def insertMatch (m : Match) : List Match → List Match
  | [] => [m]
  | other :: rest =>
    if other < m then m :: other :: rest
    else if m < other then other :: insertMatch m rest
    else if m.priority < other.priority then insertMatch m rest
    else other :: rest

/-- The loop over the positions of a string. -/
def findMatches (tst : TernarySearchTree Char SearchValue) :
    List Char → Nat → List Match → List Match
  | [], _, used => used
  | c :: rest, offset, used =>
    findMatches tst rest (offset + 1) (match tst.get (c :: rest) with
      | none => used
      | some val => insertMatch ⟨val.priority, offset, val.wLen⟩ used)

/-- The loop over the matches, from an offset on. -/
def rowTokens (mincharnum : Nat) (wstr : List Char) :
    List Match → Nat → List (List Char)
  | [], offset => if offset < wstr.length then [wstr.drop offset] else []
  | m :: rest, offset =>
    let sz := m.offset - offset
    (if 0 < sz ∧ mincharnum ≤ sz then [(wstr.drop offset).take sz] else []) ++
      rowTokens mincharnum wstr rest (m.offset + m.size)

/-- The attributes, with what the constructor enforces.  The separators are in
wide characters. -/
structure Tokenizer where
  mark : Bool
  padValue : String
  mincharnum : Nat
  separators : List (List Char)
  mincharnum_pos : 0 < mincharnum
  nil_notMem : [] ∉ separators
  nodup : separators.Nodup

namespace Tokenizer

/-- The separators with their priorities. -/
def calls (t : Tokenizer) : List (List Char × Int) :=
  t.separators.zipIdx.map fun sep => (sep.1, (sep.2 : Int))

def tst (t : Tokenizer) : TernarySearchTree Char SearchValue := after t.calls

def matchesIn (t : Tokenizer) (wstr : List Char) : List Match :=
  (findMatches t.tst wstr 0 []).reverse

def tokens (t : Tokenizer) (wstr : List Char) : List (List Char) :=
  rowTokens t.mincharnum wstr (t.matchesIn wstr) 0

def tokenizeString (t : Tokenizer) (s : String) :
    Except String (List (List Char)) :=
  if s = "Conversion Error" then
    .error ("Invalid utf8 chars in the input: " ++ s)
  else .ok (t.tokens s.toList)

/-- The markers of a row. -/
def marks (t : Tokenizer) : Nat := if t.mark then 2 else 0

def outputRow (t : Tokenizer) (maxTokens : Nat) (row : List (List Char)) :
    List String :=
  (if t.mark then ["\x02"] else []) ++ row.map String.ofList ++
    (if t.mark then ["\x03"] else []) ++
    replicate (maxTokens - t.marks - row.length) t.padValue

/-- The last dimension of the output, and its strings. -/
def separatorTokenize (t : Tokenizer) (input : List String) :
    Except String (Nat × List String) := do
  let rows ← input.mapM t.tokenizeString
  let maxTokens := (rows.map fun row => row.length + t.marks).foldr max 0
  if maxTokens - t.marks = 0 then
    return (0, [])
  return (maxTokens, rows.flatMap (t.outputRow maxTokens))

end Tokenizer

section Stretches

/-- The stretches before the matches, from an offset on. -/
def gaps : List Match → Nat → List (Nat × Nat)
  | [], _ => []
  | m :: rest, offset => (offset, m.offset) :: gaps rest (m.offset + m.size)

/-- Where the last match ends. -/
def lastEnd : List Match → Nat → Nat
  | [], offset => offset
  | m :: rest, _ => lastEnd rest (m.offset + m.size)

def slice (wstr : List Char) (stretch : Nat × Nat) : List Char :=
  (wstr.drop stretch.1).take (stretch.2 - stretch.1)

/-- All stretches but the last have to be long enough. -/
theorem rowTokens_eq {mincharnum : Nat} (hmin : 0 < mincharnum)
    (wstr : List Char) (used : List Match) (offset : Nat) :
    rowTokens mincharnum wstr used offset =
      (((gaps used offset).filter fun s => mincharnum ≤ s.2 - s.1) ++
        [(lastEnd used offset, wstr.length)].filter fun s => s.1 < s.2).map
          (slice wstr) := by
  induction used generalizing offset with
  | nil =>
    by_cases h : offset < wstr.length <;>
      simp [rowTokens, gaps, lastEnd, slice, h, take_of_length_le]
  | cons m rest ih =>
    by_cases h : mincharnum ≤ m.offset - offset
    · simp [rowTokens, gaps, lastEnd, slice, h, hmin.trans_le h, ih]
    · simp [rowTokens, gaps, lastEnd, h, ih]

theorem snd_mem_of_mem_gaps {used : List Match} {offset : Nat} {s : Nat × Nat}
    (h : s ∈ gaps used offset) : s.2 ∈ used.map Match.offset := by
  induction used generalizing offset with
  | nil => cases h
  | cons m rest ih =>
    obtain _ | ⟨_, h⟩ := h
    · exact mem_cons_self
    · exact mem_cons_of_mem _ (ih h)

end Stretches

section Insertion

variable {m : Match} {used : List Match}

theorem insertMatch_of_forall_lt (h : ∀ other ∈ used, other < m) :
    insertMatch m used = m :: used := by
  cases used with
  | nil => rfl
  | cons last rest => exact if_pos (h last mem_cons_self)

/-- A match behind all others overlaps at most the last.  It is used, and so are
still those that are as good, unless it overlaps one that is as good. -/
theorem insertMatch_cases (h : used.Pairwise fun a b => b < a)
    (hoffset : ∀ other ∈ used, other.offset < m.offset) :
    (∃ rest, insertMatch m used = m :: rest ∧ rest <:+ used ∧
      (∀ other ∈ rest, other < m) ∧
      ∀ other ∈ used, other.priority ≤ m.priority → other ∈ rest) ∨
    insertMatch m used = used ∧
      ∃ other ∈ used, other.priority ≤ m.priority ∧ ¬ other < m := by
  cases used with
  | nil => exact .inl ⟨[], rfl, by simp⟩
  | cons last rest =>
    have hlast := hoffset last mem_cons_self
    have hrest : ∀ other ∈ rest, other < m := fun other hother =>
      le_trans (rel_of_pairwise_cons h hother) hlast.le
    have hnot : ¬ m < last := fun hlt =>
      absurd (le_trans (Nat.le_add_right _ _) hlt) (Nat.not_le.2 hlast)
    rw [insertMatch, insertMatch_of_forall_lt hrest, if_neg hnot]
    split_ifs with hlt hpriority
    · exact .inl ⟨_, rfl, suffix_rfl, by simpa [hlt] using hrest,
        fun _ hother _ => hother⟩
    · refine .inl ⟨rest, rfl, suffix_cons last rest, hrest, ?_⟩
      rintro other (_ | ⟨_, hother⟩) hle
      · exact absurd hpriority (Int.not_lt.2 hle)
      · exact hother
    · exact .inr ⟨rfl, last, mem_cons_self, Int.not_lt.1 hpriority, hlt⟩

end Insertion

namespace Tokenizer

variable {t : Tokenizer} {wstr : List Char} {used : List Match} {offset : Nat}

/-- A match is an occurrence of the separator with its priority. -/
def Occurs (t : Tokenizer) (wstr : List Char) (m : Match) : Prop :=
  ∃ (k : Nat) (sep : List Char), t.separators[k]? = some sep ∧
    m.priority = k ∧ m.size = sep.length ∧ sep <+: wstr.drop m.offset

/-- An occurrence of the first separator is used that begins or goes on at the
position. -/
def FirstUsed (used : List Match) (i : Nat) : Prop :=
  ∃ m ∈ used, m.priority = 0 ∧ m.offset ≤ i ∧ i < m.offset + m.size

/-- What the matches of the first positions satisfy. -/
structure Scanned (t : Tokenizer) (wstr : List Char) (offset : Nat)
    (used : List Match) : Prop where
  disjoint : used.Pairwise fun a b => b < a
  occurs : ∀ m ∈ used, m.offset < offset ∧ t.Occurs wstr m
  first : ∀ sep ∈ t.separators.head?, ∀ i < offset, sep <+: wstr.drop i →
    FirstUsed used i

theorem lt_of_occurs (hsep : sep ∈ t.separators)
    (h : sep <+: wstr.drop offset) : offset < wstr.length := by
  by_contra hle
  rw [drop_eq_nil_of_le (Nat.not_lt.1 hle), prefix_nil] at h
  exact t.nil_notMem (h ▸ hsep)

/-- The lookup at a position finds a separator, the first if it is there. -/
theorem get_tst (t : Tokenizer) (h : wstr.drop offset ≠ []) :
    match t.tst.get (wstr.drop offset) with
    | none => ∀ sep ∈ t.separators.head?, ¬ sep <+: wstr.drop offset
    | some val => t.Occurs wstr ⟨val.priority, offset, val.wLen⟩ ∧
      ∀ sep ∈ t.separators.head?, sep <+: wstr.drop offset →
        val.priority ≤ 0 := by
  have hbest := isBest_get_after t.calls h
  have hfirst : ∀ sep ∈ t.separators.head?, Inserted t.calls sep 0 := by
    intro sep hsep
    obtain ⟨rest, hrest⟩ := head?_eq_some_iff.1 hsep
    refine ⟨?_, by simp [calls, hrest]⟩
    exact ne_of_mem_of_not_mem (mem_of_mem_head? hsep) t.nil_notMem
  rw [tst]
  split
  · rename_i hget
    rw [hget] at hbest
    intro sep hsep hprefix
    exact hbest ⟨sep.length, 0⟩ ⟨sep, hfirst sep hsep, rfl, hprefix⟩
  · rename_i val hget
    rw [hget] at hbest
    obtain ⟨⟨key, ⟨-, hfound⟩, hlen, hprefix⟩, hleast⟩ := hbest
    refine ⟨?_, fun sep hsep hprefix => hleast ⟨sep.length, 0⟩
      ⟨sep, hfirst sep hsep, rfl, hprefix⟩⟩
    obtain ⟨⟨sep, k⟩, hmem, heq⟩ := mem_map.1 (mem_of_find?_eq_some hfound)
    obtain ⟨rfl, hpriority⟩ := Prod.mk.inj heq
    exact ⟨k, sep, mem_zipIdx_iff_getElem?.1 hmem, hpriority.symm, hlen,
      hprefix⟩

theorem Occurs.bounds {m : Match} (h : t.Occurs wstr m) :
    0 ≤ m.priority ∧ 0 < m.size := by
  obtain ⟨k, sep, hget, hk, hsize, -⟩ := h
  rw [hk, hsize]
  exact ⟨Int.natCast_nonneg k, length_pos_of_ne_nil
    (ne_of_mem_of_not_mem (mem_of_getElem? hget) t.nil_notMem)⟩

theorem Scanned.step (h : t.Scanned wstr offset used)
    (hne : wstr.drop offset ≠ []) :
    t.Scanned wstr (offset + 1) (match t.tst.get (wstr.drop offset) with
      | none => used
      | some val => insertMatch ⟨val.priority, offset, val.wLen⟩ used) := by
  have hget := t.get_tst hne
  have hold : ∀ m ∈ used, m.offset < offset + 1 ∧ t.Occurs wstr m :=
    fun m hm => (h.occurs m hm).imp_left Nat.lt_succ_of_lt
  have hfirst {used' : List Match}
      (hkept : ∀ m ∈ used, m.priority = 0 → m ∈ used')
      (hnew : ∀ sep ∈ t.separators.head?, sep <+: wstr.drop offset →
        FirstUsed used' offset) :
      ∀ sep ∈ t.separators.head?, ∀ i < offset + 1, sep <+: wstr.drop i →
        FirstUsed used' i := by
    intro sep hsep i hi hprefix
    obtain hlt | rfl := Nat.lt_succ_iff_lt_or_eq.1 hi
    · obtain ⟨m, hm, hzero, hcovers⟩ := h.first sep hsep i hlt hprefix
      exact ⟨m, hkept m hm hzero, hzero, hcovers⟩
    · exact hnew sep hsep hprefix
  split
  · rename_i hnone
    rw [hnone] at hget
    exact ⟨h.disjoint, hold, hfirst (fun _ hm _ => hm)
      fun sep hsep hprefix => absurd hprefix (hget sep hsep)⟩
  · rename_i val hval
    rw [hval] at hget
    obtain ⟨hoccurs, hleast⟩ := hget
    obtain ⟨rest, heq, hsuffix, hlt, hkept⟩ | ⟨heq, last, hmem, hle, hlt⟩ :=
      @insertMatch_cases ⟨val.priority, offset, val.wLen⟩ used h.disjoint
        fun m hm => (h.occurs m hm).1
    · rw [heq]
      obtain ⟨hnonneg, hsize⟩ := hoccurs.bounds
      exact ⟨pairwise_cons.2 ⟨hlt, h.disjoint.sublist hsuffix.sublist⟩,
        forall_mem_cons.2 ⟨⟨Nat.lt_succ_self offset, hoccurs⟩, fun m hm =>
          hold m (hsuffix.subset hm)⟩, hfirst
        (fun m hm hzero => mem_cons_of_mem _ (hkept m hm (hzero ▸ hnonneg)))
        fun sep hsep hprefix => ⟨_, mem_cons_self,
          (hleast sep hsep hprefix).antisymm hnonneg, le_rfl,
          Nat.lt_add_of_pos_right hsize⟩⟩
    · rw [heq]
      obtain ⟨hoffset, hlast⟩ := h.occurs last hmem
      exact ⟨h.disjoint, hold, hfirst (fun _ hm _ => hm)
        fun sep hsep hprefix => ⟨last, hmem,
          (hle.trans (hleast sep hsep hprefix)).antisymm hlast.bounds.1,
          hoffset.le, Nat.not_le.1 hlt⟩⟩

theorem Scanned.findMatches (h : t.Scanned wstr offset used) {ws : List Char}
    (hws : wstr.drop offset = ws) : ∃ offset', wstr.length ≤ offset' ∧
      t.Scanned wstr offset' (findMatches t.tst ws offset used) := by
  induction ws generalizing offset used with
  | nil => exact ⟨offset, drop_eq_nil_iff.1 hws, h⟩
  | cons c rest ih =>
    have hstep := h.step (hws ▸ cons_ne_nil c rest)
    rw [hws] at hstep
    exact ih hstep (by rw [← drop_drop, hws]; rfl)

/-- The stretches between the matches, before the first and after the last. -/
def stretches (t : Tokenizer) (wstr : List Char) : List (Nat × Nat) :=
  gaps (t.matchesIn wstr) 0 ++ [(lastEnd (t.matchesIn wstr) 0, wstr.length)]

/-- The string is cut at occurrences of separators that do not overlap. -/
structure Splits (t : Tokenizer) (wstr : List Char) : Prop where
  disjoint : (t.matchesIn wstr).Pairwise (· < ·)
  occurs : ∀ m ∈ t.matchesIn wstr, t.Occurs wstr m
  tokens : t.mincharnum = 1 → t.tokens wstr =
    ((t.stretches wstr).filter fun s => s.1 < s.2).map (slice wstr)
  first : ∀ sep ∈ t.separators.head?, ∀ i, sep <+: wstr.drop i →
    FirstUsed (t.matchesIn wstr) i

theorem splits (t : Tokenizer) (wstr : List Char) : t.Splits wstr := by
  have hstart : t.Scanned wstr 0 [] := ⟨.nil, by simp, by simp⟩
  obtain ⟨offset, hlen, h⟩ := hstart.findMatches drop_zero
  refine ⟨pairwise_reverse.2 h.disjoint, fun m hm =>
    (h.occurs m (mem_reverse.1 hm)).2, fun hone => ?_,
    fun sep hsep i hprefix => ?_⟩
  · rw [tokens, rowTokens_eq t.mincharnum_pos, stretches, filter_append, hone]
    simp only [Nat.one_le_iff_ne_zero, Nat.sub_ne_zero_iff_lt]
  · have hi := lt_of_occurs (mem_of_mem_head? hsep) hprefix
    obtain ⟨m, hm, hcovers⟩ := h.first sep hsep i (hi.trans_le hlen) hprefix
    exact ⟨m, mem_reverse.2 hm, hcovers⟩

/-- What a batch becomes: every string is split, and if there is a token, the
output is made of rows of one length, one for each string: the start mark, its
tokens, the end mark and padding. -/
structure SplitsBatch (t : Tokenizer) (input : List String) : Prop where
  splits : ∀ s ∈ input, t.Splits s.toList
  rows : (∀ s ∈ input, s ≠ "Conversion Error") →
    (∃ s ∈ input, t.tokens s.toList ≠ []) → ∃ maxTokens rows,
      t.separatorTokenize input = .ok (maxTokens, rows.flatten) ∧
      Forall₂ (fun s row => row.length = maxTokens ∧ ∃ padding,
        row = (if t.mark then ["\x02"] else []) ++
          (t.tokens s.toList).map String.ofList ++
          (if t.mark then ["\x03"] else []) ++ replicate padding t.padValue)
        input rows

theorem mapM_tokenizeString {input : List String}
    (h : ∀ s ∈ input, s ≠ "Conversion Error") :
    input.mapM t.tokenizeString =
      .ok (input.map fun s => t.tokens s.toList) := by
  induction input with
  | nil => rfl
  | cons s rest ih =>
    obtain ⟨hs, hrest⟩ := forall_mem_cons.1 h
    rw [mapM_cons, tokenizeString, if_neg hs, ih hrest]
    rfl

theorem splitsBatch (t : Tokenizer) (input : List String) :
    t.SplitsBatch input := by
  refine ⟨fun s _ => t.splits s.toList, fun haccepted hsome => ?_⟩
  generalize hmax : ((input.map fun s => t.tokens s.toList).map
    fun row => row.length + t.marks).foldr max 0 = maxTokens
  have hle : ∀ s ∈ input, (t.tokens s.toList).length + t.marks ≤ maxTokens :=
    fun s hs => hmax ▸ le_max_of_le' 0
      (mem_map_of_mem (mem_map_of_mem hs)) le_rfl
  refine ⟨maxTokens, input.map fun s =>
    t.outputRow maxTokens (t.tokens s.toList), ?_, ?_⟩
  · obtain ⟨s, hs, hne⟩ := hsome
    have hpos := length_pos_of_ne_nil hne
    have hs := hle s hs
    rw [separatorTokenize, mapM_tokenizeString haccepted]
    simp only [bind, Except.bind, hmax, flatMap_map]
    exact if_neg (by omega)
  · rw [forall₂_map_right_iff, forall₂_same]
    refine fun s hs => ⟨?_, _, rfl⟩
    have hs := hle s hs
    rw [marks] at hs
    cases hmark : t.mark <;> simp [outputRow, marks, hmark] at hs ⊢ <;> omega

/-- Every token has as many characters as it should, and no stretch that has is
lost. -/
structure RespectsMin (t : Tokenizer) (wstr : List Char) : Prop where
  long : ∀ token ∈ t.tokens wstr, t.mincharnum ≤ token.length
  emitted : ∀ s ∈ t.stretches wstr, t.mincharnum ≤ s.2 - s.1 →
    slice wstr s ∈ t.tokens wstr

end Tokenizer

end OnnxRuntime
